import Mathlib.Algebra.BigOperators.Group.Finset.Basic
import Chenc.Lib.Parking

/-!
# CriticalSection — data that a lock protects

Threads that read and write data of theirs while they hold a lock, by operations that are not
atomic: a thread loads the data, and stores what it has made of it some time later.

* `Guard`, `Guards` : where a thread may read and where it may write, and that a lock keeps writers
  apart from everybody else;
* `Client`, `Turn`, `Run` : the lock, the data, and where each thread is in its section;
* `Intact` : what a thread has loaded is what is there;
* `Run.intact` : a run keeps that, and no store is lost.
-/

namespace CriticalSection

open Interleaving (Config)
open Parking (Program Step Reachable runSchedule runSchedule_cons)

variable {ι σ Λ A K D : Type}

/-- The places of a lock where a thread may read the data, and where it may write them. -/
structure Guard (Λ : Type) where
  reads : Λ → Prop
  writes : Λ → Prop

/-- Where a thread is in its section. -/
inductive Stage (D : Type)
  | outside
  /-- A writer has loaded the data. -/
  | loaded (v : D)
  /-- A writer has stored the data, and has not counted that yet. -/
  | stored
  /-- A reader has loaded the data. -/
  | reading (v : D)

/-- In the middle of a section a thread does not turn to the lock. -/
def Stage.busy : Stage D → Prop
  | .loaded _ | .reading _ => True
  | .outside | .stored => False

/-- The stores of a thread that it has not counted. -/
def Stage.uncounted : Stage D → Nat
  | .stored => 1
  | _ => 0

/-- `rounds` is what the threads have counted. -/
structure Client (ι σ Λ D : Type) where
  lock : Config ι σ Λ
  data : D
  stage : ι → Stage D
  rounds : ι → Nat

namespace Client

/-- The stores of thread `t`. -/
def stores (x : Client ι σ Λ D) (t : ι) : Nat :=
  x.rounds t + (x.stage t).uncounted

def start (c₀ : Config ι σ Λ) (d₀ : D) : Client ι σ Λ D :=
  ⟨c₀, d₀, fun _ => .outside, fun _ => 0⟩

/-- Thread `t` has moved on to stage `g`. -/
def setStage [DecidableEq ι] (x : Client ι σ Λ D) (t : ι) (g : Stage D) : Client ι σ Λ D :=
  { x with stage := Function.update x.stage t g }

variable [DecidableEq ι] (x : Client ι σ Λ D) (t : ι) (g : Stage D)

@[simp] theorem setStage_self : (x.setStage t g).stage t = g := by
  simp [setStage]

theorem setStage_of_ne {u : ι} (h : u ≠ t) : (x.setStage t g).stage u = x.stage u := by
  simp [setStage, h]

end Client

variable [DecidableEq ι] [DecidableEq K] {P : Program σ Λ A K}
  {ok : Config ι σ Λ → ι → Config ι σ Λ → Prop} {c₀ : Config ι σ Λ} {G : Guard Λ} {f : D → D}
  {x x' : Client ι σ Λ D} {d₀ : D} {t : ι}

/-- What thread `t` may do: an operation of the lock, or one of its section. -/
inductive Turn (P : Program σ Λ A K) (ok : Config ι σ Λ → ι → Config ι σ Λ → Prop) (G : Guard Λ)
    (f : D → D) (x : Client ι σ Λ D) (t : ι) : Client ι σ Λ D → Prop
  | lock {c : Config ι σ Λ} : Step P x.lock t c → ok x.lock t c → ¬ (x.stage t).busy →
      Turn P ok G f x t { x with lock := c }
  | load : G.writes (x.lock.pc t) → x.stage t = .outside →
      Turn P ok G f x t (x.setStage t (.loaded x.data))
  | store {v : D} : x.stage t = .loaded v →
      Turn P ok G f x t { x.setStage t .stored with data := f v }
  | count : x.stage t = .stored → ¬ G.writes (x.lock.pc t) →
      Turn P ok G f x t
        { x.setStage t .outside with rounds := Function.update x.rounds t (x.rounds t + 1) }
  | read : G.reads (x.lock.pc t) → x.stage t = .outside →
      Turn P ok G f x t (x.setStage t (.reading x.data))
  | leave {v : D} : x.stage t = .reading v →
      Turn P ok G f x t (x.setStage t .outside)

inductive Run (P : Program σ Λ A K) (ok : Config ι σ Λ → ι → Config ι σ Λ → Prop) (G : Guard Λ)
    (f : D → D) (x₀ : Client ι σ Λ D) : Client ι σ Λ D → Prop
  | start : Run P ok G f x₀ x₀
  | next {x x' : Client ι σ Λ D} (t : ι) :
      Run P ok G f x₀ x → Turn P ok G f x t x' → Run P ok G f x₀ x'

/-- The lock keeps a writer apart from everybody else, and blocks nobody in a section. -/
structure Guards (G : Guard Λ) (P : Program σ Λ A K)
    (ok : Config ι σ Λ → ι → Config ι σ Λ → Prop) (c₀ : Config ι σ Λ) : Prop where
  awake {l : Λ} : G.writes l ∨ G.reads l → P.parked l = none
  alone {c : Config ι σ Λ} {t u : ι} : Reachable P ok c₀ c → G.writes (c.pc t) →
    G.writes (c.pc u) ∨ G.reads (c.pc u) → u = t

/-- What a run looks like to the lock. -/
theorem Run.reachable (h : Run P ok G f (.start c₀ d₀) x) : Reachable P ok c₀ x.lock := by
  induction h with
  | start => exact .start
  | next t _ hturn ih =>
      cases hturn with
      | lock hstep hok _ => exact .next t ih hstep hok
      | load | store | count | read | leave => exact ih

theorem Run.mono {ok' : Config ι σ Λ → ι → Config ι σ Λ → Prop} {x₀ : Client ι σ Λ D}
    (hok : ∀ c t c', ok c t c' → ok' c t c') (h : Run P ok G f x₀ x) : Run P ok' G f x₀ x := by
  induction h with
  | start => exact .start
  | next t _ hturn ih =>
      refine .next t ih ?_
      cases hturn with
      | lock hstep hcond ht => exact .lock hstep (hok _ _ _ hcond) ht
      | load hwrites ht => exact .load hwrites ht
      | store ht => exact .store ht
      | count ht hleft => exact .count ht hleft
      | read hreads ht => exact .read hreads ht
      | leave ht => exact .leave ht

/-- While nobody is in a section the lock runs as it does by itself. -/
theorem Run.schedule [Fintype ι] [∀ c t c', Decidable (ok c t c')] {x₀ : Client ι σ Λ D}
    {sched : List (ι × A × Option ι)} {c : Config ι σ Λ} (h : Run P ok G f x₀ x)
    (hfree : ∀ t, ¬ (x.stage t).busy) (hsched : runSchedule P ok sched x.lock = some c) :
    Run P ok G f x₀ { x with lock := c } := by
  induction sched generalizing x with
  | nil =>
      cases hsched
      exact h
  | cons entry rest ih =>
      rcases entry with ⟨t, a, wake⟩
      rcases runSchedule_cons hsched with ⟨d, hstep, hok, hrest⟩
      exact ih (x := { x with lock := d }) (.next t h (.lock hstep hok (hfree t))) hfree hrest

/-- What a thread in its section has loaded is what is there, and it holds the lock. -/
structure Intact (G : Guard Λ) (x : Client ι σ Λ D) : Prop where
  loaded {t : ι} {v : D} : x.stage t = .loaded v → v = x.data ∧ G.writes (x.lock.pc t)
  reading {t : ι} {v : D} : x.stage t = .reading v → v = x.data ∧ G.reads (x.lock.pc t)

namespace Intact

omit [DecidableEq ι] in
theorem start : Intact G (Client.start c₀ d₀) where
  loaded h := by cases h
  reading h := by cases h

omit [DecidableEq ι] in
theorem guarded (h : Intact G x) {u : ι} (hu : (x.stage u).busy) :
    G.writes (x.lock.pc u) ∨ G.reads (x.lock.pc u) := by
  cases hstage : x.stage u with
  | loaded v => exact .inl (h.loaded hstage).2
  | reading v => exact .inr (h.reading hstage).2
  | outside | stored =>
      rw [hstage] at hu
      exact absurd hu id

/-- A thread moves on to a stage in which it has loaded nothing but what is there. -/
theorem setStage (h : Intact G x) {g : Stage D}
    (hloaded : ∀ v, g = .loaded v → v = x.data ∧ G.writes (x.lock.pc t))
    (hreading : ∀ v, g = .reading v → v = x.data ∧ G.reads (x.lock.pc t)) :
    Intact G (x.setStage t g) := by
  constructor
  · intro u v hu
    by_cases hut : u = t
    · subst hut
      rw [Client.setStage_self] at hu
      exact hloaded v hu
    · rw [Client.setStage_of_ne _ _ _ hut] at hu
      exact h.loaded hu
  · intro u v hu
    by_cases hut : u = t
    · subst hut
      rw [Client.setStage_self] at hu
      exact hreading v hu
    · rw [Client.setStage_of_ne _ _ _ hut] at hu
      exact h.reading hu

/-- A store meets nobody else in a section. -/
theorem store (h : Intact G x) (hguards : Guards G P ok c₀) (hlock : Reachable P ok c₀ x.lock)
    {v w : D} (ht : x.stage t = .loaded v) : Intact G { x.setStage t .stored with data := w } := by
  have hnobody : ∀ u, ¬ ((x.setStage t .stored).stage u).busy := by
    intro u hu
    by_cases hut : u = t
    · subst hut
      rw [Client.setStage_self] at hu
      exact hu
    · rw [Client.setStage_of_ne _ _ _ hut] at hu
      exact hut (hguards.alone hlock (h.loaded ht).2 (h.guarded hu))
  constructor
  · intro u w hu
    refine absurd ?_ (hnobody u)
    rw [show (x.setStage t .stored).stage u = _ from hu]
    exact trivial
  · intro u w hu
    refine absurd ?_ (hnobody u)
    rw [show (x.setStage t .stored).stage u = _ from hu]
    exact trivial

/-- An operation of the lock moves nobody who is in a section. -/
theorem lock (h : Intact G x) (hguards : Guards G P ok c₀) {c : Config ι σ Λ}
    (hstep : Step P x.lock t c) (ht : ¬ (x.stage t).busy) : Intact G { x with lock := c } := by
  rcases hstep with ⟨a, s, l, sig, -, hdel⟩
  have hpc : ∀ u, (x.stage u).busy → c.pc u = x.lock.pc u := by
    intro u hu
    have hut : u ≠ t := by
      rintro rfl
      exact ht hu
    have hset := Config.set_pc_of_ne x.lock t s l hut
    rw [hdel.pc_of_awake (by rw [hset]; exact hguards.awake (h.guarded hu)), hset]
  constructor
  · intro u v hu
    have hbusy : (x.stage u).busy := hu ▸ trivial
    have hloaded := h.loaded hu
    rwa [← hpc u hbusy] at hloaded
  · intro u v hu
    have hbusy : (x.stage u).busy := hu ▸ trivial
    have hreading := h.reading hu
    rwa [← hpc u hbusy] at hreading

theorem turn (h : Intact G x) (hguards : Guards G P ok c₀) (hlock : Reachable P ok c₀ x.lock)
    (hturn : Turn P ok G f x t x') : Intact G x' := by
  cases hturn with
  | lock hstep _ ht => exact h.lock hguards hstep ht
  | store ht => exact h.store hguards hlock ht
  | load hwrites _ =>
      refine h.setStage (fun v hv => ?_) fun v hv => by cases hv
      cases hv
      exact ⟨rfl, hwrites⟩
  | read hreads _ =>
      refine h.setStage (fun v hv => by cases hv) fun v hv => ?_
      cases hv
      exact ⟨rfl, hreads⟩
  | leave _ => exact h.setStage (fun v hv => by cases hv) fun v hv => by cases hv
  | count _ _ =>
      have hmoved := h.setStage (t := t) (g := .outside) (fun v hv => by cases hv) fun v hv => by
        cases hv
      exact ⟨hmoved.loaded, hmoved.reading⟩

end Intact

/-! ## The number of stores -/

section Total

variable [Fintype ι]

/-- All stores so far. -/
def Client.total (x : Client ι σ Λ D) : Nat :=
  ∑ t, x.stores t

omit [DecidableEq ι] in
theorem Client.total_congr (h : ∀ u, x'.stores u = x.stores u) : x'.total = x.total :=
  Finset.sum_congr rfl fun u _ => h u

theorem Client.total_succ (ht : x'.stores t = x.stores t + 1)
    (hothers : ∀ u, u ≠ t → x'.stores u = x.stores u) : x'.total = x.total + 1 := by
  have hrest : ∑ u ∈ Finset.univ.erase t, x'.stores u = ∑ u ∈ Finset.univ.erase t, x.stores u :=
    Finset.sum_congr rfl fun u hu => hothers u (Finset.ne_of_mem_erase hu)
  rw [total, total, ← Finset.add_sum_erase _ _ (Finset.mem_univ t),
    ← Finset.add_sum_erase _ _ (Finset.mem_univ t), ht, hrest]
  omega

omit [Fintype ι] in
theorem Client.stores_setStage {g : Stage D} (hg : g.uncounted = (x.stage t).uncounted) (u : ι) :
    (x.setStage t g).stores u = x.stores u := by
  rw [stores, stores]
  by_cases hut : u = t
  · subst hut
    rw [setStage_self, hg]
    rfl
  · rw [setStage_of_ne _ _ _ hut]
    rfl

/-- A store counts once, and nothing else does. -/
theorem Turn.total (hturn : Turn P ok G f x t x') :
    (x'.total = x.total ∧ x'.data = x.data) ∨
      ∃ v, x.stage t = .loaded v ∧ x'.total = x.total + 1 ∧ x'.data = f v := by
  cases hturn with
  | lock _ _ _ => exact .inl ⟨rfl, rfl⟩
  | load _ ht => exact .inl ⟨Client.total_congr (Client.stores_setStage (by rw [ht]; rfl)), rfl⟩
  | read _ ht => exact .inl ⟨Client.total_congr (Client.stores_setStage (by rw [ht]; rfl)), rfl⟩
  | leave ht => exact .inl ⟨Client.total_congr (Client.stores_setStage (by rw [ht]; rfl)), rfl⟩
  | @store v ht =>
      refine .inr ⟨v, ht, Client.total_succ (t := t) ?_ fun u hut => ?_, rfl⟩
      · rw [Client.stores, Client.stores, Client.setStage_self, ht]
        rfl
      · rw [Client.stores, Client.stores, Client.setStage_of_ne _ _ _ hut]
        rfl
  | count ht _ =>
      refine .inl ⟨Client.total_congr fun u => ?_, rfl⟩
      by_cases hut : u = t
      · subst hut
        simp [Client.stores, ht, Stage.uncounted]
      · simp [Client.stores, Client.setStage_of_ne _ _ _ hut, hut]

/-- **No store is lost.**  What a thread has loaded is what is there until it stores, and the data
are what all stores make of them, one after another. -/
theorem Run.intact (hguards : Guards G P ok c₀) (h : Run P ok G f (.start c₀ d₀) x) :
    Intact G x ∧ x.data = f^[x.total] d₀ := by
  induction h with
  | start =>
      refine ⟨.start, ?_⟩
      have hzero : (Client.start c₀ d₀).total = 0 := Finset.sum_eq_zero fun _ _ => rfl
      rw [hzero]
      rfl
  | next t hrun hturn ih =>
      rcases ih with ⟨hintact, hdata⟩
      refine ⟨hintact.turn hguards hrun.reachable hturn, ?_⟩
      rcases hturn.total with ⟨htotal, hsame⟩ | ⟨v, ht, htotal, hstored⟩
      · rw [hsame, htotal, hdata]
      · rw [hstored, htotal, (hintact.loaded ht).1, hdata, Function.iterate_succ_apply']

end Total

end CriticalSection
