import Mathlib.Data.Fintype.Basic
import Chenc.Lib.Interleaving

/-!
# Parking — threads that block and are woken

Threads as in `Interleaving` that can also block: a thread whose local state is parked at a key
takes no step until another thread notifies that key.

* `Program` : what one thread does, with the notification it sends;
* `Delivers` : whom a notification wakes; `notify_one` wakes any one of the threads parked there;
* `Reachable` : the configurations of the runs whose steps all meet a condition;
* `Delivers.forall_pc`, `.counts`, `.exists_of_awake` : what a delivery does to statements about all
  threads, about their number, and about some thread;
* `runSchedule` : the run of one given schedule, as a computation.
-/

namespace Parking

open Interleaving (Config Counts)

variable {ι σ Λ A K : Type}

/-- The notification that a step sends. -/
inductive Signal (K : Type)
  | silent
  | one (k : K)
  | all (k : K)

structure Program (σ Λ A K : Type) where
  step : σ → Λ → A → Option (σ × Λ × Signal K)
  /-- The key a thread is blocked at. -/
  parked : Λ → Option K
  /-- Where a thread that is woken goes on. -/
  resume : Λ → Λ

variable [DecidableEq ι] [DecidableEq K] {P : Program σ Λ A K} {c c' c₀ : Config ι σ Λ}

/-- Every thread parked at `k` goes on. -/
def Program.resumeAll (P : Program σ Λ A K) (k : K) (c : Config ι σ Λ) : Config ι σ Λ :=
  ⟨c.shared, fun u => if P.parked (c.pc u) = some k then P.resume (c.pc u) else c.pc u⟩

/-- What a notification may make of a configuration. -/
inductive Delivers (P : Program σ Λ A K) (c : Config ι σ Λ) : Signal K → Config ι σ Λ → Prop
  | silent : Delivers P c .silent c
  | nobody {k : K} : (∀ u, P.parked (c.pc u) ≠ some k) → Delivers P c (.one k) c
  | one {k : K} (u : ι) : P.parked (c.pc u) = some k →
      Delivers P c (.one k) (c.set u c.shared (P.resume (c.pc u)))
  | all {k : K} : Delivers P c (.all k) (P.resumeAll k c)

/-- A step of thread `t`, with the delivery of its notification. -/
def Step (P : Program σ Λ A K) (c : Config ι σ Λ) (t : ι) (c' : Config ι σ Λ) : Prop :=
  ∃ a s l sig, P.step c.shared (c.pc t) a = some (s, l, sig) ∧ Delivers P (c.set t s l) sig c'

inductive Reachable (P : Program σ Λ A K) (ok : Config ι σ Λ → ι → Config ι σ Λ → Prop)
    (c₀ : Config ι σ Λ) : Config ι σ Λ → Prop
  | start : Reachable P ok c₀ c₀
  | next {c c' : Config ι σ Λ} (t : ι) :
      Reachable P ok c₀ c → Step P c t c' → ok c t c' → Reachable P ok c₀ c'

section Runs

variable {ok ok' : Config ι σ Λ → ι → Config ι σ Λ → Prop}

/-- The invariant rule. -/
theorem Reachable.rule {I : Config ι σ Λ → Prop} (hstart : I c₀)
    (hnext : ∀ c t a s l sig c', I c → P.step c.shared (c.pc t) a = some (s, l, sig) →
      Delivers P (c.set t s l) sig c' → ok c t c' → I c')
    (h : Reachable P ok c₀ c) : I c := by
  induction h with
  | start => exact hstart
  | next t _ hstep hok ih =>
      rcases hstep with ⟨a, s, l, sig, hstep, hdel⟩
      exact hnext _ t a s l sig _ ih hstep hdel hok

theorem Reachable.mono (hok : ∀ c t c', ok c t c' → ok' c t c') (h : Reachable P ok c₀ c) :
    Reachable P ok' c₀ c := by
  induction h with
  | start => exact .start
  | next t _ hstep hcond ih => exact .next t ih hstep (hok _ _ _ hcond)

end Runs

/-! ## Deliveries -/

namespace Delivers

variable {sig : Signal K}

theorem shared (h : Delivers P c sig c') : c'.shared = c.shared := by
  cases h <;> rfl

/-- A thread stays where it is, or is woken. -/
theorem pc_cases (h : Delivers P c sig c') (u : ι) :
    c'.pc u = c.pc u ∨ (∃ k, P.parked (c.pc u) = some k) ∧ c'.pc u = P.resume (c.pc u) := by
  cases h with
  | silent => exact .inl rfl
  | nobody _ => exact .inl rfl
  | @one k v hv =>
      by_cases huv : u = v
      · subst huv
        exact .inr ⟨⟨k, hv⟩, Config.set_pc_self _ _ _ _⟩
      · exact .inl (Config.set_pc_of_ne _ _ _ _ huv)
  | @all k =>
      by_cases hu : P.parked (c.pc u) = some k
      · exact .inr ⟨⟨k, hu⟩, if_pos hu⟩
      · exact .inl (if_neg hu)

/-- A thread that is not parked stays where it is. -/
theorem pc_of_awake (h : Delivers P c sig c') {u : ι} (hu : P.parked (c.pc u) = none) :
    c'.pc u = c.pc u := by
  rcases h.pc_cases u with hpc | ⟨⟨k, hk⟩, -⟩
  · exact hpc
  · rw [hu] at hk
    cases hk

theorem forall_pc {Q : Λ → Prop} (h : Delivers P c sig c')
    (hresume : ∀ l k, P.parked l = some k → Q l → Q (P.resume l)) (hQ : ∀ u, Q (c.pc u)) :
    ∀ u, Q (c'.pc u) := by
  intro u
  rcases h.pc_cases u with hpc | ⟨⟨k, hk⟩, hpc⟩
  · rw [hpc]
    exact hQ u
  · rw [hpc]
    exact hresume _ k hk (hQ u)

theorem counts {Q : Λ → Prop} {n : Nat} (h : Delivers P c sig c')
    (hresume : ∀ l k, P.parked l = some k → (Q (P.resume l) ↔ Q l)) (hn : Counts Q n c) :
    Counts Q n c' := by
  rcases hn with ⟨T, hcard, hT⟩
  refine ⟨T, hcard, fun u => ?_⟩
  rcases h.pc_cases u with hpc | ⟨⟨k, hk⟩, hpc⟩
  · rw [hpc, hT]
  · rw [hpc, hresume _ k hk, hT]

/-- A thread that is awake is still there. -/
theorem exists_of_awake {Q : Λ → Prop} (h : Delivers P c sig c')
    (hawake : ∀ l, Q l → P.parked l = none) (hQ : ∃ u, Q (c.pc u)) : ∃ u, Q (c'.pc u) := by
  rcases hQ with ⟨u, hu⟩
  exact ⟨u, by rwa [h.pc_of_awake (hawake _ hu)]⟩

/-- A thread where waking makes no difference is still there. -/
theorem exists_pc {Q : Λ → Prop} (h : Delivers P c sig c')
    (hresume : ∀ l k, P.parked l = some k → Q l → Q (P.resume l)) (hQ : ∃ u, Q (c.pc u)) :
    ∃ u, Q (c'.pc u) := by
  rcases hQ with ⟨u, hu⟩
  refine ⟨u, ?_⟩
  rcases h.pc_cases u with hpc | ⟨⟨k, hk⟩, hpc⟩
  · rwa [hpc]
  · rw [hpc]
    exact hresume _ k hk hu

/-- Whoever is parked afterwards was parked before. -/
theorem parked_before (h : Delivers P c sig c') (hresume : ∀ l k, P.parked l = some k →
    P.parked (P.resume l) = none) {u : ι} {k : K} (hu : P.parked (c'.pc u) = some k) :
    c'.pc u = c.pc u := by
  rcases h.pc_cases u with hpc | ⟨⟨j, hj⟩, hpc⟩
  · exact hpc
  · rw [hpc, hresume _ j hj] at hu
    cases hu

end Delivers

/-! ## Schedules -/

section Schedules

variable [Fintype ι] {ok : Config ι σ Λ → ι → Config ι σ Λ → Prop}

/-- The delivery of a notification, when `wake` says which thread `notify_one` wakes. -/
def deliver (P : Program σ Λ A K) (c : Config ι σ Λ) : Signal K → Option ι → Option (Config ι σ Λ)
  | .silent, none => some c
  | .one k, none => if ∀ u, P.parked (c.pc u) ≠ some k then some c else none
  | .one k, some u =>
      if P.parked (c.pc u) = some k then some (c.set u c.shared (P.resume (c.pc u))) else none
  | .all k, none => some (P.resumeAll k c)
  | _, _ => none

theorem Delivers.of_deliver {sig : Signal K} {wake : Option ι}
    (h : deliver P c sig wake = some c') : Delivers P c sig c' := by
  cases sig with
  | silent =>
      cases wake <;> cases h
      exact .silent
  | one k =>
      cases wake with
      | none =>
          simp only [deliver] at h
          split_ifs at h with hnone
          cases h
          exact .nobody hnone
      | some u =>
          simp only [deliver] at h
          split_ifs at h with hu
          cases h
          exact .one u hu
  | all k =>
      cases wake <;> cases h
      exact .all

/-- The run of a schedule: threads, what they do, and whom they wake. -/
def runSchedule (P : Program σ Λ A K) (ok : Config ι σ Λ → ι → Config ι σ Λ → Prop)
    [∀ c t c', Decidable (ok c t c')] :
    List (ι × A × Option ι) → Config ι σ Λ → Option (Config ι σ Λ)
  | [], c => some c
  | (t, a, wake) :: rest, c =>
      match P.step c.shared (c.pc t) a with
      | some (s, l, sig) =>
          match deliver P (c.set t s l) sig wake with
          | some c' => if ok c t c' then runSchedule P ok rest c' else none
          | none => none
      | none => none

/-- The first step of a schedule, and the rest. -/
theorem runSchedule_cons [∀ c t c', Decidable (ok c t c')] {t : ι} {a : A} {wake : Option ι}
    {rest : List (ι × A × Option ι)} (h : runSchedule P ok ((t, a, wake) :: rest) c = some c') :
    ∃ d, Step P c t d ∧ ok c t d ∧ runSchedule P ok rest d = some c' := by
  rcases hstep : P.step c.shared (c.pc t) a with _ | ⟨s, l, sig⟩
  · simp [runSchedule, hstep] at h
  · rcases hdel : deliver P (c.set t s l) sig wake with _ | d
    · simp [runSchedule, hstep, hdel] at h
    · by_cases hok : ok c t d
      · simp only [runSchedule, hstep, hdel, hok, if_true] at h
        exact ⟨d, ⟨a, s, l, sig, hstep, .of_deliver hdel⟩, hok, h⟩
      · simp [runSchedule, hstep, hdel, hok] at h

theorem Reachable.runSchedule [∀ c t c', Decidable (ok c t c')]
    {sched : List (ι × A × Option ι)} (hc : Reachable P ok c₀ c)
    (h : Parking.runSchedule P ok sched c = some c') : Reachable P ok c₀ c' := by
  induction sched generalizing c with
  | nil =>
      cases h
      exact hc
  | cons entry rest ih =>
      rcases entry with ⟨t, a, wake⟩
      rcases runSchedule_cons h with ⟨d, hstep, hok, hrest⟩
      exact ih (.next t hc hstep hok) hrest

end Schedules

end Parking
