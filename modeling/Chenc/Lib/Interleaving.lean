import Mathlib.Data.Finset.Card
import Mathlib.Tactic

/-!
# Interleaving — threads that take turns on a shared state

Each thread has a local state in `Λ` (its program counter and registers), all threads share a
state in `σ`, and `step` says what one thread may do next; the parameter of type `A` resolves
what the thread itself does not decide.

* `Reachable` : the configurations that some interleaving reaches, when every step is taken in a
  shared state that meets `ok`;
* `Trace` : the same, with the steps taken;
* `runSchedule` : the run of one given schedule, as a computation;
* `Counts` : a counter that says how many threads are in a set of local states;
* `Holding` : resources of which each is held by at most one thread.
-/

namespace Interleaving

variable {ι σ Λ A : Type}

/-- The shared state, and for each thread where it is. -/
structure Config (ι σ Λ : Type) where
  shared : σ
  pc : ι → Λ

variable [DecidableEq ι]

/-- Thread `t` has moved to `l` and left the shared state as `s`. -/
def Config.set (c : Config ι σ Λ) (t : ι) (s : σ) (l : Λ) : Config ι σ Λ :=
  ⟨s, Function.update c.pc t l⟩

namespace Config

variable (c : Config ι σ Λ) (t : ι) (s : σ) (l : Λ)

@[simp] theorem set_shared : (c.set t s l).shared = s := rfl

@[simp] theorem set_pc_self : (c.set t s l).pc t = l := by
  simp [set]

theorem set_pc_of_ne {u : ι} (h : u ≠ t) : (c.set t s l).pc u = c.pc u := by
  simp [set, h]

theorem set_self : c.set t c.shared (c.pc t) = c := by
  rw [set, Function.update_eq_self]

theorem set_set (s' : σ) (l' : Λ) : (c.set t s l).set t s' l' = c.set t s' l' := by
  simp only [set, Function.update_idem]

/-- What holds of every thread after the move: of the mover, and of those that stood still. -/
theorem forall_set {P : Λ → Prop} :
    (∀ u, P ((c.set t s l).pc u)) ↔ P l ∧ ∀ u, u ≠ t → P (c.pc u) := by
  constructor
  · intro h
    refine ⟨by simpa using h t, fun u hu => ?_⟩
    have hpc := h u
    rwa [set_pc_of_ne c t s l hu] at hpc
  · rintro ⟨hl, hrest⟩ u
    by_cases hu : u = t
    · subst hu
      simpa using hl
    · rw [set_pc_of_ne c t s l hu]
      exact hrest u hu

end Config

/-! ## Runs -/

section Runs

variable {step : σ → Λ → A → Option (σ × Λ)} {ok : σ → Λ → Prop} {c₀ c : Config ι σ Λ}

inductive Reachable (step : σ → Λ → A → Option (σ × Λ)) (ok : σ → Λ → Prop)
    (c₀ : Config ι σ Λ) : Config ι σ Λ → Prop
  | start : Reachable step ok c₀ c₀
  | next {c : Config ι σ Λ} (t : ι) (a : A) {s : σ} {l : Λ} :
      Reachable step ok c₀ c → ok c.shared (c.pc t) →
      step c.shared (c.pc t) a = some (s, l) → Reachable step ok c₀ (c.set t s l)

/-- The invariant rule. -/
theorem Reachable.rule {I : Config ι σ Λ → Prop} (hstart : I c₀)
    (hnext : ∀ c t a s l, Reachable step ok c₀ c → I c → ok c.shared (c.pc t) →
      step c.shared (c.pc t) a = some (s, l) → I (c.set t s l))
    (h : Reachable step ok c₀ c) : I c := by
  induction h with
  | start => exact hstart
  | next t a hc hok hstep ih => exact hnext _ t a _ _ hc ih hok hstep

/-- A run that meets a stronger condition meets a weaker one. -/
theorem Reachable.mono {ok' : σ → Λ → Prop} (hok : ∀ s l, ok s l → ok' s l)
    (h : Reachable step ok c₀ c) : Reachable step ok' c₀ c := by
  induction h with
  | start => exact .start
  | next t a _ hcond hstep ih => exact .next t a ih (hok _ _ hcond) hstep

theorem Reachable.trans {c' : Config ι σ Λ} (h : Reachable step ok c₀ c)
    (h' : Reachable step ok c c') : Reachable step ok c₀ c' := by
  induction h' with
  | start => exact h
  | next t a _ hok hstep ih => exact .next t a ih hok hstep

/-- A thread of which every step can be one that lowers its rank can go on until it is out. -/
theorem Reachable.exists_out {β : Type} [Preorder β] [WellFoundedLT β] (rank : Λ → β)
    {out : Λ → Prop} {I : Config ι σ Λ → Prop} {t : ι}
    (hnext : ∀ c, I c → ¬ out (c.pc t) → ∃ a s l, ok c.shared (c.pc t) ∧
      step c.shared (c.pc t) a = some (s, l) ∧ rank l < rank (c.pc t) ∧ I (c.set t s l))
    (hI : I c) :
    ∃ s l, Reachable step ok c (c.set t s l) ∧ out l ∧ I (c.set t s l) := by
  induction hrank : rank (c.pc t) using WellFoundedLT.induction generalizing c with
  | _ r ih =>
      by_cases hout : out (c.pc t)
      · have hself := c.set_self t
        exact ⟨c.shared, c.pc t, by rw [hself]; exact .start, hout, by rwa [hself]⟩
      · rcases hnext c hI hout with ⟨a, s, l, hok, hstep, hlt, hI'⟩
        rcases ih (rank l) (hrank ▸ hlt) hI' (by rw [Config.set_pc_self]) with
          ⟨s', l', hrun, hout', hI''⟩
        rw [Config.set_set] at hrun hI''
        exact ⟨s', l', .trans (.next t a .start hok hstep) hrun, hout', hI''⟩

/-- What can be brought about for any one thread, whatever the others do, can be brought about for
all of them. -/
theorem Reachable.exists_all [Fintype ι] {Q : Λ → Prop} {I : Config ι σ Λ → Prop}
    (hone : ∀ c t, I c → ∃ s l, Reachable step ok c (c.set t s l) ∧ Q l ∧ I (c.set t s l))
    (hI : I c) : ∃ c', Reachable step ok c c' ∧ I c' ∧ ∀ t, Q (c'.pc t) := by
  -- One thread after another; those that have had their turn stand still.
  have hsome : ∀ T : Finset ι, ∃ c', Reachable step ok c c' ∧ I c' ∧ ∀ t ∈ T, Q (c'.pc t) := by
    intro T
    induction T using Finset.induction_on with
    | empty => exact ⟨c, .start, hI, by simp⟩
    | insert t T _ ih =>
        rcases ih with ⟨c', hrun, hI', hQ⟩
        rcases hone c' t hI' with ⟨s, l, hrun', hl, hI''⟩
        refine ⟨c'.set t s l, hrun.trans hrun', hI'', fun u hu => ?_⟩
        by_cases hut : u = t
        · subst hut
          rwa [Config.set_pc_self]
        · rw [Config.set_pc_of_ne _ _ _ _ hut]
          exact hQ u ((Finset.mem_insert.1 hu).resolve_left hut)
  rcases hsome Finset.univ with ⟨c', hrun, hI', hQ⟩
  exact ⟨c', hrun, hI', fun t => hQ t (Finset.mem_univ t)⟩

/-- A run with its steps: where the thread that took the step was before it and after it. -/
inductive Trace (step : σ → Λ → A → Option (σ × Λ)) (ok : σ → Λ → Prop)
    (c₀ : Config ι σ Λ) : List (Λ × Λ) → Config ι σ Λ → Prop
  | start : Trace step ok c₀ [] c₀
  | next {tr : List (Λ × Λ)} {c : Config ι σ Λ} (t : ι) (a : A) {s : σ} {l : Λ} :
      Trace step ok c₀ tr c → ok c.shared (c.pc t) →
      step c.shared (c.pc t) a = some (s, l) →
      Trace step ok c₀ (tr ++ [(c.pc t, l)]) (c.set t s l)

theorem Trace.reachable {tr : List (Λ × Λ)} (h : Trace step ok c₀ tr c) :
    Reachable step ok c₀ c := by
  induction h with
  | start => exact .start
  | next t a _ hok hstep ih => exact .next t a ih hok hstep

theorem Reachable.exists_trace (h : Reachable step ok c₀ c) : ∃ tr, Trace step ok c₀ tr c := by
  induction h with
  | start => exact ⟨[], .start⟩
  | next t a _ hok hstep ih =>
      rcases ih with ⟨tr, htr⟩
      exact ⟨_, .next t a htr hok hstep⟩

/-- The run of a schedule; `none` if a thread cannot take the step it is given, or may not. -/
def runSchedule (step : σ → Λ → A → Option (σ × Λ)) (ok : σ → Λ → Prop)
    [∀ s l, Decidable (ok s l)] : List (ι × A) → Config ι σ Λ → Option (Config ι σ Λ)
  | [], c => some c
  | (t, a) :: rest, c =>
      if ok c.shared (c.pc t) then
        match step c.shared (c.pc t) a with
        | some (s, l) => runSchedule step ok rest (c.set t s l)
        | none => none
      else none

theorem Reachable.runSchedule [∀ s l, Decidable (ok s l)] {sched : List (ι × A)}
    {c' : Config ι σ Λ} (hc : Reachable step ok c₀ c)
    (h : Interleaving.runSchedule step ok sched c = some c') : Reachable step ok c₀ c' := by
  induction sched generalizing c with
  | nil =>
      cases h
      exact hc
  | cons ta rest ih =>
      by_cases hok : ok c.shared (c.pc ta.1)
      · rcases hstep : step c.shared (c.pc ta.1) ta.2 with _ | ⟨s, l⟩
        · simp [Interleaving.runSchedule, hok, hstep] at h
        · simp only [Interleaving.runSchedule, hok, hstep, if_true] at h
          exact ih (.next ta.1 ta.2 hc hok hstep) h
      · simp [Interleaving.runSchedule, hok] at h

end Runs

/-! ## Counting threads -/

/-- Exactly `n` threads are in a local state that meets `P`. -/
def Counts (P : Λ → Prop) (n : Nat) (c : Config ι σ Λ) : Prop :=
  ∃ T : Finset ι, T.card = n ∧ ∀ t, t ∈ T ↔ P (c.pc t)

namespace Counts

variable {P : Λ → Prop} {n : Nat} {c : Config ι σ Λ} {t : ι} {s : σ} {l : Λ}

omit [DecidableEq ι] in
theorem zero (h : ∀ t, ¬ P (c.pc t)) : Counts P 0 c :=
  ⟨∅, rfl, by simpa using h⟩

omit [DecidableEq ι] in
theorem not_of_zero (h : Counts P 0 c) (t : ι) : ¬ P (c.pc t) := by
  rcases h with ⟨T, hcard, hT⟩
  rw [← hT t, Finset.card_eq_zero.1 hcard]
  exact Finset.notMem_empty t

omit [DecidableEq ι] in
theorem pos (h : Counts P n c) (ht : P (c.pc t)) : 0 < n := by
  rcases h with ⟨T, rfl, hT⟩
  exact Finset.card_pos.2 ⟨t, (hT t).2 ht⟩

omit [DecidableEq ι] in
theorem exists_of_pos (h : Counts P n c) (hn : 0 < n) : ∃ t, P (c.pc t) := by
  rcases h with ⟨T, rfl, hT⟩
  rcases Finset.card_pos.1 hn with ⟨t, ht⟩
  exact ⟨t, (hT t).1 ht⟩

omit [DecidableEq ι] in
theorem unique (h : Counts P n c) (hn : n ≤ 1) {u : ι} (ht : P (c.pc t)) (hu : P (c.pc u)) :
    t = u := by
  rcases h with ⟨T, rfl, hT⟩
  exact Finset.card_le_one.1 hn t ((hT t).2 ht) u ((hT u).2 hu)

omit [DecidableEq ι] in
/-- A thread that is not counted leaves room for one more. -/
theorem lt_card [Fintype ι] (h : Counts P n c) (ht : ¬ P (c.pc t)) : n < Fintype.card ι := by
  rcases h with ⟨T, rfl, hT⟩
  exact Finset.card_lt_univ_of_notMem fun hmem => ht ((hT t).1 hmem)

theorem same (h : Counts P n c) (hl : P l ↔ P (c.pc t)) : Counts P n (c.set t s l) := by
  rcases h with ⟨T, hcard, hT⟩
  refine ⟨T, hcard, fun u => ?_⟩
  by_cases hu : u = t
  · subst hu
    rw [hT, Config.set_pc_self, hl]
  · rw [hT, Config.set_pc_of_ne _ _ _ _ hu]

theorem enter (h : Counts P n c) (ht : ¬ P (c.pc t)) (hl : P l) :
    Counts P (n + 1) (c.set t s l) := by
  rcases h with ⟨T, hcard, hT⟩
  have hnot : t ∉ T := fun hmem => ht ((hT t).1 hmem)
  refine ⟨insert t T, by rw [Finset.card_insert_of_notMem hnot, hcard], fun u => ?_⟩
  by_cases hu : u = t
  · subst hu
    simpa using hl
  · rw [Finset.mem_insert, hT, Config.set_pc_of_ne _ _ _ _ hu]
    simp [hu]

theorem exit (h : Counts P n c) (ht : P (c.pc t)) (hl : ¬ P l) :
    Counts P (n - 1) (c.set t s l) := by
  rcases h with ⟨T, hcard, hT⟩
  refine ⟨T.erase t, by rw [Finset.card_erase_of_mem ((hT t).2 ht), hcard], fun u => ?_⟩
  by_cases hu : u = t
  · subst hu
    simpa using hl
  · rw [Finset.mem_erase, hT, Config.set_pc_of_ne _ _ _ _ hu]
    simp [hu]

end Counts

/-- A step takes its thread into the set that is counted, or out of it, or does neither, and the
counter follows. -/
inductive Tally : Prop → Nat → Prop → Nat → Prop
  | enter {p p' : Prop} {n : Nat} : ¬ p → p' → Tally p n p' (n + 1)
  | leave {p p' : Prop} {n : Nat} : p → ¬ p' → Tally p n p' (n - 1)
  | stay {p p' : Prop} {n : Nat} : (p' ↔ p) → Tally p n p' n

theorem Tally.near {p p' : Prop} {n n' : Nat} (h : Tally p n p' n') : n' ≤ n + 1 ∧ n ≤ n' + 1 := by
  cases h <;> omega

theorem Counts.tally {P : Λ → Prop} {n n' : Nat} {c : Config ι σ Λ} {t : ι} {s : σ} {l : Λ}
    (h : Counts P n c) (htally : Tally (P (c.pc t)) n (P l) n') : Counts P n' (c.set t s l) := by
  generalize hp : P (c.pc t) = p, hq : P l = q at htally
  cases htally with
  | enter ht hl => exact h.enter (hp ▸ ht) (hq ▸ hl)
  | leave ht hl => exact h.exit (hp ▸ ht) (hq ▸ hl)
  | stay hl => exact h.same (by rw [hp, hq, hl])

/-! ## Holding resources -/

/-- `held` lists what the threads hold, and no resource is held by two. -/
structure Holding {K V : Type} (claim : Λ → Option (K × V)) (held : K → Option V)
    (c : Config ι σ Λ) : Prop where
  held_iff {k : K} {x : V} : held k = some x ↔ ∃ t, claim (c.pc t) = some (k, x)
  unique {t u : ι} {k : K} {x y : V} :
    claim (c.pc t) = some (k, x) → claim (c.pc u) = some (k, y) → t = u

namespace Holding

variable {K V : Type} [DecidableEq K] {claim : Λ → Option (K × V)} {held : K → Option V}
  {c : Config ι σ Λ} {t : ι} {s : σ} {l : Λ} {k : K} {x y : V}

omit [DecidableEq ι] [DecidableEq K] in
theorem held_of_claim (h : Holding claim held c) (ht : claim (c.pc t) = some (k, x)) :
    held k = some x :=
  h.held_iff.2 ⟨t, ht⟩

omit [DecidableEq ι] [DecidableEq K] in
theorem start (h : ∀ t, claim (c.pc t) = none) : Holding claim (fun _ => none) c where
  held_iff := by simp [h]
  unique := by simp [h]

omit [DecidableEq K] in
/-- A step that changes nothing about what its thread holds. -/
theorem keep (h : Holding claim held c) (hl : claim l = claim (c.pc t)) :
    Holding claim held (c.set t s l) := by
  have hclaim : ∀ u, claim ((c.set t s l).pc u) = claim (c.pc u) := by
    intro u
    by_cases hu : u = t
    · subst hu
      rw [Config.set_pc_self, hl]
    · rw [Config.set_pc_of_ne _ _ _ _ hu]
  constructor
  · intro k x
    simp only [hclaim]
    exact h.held_iff
  · intro u v k x y
    rw [hclaim, hclaim]
    exact h.unique

/-- A step of the only thread that has to do with resource `k`: what it holds of it after the
step is `v`. -/
theorem move {v : Option V} (h : Holding claim held c)
    (hmine : ∀ j x, claim (c.pc t) = some (j, x) → j = k)
    (hothers : ∀ u y, u ≠ t → claim (c.pc u) ≠ some (k, y))
    (hl : claim l = v.map fun x => (k, x)) :
    Holding claim (Function.update held k v) (c.set t s l) := by
  have hself : ∀ j x, claim l = some (j, x) ↔ j = k ∧ v = some x := by
    intro j x
    rw [hl, Option.map_eq_some_iff]
    constructor
    · rintro ⟨y, hv, hjx⟩
      cases hjx
      exact ⟨rfl, hv⟩
    · rintro ⟨rfl, hv⟩
      exact ⟨x, hv, rfl⟩
  constructor
  · -- Resource `k` is with `t` or with nobody; the others are where they were.
    intro j y
    by_cases hj : j = k
    · subst hj
      rw [Function.update_self]
      constructor
      · intro hv
        exact ⟨t, by rw [Config.set_pc_self]; exact (hself j y).2 ⟨rfl, hv⟩⟩
      · rintro ⟨u, hu⟩
        by_cases hut : u = t
        · subst hut
          rw [Config.set_pc_self] at hu
          exact ((hself j y).1 hu).2
        · rw [Config.set_pc_of_ne _ _ _ _ hut] at hu
          exact absurd hu (hothers u y hut)
    · rw [Function.update_of_ne hj, h.held_iff]
      constructor
      · rintro ⟨u, hu⟩
        have hut : u ≠ t := by
          rintro rfl
          exact hj (hmine j y hu)
        exact ⟨u, by rwa [Config.set_pc_of_ne _ _ _ _ hut]⟩
      · rintro ⟨u, hu⟩
        by_cases hut : u = t
        · subst hut
          rw [Config.set_pc_self] at hu
          exact absurd ((hself j y).1 hu).1 hj
        · exact ⟨u, by rwa [Config.set_pc_of_ne _ _ _ _ hut] at hu⟩
  · -- Two holders of one resource: the mover has only `k`, of which no other thread holds any.
    intro u w j y z hu hw
    by_cases hut : u = t <;> by_cases hwt : w = t
    · rw [hut, hwt]
    · subst hut
      rw [Config.set_pc_self] at hu
      rw [Config.set_pc_of_ne _ _ _ _ hwt, ((hself j y).1 hu).1] at hw
      exact absurd hw (hothers w z hwt)
    · subst hwt
      rw [Config.set_pc_self] at hw
      rw [Config.set_pc_of_ne _ _ _ _ hut, ((hself j z).1 hw).1] at hu
      exact absurd hu (hothers u y hut)
    · rw [Config.set_pc_of_ne _ _ _ _ hut] at hu
      rw [Config.set_pc_of_ne _ _ _ _ hwt] at hw
      exact h.unique hu hw

/-- A thread that holds nothing takes what nobody holds. -/
theorem take (h : Holding claim held c) (hfree : claim (c.pc t) = none) (hk : held k = none)
    (hl : claim l = some (k, x)) :
    Holding claim (Function.update held k (some x)) (c.set t s l) := by
  refine h.move (by simp [hfree]) (fun u y _ hu => ?_) hl
  rw [h.held_of_claim hu] at hk
  cases hk

/-- A thread goes on with what it holds, or gives it up when `v` is `none`. -/
theorem change {v : Option V} (h : Holding claim held c) (ht : claim (c.pc t) = some (k, x))
    (hl : claim l = v.map fun y => (k, y)) :
    Holding claim (Function.update held k v) (c.set t s l) := by
  refine h.move (fun j z hj => ?_) (fun u y hut hu => hut (h.unique hu ht)) hl
  rw [ht] at hj
  cases hj
  rfl

end Holding

end Interleaving
