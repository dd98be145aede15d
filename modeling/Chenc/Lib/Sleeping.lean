import Chenc.Lib.Parking

/-!
# Sleeping — who wakes the threads that wait for a lock

A thread that finds a lock closed compares a value it has read with the present one, and blocks
while they are equal; whoever opens the lock changes the value and then notifies.

* `Discipline` : when a lock is closed, and where threads are that sleep, help or notify;
* `Keeps` : what one step has to do for the sleepers;
* `Attended`, `Wakeful` : the lock is closed, or somebody will see to those who wait;
* `Wakeful.step` : a step that keeps the discipline keeps the invariant, with the threads it wakes;
* `Wakeful.closed_of_rest` : when everybody is idle or blocked, the lock is closed.
-/

namespace Sleeping

open Interleaving (Config)
open Parking (Signal Program Delivers)

variable {ι σ Λ A K : Type}

/-- How the threads of a lock sleep; `K` says what they wait for. -/
structure Discipline (σ Λ K : Type) where
  closed : σ → K → Prop
  /-- On the way to a notification, or to a look at the lock. -/
  helps : σ → K → Λ → Prop
  /-- About to block, or blocked. -/
  waits : K → Λ → Prop
  /-- About to block, or blocked, with the value that is there now. -/
  current : σ → K → Λ → Prop
  /-- At the notification. -/
  notifies : K → Λ → Prop

namespace Discipline

/-- What the places of a thread have to do with each other. -/
structure Lawful (D : Discipline σ Λ K) (P : Program σ Λ A K) : Prop where
  waits_of_parked {k : K} {l : Λ} : P.parked l = some k → D.waits k l
  waits_of_current {s : σ} {k : K} {l : Λ} : D.current s k l → D.waits k l
  awake_of_helps {s : σ} {k : K} {l : Λ} : D.helps s k l → P.parked l = none
  awake_of_notifies {k : K} {l : Λ} : D.notifies k l → P.parked l = none
  awake_of_resume {k : K} {l : Λ} : P.parked l = some k → P.parked (P.resume l) = none
  current_of_resume {s : σ} {j k : K} {l : Λ} :
    P.parked l = some j → D.current s k (P.resume l) → D.current s k l

variable [DecidableEq ι] [DecidableEq K] {D : Discipline σ Λ K} {P : Program σ Λ A K}
  {c c' : Config ι σ Λ} {t : ι} {s : σ} {l : Λ} {sig : Signal K} {k : K}

/-- What a step of thread `t` to `l` has to do, that leaves the shared state as `s`. -/
structure Keeps (D : Discipline σ Λ K) (P : Program σ Λ A K) (c : Config ι σ Λ) (t : ι) (s : σ)
    (l : Λ) (sig : Signal K) : Prop where
  /-- Whoever opens the lock or helped helps on, or has changed the value and will notify. -/
  mover {k : K} : D.closed c.shared k ∨ D.helps c.shared k (c.pc t) →
    (D.closed s k ∨ D.helps s k l) ∨
      (D.notifies k l ∧ ∀ u, ¬ D.current s k ((c.set t s l).pc u)) ∨
      ∀ u, ¬ D.waits k (c.pc u)
  other {k : K} {u : ι} : u ≠ t → D.helps c.shared k (c.pc u) → D.helps s k (c.pc u)
  current_mover {k : K} : D.current s k l → D.closed s k ∨ D.current c.shared k (c.pc t)
  current_other {k : K} {u : ι} : u ≠ t → D.current s k (c.pc u) → D.current c.shared k (c.pc u)
  parked_mover {k : K} : P.parked l = some k → D.current c.shared k (c.pc t)
  /-- A thread that is woken by `notify_one` with an old value looks at the lock. -/
  notify {k : K} : D.notifies k (c.pc t) → sig = .all k ∨
    (sig = .one k ∧ ∀ {l : Λ}, P.parked l = some k → ¬ D.current s k l → D.helps s k (P.resume l))

/-- Whoever waits may go on waiting. -/
def Attended (D : Discipline σ Λ K) (k : K) (c : Config ι σ Λ) : Prop :=
  D.closed c.shared k ∨ ∃ t, D.helps c.shared k (c.pc t)

/-- The invariant. -/
structure Wakeful (D : Discipline σ Λ K) (P : Program σ Λ A K) (c : Config ι σ Λ) : Prop where
  current {k : K} {t : ι} : D.current c.shared k (c.pc t) → D.Attended k c
  parked {k : K} {t : ι} : P.parked (c.pc t) = some k → D.Attended k c ∨ ∃ u, D.notifies k (c.pc u)

section Step

variable (hlaw : D.Lawful P) (hkeeps : D.Keeps P c t s l sig)
  (hdel : Delivers P (c.set t s l) sig c')

include hlaw hkeeps hdel

/-- What becomes of those who wait at a lock that is attended. -/
theorem Attended.step (h : D.Attended k c) : D.Attended k c' ∨
    (D.notifies k l ∧ ∀ u, ¬ D.current s k ((c.set t s l).pc u)) ∨ ∀ u, ¬ D.waits k (c.pc u) := by
  have hstay : ∀ u, D.helps s k ((c.set t s l).pc u) → D.Attended k c' := by
    intro u hu
    refine .inr (hdel.exists_of_awake (fun _ => hlaw.awake_of_helps) ⟨u, ?_⟩)
    rwa [hdel.shared]
  have hmover : D.closed c.shared k ∨ D.helps c.shared k (c.pc t) → D.Attended k c' ∨
      (D.notifies k l ∧ ∀ u, ¬ D.current s k ((c.set t s l).pc u)) ∨
      ∀ u, ¬ D.waits k (c.pc u) := by
    intro ht
    rcases hkeeps.mover ht with (hclosed | hhelps) | hrest
    · exact .inl (.inl (by rwa [hdel.shared]))
    · exact .inl (hstay t (by rwa [Config.set_pc_self]))
    · exact .inr hrest
  rcases h with hclosed | ⟨u, hu⟩
  · exact hmover (.inl hclosed)
  · by_cases hut : u = t
    · subst hut
      exact hmover (.inr hu)
    · refine .inl (hstay u ?_)
      rw [Config.set_pc_of_ne _ _ _ _ hut]
      exact hkeeps.other hut hu

namespace Wakeful

variable (h : D.Wakeful P c)

include h

/-- Before the notification is delivered. -/
theorem current_set {u : ι} (hu : D.current s k ((c.set t s l).pc u)) : D.Attended k c' := by
  -- A thread that was there before: the lock was attended, and nothing has come of it.
  have hbefore : ∀ v, D.current c.shared k (c.pc v) → D.Attended k c' := by
    intro v hv
    rcases (h.current hv).step hlaw hkeeps hdel with hafter | ⟨-, hnone⟩ | hnobody
    · exact hafter
    · exact absurd hu (hnone u)
    · exact absurd (hlaw.waits_of_current hv) (hnobody v)
  by_cases hut : u = t
  · subst hut
    rw [Config.set_pc_self] at hu
    rcases hkeeps.current_mover hu with hclosed | hcurrent
    · exact .inl (by rwa [hdel.shared])
    · exact hbefore u hcurrent
  · rw [Config.set_pc_of_ne _ _ _ _ hut] at hu
    exact hbefore u (hkeeps.current_other hut hu)

theorem current_step {u : ι} (hu : D.current c'.shared k (c'.pc u)) : D.Attended k c' := by
  refine h.current_set hlaw hkeeps hdel (u := u) ?_
  rw [hdel.shared] at hu
  rcases hdel.pc_cases u with hpc | ⟨⟨j, hj⟩, hpc⟩
  · rwa [hpc] at hu
  · rw [hpc] at hu
    exact hlaw.current_of_resume hj hu

/-- A notification is not lost on a thread that blocked after the value changed: then the lock is
attended. -/
theorem notify_step (ht : D.notifies k (c.pc t)) {u : ι} (hu : P.parked (c'.pc u) = some k) :
    D.Attended k c' := by
  have hu' : P.parked ((c.set t s l).pc u) = some k := by
    rwa [← hdel.parked_before (fun _ _ => hlaw.awake_of_resume) hu]
  have hcurrent := fun v => h.current_set hlaw hkeeps hdel (k := k) (u := v)
  rcases hkeeps.notify ht with rfl | ⟨rfl, hstale⟩
  · -- Every thread that is blocked is woken.
    cases hdel with
    | all =>
        have hpc : (P.resumeAll k (c.set t s l)).pc u = P.resume ((c.set t s l).pc u) :=
          if_pos hu'
        rw [hpc, hlaw.awake_of_resume hu'] at hu
        cases hu
  · cases hdel with
    | nobody hnone => exact absurd hu' (hnone u)
    | one w hw =>
        -- The thread that is woken has an old value, or was attended anyway.
        by_cases hcurr : D.current s k ((c.set t s l).pc w)
        · exact hcurrent w hcurr
        · refine .inr ⟨w, ?_⟩
          rw [Config.set_pc_self]
          exact hstale hw hcurr

theorem parked_step {u : ι} (hu : P.parked (c'.pc u) = some k) :
    D.Attended k c' ∨ ∃ v, D.notifies k (c'.pc v) := by
  have hstay : ∀ v, D.notifies k ((c.set t s l).pc v) → ∃ w, D.notifies k (c'.pc w) := fun v hv =>
    hdel.exists_of_awake (fun _ => hlaw.awake_of_notifies) ⟨v, hv⟩
  have hstep : D.Attended k c → (∃ v, D.waits k (c.pc v)) →
      D.Attended k c' ∨ ∃ v, D.notifies k (c'.pc v) := by
    rintro hattended ⟨v, hv⟩
    rcases hattended.step hlaw hkeeps hdel with hafter | ⟨hnotifies, -⟩ | hnobody
    · exact .inl hafter
    · exact .inr (hstay t (by rwa [Config.set_pc_self]))
    · exact absurd hv (hnobody v)
  have hu' : P.parked ((c.set t s l).pc u) = some k := by
    rwa [← hdel.parked_before (fun _ _ => hlaw.awake_of_resume) hu]
  by_cases hut : u = t
  · -- The mover blocks with the present value.
    subst hut
    rw [Config.set_pc_self] at hu'
    have hcurrent := hkeeps.parked_mover hu'
    exact hstep (h.current hcurrent) ⟨u, hlaw.waits_of_current hcurrent⟩
  · rw [Config.set_pc_of_ne _ _ _ _ hut] at hu'
    rcases h.parked hu' with hattended | ⟨v, hv⟩
    · exact hstep hattended ⟨u, hlaw.waits_of_parked hu'⟩
    · by_cases hvt : v = t
      · subst hvt
        exact .inl (h.notify_step hlaw hkeeps hdel hv hu)
      · exact .inr (hstay v (by rwa [Config.set_pc_of_ne _ _ _ _ hvt]))

/-- What a step does, with the threads it wakes. -/
theorem step : D.Wakeful P c' where
  current := h.current_step hlaw hkeeps hdel
  parked := h.parked_step hlaw hkeeps hdel

end Wakeful

end Step

omit [DecidableEq ι] [DecidableEq K] in
/-- A thread that is blocked at a lock open to it has somebody awake to see to it. -/
theorem Wakeful.exists_awake (h : D.Wakeful P c) (hlaw : D.Lawful P) {u : ι}
    (hopen : ¬ D.closed c.shared k) (hu : P.parked (c.pc u) = some k) :
    ∃ v, P.parked (c.pc v) = none ∧ (D.helps c.shared k (c.pc v) ∨ D.notifies k (c.pc v)) := by
  rcases h.parked hu with (hclosed | ⟨v, hv⟩) | ⟨v, hv⟩
  · exact absurd hclosed hopen
  · exact ⟨v, hlaw.awake_of_helps hv, .inl hv⟩
  · exact ⟨v, hlaw.awake_of_notifies hv, .inr hv⟩

omit [DecidableEq ι] [DecidableEq K] in
/-- When everybody is idle or blocked, the lock is closed to those who are blocked. -/
theorem Wakeful.closed_of_rest (h : D.Wakeful P c) (hlaw : D.Lawful P) {idle : Λ}
    (hidle : ∀ k, ¬ D.helps c.shared k idle ∧ ¬ D.notifies k idle)
    (hrest : ∀ v, c.pc v = idle ∨ P.parked (c.pc v) ≠ none) {u : ι}
    (hu : P.parked (c.pc u) = some k) : D.closed c.shared k := by
  by_contra hopen
  rcases h.exists_awake hlaw hopen hu with ⟨v, hawake, hbusy⟩
  rcases hrest v with hv | hparked
  · rw [hv] at hbusy
    exact hbusy.elim (hidle k).1 (hidle k).2
  · exact hparked hawake

end Discipline

end Sleeping
