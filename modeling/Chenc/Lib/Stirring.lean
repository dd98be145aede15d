import Chenc.Lib.Parking

/-!
# Stirring — somebody is on the way to those who sleep

A lock on which all threads sleep at one place, and are woken one at a time.

* `Watched` : when a thread is blocked, the lock is closed or somebody stirs;
* `Lawful` : whoever stirs is awake, and whoever is woken stirs;
* `Outcome` : what a step may make of that;
* `Watched.step`, `Watched.closed_of_rest` : the rule of the invariant, and what it says of threads
  at rest.
-/

namespace Stirring

open Interleaving (Config)
open Parking (Signal Program Delivers)

variable {ι σ Λ A : Type}

/-- When the lock is closed, and where a thread is on the way to the lock or to a notification. -/
structure Watch (σ Λ : Type) where
  closed : σ → Prop
  stirs : Λ → Prop

namespace Watch

structure Lawful (W : Watch σ Λ) (P : Program σ Λ A Unit) : Prop where
  awake_of_stirs {l : Λ} : W.stirs l → P.parked l = none
  awake_of_resume {l : Λ} {k : Unit} : P.parked l = some k → P.parked (P.resume l) = none
  stirs_of_resume {l : Λ} {k : Unit} : P.parked l = some k → W.stirs (P.resume l)

def Watched (W : Watch σ Λ) (P : Program σ Λ A Unit) (c : Config ι σ Λ) : Prop :=
  (∃ t, P.parked (c.pc t) ≠ none) → W.closed c.shared ∨ ∃ t, W.stirs (c.pc t)

/-- What becomes of a thread at `l` that moves on to `l'` and leaves the shared state as `s'`. -/
inductive Outcome (W : Watch σ Λ) (P : Program σ Λ A Unit) (c : Config ι σ Λ) (l : Λ) (s' : σ)
    (l' : Λ) (sig : Signal Unit) : Prop
  | stirs : W.stirs l' → Outcome W P c l s' l' sig
  | closed : W.closed s' → Outcome W P c l s' l' sig
  /-- The thread had nothing to do with those who sleep. -/
  | aside : ¬ W.stirs l → P.parked l' = none → (W.closed c.shared → W.closed s') →
      Outcome W P c l s' l' sig
  | nobody : (∀ t, P.parked (c.pc t) = none) → P.parked l' = none → Outcome W P c l s' l' sig
  | notifies : P.parked l' = none → sig = .one () → Outcome W P c l s' l' sig

variable [DecidableEq ι] {W : Watch σ Λ} {P : Program σ Λ A Unit} {c c' : Config ι σ Λ} {t : ι}
  {s' : σ} {l' : Λ} {sig : Signal Unit}

theorem Watched.step (h : W.Watched P c) (hlaw : W.Lawful P)
    (hout : W.Outcome P c (c.pc t) s' l' sig) (hdel : Delivers P (c.set t s' l') sig c') :
    W.Watched P c' := by
  rw [Watched, hdel.shared]
  rintro ⟨u, hu⟩
  have hstay : ∀ v, W.stirs ((c.set t s' l').pc v) → ∃ w, W.stirs (c'.pc w) := fun v hv =>
    hdel.exists_of_awake (fun _ => hlaw.awake_of_stirs) ⟨v, hv⟩
  have hbefore : P.parked ((c.set t s' l').pc u) ≠ none := by
    rcases hk : P.parked (c'.pc u) with _ | k
    · exact absurd hk hu
    · rwa [← hdel.parked_before (fun _ _ => hlaw.awake_of_resume) hk]
  -- A mover that is awake is not the one that is blocked.
  have hother : P.parked l' = none → u ≠ t := by
    rintro hl rfl
    rw [Config.set_pc_self] at hbefore
    exact hbefore hl
  cases hout with
  | stirs hl => exact .inr (hstay t (by rwa [Config.set_pc_self]))
  | closed hclosed => exact .inl hclosed
  | aside ht hl hkeeps =>
      rw [Config.set_pc_of_ne _ _ _ _ (hother hl)] at hbefore
      rcases h ⟨u, hbefore⟩ with hclosed | ⟨v, hv⟩
      · exact .inl (hkeeps hclosed)
      · have hvt : v ≠ t := by
          rintro rfl
          exact ht hv
        exact .inr (hstay v (by rwa [Config.set_pc_of_ne _ _ _ _ hvt]))
  | nobody hnone hl =>
      rw [Config.set_pc_of_ne _ _ _ _ (hother hl)] at hbefore
      exact absurd (hnone u) hbefore
  | notifies _ hsig =>
      -- Somebody is blocked, so somebody is woken.
      subst hsig
      cases hdel with
      | nobody hnone =>
          rcases Option.ne_none_iff_exists'.1 hbefore with ⟨k, hk⟩
          exact absurd hk (hnone u)
      | one v hv =>
          refine .inr ⟨v, ?_⟩
          rw [Config.set_pc_self]
          exact hlaw.stirs_of_resume hv

omit [DecidableEq ι] in
/-- When everybody is idle or blocked, and somebody is blocked, the lock is closed. -/
theorem Watched.closed_of_rest (h : W.Watched P c) (hlaw : W.Lawful P) {idle : Λ}
    (hidle : ¬ W.stirs idle) (hrest : ∀ t, c.pc t = idle ∨ P.parked (c.pc t) ≠ none)
    (hparked : ∃ t, P.parked (c.pc t) ≠ none) : W.closed c.shared := by
  rcases h hparked with hclosed | ⟨t, ht⟩
  · exact hclosed
  · rcases hrest t with hpc | hpark
    · rw [hpc] at ht
      exact absurd ht hidle
    · exact absurd (hlaw.awake_of_stirs ht) hpark

end Watch

end Stirring
