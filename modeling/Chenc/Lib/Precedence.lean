import Chenc.Lib.Parking

/-!
# Precedence — who comes in while somebody waits

Part of a run of `Parking`, from a configuration that need not be the first one.

* `Admits` : nobody comes into a set of local states but threads of a given set;
* `Admits.of_delivers` : one step, from what it does to the thread that takes it;
* `Reachable.admits` : a run whose steps all are of this kind;
* `Party` : three threads for schedules.
-/

namespace Parking

open Interleaving (Config)

variable {ι σ Λ A K : Type} [DecidableEq ι] [DecidableEq K] {P : Program σ Λ A K}
variable {ok : Config ι σ Λ → ι → Config ι σ Λ → Prop} {c c' c₀ d : Config ι σ Λ}

/-- Whoever is in `H` in `c'` was there in `c`, or is one of `B`. -/
def Admits (H : Λ → Prop) (B : ι → Prop) (c c' : Config ι σ Λ) : Prop :=
  ∀ u, H (c'.pc u) → H (c.pc u) ∨ B u

variable {H : Λ → Prop} {B : ι → Prop}

omit [DecidableEq ι] in
theorem Admits.refl (c : Config ι σ Λ) : Admits H B c c :=
  fun _ hu => .inl hu

omit [DecidableEq ι] in
theorem Admits.trans (h : Admits H B c c') (h' : Admits H B c' d) : Admits H B c d :=
  fun u hu => (h' u hu).elim (h u) .inr

/-- A step brings in the thread that takes it, if any: waking brings in nobody. -/
theorem Admits.of_delivers {t : ι} {s : σ} {l : Λ} {sig : Signal K}
    (hdel : Delivers P (c.set t s l) sig c')
    (hresume : ∀ l k, P.parked l = some k → H (P.resume l) → H l)
    (hmove : H l → H (c.pc t) ∨ B t) : Admits H B c c' := by
  have hmoved : Admits H B c (c.set t s l) := by
    intro u hu
    by_cases hut : u = t
    · subst hut
      rw [Config.set_pc_self] at hu
      exact hmove hu
    · rw [Config.set_pc_of_ne _ _ _ _ hut] at hu
      exact .inl hu
  have hwoken : Admits H B (c.set t s l) c' := by
    intro u hu
    rcases hdel.pc_cases u with hpc | ⟨⟨k, hk⟩, hpc⟩
    · rw [hpc] at hu
      exact .inl hu
    · rw [hpc] at hu
      exact .inl (hresume _ k hk hu)
  exact hmoved.trans hwoken

/-- The rule for a part of a run: an invariant `I` under which no step lets in anybody else. -/
theorem Reachable.admits {I : Config ι σ Λ → Prop} (hI : I c)
    (hresume : ∀ l k, P.parked l = some k → H (P.resume l) → H l)
    (hnext : ∀ d t a s l sig d', I d → P.step d.shared (d.pc t) a = some (s, l, sig) →
      Delivers P (d.set t s l) sig d' → ok d t d' → I d' ∧ (H l → H (d.pc t) ∨ B t))
    (hrun : Reachable P ok c d) : I d ∧ Admits H B c d := by
  refine hrun.rule (I := fun d => I d ∧ Admits H B c d) ⟨hI, .refl c⟩ ?_
  rintro d t a s l sig d' ⟨hId, hadmits⟩ hstep hdel hok
  rcases hnext d t a s l sig d' hId hstep hdel hok with ⟨hId', hmove⟩
  exact ⟨hId', hadmits.trans (.of_delivers hdel hresume hmove)⟩

/-! ## Schedules -/

/-- One that waits, one that is in before, and one that comes later. -/
inductive Party
  | writer
  | owner
  | late
  deriving DecidableEq

instance : Fintype Party where
  elems := {.writer, .owner, .late}
  complete p := by cases p <;> decide

end Parking
