import Mathlib.Tactic

/-!
# CountedLoop — loops over a range of indices

A pass may fail (`none`), and then the loop fails.

* `up`, `down` : the passes change a state; `up_rule`, `down_rule` are their invariant rules;
* `findUp`, `findDown` : a pass may return from the loop; `findUp_rule`, `findDown_rule`.
-/

namespace CountedLoop

variable {σ ρ : Type}

/-- `n` passes, at the indices `i`, `i + 1`, …. -/
def up (pass : Nat → σ → Option σ) : Nat → Nat → σ → Option σ
  | 0, _, s => some s
  | n + 1, i, s => (pass i s).bind (up pass n (i + 1))

/-- `n` passes, at the indices `i + n - 1`, …, `i`. -/
def down (pass : Nat → σ → Option σ) : Nat → Nat → σ → Option σ
  | 0, _, s => some s
  | n + 1, i, s => (pass (i + n) s).bind (down pass n i)

/-- `n` tests, at the indices `i`, `i + 1`, …; the first that has a result ends the loop. -/
def findUp (test : Nat → Option (Option ρ)) : Nat → Nat → Option (Option ρ)
  | 0, _ => some none
  | n + 1, i => (test i).bind fun r =>
      match r with
      | some r => some (some r)
      | none => findUp test n (i + 1)

/-- `n` tests, at the indices `i + n - 1`, …, `i`. -/
def findDown (test : Nat → Option (Option ρ)) : Nat → Nat → Option (Option ρ)
  | 0, _ => some none
  | n + 1, i => (test (i + n)).bind fun r =>
      match r with
      | some r => some (some r)
      | none => findDown test n i

theorem up_rule {f : Nat → σ → Option σ} {I : Nat → σ → Prop} {n i : Nat} {s : σ}
    (hstart : I i s)
    (hpass : ∀ j s, i ≤ j → j < i + n → I j s → ∃ s', f j s = some s' ∧ I (j + 1) s') :
    ∃ s', up f n i s = some s' ∧ I (i + n) s' := by
  induction n generalizing i s with
  | zero => exact ⟨s, rfl, hstart⟩
  | succ n ih =>
      rcases hpass i s le_rfl (by omega) hstart with ⟨s', hs', hI⟩
      rcases ih hI fun j s hij hj => hpass j s (by omega) (by omega) with ⟨s'', hs'', hI'⟩
      refine ⟨s'', by rw [up, hs', Option.bind_some, hs''], ?_⟩
      rwa [Nat.add_right_comm] at hI'

theorem down_rule {f : Nat → σ → Option σ} {I : Nat → σ → Prop} {n i : Nat} {s : σ}
    (hstart : I (i + n) s)
    (hpass : ∀ j s, i ≤ j → j < i + n → I (j + 1) s → ∃ s', f j s = some s' ∧ I j s') :
    ∃ s', down f n i s = some s' ∧ I i s' := by
  induction n generalizing s with
  | zero => exact ⟨s, rfl, hstart⟩
  | succ n ih =>
      rcases hpass (i + n) s (by omega) (by omega) hstart with ⟨s', hs', hI⟩
      rcases ih hI fun j s hij hj => hpass j s hij (by omega) with ⟨s'', hs'', hI'⟩
      exact ⟨s'', by rw [down, hs', Option.bind_some, hs''], hI'⟩

/-- The loop returns a result that meets `Q`, or runs to its end and keeps `I`. -/
theorem findUp_rule {f : Nat → Option (Option ρ)} {I : Nat → Prop} {Q : ρ → Prop} {n i : Nat}
    (hstart : I i)
    (htest : ∀ j, i ≤ j → j < i + n → I j →
      (∃ r, f j = some (some r) ∧ Q r) ∨ (f j = some none ∧ I (j + 1))) :
    (∃ r, findUp f n i = some (some r) ∧ Q r) ∨
      (findUp f n i = some none ∧ I (i + n)) := by
  induction n generalizing i with
  | zero => exact .inr ⟨rfl, hstart⟩
  | succ n ih =>
      rcases htest i le_rfl (by omega) hstart with ⟨r, hr, hQ⟩ | ⟨hnone, hI⟩
      · exact .inl ⟨r, by simp [findUp, hr], hQ⟩
      · have hrest := ih hI fun j hij hj => htest j (by omega) (by omega)
        rw [Nat.add_right_comm, Nat.add_assoc] at hrest
        simpa only [findUp, hnone, Option.bind_some] using hrest

theorem findDown_rule {f : Nat → Option (Option ρ)} {I : Nat → Prop} {Q : ρ → Prop}
    {n i : Nat} (hstart : I (i + n))
    (htest : ∀ j, i ≤ j → j < i + n → I (j + 1) →
      (∃ r, f j = some (some r) ∧ Q r) ∨ (f j = some none ∧ I j)) :
    (∃ r, findDown f n i = some (some r) ∧ Q r) ∨
      (findDown f n i = some none ∧ I i) := by
  induction n with
  | zero => exact .inr ⟨rfl, hstart⟩
  | succ n ih =>
      rcases htest (i + n) (by omega) (by omega) hstart with ⟨r, hr, hQ⟩ | ⟨hnone, hI⟩
      · exact .inl ⟨r, by simp [findDown, hr], hQ⟩
      · have hrest := ih hI fun j hij hj => htest j hij (by omega)
        simpa only [findDown, hnone, Option.bind_some] using hrest

end CountedLoop
