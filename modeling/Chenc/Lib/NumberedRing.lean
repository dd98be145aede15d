import Mathlib.Data.Nat.Bitwise
import Mathlib.Tactic

/-!
# NumberedRing — positions stored in a ring of numbered slots

Position `p` of an unbounded sequence goes into slot `p % N` of a ring of `N` slots.  Each slot
carries a sequence number: `p` while position `p` is being put there, `p + 1` once it is there.

* `Board N slots want` : the ring holds exactly what `want` says, and every other slot is empty
  and numbered for a position of its own;
* `Board.inj` : with at least two slots, two wanted positions never share one;
* `Board.claim`, `Board.write`, `Board.release`, `Board.put` : the writes that keep the board, and
  with them what is wanted.
-/

namespace NumberedRing

/-- A slot: its sequence number, and the value constructed in it, if there is one. -/
structure Slot (α : Type) where
  sequence : Nat
  data : Option α
  deriving DecidableEq

variable {α : Type}

/-- Position `p` of a board is in slot `p % N`; a slot of no wanted position is empty. -/
structure Board (N : Nat) (slots : Nat → Slot α) (want : Nat → Option (Slot α)) : Prop where
  two_le : 2 ≤ N
  numbered {p : Nat} {x : Slot α} : want p = some x → x.sequence = p ∨ x.sequence = p + 1
  holds {p : Nat} {x : Slot α} : want p = some x → slots (p % N) = x
  vacant {i : Nat} : i < N → (∀ p x, want p = some x → p % N ≠ i) →
    (slots i).data = none ∧ (slots i).sequence % N = i

/-- Consecutive positions are in different slots. -/
theorem succ_mod_ne {N : Nat} (hN : 2 ≤ N) (p : Nat) : (p + 1) % N ≠ p % N := by
  intro h
  have hdvd : N ∣ p + 1 - p := (Nat.modEq_iff_dvd' (Nat.le_succ p)).1 h.symm
  rw [Nat.add_sub_cancel_left] at hdvd
  exact absurd (Nat.le_of_dvd Nat.one_pos hdvd) (by omega)

/-- Positions less than `N` apart are in different slots. -/
theorem mod_ne_of_lt {N p q : Nat} (hlt : p < q) (hgap : q < p + N) : p % N ≠ q % N := by
  intro h
  have hdvd : N ∣ q - p := (Nat.modEq_iff_dvd' hlt.le).1 h
  exact absurd (Nat.le_of_dvd (by omega) hdvd) (by omega)

/-- A value of an updated function is the new one at its place, or an old one elsewhere. -/
theorem update_cases {β : Type} {f : Nat → β} {p q : Nat} {v x : β}
    (h : Function.update f p v q = x) : (q = p ∧ v = x) ∨ (q ≠ p ∧ f q = x) := by
  by_cases hq : q = p
  · subst hq
    rw [Function.update_self] at h
    exact .inl ⟨rfl, h⟩
  · rw [Function.update_of_ne hq] at h
    exact .inr ⟨hq, h⟩

namespace Board

variable {N : Nat} {slots : Nat → Slot α} {want : Nat → Option (Slot α)} {p q : Nat}
  {x y : Slot α}

theorem mod_lt (h : Board N slots want) (p : Nat) : p % N < N :=
  Nat.mod_lt p (by have := h.two_le; omega)

/-- A new ring, with every slot numbered for the first position that goes there. -/
theorem fresh (hN : 2 ≤ N) (h : ∀ i, i < N → slots i = ⟨i, none⟩) :
    Board N slots fun _ => none where
  two_le := hN
  numbered := by simp
  holds := by simp
  vacant hi _ := by
    rw [h _ hi]
    exact ⟨rfl, Nat.mod_eq_of_lt hi⟩

/-- Two wanted positions in one slot would have to be numbered alike. -/
theorem inj (h : Board N slots want) (hp : want p = some x) (hq : want q = some y)
    (hslot : p % N = q % N) : p = q := by
  -- One slot has one number, and it is `p` or `p + 1` as well as `q` or `q + 1`.
  have hxy : x = y := by rw [← h.holds hp, ← h.holds hq, hslot]
  have hx := h.numbered hp
  have hy := h.numbered hq
  have hne : q ≠ p + 1 := by
    rintro rfl
    exact succ_mod_ne h.two_le p hslot.symm
  have hne' : p ≠ q + 1 := by
    rintro rfl
    exact succ_mod_ne h.two_le q hslot
  subst hxy
  omega

/-- A slot numbered for `p` holds `p` if `p` is wanted, and nothing if it is not. -/
theorem free_of_sequence (h : Board N slots want) (hp : want p = none)
    (hseq : (slots (p % N)).sequence = p) (hq : want q = some y) : q % N ≠ p % N := by
  intro hslot
  have hnum := h.numbered hq
  rw [← hslot, h.holds hq] at hseq
  rcases hnum with hnum | hnum
  · have hqp : q = p := by omega
    subst hqp
    rw [hp] at hq
    cases hq
  · have hpq : p = q + 1 := by omega
    subst hpq
    exact succ_mod_ne h.two_le q hslot.symm

theorem data_of_sequence (h : Board N slots want) (hp : want p = none)
    (hseq : (slots (p % N)).sequence = p) : (slots (p % N)).data = none :=
  (h.vacant (h.mod_lt p) fun _ _ hq => h.free_of_sequence hp hseq hq).1

/-- A slot numbered as filled with `p` is `p`'s. -/
theorem wanted_of_sequence (h : Board N slots want) (hseq : (slots (p % N)).sequence = p + 1) :
    ∃ x, want p = some x ∧ x.sequence = p + 1 := by
  by_cases hfree : ∀ q y, want q = some y → q % N ≠ p % N
  · -- A vacant slot is numbered for a position of its own, which `p + 1` is not.
    have hmod := (h.vacant (h.mod_lt p) hfree).2
    rw [hseq] at hmod
    exact absurd hmod (succ_mod_ne h.two_le p)
  · push Not at hfree
    rcases hfree with ⟨q, y, hq, hslot⟩
    have hy : y.sequence = p + 1 := by rw [← h.holds hq, hslot, hseq]
    rcases h.numbered hq with hnum | hnum
    · have hqp : q = p + 1 := by omega
      subst hqp
      exact absurd hslot (succ_mod_ne h.two_le p)
    · have hqp : q = p := by omega
      subst hqp
      exact ⟨y, hq, hy⟩

/-! ## Writes -/

/-- Position `p` is to be put into its slot, which waits for it. -/
theorem claim (h : Board N slots want) (hp : want p = none)
    (hseq : (slots (p % N)).sequence = p) :
    Board N slots (Function.update want p (some ⟨p, none⟩)) where
  two_le := h.two_le
  numbered {q y} hq := by
    rcases update_cases hq with ⟨rfl, hnew⟩ | ⟨-, hold⟩
    · cases hnew
      exact .inl rfl
    · exact h.numbered hold
  holds {q y} hq := by
    rcases update_cases hq with ⟨rfl, hnew⟩ | ⟨-, hold⟩
    · cases hnew
      have hdata := h.data_of_sequence hp hseq
      cases hslot : slots (q % N)
      simp_all
    · exact h.holds hold
  vacant {i} hi hfree := by
    refine h.vacant hi fun q y hq => hfree q y ?_
    rwa [Function.update_of_ne]
    rintro rfl
    rw [hp] at hq
    cases hq

/-- The slot of `p` is written, by or on behalf of `p`: no other wanted position uses it. -/
theorem put (h : Board N slots want) (hfree : ∀ q y, want q = some y → q ≠ p → q % N ≠ p % N)
    (hnum : x.sequence = p ∨ x.sequence = p + 1) :
    Board N (Function.update slots (p % N) x) (Function.update want p (some x)) where
  two_le := h.two_le
  numbered {q y} hq := by
    rcases update_cases hq with ⟨rfl, hnew⟩ | ⟨-, hold⟩
    · cases hnew
      exact hnum
    · exact h.numbered hold
  holds {q y} hq := by
    rcases update_cases hq with ⟨rfl, hnew⟩ | ⟨hqp, hold⟩
    · rw [Function.update_self]
      exact Option.some.inj hnew
    · rw [Function.update_of_ne (hfree q y hold hqp)]
      exact h.holds hold
  vacant {i} hi hnone := by
    have hip : i ≠ p % N := fun hip => hnone p x (by rw [Function.update_self]) hip.symm
    rw [Function.update_of_ne hip]
    refine h.vacant hi fun q y hq => ?_
    by_cases hqp : q = p
    · subst hqp
      exact hip.symm
    · exact hnone q y (by rwa [Function.update_of_ne hqp])

/-- A wanted position changes what its slot holds. -/
theorem write (h : Board N slots want) (hp : want p = some x)
    (hnum : y.sequence = p ∨ y.sequence = p + 1) :
    Board N (Function.update slots (p % N) y) (Function.update want p (some y)) :=
  h.put (fun _ _ hq hqp hslot => hqp (h.inj hq hp hslot)) hnum

/-- The slot of `p` is handed on to the position one lap later. -/
theorem release (h : Board N slots want) (hp : want p = some x) :
    Board N (Function.update slots (p % N) ⟨p + N, none⟩) (Function.update want p none) where
  two_le := h.two_le
  numbered {q y} hq := by
    rcases update_cases hq with ⟨-, hnew⟩ | ⟨-, hold⟩
    · cases hnew
    · exact h.numbered hold
  holds {q y} hq := by
    rcases update_cases hq with ⟨-, hnew⟩ | ⟨hqp, hold⟩
    · cases hnew
    · rw [Function.update_of_ne fun hslot => hqp (h.inj hold hp hslot)]
      exact h.holds hold
  vacant {i} hi hnone := by
    by_cases hip : i = p % N
    · -- The released slot: empty, and numbered one lap further.
      subst hip
      simp
    · rw [Function.update_of_ne hip]
      refine h.vacant hi fun q y hq => ?_
      by_cases hqp : q = p
      · subst hqp
        exact Ne.symm hip
      · exact hnone q y (by rwa [Function.update_of_ne hqp])

end Board

end NumberedRing
