import Chenc.Struct.ArrayNumber

/-!
# ArraySum — what the addition kernel computes

* `AddInv` : the low blocks of the result and the carry make up the sum of the low blocks;
* `addTo_spec` : the kernel adds the blocks that the operands and the result have in common;
* `addTo_correct_iff` : the operands for which this is their sum;
* `sum_iff` : the same for the operators.
-/

namespace Chenc
namespace Struct
namespace ArrayUint

open CountedLoop (up up_rule)

variable {w v A B R : Width}

/-! ## The common blocks -/

/-- The low and the high half of a sum of two blocks and a carry. -/
theorem wide_sum (x y c : U64) :
    ((x.setWidth 128 + y.setWidth 128 + c.setWidth 128 : U128).setWidth 64).toNat +
      2 ^ 64 * (((x.setWidth 128 + y.setWidth 128 + c.setWidth 128 : U128) >>> 64).setWidth
        64).toNat = x.toNat + y.toNat + c.toNat := by
  have hx := x.isLt
  have hy := y.isLt
  have hc := c.isLt
  have hsum : (x.setWidth 128 + y.setWidth 128 + c.setWidth 128 : U128).toNat =
      x.toNat + y.toNat + c.toNat := by
    simp only [BitVec.toNat_add, BitVec.toNat_setWidth]
    omega
  simp only [BitVec.toNat_setWidth, Bits.toNat_ushiftRight, hsum]
  omega

/-- Before the pass over block `i`: the sum of the blocks below it, in the result and the carry;
the blocks from `i` on as they were. -/
structure AddInv (a b : Nat) (out₀ : ArrayUint R) (i : Nat) (st : ArrayUint R × U64) : Prop where
  sum : st.1.num % 2 ^ (64 * i) + 2 ^ (64 * i) * st.2.toNat =
    a % 2 ^ (64 * i) + b % 2 ^ (64 * i)
  rest (j : Nat) : i ≤ j → st.1.block j = out₀.block j

theorem AddInv.pass {a : Operand R A} {b : Operand R B} {out₀ : ArrayUint R} {i : Nat}
    {st : ArrayUint R × U64} (h : AddInv (a.get out₀).num (b.get out₀).num out₀ i st)
    (hA : i < A.blockSize) (hB : i < B.blockSize) (hR : i < R.blockSize) :
    ∃ st', addPass a b i st = some st' ∧
      AddInv (a.get out₀).num (b.get out₀).num out₀ (i + 1) st' := by
  rcases st with ⟨out, carry⟩
  rcases a.load_of_lt out hA with ⟨x, hx, hxnum⟩
  rcases b.load_of_lt out hB with ⟨y, hy, hynum⟩
  have hwide := wide_sum x y carry
  set s : U128 := x.setWidth 128 + y.setWidth 128 + carry.setWidth 128 with hs
  rcases out.store_spec hR (s.setWidth 64) with ⟨out', hout', hblock⟩
  refine ⟨(out', (s >>> 64).setWidth 64), ?_, ?_, ?_⟩
  · simp [addPass, hx, hy, ← hs, hout']
  · -- An operand that is the result itself still has its old block `i`.
    rw [a.get_block (h.rest i le_rfl)] at hxnum
    rw [b.get_block (h.rest i le_rfl)] at hynum
    have hsum := h.sum
    show out'.num % 2 ^ (64 * (i + 1)) + 2 ^ (64 * (i + 1)) * ((s >>> 64).setWidth 64).toNat = _
    rw [num_mod_succ_of_store hblock, num_mod_succ, num_mod_succ, ← hxnum, ← hynum]
    calc out.num % 2 ^ (64 * i) + 2 ^ (64 * i) * (s.setWidth 64).toNat +
          2 ^ (64 * (i + 1)) * ((s >>> 64).setWidth 64).toNat
        = out.num % 2 ^ (64 * i) + 2 ^ (64 * i) *
            ((s.setWidth 64).toNat + 2 ^ 64 * ((s >>> 64).setWidth 64).toNat) := by
          rw [pow_succ_block]
          ring
      _ = out.num % 2 ^ (64 * i) + 2 ^ (64 * i) * carry.toNat +
            2 ^ (64 * i) * x.toNat + 2 ^ (64 * i) * y.toNat := by
          rw [hwide]
          ring
      _ = (a.get out₀).num % 2 ^ (64 * i) + 2 ^ (64 * i) * x.toNat +
            ((b.get out₀).num % 2 ^ (64 * i) + 2 ^ (64 * i) * y.toNat) := by
          rw [hsum]
          ring
  · intro j hj
    rw [hblock j, if_neg (by omega)]
    exact h.rest j (by omega)

/-! ## The kernel -/

/-- The carry becomes the block above the common ones. -/
theorem addFill_spec (out : ArrayUint R) (carry : U64) (m : Nat) :
    ∃ y, addFill m m out carry = some y ∧
      y.num % 2 ^ R.bits = (out.num % 2 ^ (64 * m) + 2 ^ (64 * m) * carry.toNat) % 2 ^ R.bits := by
  have hdvd : R.blockSize ≤ m → 2 ^ R.bits ∣ 2 ^ (64 * m) := fun hle =>
    Nat.pow_dvd_pow 2 (R.bits_le.trans (Nat.mul_le_mul_left 64 hle))
  rcases Nat.lt_or_ge m R.blockSize with hlt | hge
  · -- The carry is stored in block `m`, and zeros behind it, if there is a block behind it.
    rcases out.store_spec hlt carry with ⟨y, hy, hblock⟩
    have hfill : ∃ z, addFill m m out carry = some z ∧
        ∀ j, z.block j = if m + 1 ≤ j ∧ j < R.blockSize then 0 else y.block j := by
      by_cases hmore : m + 1 < R.blockSize
      · rcases y.fill_spec hmore.le le_rfl 0#64 with ⟨z, hz, hzblock⟩
        exact ⟨z, by simp [addFill, hlt, hy, hmore, hz], hzblock⟩
      · exact ⟨y, by simp [addFill, hlt, hy, hmore], fun j => by rw [if_neg (by omega)]⟩
    rcases hfill with ⟨z, hz, hzblock⟩
    refine ⟨z, hz, ?_⟩
    rw [num_of_filled_zeros hlt hzblock, num_mod_succ_of_store hblock]
  · -- There is no block for the carry, and it does not matter modulo the width.
    refine ⟨out, by simp [addFill, not_lt.2 hge], ?_⟩
    rcases hdvd hge with ⟨d, hd⟩
    rw [num_mod_of_le out m hge, hd, Nat.mul_assoc, Nat.add_mul_mod_self_left]

/-- The kernel adds the blocks that the operands and the result have in common. -/
theorem addTo_spec (out : ArrayUint R) (a : Operand R A) (b : Operand R B) :
    ∃ r, addTo out a b = some r ∧ r.num =
      ((a.get out).num % 2 ^ (64 * min R.blockSize (min A.blockSize B.blockSize)) +
        (b.get out).num % 2 ^ (64 * min R.blockSize (min A.blockSize B.blockSize))) %
          2 ^ R.bits := by
  set m := min R.blockSize (min A.blockSize B.blockSize) with hm
  have hloop := up_rule (f := addPass a b)
    (I := AddInv (a.get out).num (b.get out).num out) (n := m) (i := 0) (s := (out, 0#64))
    ⟨by simp [Nat.mod_one], fun _ _ => rfl⟩
    (fun j st _ hj hI => hI.pass (by omega) (by omega) (by omega))
  rw [Nat.zero_add] at hloop
  rcases hloop with ⟨⟨out', carry⟩, hrun, hinv⟩
  rcases addFill_spec out' carry m with ⟨y, hy, hnum⟩
  refine ⟨y.sanitize, ?_, ?_⟩
  · simp [addTo, ← hm, hrun, hy]
  · rw [num_sanitize, hnum, hinv.sum]

/-! ## When it is the sum -/

/-- Dropping the high parts of two numbers does not matter modulo `2 ^ r` exactly if their bits
there are clear; one of the two has none. -/
theorem low_sum_iff {a b m r : Nat} (h : r ≤ m ∨ a / 2 ^ m = 0 ∨ b / 2 ^ m = 0) :
    (a % 2 ^ m + b % 2 ^ m) % 2 ^ r = (a + b) % 2 ^ r ↔ Clear a m r ∧ Clear b m r := by
  have hsplit : a + b = a % 2 ^ m + b % 2 ^ m + (2 ^ m * (a / 2 ^ m) + 2 ^ m * (b / 2 ^ m)) := by
    have ha := Nat.mod_add_div a (2 ^ m)
    have hb := Nat.mod_add_div b (2 ^ m)
    omega
  have hdvd : (a % 2 ^ m + b % 2 ^ m) % 2 ^ r = (a + b) % 2 ^ r ↔
      2 ^ r ∣ 2 ^ m * (a / 2 ^ m) + 2 ^ m * (b / 2 ^ m) := by
    have hmod := Nat.modEq_iff_dvd' (n := 2 ^ r)
      (Nat.le_add_right (a % 2 ^ m + b % 2 ^ m) (2 ^ m * (a / 2 ^ m) + 2 ^ m * (b / 2 ^ m)))
    rw [Nat.add_sub_cancel_left, ← hsplit] at hmod
    exact hmod
  rw [hdvd, clear_iff, clear_iff]
  rcases h with h | h | h
  · have hpow : 2 ^ r ∣ 2 ^ m := Nat.pow_dvd_pow 2 h
    constructor
    · intro _
      exact ⟨hpow.mul_right _, hpow.mul_right _⟩
    · intro _
      exact (hpow.mul_right _).add (hpow.mul_right _)
  · simp [h]
  · simp [h]

/-- `out` receives the sum of the operands modulo `2` to its width. -/
def Adds (a b : Nat) (r : Option (ArrayUint R)) : Prop :=
  ∃ x, r = some x ∧ x.num = (a + b) % 2 ^ R.bits

theorem addTo_correct_iff (out : ArrayUint R) (a : Operand R A) (b : Operand R B) :
    Adds (a.get out).num (b.get out).num (addTo out a b) ↔
      Clear (a.get out).num (64 * min A.blockSize B.blockSize) R.bits ∧
        Clear (b.get out).num (64 * min A.blockSize B.blockSize) R.bits := by
  rcases addTo_spec out a b with ⟨r, hr, hnum⟩
  have hadds : Adds (a.get out).num (b.get out).num (addTo out a b) ↔
      r.num = ((a.get out).num + (b.get out).num) % 2 ^ R.bits := by
    rw [Adds, hr]
    simp
  have hR := R.bits_le
  rw [hadds, hnum]
  rcases Nat.le_total R.blockSize (min A.blockSize B.blockSize) with hle | hle
  · -- Every block of the result is a common one.
    have hclear : ∀ n, Clear n (64 * min A.blockSize B.blockSize) R.bits := fun n =>
      clear_of_le (by omega)
    rw [min_eq_left hle, low_sum_iff (.inl hR)]
    exact ⟨fun _ => ⟨hclear _, hclear _⟩, fun _ => ⟨clear_of_le hR, clear_of_le hR⟩⟩
  · -- One of the operands has no further block.
    rw [min_eq_right hle]
    refine low_sum_iff (.inr ?_)
    rcases Nat.le_total A.blockSize B.blockSize with hAB | hAB
    · rw [min_eq_left hAB]
      exact .inl (num_div_of_le _ _ le_rfl)
    · rw [min_eq_right hAB]
      exact .inr (num_div_of_le _ _ le_rfl)

/-! ## The operators -/

theorem one_spec : ∃ b, one = some b ∧ b.num = 1 :=
  ⟨⟨[1], rfl⟩, rfl, rfl⟩

/-- **Addition.**  The kernel, and with it `+`, `+=` and `++`, computes the sum modulo `2` to the
width of the result if and only if no bit of an operand within that width is set in a block that
the other operand does not have. -/
theorem sum_iff (out : ArrayUint R) (a : Operand R A) (b : Operand R B) (x : ArrayUint w)
    (y : ArrayUint v) (z : Operand w v) :
    (Adds (a.get out).num (b.get out).num (addTo out a b) ↔
      Clear (a.get out).num (64 * min A.blockSize B.blockSize) R.bits ∧
        Clear (b.get out).num (64 * min A.blockSize B.blockSize) R.bits) ∧
    (Adds x.num y.num (add x y) ↔
      Clear x.num (64 * min w.blockSize v.blockSize) (max w.bits v.bits) ∧
        Clear y.num (64 * min w.blockSize v.blockSize) (max w.bits v.bits)) ∧
    (Adds x.num (z.get x).num (addAssign x z) ↔
      Clear x.num (64 * min w.blockSize v.blockSize) w.bits ∧
        Clear (z.get x).num (64 * min w.blockSize v.blockSize) w.bits) ∧
    (Adds x.num 1 (preIncrement x) ↔ Clear x.num 64 w.bits) ∧
    (Adds x.num 1 ((postIncrement x).map Prod.snd) ↔ Clear x.num 64 w.bits) := by
  refine ⟨addTo_correct_iff out a b, addTo_correct_iff zero (.other x) (.other y),
    addTo_correct_iff x .same z, ?_⟩
  rcases one_spec with ⟨one, hone, hnum⟩
  have hmin : 64 * min w.blockSize Width.w64.blockSize = 64 := by
    have hpos := w.blockSize_pos
    have hone : Width.w64.blockSize = 1 := rfl
    rw [hone, min_eq_right hpos]
  have hclear : Clear 1 64 w.bits := clear_of_lt (by norm_num)
  have hin := addTo_correct_iff x .same (.other one)
  have hout := addTo_correct_iff (zero : ArrayUint w) (.other x) (.other one)
  rw [hmin] at hin hout
  simp only [Operand.get, hnum, hclear, and_true] at hin hout
  constructor
  · have hpre : preIncrement x = addTo x .same (.other one) := by
      simp [preIncrement, hone]
    rwa [hpre]
  · have hpost : (postIncrement x).map Prod.snd = addTo zero (.other x) (.other one) := by
      simp [postIncrement, hone]
    rwa [hpost]

/-- `2 ^ 64 + 1`, as 128 bits and 64 bits: the kernel returns `1`. -/
theorem addTo_drops_blocks :
    ¬ ∀ (A B R : Width) (out : ArrayUint R) (a : ArrayUint A) (b : ArrayUint B),
      a.Canonical → b.Canonical → Adds a.num b.num (addTo out (.other a) (.other b)) := by
  intro hall
  let a : ArrayUint Width.w128 := ⟨[0, 1], rfl⟩
  let b : ArrayUint Width.w64 := ⟨[1], rfl⟩
  have ha : a.Canonical := canonical_iff.2 (by decide)
  have hb : b.Canonical := canonical_iff.2 (by decide)
  rcases hall Width.w128 Width.w64 Width.w128 zero a b ha hb with ⟨r, hr, hnum⟩
  have hone : (addTo (zero : ArrayUint Width.w128) (.other a) (.other b)).map num = some 1 := by
    decide
  rw [hr, Option.map_some, hnum] at hone
  exact absurd hone (by decide)

end ArrayUint
end Struct
end Chenc
