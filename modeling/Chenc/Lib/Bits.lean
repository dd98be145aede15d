import Mathlib.Tactic

/-!
# Bits — masks, shifts and unions read as arithmetic

Bit-level expressions of decoders and encoders, restated for `omega`: a mask of low ones is a
remainder, a shift is a product or a quotient, a union of disjoint fields is a sum.
-/

namespace Bits

variable {w : Nat}

/-- The union of a field above bit `k` and a field below it is their sum. -/
theorem toNat_or_of_dvd {a b : BitVec w} (k : Nat) (ha : 2 ^ k ∣ a.toNat)
    (hb : b.toNat < 2 ^ k) : (a ||| b).toNat = a.toNat + b.toNat := by
  rcases ha with ⟨n, hn⟩
  rw [BitVec.toNat_or, hn, Nat.two_pow_add_eq_or_of_lt hb]

/-- A shift that loses no bits is a product. -/
theorem toNat_shiftLeft_of_lt {a : BitVec w} (k : Nat) (h : a.toNat * 2 ^ k < 2 ^ w) :
    (a <<< k).toNat = a.toNat * 2 ^ k := by
  rw [BitVec.toNat_shiftLeft, Nat.shiftLeft_eq, Nat.mod_eq_of_lt h]

theorem toNat_ushiftRight (a : BitVec w) (k : Nat) : (a >>> k).toNat = a.toNat / 2 ^ k := by
  rw [BitVec.toNat_ushiftRight, Nat.shiftRight_eq_div_pow]

/-- A mask of `k` low ones is a remainder. -/
theorem toNat_and_low {a m : BitVec w} (k : Nat) (hm : m.toNat = 2 ^ k - 1) :
    (a &&& m).toNat = a.toNat % 2 ^ k := by
  rw [BitVec.toNat_and, hm, Nat.and_two_pow_sub_one_eq_mod]

/-- A mask of all but `k` low ones tests for numbers below `2^k`. -/
theorem and_high_eq_zero_iff {a m : BitVec w} (k : Nat) (hm : (~~~m).toNat = 2 ^ k - 1) :
    a &&& m = 0 ↔ a.toNat < 2 ^ k := by
  have hpos : 0 < 2 ^ k := Nat.two_pow_pos k
  have hlow := toNat_and_low (a := a) k hm
  constructor
  · intro h
    have hsplit : a = a &&& ~~~m := by
      refine BitVec.eq_of_getLsbD_eq fun i hi => ?_
      have hbit : (a.getLsbD i && m.getLsbD i) = false := by
        rw [← BitVec.getLsbD_and, h]
        exact BitVec.getLsbD_zero
      rw [BitVec.getLsbD_and, BitVec.getLsbD_not, decide_eq_true hi, Bool.true_and]
      revert hbit
      cases a.getLsbD i <;> cases m.getLsbD i <;> decide
    rw [hsplit, hlow]
    exact Nat.mod_lt _ hpos
  · intro h
    have hsplit : a &&& ~~~m = a := BitVec.eq_of_toNat_eq (hlow.trans (Nat.mod_eq_of_lt h))
    rw [← hsplit, BitVec.and_assoc, BitVec.not_and_self]
    exact BitVec.and_zero

/-- A mask of all bits from bit `k` on clears those below. -/
theorem toNat_and_high {a m : BitVec w} (k n : Nat) (hm : m.toNat = (2 ^ n - 1) * 2 ^ k)
    (ha : a.toNat < 2 ^ (k + n)) : (a &&& m).toNat = a.toNat / 2 ^ k * 2 ^ k := by
  have hpos : 0 < 2 ^ k := Nat.two_pow_pos k
  have hquot : a.toNat / 2 ^ k < 2 ^ n := by
    rw [Nat.div_lt_iff_lt_mul hpos, ← Nat.pow_add, Nat.add_comm]
    exact ha
  have hdiv : (a &&& m).toNat / 2 ^ k = a.toNat / 2 ^ k := by
    rw [BitVec.toNat_and, hm, Nat.and_div_two_pow, Nat.mul_div_cancel _ hpos,
      Nat.and_two_pow_sub_one_eq_mod, Nat.mod_eq_of_lt hquot]
  have hmod : (a &&& m).toNat % 2 ^ k = 0 := by
    rw [BitVec.toNat_and, hm, Nat.and_mod_two_pow, Nat.mul_mod_left, Nat.and_zero]
  rw [← hdiv]
  exact (Nat.div_mul_cancel (Nat.dvd_of_mod_eq_zero hmod)).symm

/-- A counter that is not at its maximum does not wrap. -/
theorem toNat_add_one {a : BitVec w} (hw : 0 < w) (h : a ≠ -1) : (a + 1).toNat = a.toNat + 1 := by
  have hone : (1 : BitVec w).toNat = 1 := BitVec.toNat_one hw
  have hmax : (-1 : BitVec w).toNat = 2 ^ w - 1 :=
    (congrArg BitVec.toNat BitVec.neg_one_eq_allOnes).trans BitVec.toNat_allOnes
  have hne : a.toNat ≠ 2 ^ w - 1 := fun heq => h (BitVec.eq_of_toNat_eq (heq.trans hmax.symm))
  have hlt := a.isLt
  rw [BitVec.toNat_add, hone, Nat.mod_eq_of_lt (by omega)]

theorem toNat_sub_one {a : BitVec w} (hw : 0 < w) (h : 0 < a.toNat) :
    (a - 1).toNat = a.toNat - 1 := by
  have hone : (1 : BitVec w).toNat = 1 := BitVec.toNat_one hw
  have hlt := a.isLt
  have hborrow : 2 ^ w - 1 + a.toNat = a.toNat - 1 + 2 ^ w := by
    omega
  rw [BitVec.toNat_sub, hone, hborrow, Nat.add_mod_right, Nat.mod_eq_of_lt (by omega)]

/-- A mask of one bit tests that bit. -/
theorem and_twoPow_ne_zero (a : BitVec w) {i : Nat} (hi : i < w) :
    a &&& BitVec.twoPow w i ≠ 0 ↔ a.getLsbD i = true := by
  rw [BitVec.and_twoPow]
  cases a.getLsbD i with
  | false => simp
  | true =>
      have hpow : (BitVec.twoPow w i).toNat = 2 ^ i := BitVec.toNat_twoPow_of_lt hi
      have hne : BitVec.twoPow w i ≠ 0 := by
        intro h
        rw [h] at hpow
        exact (Nat.two_pow_pos i).ne hpow
      simpa using hne

/-- Adding or subtracting below bit `k` leaves the bits from `k` on alone. -/
theorem getLsbD_of_div_eq {a b : BitVec w} {k i : Nat} (hi : k ≤ i)
    (h : a.toNat / 2 ^ k = b.toNat / 2 ^ k) : a.getLsbD i = b.getLsbD i := by
  rw [← Nat.sub_add_cancel hi, BitVec.getLsbD, BitVec.getLsbD, ← Nat.testBit_div_two_pow,
    ← Nat.testBit_div_two_pow, h]

/-- Shifting up and arithmetically down again extends the sign of the low `k` bits. -/
theorem sshiftRight_shiftLeft (x : BitVec w) {k : Nat} (hk : 0 < k) (hkw : k ≤ w) :
    (x <<< (w - k)).sshiftRight (w - k) = (x.setWidth k).signExtend w := by
  have hmsb : (x <<< (w - k)).msb = x.getLsbD (k - 1) := by
    have hlast : w - 1 - (w - k) = k - 1 := by omega
    have hbound : ¬ w - 1 < w - k := by omega
    have hpos : w - 1 < w := by omega
    rw [BitVec.msb_eq_getLsbD_last, BitVec.getLsbD_shiftLeft, hlast]
    simp [hbound, hpos]
  refine BitVec.eq_of_getLsbD_eq fun i hi => ?_
  rw [BitVec.getLsbD_sshiftRight, BitVec.getLsbD_signExtend, hmsb, BitVec.getLsbD_shiftLeft,
    BitVec.msb_eq_getLsbD_last, BitVec.getLsbD_setWidth, BitVec.getLsbD_setWidth]
  have hlow : w - k + i - (w - k) = i := Nat.add_sub_cancel_left _ _
  have hlast : k - 1 < k := by omega
  by_cases hik : i < k
  · have hin : w - k + i < w := by omega
    simp [hi, hik, hin]
  · have hout : ¬ w - k + i < w := by omega
    simp [hi, hik, hout, hlast]

theorem setWidth_signExtend {k : Nat} (x : BitVec k) (hkw : k ≤ w) :
    (x.signExtend w).setWidth k = x := by
  refine BitVec.eq_of_getLsbD_eq fun i hi => ?_
  have hiw : i < w := hi.trans_le hkw
  rw [BitVec.getLsbD_setWidth, BitVec.getLsbD_signExtend]
  simp [hi, hiw]

/-- All of the bits `1 … k` are set exactly in the two largest remainders modulo `2^(k+1)`. -/
theorem and_eq_high_iff (n k : Nat) :
    n &&& (2 ^ (k + 1) - 2) = 2 ^ (k + 1) - 2 ↔ 2 ^ (k + 1) - 2 ≤ n % 2 ^ (k + 1) := by
  have hpow : 2 ^ (k + 1) = 2 * 2 ^ k := by rw [Nat.pow_succ, Nat.mul_comm]
  have hpos : 0 < 2 ^ k := Nat.two_pow_pos k
  have hm : 2 ^ (k + 1) - 2 = 2 * (2 ^ k - 1) := by omega
  have hhalf : (n &&& 2 * (2 ^ k - 1)) / 2 = n / 2 % 2 ^ k := by
    rw [Nat.and_div_two, Nat.mul_div_cancel_left _ (by norm_num),
      Nat.and_two_pow_sub_one_eq_mod]
  -- The mask has no bit below `1`, so both sides are compared by their halves.
  have heven : (n &&& 2 * (2 ^ k - 1)) % 2 = 0 := by
    rw [← Nat.and_one_is_mod, Nat.and_assoc, Nat.and_one_is_mod, Nat.mul_mod_right, Nat.and_zero]
  have hmod : n % 2 ^ (k + 1) = 2 * (n / 2 % 2 ^ k) + n % 2 := by
    rw [hpow, Nat.mod_mul]
    omega
  have hlt : n / 2 % 2 ^ k < 2 ^ k := Nat.mod_lt _ hpos
  rw [hm, hmod]
  omega

end Bits
