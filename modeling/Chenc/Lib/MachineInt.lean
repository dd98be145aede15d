import Mathlib.Data.Int.Bitwise
import Mathlib.Tactic

/-!
# MachineInt — words as integers

A word of `k` bits read as an unsigned or as a signed integer, and the built-in operators on words
and on the integers they stand for.

* `Sign.read`, `Sign.wrap` : the integer of a word, and an integer reduced to `k` bits;
* `ofInt_land`, `ofInt_lor`, `ofInt_xor`, `ofInt_lnot` : the bits of an integer, modulo `2 ^ k`;
* `LowOp.word_low` : the low bits of a result come from the low bits of the left operand alone;
* `HighOp.word_exact` : division, remainder and right shift of words are those of the integers.

An operator gives `none` where its result is undefined.
-/

namespace MachineInt

variable {k w : Nat}

/-! ## Reading -/

inductive Sign
  | unsigned
  | signed
  deriving DecidableEq, Repr

namespace Sign

def read : Sign → BitVec w → ℤ
  | unsigned, x => x.toNat
  | signed, x => x.toInt

/-- The integer of `k` bits that is `z` modulo `2 ^ k`. -/
def wrap (k : Nat) : Sign → ℤ → ℤ
  | unsigned, z => z % 2 ^ k
  | signed, z => z.bmod (2 ^ k)

/-- The word with `v` bits. -/
def extend (v : Nat) : Sign → BitVec w → BitVec v
  | unsigned, x => x.setWidth v
  | signed, x => x.signExtend v

theorem read_ofInt (s : Sign) (z : ℤ) : s.read (BitVec.ofInt k z) = s.wrap k z := by
  cases s with
  | unsigned =>
      rw [read, BitVec.toNat_ofInt, Int.toNat_of_nonneg (Int.emod_nonneg _ (by positivity)), wrap]
      norm_cast
  | signed => exact BitVec.toInt_ofInt z

theorem ofInt_read (s : Sign) (hk : k ≤ w) (x : BitVec w) :
    BitVec.ofInt k (s.read x) = x.setWidth k := by
  cases s with
  | unsigned =>
      rw [read, BitVec.ofInt_natCast, BitVec.ofNat_toNat]
  | signed =>
      refine BitVec.eq_of_toInt_eq ?_
      have hdvd : 2 ^ k ∣ 2 ^ w := Nat.pow_dvd_pow 2 hk
      rw [read, BitVec.toInt_ofInt, BitVec.toInt_setWidth, BitVec.toInt_eq_toNat_bmod,
        Int.bmod_bmod_of_dvd hdvd]

theorem wrap_read (s : Sign) (x : BitVec k) : s.wrap k (s.read x) = s.read x := by
  rw [← read_ofInt, ofInt_read s le_rfl, BitVec.setWidth_eq]

theorem read_injective (s : Sign) {x y : BitVec w} (h : s.read x = s.read y) : x = y := by
  rw [← BitVec.setWidth_eq (x := x), ← BitVec.setWidth_eq (x := y), ← ofInt_read s le_rfl x,
    ← ofInt_read s le_rfl y, h]

theorem read_extend (s : Sign) (hw : w ≤ k) (x : BitVec w) : s.read (s.extend k x) = s.read x := by
  cases s with
  | unsigned =>
      have hlt : x.toNat < 2 ^ k := x.isLt.trans_le (Nat.pow_le_pow_right Nat.two_pos hw)
      rw [read, extend, BitVec.toNat_setWidth, Nat.mod_eq_of_lt hlt, read]
  | signed => exact BitVec.toInt_signExtend_of_le hw

theorem read_eq_zero_iff (s : Sign) (x : BitVec w) : s.read x = 0 ↔ x = 0 := by
  have hzero : s.read (0 : BitVec w) = 0 := by cases s <;> simp [read]
  constructor
  · intro h
    exact s.read_injective (h.trans hzero.symm)
  · rintro rfl
    exact hzero

end Sign

/-! ## The bits of an integer -/

theorem getLsbD_ofInt (z : ℤ) (i : Nat) :
    (BitVec.ofInt k z).getLsbD i = (decide (i < k) && z.testBit i) := by
  cases z with
  | ofNat n =>
      change (BitVec.ofInt k (n : ℤ)).getLsbD i = _
      rw [BitVec.ofInt_natCast, BitVec.getLsbD_ofNat]
      rfl
  | negSucc n =>
      rw [BitVec.ofInt_negSucc_eq_not_ofNat, BitVec.getLsbD_not, BitVec.getLsbD_ofNat]
      cases decide (i < k) <;> simp [Int.testBit]

theorem ofInt_land (a b : ℤ) :
    BitVec.ofInt k (a.land b) = BitVec.ofInt k a &&& BitVec.ofInt k b := by
  refine BitVec.eq_of_getLsbD_eq fun i hi => ?_
  rw [BitVec.getLsbD_and]
  simp only [getLsbD_ofInt, Int.testBit_land, hi, decide_true, Bool.true_and]

theorem ofInt_lor (a b : ℤ) :
    BitVec.ofInt k (a.lor b) = BitVec.ofInt k a ||| BitVec.ofInt k b := by
  refine BitVec.eq_of_getLsbD_eq fun i hi => ?_
  rw [BitVec.getLsbD_or]
  simp only [getLsbD_ofInt, Int.testBit_lor, hi, decide_true, Bool.true_and]

theorem ofInt_xor (a b : ℤ) :
    BitVec.ofInt k (Int.xor a b) = BitVec.ofInt k a ^^^ BitVec.ofInt k b := by
  refine BitVec.eq_of_getLsbD_eq fun i hi => ?_
  rw [BitVec.getLsbD_xor]
  simp only [getLsbD_ofInt, Int.testBit_lxor, hi, decide_true, Bool.true_and]

theorem ofInt_lnot (a : ℤ) : BitVec.ofInt k a.lnot = ~~~BitVec.ofInt k a := by
  refine BitVec.eq_of_getLsbD_eq fun i hi => ?_
  rw [BitVec.getLsbD_not]
  simp only [getLsbD_ofInt, Int.testBit_lnot, hi, decide_true, Bool.true_and]

theorem ofInt_sub (a b : ℤ) : BitVec.ofInt k (a - b) = BitVec.ofInt k a - BitVec.ofInt k b := by
  rw [sub_eq_add_neg, BitVec.ofInt_add, BitVec.ofInt_neg, BitVec.sub_eq_add_neg]

theorem ofInt_mul_two_pow (a : ℤ) (n : Nat) :
    BitVec.ofInt k (a * 2 ^ n) = BitVec.ofInt k a <<< n := by
  have hpow : BitVec.ofInt k (2 ^ n) = BitVec.twoPow k n := by
    have hcast : ((2 : ℤ) ^ n) = ((2 ^ n : Nat) : ℤ) := by norm_cast
    rw [hcast, BitVec.ofInt_natCast]
    refine BitVec.eq_of_toNat_eq ?_
    rw [BitVec.toNat_ofNat, BitVec.toNat_twoPow]
  rw [BitVec.ofInt_mul, hpow, BitVec.mul_twoPow_eq_shiftLeft]

/-! ## Operators that the sign does not matter to -/

inductive LowOp
  | add
  | sub
  | mul
  | and
  | or
  | xor
  | shl
  deriving DecidableEq, Repr

namespace LowOp

/-- How the right operand is read: the amount of a shift is unsigned. -/
def operand : LowOp → Sign → Sign
  | shl, _ => .unsigned
  | _, s => s

def word : LowOp → BitVec w → BitVec w → Option (BitVec w)
  | add, x, v => some (x + v)
  | sub, x, v => some (x - v)
  | mul, x, v => some (x * v)
  | and, x, v => some (x &&& v)
  | or, x, v => some (x ||| v)
  | xor, x, v => some (x ^^^ v)
  | shl, x, v => if v.toNat < w then some (x <<< v) else none

def int (w : Nat) : LowOp → ℤ → ℤ → Option ℤ
  | add, a, v => some (a + v)
  | sub, a, v => some (a - v)
  | mul, a, v => some (a * v)
  | and, a, v => some (a.land v)
  | or, a, v => some (a.lor v)
  | xor, a, v => some (Int.xor a v)
  | shl, a, v => if v < w then some (a * 2 ^ v.toNat) else none

/-- The low bits of a result depend on the low bits of the left operand only. -/
theorem word_low (hk : k ≤ w) (s : Sign) (op : LowOp) {x : BitVec w} {a : ℤ}
    (hx : x.setWidth k = BitVec.ofInt k a) (v : BitVec w) :
    (op.word x v).map (BitVec.setWidth k) =
      (op.int w a ((op.operand s).read v)).map (BitVec.ofInt k) := by
  have hv : v.setWidth k = BitVec.ofInt k (s.read v) := (s.ofInt_read hk v).symm
  cases op with
  | add =>
      simp only [word, int, operand, Option.map_some]
      rw [BitVec.setWidth_add _ _ hk, BitVec.ofInt_add, hx, hv]
  | sub =>
      simp only [word, int, operand, Option.map_some]
      rw [BitVec.sub_eq_add_neg, BitVec.setWidth_add _ _ hk, BitVec.setWidth_neg_of_le hk,
        ← BitVec.sub_eq_add_neg, ofInt_sub, hx, hv]
  | mul =>
      simp only [word, int, operand, Option.map_some]
      rw [BitVec.setWidth_mul _ _ hk, BitVec.ofInt_mul, hx, hv]
  | and =>
      simp only [word, int, operand, Option.map_some]
      rw [BitVec.setWidth_and, ofInt_land, hx, hv]
  | or =>
      simp only [word, int, operand, Option.map_some]
      rw [BitVec.setWidth_or, ofInt_lor, hx, hv]
  | xor =>
      simp only [word, int, operand, Option.map_some]
      rw [BitVec.setWidth_xor, ofInt_xor, hx, hv]
  | shl =>
      have hiff : v.toNat < w ↔ (Sign.unsigned.read v) < w := by simp [Sign.read]
      simp only [word, int, operand, ← hiff]
      split_ifs with hlt
      · rw [Option.map_some, Option.map_some, ofInt_mul_two_pow, ← hx]
        exact congrArg some (BitVec.setWidth_shiftLeft_of_le hk)
      · rfl

end LowOp

/-! ## Operators that it matters to -/

inductive HighOp
  | div
  | mod
  | shr
  deriving DecidableEq, Repr

namespace HighOp

def operand : HighOp → Sign → Sign
  | shr, _ => .unsigned
  | _, s => s

/-- A quotient is undefined for the divisor zero, and where it does not fit. -/
def word : HighOp → Sign → BitVec w → BitVec w → Option (BitVec w)
  | div, .unsigned, x, v => if v = 0 then none else some (x / v)
  | div, .signed, x, v =>
      if v = 0 ∨ (x = BitVec.intMin w ∧ v = -1) then none else some (x.sdiv v)
  | mod, .unsigned, x, v => if v = 0 then none else some (x % v)
  | mod, .signed, x, v =>
      if v = 0 ∨ (x = BitVec.intMin w ∧ v = -1) then none else some (x.srem v)
  | shr, .unsigned, x, v => if v.toNat < w then some (x >>> v) else none
  | shr, .signed, x, v => if v.toNat < w then some (x.sshiftRight v.toNat) else none

def int (w : Nat) : HighOp → ℤ → ℤ → Option ℤ
  | div, a, v => if v = 0 ∨ (a = -2 ^ (w - 1) ∧ v = -1) then none else some (a.tdiv v)
  | mod, a, v => if v = 0 ∨ (a = -2 ^ (w - 1) ∧ v = -1) then none else some (a.tmod v)
  | shr, a, v => if v < w then some (a / 2 ^ v.toNat) else none

theorem quotient_undefined_unsigned (x v : BitVec w) :
    (Sign.unsigned.read v = 0 ∨
      (Sign.unsigned.read x = -2 ^ (w - 1) ∧ Sign.unsigned.read v = -1)) ↔ v = 0 := by
  have hnot : Sign.unsigned.read v ≠ -1 := by
    simp only [Sign.read]
    omega
  simp only [hnot, and_false, or_false]
  exact Sign.unsigned.read_eq_zero_iff v

theorem quotient_undefined_signed (hw : 0 < w) (x v : BitVec w) :
    (Sign.signed.read v = 0 ∨ (Sign.signed.read x = -2 ^ (w - 1) ∧ Sign.signed.read v = -1)) ↔
      v = 0 ∨ (x = BitVec.intMin w ∧ v = -1) := by
  have hmin : Sign.signed.read (BitVec.intMin w) = -2 ^ (w - 1) := by
    have hlt : 2 ^ (w - 1) < 2 ^ w := Nat.pow_lt_pow_right (by decide) (by omega)
    rw [Sign.read, BitVec.toInt_intMin, Nat.mod_eq_of_lt hlt]
    norm_cast
  have hone : Sign.signed.read (-1 : BitVec w) = -1 := by
    change (-1#w).toInt = -1
    rw [BitVec.neg_one_eq_allOnes, BitVec.toInt_allOnes, if_pos hw]
  refine or_congr (Sign.signed.read_eq_zero_iff v) (and_congr ?_ ?_)
  · rw [← hmin]
    exact ⟨Sign.signed.read_injective, congrArg _⟩
  · rw [← hone]
    exact ⟨Sign.signed.read_injective, congrArg _⟩

/-- The operators on words are those on the integers. -/
theorem word_exact (hw : 0 < w) (s : Sign) (op : HighOp) (x v : BitVec w) :
    (op.word s x v).map s.read = op.int w (s.read x) ((op.operand s).read v) := by
  have hshift : v.toNat < w ↔ (Sign.unsigned.read v) < w := by simp [Sign.read]
  cases op with
  | div =>
      cases s with
      | unsigned =>
          simp only [word, int, operand, quotient_undefined_unsigned]
          split_ifs with hzero
          · rfl
          · simp [Sign.read]
      | signed =>
          simp only [word, int, operand, quotient_undefined_signed hw]
          split_ifs with hundef
          · rfl
          · have hfits : x ≠ BitVec.intMin w ∨ v ≠ -1#w := by
              by_contra hnot
              push Not at hnot
              exact hundef (.inr hnot)
            exact congrArg some (BitVec.toInt_sdiv_of_ne_or_ne x v hfits)
  | mod =>
      cases s with
      | unsigned =>
          simp only [word, int, operand, quotient_undefined_unsigned]
          split_ifs with hzero
          · rfl
          · simp only [Option.map_some, Sign.read, BitVec.toNat_umod, Int.ofNat_tmod]
      | signed =>
          simp only [word, int, operand, quotient_undefined_signed hw]
          split_ifs with hundef
          · rfl
          · exact congrArg some (BitVec.toInt_srem x v)
  | shr =>
      cases s with
      | unsigned =>
          simp only [word, int, operand, ← hshift]
          split_ifs with hlt
          · simp [Sign.read, Nat.shiftRight_eq_div_pow]
          · rfl
      | signed =>
          simp only [word, int, operand, ← hshift]
          split_ifs with hlt
          · rw [Option.map_some]
            simp only [Sign.read, BitVec.toInt_sshiftRight, Int.shiftRight_eq_div_pow]
            norm_cast
          · rfl

end HighOp

end MachineInt
