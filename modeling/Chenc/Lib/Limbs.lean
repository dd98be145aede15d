import Mathlib.Data.Nat.Digits.Lemmas
import Mathlib.Tactic

/-!
# Limbs — numbers in blocks of a fixed width

A list of `w`-bit limbs, the least significant first, denotes a number.

* `value`, `limb` : the number, and its limbs, with zeros behind the last one;
* `value_mod_succ`, `value_div_succ` : the number is taken apart at a limb, from below or from
  above;
* `mod_congr` : the low part depends on the low limbs only;
* `digits`, `value_digits`, `digits_value` : the limbs of a number, and back;
* `lt_of_limb_lt` : the highest limb that differs decides;
* `limb_shiftLeft`, `limb_shiftRight` : a limb of a shifted number, from two limbs of the number.
-/

namespace Limbs

variable {w : Nat} {xs ys : List (BitVec w)} {i : Nat} {x : BitVec w}

def value (xs : List (BitVec w)) : Nat :=
  Nat.ofDigits (2 ^ w) (xs.map BitVec.toNat)

/-- Limb `i`, which is zero behind the last one. -/
def limb (xs : List (BitVec w)) (i : Nat) : Nat :=
  (xs[i]?.map BitVec.toNat).getD 0

theorem digits_lt (xs : List (BitVec w)) : ∀ d ∈ xs.map BitVec.toNat, d < 2 ^ w := by
  intro d hd
  rcases List.mem_map.1 hd with ⟨x, -, rfl⟩
  exact x.isLt

@[simp] theorem limb_of_getElem? (h : xs[i]? = some x) : limb xs i = x.toNat := by
  simp [limb, h]

theorem limb_of_length_le (h : xs.length ≤ i) : limb xs i = 0 := by
  simp [limb, List.getElem?_eq_none h]

theorem limb_set (h : i < xs.length) (x : BitVec w) (j : Nat) :
    limb (xs.set i x) j = if j = i then x.toNat else limb xs j := by
  by_cases hj : j = i
  · subst hj
    simp [limb, h]
  · rw [if_neg hj, limb, limb, List.getElem?_set_ne (Ne.symm hj)]

theorem limb_eq (xs : List (BitVec w)) (i : Nat) :
    limb xs i = value xs / 2 ^ (w * i) % 2 ^ w := by
  rw [value, Nat.pow_mul, Nat.ofDigits_div_pow_eq_ofDigits_drop i (Nat.two_pow_pos w) _
    (digits_lt xs), ← List.map_drop]
  rcases h : xs.drop i with _ | ⟨x, rest⟩
  · rw [limb_of_length_le (List.drop_eq_nil_iff.1 h)]
    simp
  · have hx : xs[i]? = some x := by
      rw [← List.head?_drop, h]
      rfl
    rw [limb_of_getElem? hx, List.map_cons, Nat.ofDigits_cons, Nat.add_mul_mod_self_left,
      Nat.mod_eq_of_lt x.isLt]

theorem value_mod_succ (xs : List (BitVec w)) (i : Nat) :
    value xs % 2 ^ (w * (i + 1)) = value xs % 2 ^ (w * i) + 2 ^ (w * i) * limb xs i := by
  rw [limb_eq, Nat.mul_succ, Nat.pow_add, Nat.mod_mul]

theorem value_div_succ (xs : List (BitVec w)) (i : Nat) :
    value xs / 2 ^ (w * i) = limb xs i + 2 ^ w * (value xs / 2 ^ (w * (i + 1))) := by
  rw [limb_eq, Nat.mul_succ, Nat.pow_add, ← Nat.div_div_eq_div_mul, Nat.mod_add_div]

theorem value_lt (xs : List (BitVec w)) : value xs < 2 ^ (w * xs.length) := by
  rcases w with _ | w
  · induction xs with
    | nil => simp [value]
    | cons x xs ih =>
        have hx : x.toNat = 0 := by
          have := x.isLt
          omega
        simpa [value, Nat.ofDigits_cons, hx] using ih
  · rw [Nat.pow_mul, ← List.length_map BitVec.toNat]
    exact Nat.ofDigits_lt_base_pow_length (Nat.one_lt_two_pow (Nat.succ_ne_zero w)) (digits_lt xs)

theorem value_mod_of_length_le (h : xs.length ≤ i) : value xs % 2 ^ (w * i) = value xs := by
  refine Nat.mod_eq_of_lt ((value_lt xs).trans_le ?_)
  exact Nat.pow_le_pow_right Nat.two_pos (Nat.mul_le_mul_left w h)

theorem value_div_of_length_le (h : xs.length ≤ i) : value xs / 2 ^ (w * i) = 0 := by
  refine Nat.div_eq_of_lt ((value_lt xs).trans_le ?_)
  exact Nat.pow_le_pow_right Nat.two_pos (Nat.mul_le_mul_left w h)

/-- Limbs below `i` decide the number modulo `2 ^ (w * i)`. -/
theorem mod_congr (h : ∀ j, j < i → limb xs j = limb ys j) :
    value xs % 2 ^ (w * i) = value ys % 2 ^ (w * i) := by
  induction i with
  | zero => simp [Nat.mod_one]
  | succ i ih =>
      rw [value_mod_succ, value_mod_succ, h i (Nat.lt_succ_self i),
        ih fun j hj => h j (hj.trans (Nat.lt_succ_self i))]

/-- Limbs that are those of the number `n`. -/
theorem mod_of_limb_eq {n : Nat} (h : ∀ j, j < i → limb xs j = n / 2 ^ (w * j) % 2 ^ w) :
    value xs % 2 ^ (w * i) = n % 2 ^ (w * i) := by
  induction i with
  | zero => simp [Nat.mod_one]
  | succ i ih =>
      rw [value_mod_succ, h i (Nat.lt_succ_self i), ih fun j hj => h j (hj.trans i.lt_succ_self),
        Nat.mul_succ, Nat.pow_add, Nat.mod_mul]

/-- As many limbs and the same number: the same limbs. -/
theorem value_inj (hlen : xs.length = ys.length) (h : value xs = value ys) : xs = ys := by
  refine List.ext_getElem hlen fun i hx hy => BitVec.eq_of_toNat_eq ?_
  rw [← limb_of_getElem? (List.getElem?_eq_getElem hx), limb_eq, h, ← limb_eq,
    limb_of_getElem? (List.getElem?_eq_getElem hy)]

/-! ## The limbs of a number -/

/-- The `k` lowest limbs of a number. -/
def digits (w k n : Nat) : List (BitVec w) :=
  (List.range k).map fun i => BitVec.ofNat w (n / 2 ^ (w * i))

@[simp] theorem length_digits (w k n : Nat) : (digits w k n).length = k := by
  simp [digits]

theorem limb_digits {k : Nat} (n : Nat) (h : i < k) :
    limb (digits w k n) i = n / 2 ^ (w * i) % 2 ^ w := by
  simp [limb, digits, h]

theorem value_digits (w k n : Nat) : value (digits w k n) = n % 2 ^ (w * k) := by
  rw [← value_mod_of_length_le (length_digits w k n).le]
  exact mod_of_limb_eq fun j hj => limb_digits n hj

theorem digits_value (xs : List (BitVec w)) : digits w xs.length (value xs) = xs := by
  refine value_inj (length_digits _ _ _) ?_
  rw [value_digits, Nat.mod_eq_of_lt (value_lt xs)]

theorem value_take {k : Nat} (xs : List (BitVec w)) :
    value (xs.take k) = value xs % 2 ^ (w * k) := by
  have hlen : (xs.take k).length ≤ k := by
    rw [List.length_take]
    exact Nat.min_le_left _ _
  rw [← value_mod_of_length_le hlen]
  refine mod_congr fun j hj => ?_
  rw [limb, limb, List.getElem?_take_of_lt hj]

theorem value_append_zeros (xs : List (BitVec w)) (k : Nat) :
    value (xs ++ List.replicate k 0) = value xs := by
  simp [value, Nat.ofDigits_append_replicate_zero]

/-! ## Comparing -/

theorem div_eq_of_limb_eq (habove : value xs / 2 ^ (w * (i + 1)) = value ys / 2 ^ (w * (i + 1)))
    (h : limb xs i = limb ys i) : value xs / 2 ^ (w * i) = value ys / 2 ^ (w * i) := by
  rw [value_div_succ, value_div_succ ys, habove, h]

/-- The highest limb that differs decides. -/
theorem lt_of_limb_lt (habove : value xs / 2 ^ (w * (i + 1)) = value ys / 2 ^ (w * (i + 1)))
    (h : limb xs i < limb ys i) : value xs < value ys := by
  have hdiv : value xs / 2 ^ (w * i) < value ys / 2 ^ (w * i) := by
    rw [value_div_succ, value_div_succ ys, habove]
    exact Nat.add_lt_add_right h _
  exact lt_of_not_ge fun hle => absurd (Nat.div_le_div_right hle) (not_le.2 hdiv)

/-! ## Shifting -/

theorem testBit_limb (xs : List (BitVec w)) (i j : Nat) :
    (limb xs i).testBit j = (decide (j < w) && (value xs).testBit (w * i + j)) := by
  rw [limb_eq, Nat.testBit_mod_two_pow, Nat.testBit_div_two_pow, Nat.add_comm]

/-- Limb `i` of the number shifted to the left takes bits of limb `i` and of the one below. -/
theorem limb_shiftLeft {y : BitVec w} {k : Nat} (hk : k ≤ w) (hx : x.toNat = limb xs i)
    (hy : y.toNat = if i = 0 then 0 else limb xs (i - 1)) :
    ((x <<< k) ||| (y >>> (w - k))).toNat = value xs * 2 ^ k / 2 ^ (w * i) % 2 ^ w := by
  refine Nat.eq_of_testBit_eq fun j => ?_
  have hxbit : ∀ m, x.getLsbD m = (decide (m < w) && (value xs).testBit (w * i + m)) := by
    intro m
    rw [BitVec.getLsbD, hx, testBit_limb]
  have hleft : ((x <<< k) ||| (y >>> (w - k))).toNat.testBit j =
      (decide (j < w) && !decide (j < k) && x.getLsbD (j - k) || y.getLsbD (w - k + j)) := by
    rw [BitVec.testBit_toNat, BitVec.getLsbD_or, BitVec.getLsbD_shiftLeft,
      BitVec.getLsbD_ushiftRight]
  have hright : (value xs * 2 ^ k / 2 ^ (w * i) % 2 ^ w).testBit j =
      (decide (j < w) && (decide (k ≤ w * i + j) && (value xs).testBit (w * i + j - k))) := by
    rw [Nat.testBit_mod_two_pow, Nat.testBit_div_two_pow, Nat.add_comm j, Nat.mul_comm (value xs),
      Nat.testBit_two_pow_mul]
  rw [hleft, hright]
  by_cases hj : j < w
  · by_cases hjk : j < k
    · -- The low bits come from the limb below, if there is one.
      rcases i with _ | i
      · rw [if_pos rfl] at hy
        have hzero : y = 0#w := BitVec.eq_of_toNat_eq (hy.trans (BitVec.toNat_zero).symm)
        simp [hzero, hj, hjk]
      · rw [if_neg (Nat.succ_ne_zero i), Nat.add_sub_cancel] at hy
        have hbit : y.getLsbD (w - k + j) = (value xs).testBit (w * (i + 1) + j - k) := by
          rw [BitVec.getLsbD, hy, testBit_limb, decide_eq_true (by omega), Bool.true_and]
          congr 1
          rw [Nat.mul_succ]
          omega
        have hle : k ≤ w * (i + 1) + j := by
          rw [Nat.mul_succ]
          omega
        simp [hbit, hj, hjk, hle]
    · have hhigh : y.getLsbD (w - k + j) = false := BitVec.getLsbD_of_ge _ _ (by omega)
      rw [hhigh, hxbit, Nat.add_sub_assoc (not_lt.1 hjk)]
      have hle : k ≤ w * i + j := le_add_left (not_lt.1 hjk)
      have hlt : j - k < w := by omega
      simp [hj, hjk, hle, hlt]
  · have hhigh : y.getLsbD (w - k + j) = false := BitVec.getLsbD_of_ge _ _ (by omega)
    simp [hj, hhigh]

/-- Limb `i` of the number shifted to the right takes bits of limb `i` and of the one above. -/
theorem limb_shiftRight {y : BitVec w} {k : Nat} (hk : k ≤ w) (hx : x.toNat = limb xs i)
    (hy : y.toNat = limb xs (i + 1)) :
    ((x >>> k) ||| (y <<< (w - k))).toNat = value xs / 2 ^ (w * i + k) % 2 ^ w := by
  refine Nat.eq_of_testBit_eq fun j => ?_
  have hleft : ((x >>> k) ||| (y <<< (w - k))).toNat.testBit j =
      (x.getLsbD (k + j) ||
        (decide (j < w) && !decide (j < w - k) && y.getLsbD (j - (w - k)))) := by
    rw [BitVec.testBit_toNat, BitVec.getLsbD_or, BitVec.getLsbD_shiftLeft,
      BitVec.getLsbD_ushiftRight]
  have hxbit : x.getLsbD (k + j) =
      (decide (k + j < w) && (value xs).testBit (w * i + k + j)) := by
    rw [BitVec.getLsbD, hx, testBit_limb, Nat.add_assoc]
  rw [hleft, hxbit, Nat.testBit_mod_two_pow, Nat.testBit_div_two_pow, Nat.add_comm j]
  by_cases hj : j < w
  · by_cases hjk : k + j < w
    · have hlow : j < w - k := by omega
      simp [hj, hjk, hlow]
    · -- The high bits come from the limb above.
      have hbit : y.getLsbD (j - (w - k)) = (value xs).testBit (w * i + k + j) := by
        rw [BitVec.getLsbD, hy, testBit_limb, decide_eq_true (by omega), Bool.true_and]
        congr 1
        rw [Nat.mul_succ]
        omega
      have hlow : ¬ j < w - k := by omega
      simp [hj, hjk, hlow, hbit]
  · have hjk : ¬ k + j < w := by omega
    simp [hj, hjk]

end Limbs
