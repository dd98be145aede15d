import Mathlib.Data.Nat.Bitwise
import Chenc.Lib.Bits
import Chenc.Lib.Limbs
import Chenc.Struct.ArrayUint

/-!
# ArrayNumber — the number an array of blocks stands for

* `num`, `block` : the number, and its blocks as numbers;
* `store_spec`, `fill_spec`, `copy_spec`, `num_sanitize` : what the writes do to them;
* `Operand.get` : the operand as it stands while the result is being written;
* `Canonical`, `Clear` : bits that are not set.
-/

namespace Chenc
namespace Struct

open CountedLoop (up up_rule)

namespace Width

variable (w : Width)

theorem bits_le : w.bits ≤ 64 * w.blockSize := by
  unfold blockSize
  omega

theorem blockSize_pos : 0 < w.blockSize := by
  have := w.pos
  unfold blockSize
  omega

theorem bits_eq_of_mod (h : w.bits % 64 = 0) : w.bits = 64 * w.blockSize := by
  unfold blockSize
  omega

theorem bits_eq_of_mod_ne (h : w.bits % 64 ≠ 0) :
    w.bits = 64 * (w.blockSize - 1) + w.bits % 64 := by
  unfold blockSize
  omega

theorem backMask_toNat (h : w.bits % 64 ≠ 0) : w.backMask.toNat = 2 ^ (w.bits % 64) - 1 := by
  have hlt : w.bits % 64 < 64 := Nat.mod_lt _ (by omega)
  have hpow : 2 ^ (w.bits % 64) < 2 ^ 64 := Nat.pow_lt_pow_right (by omega) hlt
  have hone : 1 ≤ 2 ^ (w.bits % 64) := Nat.one_le_two_pow
  have hshift : ((1 : U64) <<< (w.bits % 64)).toNat = 2 ^ (w.bits % 64) := by
    rw [BitVec.toNat_shiftLeft, Nat.shiftLeft_eq]
    simpa using Nat.mod_eq_of_lt hpow
  rw [backMask, if_neg h, BitVec.toNat_sub_of_le]
  · rw [hshift]
    rfl
  · rw [BitVec.le_def, hshift]
    exact hone

end Width

namespace ArrayUint

variable {w v A B R : Width}

/-- The weight of the next block. -/
theorem pow_succ_block (i : Nat) : 2 ^ (64 * (i + 1)) = 2 ^ (64 * i) * 2 ^ 64 := by
  rw [Nat.mul_succ, Nat.pow_add]

/-- The number that the blocks stand for. -/
def num (x : ArrayUint w) : Nat :=
  Limbs.value x.data

/-- Block `i` as a number, zero past the end. -/
def block (x : ArrayUint w) (i : Nat) : Nat :=
  Limbs.limb x.data i

section Blocks

variable (x : ArrayUint w) (i : Nat)

theorem block_of_le (h : w.blockSize ≤ i) : x.block i = 0 :=
  Limbs.limb_of_length_le (by rwa [x.length_eq])

theorem num_lt : x.num < 2 ^ (64 * w.blockSize) := by
  have hlt := Limbs.value_lt x.data
  rwa [x.length_eq] at hlt

theorem num_mod_of_le (h : w.blockSize ≤ i) : x.num % 2 ^ (64 * i) = x.num :=
  Limbs.value_mod_of_length_le (by rwa [x.length_eq])

theorem num_div_of_le (h : w.blockSize ≤ i) : x.num / 2 ^ (64 * i) = 0 :=
  Limbs.value_div_of_length_le (by rwa [x.length_eq])

/-- The number of an array whose blocks are those of `n`. -/
theorem num_of_blocks {n : Nat} (h : ∀ j, j < w.blockSize → x.block j = n / 2 ^ (64 * j) % 2 ^ 64) :
    x.num = n % 2 ^ (64 * w.blockSize) := by
  rw [← num_mod_of_le x w.blockSize le_rfl]
  exact Limbs.mod_of_limb_eq h

theorem num_mod_succ :
    x.num % 2 ^ (64 * (i + 1)) = x.num % 2 ^ (64 * i) + 2 ^ (64 * i) * x.block i :=
  Limbs.value_mod_succ x.data i

theorem block_eq : x.block i = x.num / 2 ^ (64 * i) % 2 ^ 64 :=
  Limbs.limb_eq x.data i

end Blocks

theorem num_inj {x y : ArrayUint w} (h : x.num = y.num) : x = y := by
  have hdata := Limbs.value_inj (x.length_eq.trans y.length_eq.symm) h
  cases x
  cases y
  cases hdata
  rfl

section Writes

variable {x y : ArrayUint w} {i : Nat}

theorem num_mod_congr (h : ∀ j, j < i → x.block j = y.block j) :
    x.num % 2 ^ (64 * i) = y.num % 2 ^ (64 * i) :=
  Limbs.mod_congr h

theorem load_of_lt (x : ArrayUint w) (h : i < w.blockSize) :
    ∃ b, x.load i = some b ∧ b.toNat = x.block i := by
  have hlt : i < x.data.length := by rwa [x.length_eq]
  exact ⟨x.data[i], List.getElem?_eq_getElem hlt,
    (Limbs.limb_of_getElem? (List.getElem?_eq_getElem hlt)).symm⟩

theorem load_of_le (x : ArrayUint w) (h : w.blockSize ≤ i) : x.load i = none :=
  List.getElem?_eq_none (by rwa [x.length_eq])

theorem store_spec (x : ArrayUint w) (h : i < w.blockSize) (b : U64) :
    ∃ y, x.store i b = some y ∧ ∀ j, y.block j = if j = i then b.toNat else x.block j :=
  ⟨_, if_pos h, fun j => Limbs.limb_set (by rwa [x.length_eq]) b j⟩

/-- The number below block `i + 1`, when the blocks below `i` are old and block `i` is new. -/
theorem num_mod_succ_of_store {n : Nat} (h : ∀ j, y.block j = if j = i then n else x.block j) :
    y.num % 2 ^ (64 * (i + 1)) = x.num % 2 ^ (64 * i) + 2 ^ (64 * i) * n := by
  rw [num_mod_succ, h i, if_pos rfl]
  congr 1
  refine num_mod_congr fun j hj => ?_
  rw [h j, if_neg hj.ne]

/-- Two numbers that agree in the blocks from `i` up to `n` grow alike there. -/
theorem num_mod_add {z : ArrayUint v} {n : Nat} (hle : i ≤ n)
    (h : ∀ j, i ≤ j → j < n → x.block j = z.block j) :
    x.num % 2 ^ (64 * n) + z.num % 2 ^ (64 * i) = z.num % 2 ^ (64 * n) + x.num % 2 ^ (64 * i) := by
  induction n, hle using Nat.le_induction with
  | base => exact Nat.add_comm _ _
  | succ n hle ih =>
      have hlow := ih fun j hij hj => h j hij (hj.trans (Nat.lt_succ_self n))
      rw [num_mod_succ, num_mod_succ, h n hle (Nat.lt_succ_self n)]
      omega

theorem num_mod_of_zeros {n : Nat} (hle : i ≤ n) (h : ∀ j, i ≤ j → j < n → x.block j = 0) :
    x.num % 2 ^ (64 * n) = x.num % 2 ^ (64 * i) := by
  induction n, hle using Nat.le_induction with
  | base => rfl
  | succ n hle ih =>
      rw [num_mod_succ, h n hle (Nat.lt_succ_self n), Nat.mul_zero, Nat.add_zero,
        ih fun j hij hj => h j hij (hj.trans (Nat.lt_succ_self n))]

theorem num_mod_of_ones {n : Nat} (hle : i ≤ n)
    (h : ∀ j, i ≤ j → j < n → x.block j = 2 ^ 64 - 1) :
    x.num % 2 ^ (64 * n) + 2 ^ (64 * i) = x.num % 2 ^ (64 * i) + 2 ^ (64 * n) := by
  induction n, hle using Nat.le_induction with
  | base => rfl
  | succ n hle ih =>
      have hlow := ih fun j hij hj => h j hij (hj.trans (Nat.lt_succ_self n))
      have hpow : 2 ^ (64 * (n + 1)) = 2 ^ (64 * n) * (2 ^ 64 - 1) + 2 ^ (64 * n) := by
        rw [pow_succ_block]
        omega
      rw [num_mod_succ, h n hle (Nat.lt_succ_self n), hpow]
      omega

/-- The number after the blocks from `i` on are set to zero. -/
theorem num_of_filled_zeros (hi : i ≤ w.blockSize)
    (h : ∀ j, y.block j = if i ≤ j ∧ j < w.blockSize then 0 else x.block j) :
    y.num = x.num % 2 ^ (64 * i) := by
  have hlow : y.num % 2 ^ (64 * i) = x.num % 2 ^ (64 * i) :=
    num_mod_congr fun j hj => by rw [h j, if_neg (by omega)]
  calc y.num
      = y.num % 2 ^ (64 * w.blockSize) := (num_mod_of_le y _ le_rfl).symm
    _ = y.num % 2 ^ (64 * i) := num_mod_of_zeros hi fun j hj hlt => by rw [h j, if_pos ⟨hj, hlt⟩]
    _ = x.num % 2 ^ (64 * i) := hlow

/-- The number after the blocks from `i` on are set to all ones. -/
theorem num_of_filled_ones (hi : i ≤ w.blockSize)
    (h : ∀ j, y.block j = if i ≤ j ∧ j < w.blockSize then 2 ^ 64 - 1 else x.block j) :
    y.num + 2 ^ (64 * i) = x.num % 2 ^ (64 * i) + 2 ^ (64 * w.blockSize) := by
  have hlow : y.num % 2 ^ (64 * i) = x.num % 2 ^ (64 * i) :=
    num_mod_congr fun j hj => by rw [h j, if_neg (by omega)]
  calc y.num + 2 ^ (64 * i)
      = y.num % 2 ^ (64 * w.blockSize) + 2 ^ (64 * i) := by rw [num_mod_of_le y _ le_rfl]
    _ = y.num % 2 ^ (64 * i) + 2 ^ (64 * w.blockSize) :=
        num_mod_of_ones hi fun j hj hlt => by rw [h j, if_pos ⟨hj, hlt⟩]
    _ = x.num % 2 ^ (64 * i) + 2 ^ (64 * w.blockSize) := by rw [hlow]

theorem fill_spec (x : ArrayUint w) {first last : Nat} (hle : first ≤ last)
    (hlast : last ≤ w.blockSize) (b : U64) :
    ∃ y, x.fill first last b = some y ∧
      ∀ j, y.block j = if first ≤ j ∧ j < last then b.toNat else x.block j := by
  have hrule := up_rule (f := fun i (x : ArrayUint w) => x.store i b)
    (I := fun k y => ∀ j, y.block j = if first ≤ j ∧ j < k then b.toNat else x.block j)
    (n := last - first) (i := first) (s := x)
    (fun j => by rw [if_neg (by omega)])
    (fun k y hk hlt hI => by
      rcases y.store_spec (i := k) (by omega) b with ⟨z, hz, hblock⟩
      refine ⟨z, hz, fun j => ?_⟩
      rw [hblock j, hI j]
      split_ifs <;> first | rfl | omega)
  rwa [Nat.add_sub_cancel' hle] at hrule

end Writes

/-! ## Operands -/

namespace Operand

/-- The operand as it stands. -/
def get (out : ArrayUint R) : Operand R A → ArrayUint A
  | .other a => a
  | .same => out

theorem load_eq (a : Operand R A) (out : ArrayUint R) (i : Nat) :
    a.load out i = (a.get out).load i := by
  cases a <;> rfl

theorem load_of_lt (a : Operand R A) (out : ArrayUint R) {i : Nat} (h : i < A.blockSize) :
    ∃ b, a.load out i = some b ∧ b.toNat = (a.get out).block i := by
  rw [a.load_eq]
  exact (a.get out).load_of_lt h

/-- What has not been written yet is read as it was. -/
theorem get_block (a : Operand R A) {out out' : ArrayUint R} {i : Nat}
    (h : out'.block i = out.block i) : (a.get out').block i = (a.get out).block i := by
  cases a with
  | other a => rfl
  | same => exact h

/-- Not the object that receives the result. -/
def Apart : Operand R A → Prop
  | .other _ => True
  | .same => False

theorem get_of_apart {a : Operand R A} (h : a.Apart) (out out' : ArrayUint R) :
    a.get out' = a.get out := by
  cases a with
  | other a => rfl
  | same => exact absurd h id

/-- What is read is as it was, when the operand is elsewhere or the block has not been written. -/
theorem get_block_of {a : Operand R A} {out out' : ArrayUint R} {i : Nat} {p : Prop}
    (h : a.Apart ∨ p) (hkeep : p → out'.block i = out.block i) :
    (a.get out').block i = (a.get out).block i := by
  rcases h with hapart | hp
  · rw [get_of_apart hapart]
  · exact a.get_block (hkeep hp)

end Operand

/-- Copying blocks downwards, or out of another array. -/
theorem copy_move_spec (a : Operand R A) (out : ArrayUint R) (first n dest : Nat)
    (hA : first + n ≤ A.blockSize) (hR : dest + n ≤ R.blockSize)
    (hsafe : a.Apart ∨ dest ≤ first) :
    ∃ y, copy a.load first n dest out = some y ∧ ∀ j, y.block j =
      if dest ≤ j ∧ j < dest + n then (a.get out).block (first + (j - dest)) else out.block j := by
  have hrule := up_rule
    (f := fun k out => (a.load out (first + k)).bind (ArrayUint.store out (dest + k)))
    (I := fun k y => ∀ j, y.block j =
      if dest ≤ j ∧ j < dest + k then (a.get out).block (first + (j - dest)) else out.block j)
    (n := n) (i := 0) (s := out)
    (fun j => by rw [if_neg (by omega)])
    (fun k y _ hlt hI => by
      rcases a.load_of_lt y (i := first + k) (by omega) with ⟨b, hb, hnum⟩
      rcases y.store_spec (i := dest + k) (by omega) b with ⟨z, hz, hblock⟩
      have hread : (a.get y).block (first + k) = (a.get out).block (first + k) :=
        Operand.get_block_of hsafe fun hle => by rw [hI, if_neg (by omega)]
      refine ⟨z, by rw [hb, Option.bind_some, hz], fun j => ?_⟩
      rw [hblock j, hI j, hnum, hread]
      split_ifs with hj <;> first | rfl | omega | rw [hj, Nat.add_sub_cancel_left])
  rwa [Nat.zero_add] at hrule

/-- Copying blocks to the same place. -/
theorem copy_spec (a : Operand R A) (out : ArrayUint R) {i n : Nat} (ha : i + n ≤ A.blockSize)
    (hR : i + n ≤ R.blockSize) :
    ∃ y, copy a.load i n i out = some y ∧ ∀ j, y.block j =
      if i ≤ j ∧ j < i + n then (a.get out).block j else out.block j := by
  rcases copy_move_spec a out i n i ha hR (.inr le_rfl) with ⟨y, hy, hblock⟩
  refine ⟨y, hy, fun j => ?_⟩
  rw [hblock j]
  split_ifs with hj
  · rw [Nat.add_sub_cancel' hj.1]
  · rfl

/-! ## Sanitizing -/

theorem block_sanitize (x : ArrayUint w) (h : w.bits % 64 ≠ 0) (j : Nat) :
    x.sanitize.block j =
      if j = w.blockSize - 1 then x.block j % 2 ^ (w.bits % 64) else x.block j := by
  have hdata : x.sanitize.data = x.data.modify (w.blockSize - 1) (· &&& w.backMask) := by
    rw [sanitize, if_pos h]
  rw [block, hdata, Limbs.limb, List.getElem?_modify]
  split_ifs with hj hj' hj'
  · subst hj
    rcases hx : x.data[w.blockSize - 1]? with _ | b
    · simp [block, Limbs.limb, hx]
    · simp [block, Limbs.limb, hx, Bits.toNat_and_low _ (w.backMask_toNat h)]
  · exact absurd hj.symm hj'
  · exact absurd hj'.symm hj
  · simp [block, Limbs.limb]

/-- Sanitizing takes the number modulo `2 ^ Bits`. -/
theorem num_sanitize (x : ArrayUint w) : x.sanitize.num = x.num % 2 ^ w.bits := by
  by_cases h : w.bits % 64 = 0
  · rw [sanitize, if_neg (not_not.2 h), w.bits_eq_of_mod h, num_mod_of_le _ _ le_rfl]
  · -- Only the highest block is masked.
    have hpos := w.blockSize_pos
    have hsucc : w.blockSize = w.blockSize - 1 + 1 := by omega
    have hlow : x.sanitize.num % 2 ^ (64 * (w.blockSize - 1)) =
        x.num % 2 ^ (64 * (w.blockSize - 1)) := by
      refine num_mod_congr fun j hj => ?_
      rw [block_sanitize x h, if_neg hj.ne]
    have hsmall : 2 ^ (w.bits % 64) ∣ 2 ^ 64 :=
      Nat.pow_dvd_pow 2 (Nat.mod_lt _ (by omega)).le
    calc x.sanitize.num
        = x.sanitize.num % 2 ^ (64 * (w.blockSize - 1 + 1)) := by
          rw [num_mod_of_le _ _ hsucc.le]
      _ = x.num % 2 ^ (64 * (w.blockSize - 1)) +
            2 ^ (64 * (w.blockSize - 1)) *
              (x.num / 2 ^ (64 * (w.blockSize - 1)) % 2 ^ (w.bits % 64)) := by
          rw [num_mod_succ, hlow, block_sanitize x h, if_pos rfl, block_eq,
            Nat.mod_mod_of_dvd _ hsmall]
      _ = x.num % 2 ^ w.bits := by
          rw [← Nat.mod_mul, ← Nat.pow_add, ← w.bits_eq_of_mod_ne h]

/-- No bit at or above the width is set. -/
def Canonical (x : ArrayUint w) : Prop :=
  ∀ k, w.bits ≤ k → x.num.testBit k = false

theorem canonical_iff {x : ArrayUint w} : x.Canonical ↔ x.num < 2 ^ w.bits := by
  constructor
  · exact Nat.lt_pow_two_of_testBit _
  · intro h k hk
    exact Nat.testBit_lt_two_pow (h.trans_le (Nat.pow_le_pow_right Nat.two_pos hk))

theorem num_sanitize_lt (x : ArrayUint w) : x.sanitize.num < 2 ^ w.bits := by
  rw [num_sanitize]
  exact Nat.mod_lt _ (Nat.two_pow_pos _)

/-! ## Bits -/

/-- No bit at the positions from `lo` up to `hi` is set. -/
def Clear (n lo hi : Nat) : Prop :=
  ∀ k, lo ≤ k → k < hi → n.testBit k = false

theorem clear_of_le {n lo hi : Nat} (h : hi ≤ lo) : Clear n lo hi := by
  intro k hlo hhi
  omega

theorem clear_of_lt {n lo hi : Nat} (h : n < 2 ^ lo) : Clear n lo hi := by
  intro k hlo _
  exact Nat.testBit_lt_two_pow (h.trans_le (Nat.pow_le_pow_right Nat.two_pos hlo))

theorem clear_iff {n lo hi : Nat} : Clear n lo hi ↔ 2 ^ hi ∣ 2 ^ lo * (n / 2 ^ lo) := by
  -- The bits of the right side modulo `2 ^ hi` are those of `n` from `lo` up to `hi`.
  have hbit : ∀ k, (2 ^ lo * (n / 2 ^ lo) % 2 ^ hi).testBit k =
      (decide (k < hi) && (decide (lo ≤ k) && n.testBit k)) := by
    intro k
    rw [Nat.testBit_mod_two_pow, Nat.testBit_two_pow_mul, Nat.testBit_div_two_pow]
    by_cases hk : lo ≤ k
    · rw [Nat.sub_add_cancel hk]
    · simp [hk]
  rw [Nat.dvd_iff_mod_eq_zero]
  constructor
  · intro h
    refine Nat.zero_of_testBit_eq_false fun k => ?_
    rw [hbit]
    by_cases hhi : k < hi <;> by_cases hlo : lo ≤ k <;> simp [hhi, hlo]
    exact h k hlo hhi
  · intro h k hlo hhi
    have hk := hbit k
    rw [h] at hk
    simpa [hlo, hhi] using hk.symm

end ArrayUint

end Struct
end Chenc
