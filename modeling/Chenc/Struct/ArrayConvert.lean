import Chenc.Struct.ArrayCanonical

/-!
# ArrayConvert — numbers into arrays, and from one width to another

* `Denotes` : what a routine returns is a number modulo `2 ^ Bits`;
* `fromUnsigned_denotes`, `fromSigned_denotes` : the constructors; the sign goes into every block,
  whatever was in the storage;
* `convert_denotes`, `assign_denotes` : the constructor from another width, and the assignment,
  which leaves nothing of the old value;
* `conversions_exact` : these together, and that widening can be undone.
-/

namespace Chenc
namespace Struct
namespace ArrayUint

variable {w v : Width} {x : ArrayUint w} {r : Option (ArrayUint w)}

/-- What is returned is `n` modulo `2 ^ Bits`. -/
def Denotes (r : Option (ArrayUint w)) (n : ℤ) : Prop :=
  ∃ x, r = some x ∧ (x.num : ℤ) = n % 2 ^ w.bits

theorem two_pow_cast (n : Nat) : ((2 ^ n : Nat) : ℤ) = 2 ^ n := by
  push_cast
  rfl

theorem Denotes.of_num {n : Nat} (hr : r = some x) (hnum : x.num = n % 2 ^ w.bits) :
    Denotes r n := by
  refine ⟨x, hr, ?_⟩
  rw [hnum, Int.natCast_mod, two_pow_cast]

/-- Sanitising reduces modulo the width. -/
theorem Denotes.sanitize {y : ArrayUint w} {n : ℤ}
    (h : (y.num : ℤ) ≡ n [ZMOD 2 ^ (64 * w.blockSize)]) : Denotes (some y.sanitize) n := by
  refine ⟨y.sanitize, rfl, ?_⟩
  rw [num_sanitize, Int.natCast_mod, two_pow_cast]
  exact h.of_dvd (pow_dvd_pow 2 w.bits_le)

theorem Denotes.unique {r' : Option (ArrayUint w)} {n : ℤ} (h : Denotes r n)
    (h' : Denotes r' n) : r = r' := by
  rcases h with ⟨y, rfl, hy⟩
  rcases h' with ⟨z, rfl, hz⟩
  rw [num_inj (x := y) (y := z) (by exact_mod_cast hy.trans hz.symm)]

/-! ## Integers -/

theorem block_zero (i : Nat) : (zero : ArrayUint w).block i = 0 := by
  rw [block_eq, zero_num, Nat.zero_div, Nat.zero_mod]

/-- An array with one block, and zeros above it. -/
theorem num_of_lowest {n : Nat} (h : ∀ j, x.block j = if j = 0 then n else 0) : x.num = n := by
  have hfilled : ∀ j, x.block j = if 1 ≤ j ∧ j < w.blockSize then 0 else x.block j := by
    intro j
    split_ifs with hj
    · rw [h j, if_neg (by omega)]
    · rfl
  rw [num_of_filled_zeros w.blockSize_pos hfilled, num_mod_succ, h 0, if_pos rfl, Nat.mul_zero,
    Nat.pow_zero, Nat.mod_one, Nat.one_mul, Nat.zero_add]

theorem fromUnsigned_denotes {k : Nat} (hk : k ≤ 64) (val : BitVec k) :
    Denotes (fromUnsigned val : Option (ArrayUint w)) val.toNat := by
  have hlow : (val.setWidth 64).toNat = val.toNat := by
    rw [BitVec.toNat_setWidth]
    exact Nat.mod_eq_of_lt (val.isLt.trans_le (Nat.pow_le_pow_right Nat.two_pos hk))
  rcases (zero : ArrayUint w).store_spec w.blockSize_pos (val.setWidth 64) with ⟨y, hy, hblock⟩
  have hrun : (fromUnsigned val : Option (ArrayUint w)) = some y.sanitize := by
    simp [fromUnsigned, hy]
  have hnum : y.num = val.toNat := by
    refine num_of_lowest fun j => ?_
    rw [hblock j, hlow, block_zero]
  rw [hrun]
  exact .sanitize (by rw [hnum])

/-- The storage after the first store and the fill. -/
theorem signed_num (x : ArrayUint w) {b : U64} {y z : ArrayUint w}
    (hy : ∀ j, y.block j = if j = 0 then b.toNat else x.block j)
    (hz : ∀ j, z.block j = if 1 ≤ j ∧ j < w.blockSize then
      (if b.toInt < 0 then (-1 : U64) else 0).toNat else y.block j) :
    (z.num : ℤ) ≡ b.toInt [ZMOD 2 ^ (64 * w.blockSize)] := by
  have hfirst : y.num % 2 ^ (64 * 1) = b.toNat := by
    rw [num_mod_succ, hy 0, if_pos rfl, Nat.mul_zero, Nat.pow_zero, Nat.mod_one, Nat.one_mul,
      Nat.zero_add]
  by_cases hneg : b.toInt < 0
  · -- All ones above: a multiple of `2 ^ 64` too much.
    rw [if_pos hneg] at hz
    have hfilled := num_of_filled_ones w.blockSize_pos hz
    rw [hfirst] at hfilled
    have hb : (b.toNat : ℤ) = b.toInt + 2 ^ 64 := by
      have hcond := BitVec.toInt_neg_iff.1 hneg
      rw [BitVec.toInt_eq_toNat_cond, if_neg (by omega)]
      push_cast
      ring
    have hnum : (z.num : ℤ) = b.toInt + 2 ^ (64 * w.blockSize) := by
      have hcast : (z.num : ℤ) + 2 ^ (64 * 1) = b.toNat + 2 ^ (64 * w.blockSize) := by
        exact_mod_cast hfilled
      rw [hb, Nat.mul_one] at hcast
      linarith
    rw [hnum]
    exact Int.add_modEq_right
  · rw [if_neg hneg] at hz
    have hb : (b.toNat : ℤ) = b.toInt := by
      have hcond : ¬ 2 ^ 64 ≤ 2 * b.toNat := fun h => hneg (BitVec.toInt_neg_iff.2 h)
      rw [BitVec.toInt_eq_toNat_of_lt (by omega)]
    have hnum : z.num = b.toNat := by
      rw [num_of_filled_zeros w.blockSize_pos hz, hfirst]
    rw [hnum, hb]

theorem fromSigned_denotes {k : Nat} (hk : k ≤ 64) (before : ArrayUint w) (val : BitVec k) :
    Denotes (fromSigned before val) val.toInt := by
  have hint : (val.signExtend 64).toInt = val.toInt := BitVec.toInt_signExtend_of_le hk
  rcases before.store_spec w.blockSize_pos (val.signExtend 64) with ⟨y, hy, hblock⟩
  have hone : 1 ≤ w.blockSize := w.blockSize_pos
  rcases y.fill_spec hone le_rfl (if val.toInt < 0 then -1 else 0) with ⟨z, hz, hfill⟩
  have hrun : fromSigned before val =
      (y.fill 1 w.blockSize (if val.toInt < 0 then -1 else 0)).bind fun x => some x.sanitize := by
    by_cases hneg : val.toInt < 0 <;> simp [fromSigned, hy, hneg]
  rw [← hint] at hfill
  rw [hrun, hz, ← hint]
  exact .sanitize (signed_num before hblock hfill)

/-! ## Other widths -/

/-- The common blocks of another array, and zeros above them. -/
theorem num_of_copied (val : ArrayUint v) {y : ArrayUint w}
    (h : ∀ j, j < w.blockSize → y.block j = if j < v.blockSize then val.block j else 0) :
    y.num = val.num % 2 ^ (64 * w.blockSize) := by
  refine num_of_blocks y fun j hj => ?_
  rw [h j hj, ← block_eq]
  split_ifs with hlt
  · rfl
  · rw [block_of_le val j (not_lt.1 hlt)]

theorem convert_denotes (other : ArrayUint v) :
    Denotes (convert other : Option (ArrayUint w)) other.num := by
  rcases copy_spec (.other other : Operand w v) zero (i := 0)
    (n := min w.blockSize v.blockSize) (by omega) (by omega) with ⟨y, hy, hblock⟩
  have hrun : (convert other : Option (ArrayUint w)) = some y.sanitize := by
    simp [convert, show copy (fun _ i => other.load i) 0 (min w.blockSize v.blockSize) 0 zero = _
      from hy]
  have hnum : y.num = other.num % 2 ^ (64 * w.blockSize) := by
    refine num_of_copied other fun j hj => ?_
    rw [hblock j]
    split_ifs with hboth hlt hlt
    · rfl
    · omega
    · omega
    · exact block_zero j
  rw [hrun]
  refine .sanitize ?_
  rw [hnum, Int.natCast_mod, two_pow_cast]
  exact Int.mod_modEq _ _

/-- The assignment writes every block. -/
theorem assign_denotes (x : ArrayUint w) (val : ArrayUint v) : Denotes (assign x val) val.num := by
  have hcopied : ∃ y : ArrayUint w, assign x val = some y.sanitize ∧
      y.num = val.num % 2 ^ (64 * w.blockSize) := by
    by_cases hlt : v.blockSize < w.blockSize
    · rcases copy_spec (.other val : Operand w v) x (i := 0) (n := v.blockSize) (by omega)
        (by omega) with ⟨y, hy, hblock⟩
      rcases y.fill_spec hlt.le le_rfl 0#64 with ⟨z, hz, hfill⟩
      refine ⟨z, ?_, num_of_copied val fun j hj => ?_⟩
      · simp [assign, hlt, show copy (fun _ i => val.load i) 0 v.blockSize 0 x = _ from hy, hz]
      · rw [hfill j, hblock j]
        split_ifs with habove hbelow hcommon <;> first | rfl | omega
    · rcases copy_spec (.other val : Operand w v) x (i := 0) (n := w.blockSize) (by omega)
        (by omega) with ⟨y, hy, hblock⟩
      refine ⟨y, ?_, num_of_copied val fun j hj => ?_⟩
      · simp [assign, hlt, show copy (fun _ i => val.load i) 0 w.blockSize 0 x = _ from hy]
      · rw [hblock j, if_pos (by omega), if_pos (by omega)]
        rfl
  rcases hcopied with ⟨y, hrun, hnum⟩
  rw [hrun]
  refine .sanitize ?_
  rw [hnum, Int.natCast_mod, two_pow_cast]
  exact Int.mod_modEq _ _

/-- Nothing of the old value is left. -/
theorem assign_eq_convert (x : ArrayUint w) (val : ArrayUint v) : assign x val = convert val :=
  (assign_denotes x val).unique (convert_denotes val)

/-- A canonical value that is widened and narrowed again is the same. -/
theorem convert_convert (hx : x.Canonical) (hle : w.bits ≤ v.bits) :
    (convert x : Option (ArrayUint v)).bind convert = some x := by
  have hlt := canonical_iff.1 hx
  rcases convert_denotes (w := v) x with ⟨y, hy, hnum⟩
  have hwide : y.num = x.num := by
    have hmod : ((x.num : ℤ)) % 2 ^ v.bits = x.num := by
      refine Int.emod_eq_of_lt (Int.natCast_nonneg _) ?_
      exact_mod_cast hlt.trans_le (Nat.pow_le_pow_right Nat.two_pos hle)
    exact_mod_cast hnum.trans hmod
  rw [hy, Option.bind_some]
  refine (convert_denotes y).unique ⟨x, rfl, ?_⟩
  rw [hwide]
  refine (Int.emod_eq_of_lt (Int.natCast_nonneg _) ?_).symm
  exact_mod_cast hlt

/-- **Conversions.**  For every width, and integers of at most 64 bits: the constructors return the
integer modulo `2 ^ Bits`, the one of a signed type whatever the storage held before; a value of
any other width is converted to the same number modulo `2 ^ Bits`, and an assignment does the same
whatever the old value; and a canonical value that is widened and narrowed again is the same. -/
theorem conversions_exact (w v : Width) :
    (∀ (k : Nat), k ≤ 64 → ∀ val : BitVec k,
      Denotes (fromUnsigned val : Option (ArrayUint w)) val.toNat ∧
      ∀ before : ArrayUint w, Denotes (fromSigned before val) val.toInt) ∧
    (∀ val : ArrayUint v, Denotes (convert val : Option (ArrayUint w)) val.num ∧
      ∀ x : ArrayUint w, assign x val = convert val) ∧
    ∀ x : ArrayUint w, x.Canonical → w.bits ≤ v.bits →
      (convert x : Option (ArrayUint v)).bind convert = some x :=
  ⟨fun _ hk val => ⟨fromUnsigned_denotes hk val, fun before => fromSigned_denotes hk before val⟩,
    fun val => ⟨convert_denotes val, fun x => assign_eq_convert x val⟩,
    fun _ => convert_convert⟩

end ArrayUint
end Struct
end Chenc
