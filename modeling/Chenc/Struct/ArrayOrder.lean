import Chenc.Struct.ArrayNumber

/-!
# ArrayOrder — comparing arrays of different lengths

* `beq_eq` : `operator==` compares the numbers;
* `Comparable` : the operands for which `operator<=>` stays inside both arrays;
* `cmp_of_comparable`, `cmp_of_not_comparable`, `order_iff` : there it is the order of the
  numbers, and elsewhere it reads past the end of the shorter operand.
-/

namespace Chenc
namespace Struct
namespace ArrayUint

open CountedLoop (findUp findDown findUp_rule findDown_rule)

variable {w v : Width} {x : ArrayUint w} {y : ArrayUint v} {i : Nat}

/-! ## Tests of one block -/

theorem differAt_spec (x : ArrayUint w) (y : ArrayUint v) (hw : i < w.blockSize)
    (hv : i < v.blockSize) :
    (x.block i ≠ y.block i ∧ differAt x y i = some (some false)) ∨
      (x.block i = y.block i ∧ differAt x y i = some none) := by
  rcases x.load_of_lt hw with ⟨a, ha, hanum⟩
  rcases y.load_of_lt hv with ⟨b, hb, hbnum⟩
  by_cases hab : a = b
  · refine .inr ⟨by rw [← hanum, ← hbnum, hab], ?_⟩
    simp [differAt, ha, hb, hab]
  · refine .inl ⟨fun hnum => hab (BitVec.eq_of_toNat_eq (by rw [hanum, hbnum, hnum])), ?_⟩
    simp [differAt, ha, hb, hab]

theorem nonzeroAt_spec {ρ : Type} (r : ρ) (x : ArrayUint w) (hw : i < w.blockSize) :
    (x.block i ≠ 0 ∧ nonzeroAt r x i = some (some r)) ∨
      (x.block i = 0 ∧ nonzeroAt r x i = some none) := by
  rcases x.load_of_lt hw with ⟨a, ha, hanum⟩
  by_cases hzero : a = 0#64
  · refine .inr ⟨by rw [← hanum, hzero]; rfl, ?_⟩
    simp [nonzeroAt, ha, hzero]
  · refine .inl ⟨fun hnum => hzero (BitVec.eq_of_toNat_eq (by rw [hanum, hnum]; rfl)), ?_⟩
    simp [nonzeroAt, ha, hzero]

theorem orderAt_spec (x : ArrayUint w) (y : ArrayUint v) (hw : i < w.blockSize)
    (hv : i < v.blockSize) :
    (x.block i ≠ y.block i ∧ orderAt x y i = some (some (compare (x.block i) (y.block i)))) ∨
      (x.block i = y.block i ∧ orderAt x y i = some none) := by
  rcases x.load_of_lt hw with ⟨a, ha, hanum⟩
  rcases y.load_of_lt hv with ⟨b, hb, hbnum⟩
  by_cases hab : a = b
  · refine .inr ⟨by rw [← hanum, ← hbnum, hab], ?_⟩
    simp [orderAt, ha, hb, hab]
  · refine .inl ⟨fun hnum => hab (BitVec.eq_of_toNat_eq (by rw [hanum, hbnum, hnum])), ?_⟩
    simp [orderAt, ha, hb, hab, hanum, hbnum]

theorem num_ne_of_block_ne (h : x.block i ≠ y.block i) : x.num ≠ y.num := by
  intro hnum
  rw [block_eq, block_eq, hnum] at h
  exact h rfl

/-! ## Equality -/

/-- The loop over the blocks that both operands have. -/
theorem findUp_differAt (x : ArrayUint w) (y : ArrayUint v) {n : Nat} (hw : n ≤ w.blockSize)
    (hv : n ≤ v.blockSize) :
    (∃ r, findUp (differAt x y) n 0 = some (some r) ∧ (r = false ∧ x.num ≠ y.num)) ∨
      (findUp (differAt x y) n 0 = some none ∧
        x.num % 2 ^ (64 * n) = y.num % 2 ^ (64 * n)) := by
  have hrule := findUp_rule (f := differAt x y) (Q := fun r => r = false ∧ x.num ≠ y.num)
    (I := fun j => x.num % 2 ^ (64 * j) = y.num % 2 ^ (64 * j)) (n := n) (i := 0)
    (by simp [Nat.mod_one]) (fun j _ hj hI => ?_)
  · rwa [Nat.zero_add] at hrule
  · rcases differAt_spec x y (i := j) (by omega) (by omega) with ⟨hne, htest⟩ | ⟨heq, htest⟩
    · exact .inl ⟨false, htest, rfl, num_ne_of_block_ne hne⟩
    · exact .inr ⟨htest, by rw [num_mod_succ, num_mod_succ, hI, heq]⟩

/-- The loop over the blocks that only `x` has. -/
theorem findUp_nonzeroAt (x : ArrayUint w) (y : ArrayUint v) (hle : v.blockSize ≤ w.blockSize)
    (hlow : x.num % 2 ^ (64 * v.blockSize) = y.num % 2 ^ (64 * v.blockSize)) :
    (∃ r, findUp (nonzeroAt false x) (w.blockSize - v.blockSize) v.blockSize = some (some r) ∧
      (r = false ∧ x.num ≠ y.num)) ∨
      (findUp (nonzeroAt false x) (w.blockSize - v.blockSize) v.blockSize = some none ∧
        x.num = y.num) := by
  have hrule := findUp_rule (f := nonzeroAt false x)
    (Q := fun r => r = false ∧ x.num ≠ y.num)
    (I := fun j => v.blockSize ≤ j ∧ x.num % 2 ^ (64 * j) = y.num % 2 ^ (64 * j))
    (n := w.blockSize - v.blockSize) (i := v.blockSize) ⟨le_rfl, hlow⟩ (fun j _ hj hI => ?_)
  · rcases hrule with hret | ⟨hend, -, hnum⟩
    · exact .inl hret
    · rw [Nat.add_sub_cancel' hle, num_mod_of_le x _ le_rfl, num_mod_of_le y _ hle] at hnum
      exact .inr ⟨hend, hnum⟩
  · rcases nonzeroAt_spec false x (i := j) (by omega) with ⟨hne, htest⟩ | ⟨hzero, htest⟩
    · refine .inl ⟨false, htest, rfl, num_ne_of_block_ne (i := j) ?_⟩
      rwa [y.block_of_le j hI.1]
    · refine .inr ⟨htest, hI.1.trans (Nat.le_succ j), ?_⟩
      rw [num_mod_succ, num_mod_succ, hI.2, hzero, y.block_of_le j hI.1]

/-- `operator==` compares the numbers. -/
theorem beq_eq (x : ArrayUint w) (y : ArrayUint v) : beq x y = some (decide (x.num = y.num)) := by
  by_cases hlt : v.blockSize < w.blockSize
  · rcases findUp_differAt x y hlt.le le_rfl with ⟨r, hr, rfl, hne⟩ | ⟨hnone, hlow⟩
    · simp [beq, hlt, hr, hne]
    · rcases findUp_nonzeroAt x y hlt.le hlow with ⟨r, hr, rfl, hne⟩ | ⟨hnone', heq⟩
      · simp [beq, hlt, hnone, hr, hne]
      · simp [beq, hlt, hnone, hnone', heq]
  · rcases findUp_differAt x y le_rfl (not_lt.1 hlt) with ⟨r, hr, rfl, hne⟩ | ⟨hnone, hlow⟩
    · simp [beq, hlt, hr, hne]
    · rcases findUp_nonzeroAt y x (not_lt.1 hlt) hlow.symm with
        ⟨r, hr, rfl, hne⟩ | ⟨hnone', heq⟩
      · simp [beq, hlt, hnone, hr, Ne.symm hne]
      · simp [beq, hlt, hnone, hnone', heq]

/-! ## Order -/

/-- The blocks that only `x` has, from the highest down. -/
theorem findDown_nonzeroAt (r : Ordering) (x : ArrayUint w) {n : Nat} (hle : n ≤ w.blockSize) :
    (findDown (nonzeroAt r x) (w.blockSize - n) n = some (some r) ∧ 2 ^ (64 * n) ≤ x.num) ∨
      (findDown (nonzeroAt r x) (w.blockSize - n) n = some none ∧ x.num < 2 ^ (64 * n)) := by
  have hrule := findDown_rule (f := nonzeroAt r x)
    (Q := fun q => q = r ∧ 2 ^ (64 * n) ≤ x.num) (I := fun j => x.num < 2 ^ (64 * j))
    (n := w.blockSize - n) (i := n)
    (by rw [Nat.add_sub_cancel' hle]; exact x.num_lt) (fun j hj hjn hI => ?_)
  · rcases hrule with ⟨q, hq, rfl, hge⟩ | hend
    · exact .inl ⟨hq, hge⟩
    · exact .inr hend
  · rcases nonzeroAt_spec r x (i := j) (by omega) with ⟨hne, htest⟩ | ⟨hzero, htest⟩
    · refine .inl ⟨r, htest, rfl, ?_⟩
      by_contra hlt
      have hsmall : x.num < 2 ^ (64 * j) :=
        (not_le.1 hlt).trans_le (Nat.pow_le_pow_right Nat.two_pos (by omega))
      rw [block_eq, Nat.div_eq_of_lt hsmall, Nat.zero_mod] at hne
      exact hne rfl
    · refine .inr ⟨htest, ?_⟩
      have hmod := x.num_mod_succ j
      rw [Nat.mod_eq_of_lt hI, hzero, Nat.mul_zero, Nat.add_zero] at hmod
      rw [hmod]
      exact Nat.mod_lt _ (Nat.two_pow_pos _)

/-- The blocks of `x`, which are all blocks of `y` too, from the highest down. -/
theorem findDown_orderAt (x : ArrayUint w) (y : ArrayUint v) (hle : w.blockSize ≤ v.blockSize)
    (hy : y.num < 2 ^ (64 * w.blockSize)) :
    findDown (orderAt x y) w.blockSize 0 = some (some (compare x.num y.num)) ∨
      (findDown (orderAt x y) w.blockSize 0 = some none ∧ x.num = y.num) := by
  have hrule := findDown_rule (f := orderAt x y) (Q := fun r => r = compare x.num y.num)
    (I := fun j => x.num / 2 ^ (64 * j) = y.num / 2 ^ (64 * j)) (n := w.blockSize) (i := 0)
    (by rw [Nat.zero_add, Nat.div_eq_of_lt hy, x.num_div_of_le _ le_rfl]) (fun j _ hj hI => ?_)
  · rcases hrule with ⟨r, hr, rfl⟩ | ⟨hend, hnum⟩
    · exact .inl hr
    · simp only [Nat.mul_zero, Nat.pow_zero, Nat.div_one] at hnum
      exact .inr ⟨hend, hnum⟩
  · rcases orderAt_spec x y (i := j) (by omega) (by omega) with ⟨hne, htest⟩ | ⟨heq, htest⟩
    · -- The blocks above are equal, so this one decides.
      refine .inl ⟨_, htest, ?_⟩
      rcases Nat.lt_or_gt_of_ne hne with hlt | hgt
      · have hnum : x.num < y.num := Limbs.lt_of_limb_lt hI hlt
        rw [compare_lt_iff_lt.2 hlt, compare_lt_iff_lt.2 hnum]
      · have hnum : y.num < x.num := Limbs.lt_of_limb_lt hI.symm hgt
        rw [compare_gt_iff_gt.2 hgt, compare_gt_iff_gt.2 hnum]
    · exact .inr ⟨htest, Limbs.div_eq_of_limb_eq hI heq⟩

/-- `x` has no more blocks than `y`, or a block that `y` does not have and that is not zero. -/
def Comparable (x : ArrayUint w) (_ : ArrayUint v) : Prop :=
  w.blockSize ≤ v.blockSize ∨ 2 ^ (64 * v.blockSize) ≤ x.num

theorem cmp_of_comparable (h : Comparable x y) : cmp x y = some (compare x.num y.num) := by
  rcases Nat.lt_trichotomy w.blockSize v.blockSize with hlt | heq | hgt
  · -- The excess blocks of `y` decide, or they are zero and the common ones decide.
    rcases findDown_nonzeroAt .lt y hlt.le with ⟨hret, hge⟩ | ⟨hend, hsmall⟩
    · have hnum : x.num < y.num := x.num_lt.trans_le hge
      simp [cmp, hlt, not_lt.2 hlt.le, hret, compare_lt_iff_lt.2 hnum]
    · rcases findDown_orderAt x y hlt.le hsmall with hret | ⟨hend', hnum⟩
      · simp [cmp, hlt, not_lt.2 hlt.le, hend, hret]
      · simp [cmp, hlt, not_lt.2 hlt.le, hend, hend', hnum]
  · have hsmall : y.num < 2 ^ (64 * w.blockSize) := heq ▸ y.num_lt
    rcases findDown_orderAt x y heq.le hsmall with hret | ⟨hend, hnum⟩
    · simp [cmp, heq, heq ▸ hret]
    · simp [cmp, heq, heq ▸ hend, hnum]
  · -- An excess block of `x` is not zero, so the second loop is not reached.
    have hge : 2 ^ (64 * v.blockSize) ≤ x.num := h.resolve_left (not_le.2 hgt)
    rcases findDown_nonzeroAt .gt x hgt.le with ⟨hret, -⟩ | ⟨-, hsmall⟩
    · have hnum : y.num < x.num := y.num_lt.trans_le hge
      simp [cmp, hgt, hret, compare_gt_iff_gt.2 hnum]
    · exact absurd hsmall (not_lt.2 hge)

/-- The excess blocks of `x` are zero, and the next loop starts behind the end of `y`. -/
theorem cmp_of_not_comparable (h : ¬ Comparable x y) : cmp x y = none := by
  rcases not_or.1 h with ⟨hlt, hsmall⟩
  rw [not_le] at hlt hsmall
  have hfirst : findDown (nonzeroAt Ordering.gt x) (w.blockSize - v.blockSize) v.blockSize =
      some none := by
    rcases findDown_nonzeroAt .gt x hlt.le with ⟨-, hge⟩ | ⟨hend, -⟩
    · exact absurd hsmall (not_lt.2 hge)
    · exact hend
  have hsecond : findDown (orderAt x y) w.blockSize 0 = none := by
    have hsucc : w.blockSize = w.blockSize - 1 + 1 := by omega
    rcases x.load_of_lt (i := w.blockSize - 1) (by omega) with ⟨a, ha, -⟩
    have hload : y.load (w.blockSize - 1) = none := y.load_of_le (by omega)
    rw [hsucc]
    simp [findDown, orderAt, ha, hload]
  simp [cmp, hlt, hfirst, hsecond]

/-- **Order.**  `operator<=>` stays inside both arrays and returns the order of the numbers if and
only if the operands are comparable in this sense, and otherwise it reads outside an array.  So it
agrees with `operator==` and is antisymmetric and transitive on comparable operands. -/
theorem order_iff {u : Width} (x : ArrayUint w) (y : ArrayUint v) (z : ArrayUint u) :
    (cmp x y = some (compare x.num y.num) ↔ Comparable x y) ∧
    (cmp x y = none ↔ ¬ Comparable x y) ∧
    (Comparable x y → (cmp x y = some .eq ↔ beq x y = some true)) ∧
    (Comparable x y → Comparable y x → cmp y x = (cmp x y).map Ordering.swap) ∧
    (Comparable x y → Comparable y z → Comparable x z → cmp x y ≠ some .gt →
      cmp y z ≠ some .gt → cmp x z ≠ some .gt) := by
  refine ⟨⟨fun hcmp => ?_, cmp_of_comparable⟩, ⟨fun hnone hcomp => ?_, cmp_of_not_comparable⟩,
    ?_, ?_, ?_⟩
  · by_contra hcomp
    rw [cmp_of_not_comparable hcomp] at hcmp
    cases hcmp
  · rw [cmp_of_comparable hcomp] at hnone
    cases hnone
  · intro hxy
    rw [cmp_of_comparable hxy, beq_eq]
    simp
  · intro hxy hyx
    rw [cmp_of_comparable hxy, cmp_of_comparable hyx, Option.map_some]
    have hswap : compare y.num x.num = (compare x.num y.num).swap := Std.OrientedCmp.eq_swap
    rw [hswap]
  · intro hxy hyz hxz
    rw [cmp_of_comparable hxy, cmp_of_comparable hyz, cmp_of_comparable hxz]
    simp only [ne_eq, Option.some.injEq, compare_gt_iff_gt, not_lt]
    intro h h'
    exact h.trans h'

/-- A longer number of 128 bits, and one of 64 bits. -/
theorem order_iff_mixed :
    ∃ (x : ArrayUint Width.w128) (y : ArrayUint Width.w64),
      cmp x y = some .gt ∧ cmp y x = some .lt ∧ x.num = 2 ^ 64 ∧ y.num = 7 := by
  let x : ArrayUint Width.w128 := ⟨[0, 1], rfl⟩
  let y : ArrayUint Width.w64 := ⟨[7], rfl⟩
  have hxy : Comparable x y := .inr (by decide)
  have hyx : Comparable y x := .inl (by decide)
  have horder := order_iff x y y
  have hgt : cmp x y = some .gt := by
    rw [horder.1.2 hxy]
    decide
  refine ⟨x, y, hgt, ?_, by decide, by decide⟩
  rw [horder.2.2.2.1 hxy hyx, hgt]
  rfl

/-- `5`, as 128 bits and as 64 bits: the loop reads block one of an array of one block. -/
theorem cmp_leaves_array :
    ¬ ∀ (w v : Width) (x : ArrayUint w) (y : ArrayUint v), x.Canonical → y.Canonical →
      cmp x y = some (compare x.num y.num) := by
  intro hall
  let x : ArrayUint Width.w128 := ⟨[5, 0], rfl⟩
  let y : ArrayUint Width.w64 := ⟨[5], rfl⟩
  have hx : x.Canonical := canonical_iff.2 (by decide)
  have hy : y.Canonical := canonical_iff.2 (by decide)
  have hnone : cmp x y = none := by decide
  have hsome := hall _ _ x y hx hy
  rw [hnone] at hsome
  cases hsome

end ArrayUint
end Struct
end Chenc
