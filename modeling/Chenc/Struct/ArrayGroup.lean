import Mathlib.Data.ZMod.Basic
import Chenc.Struct.ArrayCanonical

/-!
# ArrayGroup — the integers modulo a power of two

At one width, `+` and `-` are the operations of a group.

* `Value` : the values without a bit above their width;
* `residue` : they are the integers modulo `2 ^ Bits`;
* `plus`, `minus` : `operator+` and `operator-` of two values of one width;
* `plus_eq`, `minus_eq` : the two kernels are addition and subtraction of residues;
* `group_laws` : what the group laws say about the operators, compound and aliased ones included.
-/

namespace Chenc
namespace Struct
namespace ArrayUint

variable {w : Width}

/-! ## Values -/

/-- A value with no bit at or above its width. -/
structure Value (w : Width) where
  array : ArrayUint w
  canonical : array.Canonical

theorem Value.lt (a : Value w) : a.array.num < 2 ^ w.bits :=
  canonical_iff.1 a.canonical

theorem Value.ext_num {a b : Value w} (h : a.array.num = b.array.num) : a = b := by
  cases a
  cases b
  cases num_inj h
  rfl

/-- The blocks of a number. -/
def ofNum (n : Nat) : ArrayUint w :=
  ⟨(List.range w.blockSize).map fun i => BitVec.ofNat 64 (n / 2 ^ (64 * i)), by simp⟩

theorem num_ofNum {n : Nat} (h : n < 2 ^ w.bits) : (ofNum n : ArrayUint w).num = n := by
  have hblock : ∀ j, j < w.blockSize →
      (ofNum n : ArrayUint w).block j = n / 2 ^ (64 * j) % 2 ^ 64 := by
    intro j hj
    have hget : (ofNum n : ArrayUint w).data[j]? = some (BitVec.ofNat 64 (n / 2 ^ (64 * j))) := by
      simp [ofNum, hj]
    rw [block, Limbs.limb_of_getElem? hget, BitVec.toNat_ofNat]
  rw [num_of_blocks _ hblock]
  exact Nat.mod_eq_of_lt (h.trans_le (Nat.pow_le_pow_right Nat.two_pos w.bits_le))

/-- The integers modulo `2 ^ Bits`. -/
abbrev Residue (w : Width) :=
  ZMod (2 ^ w.bits)

/-- A value and the residue it stands for. -/
def residue (w : Width) : Value w ≃ Residue w where
  toFun a := (a.array.num : Residue w)
  invFun z := ⟨ofNum z.val, canonical_iff.2 (by rw [num_ofNum z.val_lt]; exact z.val_lt)⟩
  left_inv a := by
    have hval : (a.array.num : Residue w).val = a.array.num := by
      rw [ZMod.val_natCast, Nat.mod_eq_of_lt a.lt]
    exact Value.ext_num ((congrArg (fun n => (ofNum n : ArrayUint w).num) hval).trans
      (num_ofNum a.lt))
  right_inv z := by
    have hnum : (ofNum z.val : ArrayUint w).num = z.val := num_ofNum z.val_lt
    exact (congrArg Nat.cast hnum).trans (ZMod.natCast_zmod_val z)

/-- A sanitised array is the value of its residue. -/
theorem eq_residue_symm {x : ArrayUint w} {z : Residue w} (hlt : x.num < 2 ^ w.bits)
    (h : (x.num : Residue w) = z) : x = ((residue w).symm z).array := by
  have hvalue : (⟨x, canonical_iff.2 hlt⟩ : Value w) = (residue w).symm z :=
    (Equiv.eq_symm_apply (residue w)).2 h
  exact congrArg Value.array hvalue

/-! ## The operators -/

theorem Width.max_self (w : Width) : w.max w = w := by
  cases w
  simp [Width.max]

/-- `array_uint<std::max({Bits, Bits})>` is `array_uint<Bits>`. -/
def sameWidth (x : ArrayUint (w.max w)) : ArrayUint w :=
  ⟨x.data, by rw [x.length_eq, Width.max_self]⟩

/-- `operator+` of two values of one width. -/
def plus (a b : ArrayUint w) : Option (ArrayUint w) :=
  (add a b).map sameWidth

/-- `operator-` of two values of one width. -/
def minus (a b : ArrayUint w) : Option (ArrayUint w) :=
  (sub a b).map sameWidth

section Kernels

variable {R : Width} (hR : R.bits = w.bits)

include hR

/-- At one width no operand has a bit in a block that the other does not have. -/
theorem addTo_same (out : ArrayUint R) (a b : Operand R w) :
    Adds (a.get out).num (b.get out).num (addTo out a b) := by
  have hclear : ∀ n, Clear n (64 * min w.blockSize w.blockSize) R.bits := fun _ =>
    clear_of_le (by rw [hR, min_self]; exact w.bits_le)
  exact (addTo_correct_iff out a b).2 ⟨hclear _, hclear _⟩

theorem subTo_same (out : ArrayUint R) (a b : Operand R w) :
    Subtracts (a.get out).num (b.get out).num (subTo out a b) :=
  (subTo_correct_iff out a b).2 (clear_of_le (by rw [hR]; exact w.bits_le))

end Kernels

section Residues

variable {x : ArrayUint w} {a b : Value w}

theorem eq_of_sum (h : x.num = (a.array.num + b.array.num) % 2 ^ w.bits) :
    x = ((residue w).symm (residue w a + residue w b)).array := by
  refine eq_residue_symm (h ▸ Nat.mod_lt _ (Nat.two_pow_pos _)) ?_
  rw [h, ZMod.natCast_mod, Nat.cast_add]
  rfl

theorem eq_of_difference
    (h : (x.num : Int) = ((a.array.num : Int) - b.array.num) % 2 ^ w.bits) :
    x = ((residue w).symm (residue w a - residue w b)).array := by
  have hpos : (0 : Int) < 2 ^ w.bits := by positivity
  have hlt : x.num < 2 ^ w.bits := by
    have hmod := Int.emod_lt_of_pos ((a.array.num : Int) - b.array.num) hpos
    rw [← h] at hmod
    exact_mod_cast hmod
  refine eq_residue_symm hlt ?_
  have hcast : ((x.num : Int) : Residue w) =
      (((a.array.num : Int) - b.array.num : Int) : Residue w) := by
    have hpow : (2 : Int) ^ w.bits = ((2 ^ w.bits : Nat) : Int) := by push_cast; rfl
    rw [h, hpow, ZMod.intCast_mod]
  rw [Int.cast_natCast, Int.cast_sub, Int.cast_natCast, Int.cast_natCast] at hcast
  exact hcast

/-- `operator+` adds residues. -/
theorem plus_eq (a b : Value w) : plus a.array b.array =
    some ((residue w).symm (residue w a + residue w b)).array := by
  have hbits : (w.max w).bits = w.bits := congrArg Width.bits (Width.max_self w)
  rcases addTo_same hbits zero (.other a.array) (.other b.array) with ⟨r, hr, hnum⟩
  have hnum' : (sameWidth r).num = (a.array.num + b.array.num) % 2 ^ w.bits := hbits ▸ hnum
  rw [plus, add, hr, Option.map_some, eq_of_sum hnum']

/-- `operator-` subtracts them. -/
theorem minus_eq (a b : Value w) : minus a.array b.array =
    some ((residue w).symm (residue w a - residue w b)).array := by
  have hbits : (w.max w).bits = w.bits := congrArg Width.bits (Width.max_self w)
  rcases subTo_same hbits zero (.other a.array) (.other b.array) with ⟨r, hr, hnum⟩
  have hnum' : ((sameWidth r).num : Int) =
      ((a.array.num : Int) - b.array.num) % 2 ^ w.bits := hbits ▸ hnum
  rw [minus, sub, hr, Option.map_some, eq_of_difference hnum']

/-- `operator+=` is `operator+`, whatever object the right operand is. -/
theorem addAssign_eq (a b : Value w) {y : Operand w w} (hy : y.get a.array = b.array) :
    addAssign a.array y = plus a.array b.array := by
  rcases addTo_same rfl a.array .same y with ⟨r, hr, hnum⟩
  rw [hy] at hnum
  rw [addAssign, hr, plus_eq, eq_of_sum hnum]

/-- `operator-=` is `operator-`, whatever object the right operand is. -/
theorem subAssign_eq (a b : Value w) {y : Operand w w} (hy : y.get a.array = b.array) :
    subAssign a.array y = minus a.array b.array := by
  rcases subTo_same rfl a.array .same y with ⟨r, hr, hnum⟩
  rw [hy] at hnum
  rw [subAssign, hr, minus_eq, eq_of_difference hnum]

theorem zero_eq : (zero : ArrayUint w) = ((residue w).symm 0).array :=
  eq_residue_symm (by rw [zero_num]; exact Nat.two_pow_pos _) (by rw [zero_num, Nat.cast_zero])

end Residues

/-! ## The laws -/

/-- What the group laws say about the operators. -/
structure Laws (a b c : Value w) : Prop where
  add_sub : (plus a.array b.array).bind (minus · b.array) = some a.array
  sub_add : (minus a.array b.array).bind (plus · b.array) = some a.array
  comm : plus a.array b.array = plus b.array a.array
  assoc : (plus a.array b.array).bind (plus · c.array) =
    (plus b.array c.array).bind (plus a.array ·)
  sub_eq_zero : minus a.array b.array = some zero ↔ beq a.array b.array = some true
  /-- `a += b` and `a -= b`. -/
  addAssign : addAssign a.array (.other b.array) = plus a.array b.array
  subAssign : subAssign a.array (.other b.array) = minus a.array b.array
  /-- `a += a` and `a -= a`. -/
  addAssign_self : ArrayUint.addAssign a.array .same = plus a.array a.array
  subAssign_self : ArrayUint.subAssign a.array .same = some zero

theorem laws (a b c : Value w) : Laws a b c where
  add_sub := by
    rw [plus_eq, Option.bind_some, minus_eq, Equiv.apply_symm_apply, add_sub_cancel_right,
      Equiv.symm_apply_apply]
  sub_add := by
    rw [minus_eq, Option.bind_some, plus_eq, Equiv.apply_symm_apply, sub_add_cancel,
      Equiv.symm_apply_apply]
  comm := by
    rw [plus_eq, plus_eq, add_comm]
  assoc := by
    rw [plus_eq, plus_eq, Option.bind_some, Option.bind_some, plus_eq, plus_eq,
      Equiv.apply_symm_apply, Equiv.apply_symm_apply, add_assoc]
  sub_eq_zero := by
    rw [minus_eq, zero_eq, beq_eq, Option.some_inj, Option.some_inj, decide_eq_true_iff]
    constructor
    · intro h
      have hzero : (residue w).symm (residue w a - residue w b) = (residue w).symm 0 :=
        Value.ext_num (congrArg num h)
      rw [Equiv.apply_eq_iff_eq, sub_eq_zero, Equiv.apply_eq_iff_eq] at hzero
      rw [hzero]
    · intro h
      rw [Value.ext_num h, sub_self]
  addAssign := addAssign_eq a b rfl
  subAssign := subAssign_eq a b rfl
  addAssign_self := addAssign_eq a a rfl
  subAssign_self := by
    rw [subAssign_eq a a rfl, minus_eq, sub_self, zero_eq]

/-- **The group.**  At every width the values are the integers modulo `2 ^ Bits` (`residue`), with
`+` and `-` for addition and subtraction; so a sum less an operand is the other one, sums commute
and associate, a difference is zero exactly for equal values, and the compound forms give the same
also when both operands are one object. -/
theorem group_laws (w : Width) :
    (∀ a b : Value w,
      plus a.array b.array = some ((residue w).symm (residue w a + residue w b)).array ∧
      minus a.array b.array = some ((residue w).symm (residue w a - residue w b)).array) ∧
      ∀ a b c : Value w, Laws a b c :=
  ⟨fun a b => ⟨plus_eq a b, minus_eq a b⟩, laws⟩

end ArrayUint
end Struct
end Chenc
