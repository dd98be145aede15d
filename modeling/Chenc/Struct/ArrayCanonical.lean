import Chenc.Struct.ArrayShift

/-!
# ArrayCanonical — no bit above the width is ever set

* `Sanitised` : a routine stays inside its arrays and what it returns fits the width;
* `Produced` : the values that some sequence of operations produces or leaves in an object;
* `produced_canonical` : they are canonical, and `operator==` compares the numbers they denote.
-/

namespace Chenc
namespace Struct
namespace ArrayUint

variable {w v A B R : Width} {x : ArrayUint w} {i : Nat}

/-! ## Constructors and assignment -/

theorem exists_store (x : ArrayUint w) (h : i < w.blockSize) (b : U64) :
    ∃ y, x.store i b = some y := by
  rcases x.store_spec h b with ⟨y, hy, -⟩
  exact ⟨y, hy⟩

theorem exists_fill (x : ArrayUint w) {first last : Nat} (hle : first ≤ last)
    (hlast : last ≤ w.blockSize) (b : U64) : ∃ y, x.fill first last b = some y := by
  rcases x.fill_spec hle hlast b with ⟨y, hy, -⟩
  exact ⟨y, hy⟩

theorem exists_copy (val : ArrayUint v) (out : ArrayUint w) {n : Nat} (hv : n ≤ v.blockSize)
    (hw : n ≤ w.blockSize) : ∃ y, copy (fun _ i => val.load i) 0 n 0 out = some y := by
  rcases copy_spec (.other val : Operand w v) out (i := 0) (n := n) (by omega)
    (by omega) with ⟨y, hy, -⟩
  exact ⟨y, hy⟩

/-- What a routine returns is sanitised. -/
def Sanitised (r : Option (ArrayUint w)) : Prop :=
  ∃ x, r = some x ∧ x.num < 2 ^ w.bits

theorem Sanitised.of_bind {r : Option (ArrayUint w)} (h : ∃ y, r = some y) :
    Sanitised (r.bind fun x => some x.sanitize) := by
  rcases h with ⟨y, rfl⟩
  exact ⟨y.sanitize, rfl, y.num_sanitize_lt⟩

theorem Sanitised.lt {r : Option (ArrayUint w)} (h : Sanitised r) (hx : r = some x) :
    x.num < 2 ^ w.bits := by
  rcases h with ⟨y, hy, hlt⟩
  rw [hx] at hy
  cases hy
  exact hlt

theorem zero_num : (zero : ArrayUint w).num = 0 := by
  have hmod := num_mod_of_zeros (x := (zero : ArrayUint w)) (i := 0) (n := w.blockSize)
    (Nat.zero_le _) fun j _ hj => by
      have hget : (zero : ArrayUint w).data[j]? = some 0#64 := by
        simp [zero, hj]
      rw [block, Limbs.limb_of_getElem? hget]
      rfl
  rwa [num_mod_of_le _ _ le_rfl, Nat.mul_zero, Nat.pow_zero, Nat.mod_one] at hmod

theorem fromUnsigned_returns {k : Nat} (val : BitVec k) :
    Sanitised (fromUnsigned val : Option (ArrayUint w)) :=
  .of_bind (exists_store zero w.blockSize_pos _)

theorem fromSigned_returns {k : Nat} (before : ArrayUint w) (val : BitVec k) :
    Sanitised (fromSigned before val) := by
  rcases exists_store before w.blockSize_pos (val.signExtend 64) with ⟨y, hy⟩
  have hfill : ∀ b, ∃ z, y.fill 1 w.blockSize b = some z :=
    exists_fill y w.blockSize_pos le_rfl
  by_cases hneg : val.toInt < 0
  · have hrun : fromSigned before val =
        (y.fill 1 w.blockSize (-1)).bind fun x => some x.sanitize := by
      simp [fromSigned, hy, hneg]
    exact hrun ▸ .of_bind (hfill _)
  · have hrun : fromSigned before val =
        (y.fill 1 w.blockSize 0).bind fun x => some x.sanitize := by
      simp [fromSigned, hy, hneg]
    exact hrun ▸ .of_bind (hfill _)

theorem convert_returns (other : ArrayUint v) :
    Sanitised (convert other : Option (ArrayUint w)) :=
  .of_bind (exists_copy other zero (min_le_right _ _) (min_le_left _ _))

theorem assign_returns (x : ArrayUint w) (val : ArrayUint v) : Sanitised (assign x val) := by
  by_cases hlt : v.blockSize < w.blockSize
  · have hcopied : ∃ y, copy (fun _ i => val.load i) 0 v.blockSize 0 x = some y :=
      exists_copy val x (by omega) (by omega)
    rcases hcopied with ⟨y, hcopy⟩
    have hrun : assign x val =
        (y.fill v.blockSize w.blockSize 0).bind fun x => some x.sanitize := by
      simp [assign, hlt, hcopy]
    exact hrun ▸ .of_bind (exists_fill y hlt.le le_rfl _)
  · have hrun : assign x val =
        (copy (fun _ i => val.load i) 0 w.blockSize 0 x).bind fun x => some x.sanitize := by
      simp [assign, hlt]
    exact hrun ▸ .of_bind (exists_copy val x (by omega) (by omega))

/-! ## The kernels -/

theorem addTo_returns (out : ArrayUint R) (a : Operand R A) (b : Operand R B) :
    Sanitised (addTo out a b) := by
  rcases addTo_spec out a b with ⟨r, hr, hnum⟩
  exact ⟨r, hr, hnum ▸ Nat.mod_lt _ (Nat.two_pow_pos _)⟩

theorem subTo_returns (out : ArrayUint R) (a : Operand R A) (b : Operand R B) :
    Sanitised (subTo out a b) := by
  rcases subTo_spec out a b with ⟨r, hr, hlt, -⟩
  exact ⟨r, hr, hlt⟩

theorem leftShiftTo_returns (lay : Layout) (out : ArrayUint R) (a : Operand R A) (shift : U64) :
    Sanitised (leftShiftTo lay out a shift) := by
  rcases leftShiftTo_spec lay out a shift with ⟨r, hr, hnum⟩
  exact ⟨r, hr, hnum ▸ Nat.mod_lt _ (Nat.two_pow_pos _)⟩

theorem rightShiftTo_returns (out : ArrayUint R) (a : Operand R A) (shift : U64) :
    Sanitised (rightShiftTo out a shift) := by
  rcases rightShiftTo_spec out a shift with ⟨r, hr, hnum⟩
  refine ⟨r, hr, hnum ▸ ?_⟩
  split_ifs
  · exact Nat.two_pow_pos _
  · exact Nat.mod_lt _ (Nat.two_pow_pos _)

/-! ## The operators -/

theorem addAssignInt_returns {k : Nat} (x : ArrayUint w) (val : BitVec k) :
    Sanitised (addAssignInt x val) := by
  rcases fromUnsigned_returns (w := Width.w64) val with ⟨b, hb, -⟩
  have hrun : addAssignInt x val = addTo x .same (.other b) := by simp [addAssignInt, hb]
  exact hrun ▸ addTo_returns x .same (.other b)

theorem addInt_returns (v : Width) (x : ArrayUint w) (val : U64) :
    Sanitised (addInt v x val) := by
  rcases fromUnsigned_returns (w := Width.w64) val with ⟨b, hb, -⟩
  have hrun : addInt v x val = addTo zero (.other x) (.other b) := by simp [addInt, hb]
  exact hrun ▸ addTo_returns zero (.other x) (.other b)

theorem subAssignInt_returns {k : Nat} (x : ArrayUint w) (val : BitVec k) :
    Sanitised (subAssignInt x val) := by
  rcases fromUnsigned_returns (w := Width.w64) val with ⟨b, hb, -⟩
  have hrun : subAssignInt x val = subTo x .same (.other b) := by simp [subAssignInt, hb]
  exact hrun ▸ subTo_returns x .same (.other b)

theorem subInt_returns (v : Width) (x : ArrayUint w) (val : BitVec v.bits) :
    Sanitised (subInt v x val) := by
  rcases fromUnsigned_returns (w := Width.w64) val with ⟨b, hb, -⟩
  have hrun : subInt v x val = subTo zero (.other x) (.other b) := by simp [subInt, hb]
  exact hrun ▸ subTo_returns zero (.other x) (.other b)

theorem preIncrement_returns (x : ArrayUint w) : Sanitised (preIncrement x) := by
  rcases one_spec with ⟨b, hb, -⟩
  have hrun : preIncrement x = addTo x .same (.other b) := by simp [preIncrement, hb]
  exact hrun ▸ addTo_returns x .same (.other b)

theorem preDecrement_returns (x : ArrayUint w) : Sanitised (preDecrement x) := by
  rcases one_spec with ⟨b, hb, -⟩
  have hrun : preDecrement x = subTo x .same (.other b) := by simp [preDecrement, hb]
  exact hrun ▸ subTo_returns x .same (.other b)

/-- The post forms leave the object as it was. -/
theorem postIncrement_returns (x : ArrayUint w) :
    ∃ r, postIncrement x = some (x, r) ∧ r.num < 2 ^ w.bits := by
  rcases one_spec with ⟨b, hb, -⟩
  rcases addTo_returns (zero : ArrayUint w) (.other x) (.other b) with ⟨r, hr, hlt⟩
  exact ⟨r, by simp [postIncrement, hb, hr], hlt⟩

theorem postDecrement_returns (x : ArrayUint w) :
    ∃ r, postDecrement x = some (x, r) ∧ r.num < 2 ^ w.bits := by
  rcases one_spec with ⟨b, hb, -⟩
  rcases subTo_returns (zero : ArrayUint w) (.other x) (.other b) with ⟨r, hr, hlt⟩
  exact ⟨r, by simp [postDecrement, hb, hr], hlt⟩

theorem eq_of_returns {p : Option (ArrayUint w × ArrayUint w)} {object r : ArrayUint w}
    (h : ∃ r, p = some (x, r) ∧ r.num < 2 ^ w.bits) (hp : p = some (object, r)) :
    object = x ∧ r.num < 2 ^ w.bits := by
  rcases h with ⟨r', hr', hlt⟩
  rw [hp] at hr'
  cases hr'
  exact ⟨rfl, hlt⟩

/-! ## Sequences of operations -/

/-- The values that a sequence of operations produces, or leaves in the object it modifies. -/
inductive Produced : {w : Width} → ArrayUint w → Prop
  | default {w : Width} : Produced (zero : ArrayUint w)
  | fromUnsigned {w : Width} {k : Nat} (val : BitVec k) {r : ArrayUint w} :
      fromUnsigned val = some r → Produced r
  | fromSigned {w : Width} {k : Nat} (before : ArrayUint w) (val : BitVec k) {r : ArrayUint w} :
      fromSigned before val = some r → Produced r
  | convert {w v : Width} {x : ArrayUint v} {r : ArrayUint w} :
      Produced x → convert x = some r → Produced r
  | assign {w v : Width} {x r : ArrayUint w} {y : ArrayUint v} :
      Produced x → Produced y → assign x y = some r → Produced r
  | add {w v : Width} {x : ArrayUint w} {y : ArrayUint v} {r : ArrayUint (w.max v)} :
      Produced x → Produced y → add x y = some r → Produced r
  | addInt {w : Width} (v : Width) {x : ArrayUint w} (val : U64) {r : ArrayUint (w.max v)} :
      Produced x → addInt v x val = some r → Produced r
  | addAssign {w v : Width} {x r : ArrayUint w} (y : Operand w v) :
      Produced x → Produced (y.get x) → addAssign x y = some r → Produced r
  | addAssignInt {w : Width} {k : Nat} {x r : ArrayUint w} (val : BitVec k) :
      Produced x → addAssignInt x val = some r → Produced r
  | preIncrement {w : Width} {x r : ArrayUint w} :
      Produced x → preIncrement x = some r → Produced r
  | postIncrement {w : Width} {x object r : ArrayUint w} :
      Produced x → postIncrement x = some (object, r) → Produced r
  | postIncremented {w : Width} {x object r : ArrayUint w} :
      Produced x → postIncrement x = some (object, r) → Produced object
  | sub {w v : Width} {x : ArrayUint w} {y : ArrayUint v} {r : ArrayUint (w.max v)} :
      Produced x → Produced y → sub x y = some r → Produced r
  | subInt {w : Width} (v : Width) {x : ArrayUint w} (val : BitVec v.bits)
      {r : ArrayUint (w.max v)} : Produced x → subInt v x val = some r → Produced r
  | subAssign {w v : Width} {x r : ArrayUint w} (y : Operand w v) :
      Produced x → Produced (y.get x) → subAssign x y = some r → Produced r
  | subAssignInt {w : Width} {k : Nat} {x r : ArrayUint w} (val : BitVec k) :
      Produced x → subAssignInt x val = some r → Produced r
  | preDecrement {w : Width} {x r : ArrayUint w} :
      Produced x → preDecrement x = some r → Produced r
  | postDecrement {w : Width} {x object r : ArrayUint w} :
      Produced x → postDecrement x = some (object, r) → Produced r
  | postDecremented {w : Width} {x object r : ArrayUint w} :
      Produced x → postDecrement x = some (object, r) → Produced object
  | shiftLeft {w : Width} (lay : Layout) {x r : ArrayUint w} (shift : U64) :
      Produced x → shiftLeft lay x shift = some r → Produced r
  | shiftLeftAssign {w : Width} (lay : Layout) {x r : ArrayUint w} (shift : U64) :
      Produced x → shiftLeftAssign lay x shift = some r → Produced r
  | shiftRight {w : Width} {x r : ArrayUint w} (shift : U64) :
      Produced x → shiftRight x shift = some r → Produced r
  | shiftRightAssign {w : Width} {x r : ArrayUint w} (shift : U64) :
      Produced x → shiftRightAssign x shift = some r → Produced r

/-- What a sequence of operations produces has no bit at or above its width. -/
theorem Produced.canonical {w : Width} {x : ArrayUint w} (h : Produced x) : x.Canonical := by
  rw [canonical_iff]
  -- What each routine returns is sanitised; the post forms leave the old object as it was.
  induction h with
  | default =>
      rw [zero_num]
      exact Nat.two_pow_pos _
  | fromUnsigned val hr => exact (fromUnsigned_returns val).lt hr
  | fromSigned before val hr => exact (fromSigned_returns before val).lt hr
  | convert _ hr => exact (convert_returns _).lt hr
  | assign _ _ hr => exact (assign_returns _ _).lt hr
  | add _ _ hr => exact (addTo_returns zero (.other _) (.other _)).lt hr
  | addInt v val _ hr => exact (addInt_returns v _ val).lt hr
  | addAssign y _ _ hr => exact (addTo_returns _ .same y).lt hr
  | addAssignInt val _ hr => exact (addAssignInt_returns _ val).lt hr
  | preIncrement _ hr => exact (preIncrement_returns _).lt hr
  | postIncrement _ hr => exact (eq_of_returns (postIncrement_returns _) hr).2
  | postIncremented _ hr ih =>
      rw [(eq_of_returns (postIncrement_returns _) hr).1]
      exact ih
  | sub _ _ hr => exact (subTo_returns zero (.other _) (.other _)).lt hr
  | subInt v val _ hr => exact (subInt_returns v _ val).lt hr
  | subAssign y _ _ hr => exact (subTo_returns _ .same y).lt hr
  | subAssignInt val _ hr => exact (subAssignInt_returns _ val).lt hr
  | preDecrement _ hr => exact (preDecrement_returns _).lt hr
  | postDecrement _ hr => exact (eq_of_returns (postDecrement_returns _) hr).2
  | postDecremented _ hr ih =>
      rw [(eq_of_returns (postDecrement_returns _) hr).1]
      exact ih
  | shiftLeft lay shift _ hr => exact (leftShiftTo_returns lay zero (.other _) shift).lt hr
  | shiftLeftAssign lay shift _ hr => exact (leftShiftTo_returns lay _ .same shift).lt hr
  | shiftRight shift _ hr => exact (rightShiftTo_returns zero (.other _) shift).lt hr
  | shiftRightAssign shift _ hr => exact (rightShiftTo_returns _ .same shift).lt hr

/-- The number a value denotes: its bits below the width. -/
def number (x : ArrayUint w) : Nat :=
  x.num % 2 ^ w.bits

/-- **Canonical form.**  Whatever operations have produced a value, it has no bit at or above its
width; and `operator==`, between values of any two widths, compares the numbers they denote. -/
theorem produced_canonical :
    (∀ (w : Width) (x : ArrayUint w), Produced x → x.Canonical) ∧
      ∀ (w v : Width) (x : ArrayUint w) (y : ArrayUint v), Produced x → Produced y →
        beq x y = some (decide (x.number = y.number)) := by
  refine ⟨fun w x => Produced.canonical, fun w v x y hx hy => ?_⟩
  have hself : ∀ {u : Width} {z : ArrayUint u}, Produced z → z.number = z.num := by
    intro u z hz
    exact Nat.mod_eq_of_lt (canonical_iff.1 hz.canonical)
  rw [beq_eq, hself hx, hself hy]

/-- `-1` as 100 bits, shifted by one in place, and the same number as 130 bits. -/
theorem produced_canonical_shifted :
    ∃ (x : ArrayUint ⟨100, by decide⟩) (y : ArrayUint ⟨130, by decide⟩),
      x.num = 2 ^ 100 - 2 ∧ y.number = 2 ^ 100 - 2 ∧ x.Canonical ∧ beq x y = some true := by
  let x₀ : ArrayUint ⟨100, by decide⟩ := ⟨[0xFFFFFFFFFFFFFFFF, 0xFFFFFFFFF], rfl⟩
  let x : ArrayUint ⟨100, by decide⟩ := ⟨[0xFFFFFFFFFFFFFFFE, 0xFFFFFFFFF], rfl⟩
  let y : ArrayUint ⟨130, by decide⟩ := ⟨[0xFFFFFFFFFFFFFFFE, 0xFFFFFFFFF, 0], rfl⟩
  have hx₀ : fromSigned zero (-1 : BitVec 32) = some x₀ := rfl
  have hx : shiftLeftAssign ⟨0, 0, false⟩ x₀ 1 = some x := rfl
  have hy : convert x = some y := rfl
  have hpx : Produced x := .shiftLeftAssign _ _ (.fromSigned _ _ hx₀) hx
  have hpy : Produced y := .convert hpx hy
  refine ⟨x, y, rfl, rfl, produced_canonical.1 _ x hpx, ?_⟩
  rw [produced_canonical.2 _ _ x y hpx hpy]
  rfl

end ArrayUint
end Struct
end Chenc
