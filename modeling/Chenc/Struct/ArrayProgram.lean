import Chenc.Struct.ArrayConvert

/-!
# ArrayProgram — programs over variables of several widths

Straight-line code over `array_uint` variables: assignments, compound operators with any of the
variables on the right (the one on the left too), shifts in place, and expressions of any depth.

* `Expr`, `Stmt`, `run` : the code, each operator as the call of the routine that it is;
* `Expr.value`, `Stmt.value`, `meaning` : the same over the numbers, modulo a power of two;
* `Covered` : no operator drops a block whose bits count;
* `Fitted` : the widths alone see to that;
* `programs_exact` : every program runs within its arrays, and computes what it means.
-/

namespace Chenc
namespace Struct
namespace ArrayUint

variable {Var : Type} {w v : Width}

/-! ## The code -/

/-- Expressions over variables of the widths `W`. -/
inductive Expr (W : Var → Width) : Width → Type
  | var (x : Var) : Expr W (W x)
  | unsigned {w : Width} {k : Nat} (val : BitVec k) : Expr W w
  /-- `before` is what the storage of the temporary holds. -/
  | signed {w : Width} {k : Nat} (before : ArrayUint w) (val : BitVec k) : Expr W w
  | convert {w v : Width} (e : Expr W v) : Expr W w
  | add {w v : Width} (e : Expr W w) (e' : Expr W v) : Expr W (w.max v)
  | addInt {w : Width} (v : Width) (e : Expr W w) (val : U64) : Expr W (w.max v)
  | sub {w v : Width} (e : Expr W w) (e' : Expr W v) : Expr W (w.max v)
  | subInt {w : Width} (v : Width) (e : Expr W w) (val : BitVec v.bits) : Expr W (w.max v)
  | shiftLeft {w : Width} (lay : Layout) (e : Expr W w) (shift : U64) : Expr W w
  | shiftRight {w : Width} (e : Expr W w) (shift : U64) : Expr W w

inductive Stmt (W : Var → Width)
  | assign (x : Var) {v : Width} (e : Expr W v)
  | addAssign (x : Var) {v : Width} (e : Expr W v)
  | addAssignInt (x : Var) {k : Nat} (val : BitVec k)
  | subAssign (x : Var) {v : Width} (e : Expr W v)
  | subAssignInt (x : Var) {k : Nat} (val : BitVec k)
  | shiftLeftAssign (x : Var) (lay : Layout) (shift : U64)
  | shiftRightAssign (x : Var) (shift : U64)
  | preIncrement (x : Var)
  | preDecrement (x : Var)

variable {W : Var → Width}

/-- The variables. -/
abbrev Store (W : Var → Width) := ∀ x, ArrayUint (W x)

def Expr.eval (σ : Store W) : {w : Width} → Expr W w → Option (ArrayUint w)
  | _, .var x => some (σ x)
  | _, .unsigned val => fromUnsigned val
  | _, .signed before val => fromSigned before val
  | _, .convert e => (e.eval σ).bind ArrayUint.convert
  | _, .add e e' => (e.eval σ).bind fun a => (e'.eval σ).bind (ArrayUint.add a)
  | _, .addInt v e val => (e.eval σ).bind fun a => ArrayUint.addInt v a val
  | _, .sub e e' => (e.eval σ).bind fun a => (e'.eval σ).bind (ArrayUint.sub a)
  | _, .subInt v e val => (e.eval σ).bind fun a => ArrayUint.subInt v a val
  | _, .shiftLeft lay e shift => (e.eval σ).bind fun a => ArrayUint.shiftLeft lay a shift
  | _, .shiftRight e shift => (e.eval σ).bind fun a => ArrayUint.shiftRight a shift

/-- The object that receives the result. -/
def Operand.sameOf (h : v = w) : Operand w v :=
  h ▸ .same

variable [DecidableEq Var]

/-- The right operand of a compound operator of `x`: a variable is passed as it is. -/
def Expr.operand (σ : Store W) (x : Var) : {v : Width} → Expr W v → Option (Operand (W x) v)
  | _, .var y => some (if h : y = x then .sameOf (congrArg W h) else .other (σ y))
  | _, e => (e.eval σ).map .other

/-- `x = val`: within one width the compiler's own assignment. -/
def assignTo (x : ArrayUint w) (val : ArrayUint v) : Option (ArrayUint w) :=
  if h : v = w then some (h ▸ val) else assign x val

namespace Stmt

def target : Stmt W → Var
  | .assign x _ | .addAssign x _ | .addAssignInt x _ | .subAssign x _ | .subAssignInt x _
  | .shiftLeftAssign x _ _ | .shiftRightAssign x _ | .preIncrement x | .preDecrement x => x

/-- What the statement leaves in its target. -/
def result (σ : Store W) : (s : Stmt W) → Option (ArrayUint (W s.target))
  | .assign x e => (e.eval σ).bind (assignTo (σ x))
  | .addAssign x e => (e.operand σ x).bind (ArrayUint.addAssign (σ x))
  | .addAssignInt x val => ArrayUint.addAssignInt (σ x) val
  | .subAssign x e => (e.operand σ x).bind (ArrayUint.subAssign (σ x))
  | .subAssignInt x val => ArrayUint.subAssignInt (σ x) val
  | .shiftLeftAssign x lay shift => ArrayUint.shiftLeftAssign lay (σ x) shift
  | .shiftRightAssign x shift => ArrayUint.shiftRightAssign (σ x) shift
  | .preIncrement x => ArrayUint.preIncrement (σ x)
  | .preDecrement x => ArrayUint.preDecrement (σ x)

def exec (σ : Store W) (s : Stmt W) : Option (Store W) :=
  (s.result σ).map (Function.update σ s.target)

end Stmt

def runProgram : List (Stmt W) → Store W → Option (Store W)
  | [], σ => some σ
  | s :: rest, σ => (s.exec σ).bind (runProgram rest)

/-! ## The meaning -/

/-- An integer modulo `2 ^ Bits`. -/
def wrap (w : Width) (n : ℤ) : Nat :=
  (n % 2 ^ w.bits).toNat

def Expr.value (n : Var → Nat) : {w : Width} → Expr W w → Nat
  | _, .var x => n x
  | w, .unsigned val => wrap w val.toNat
  | w, .signed _ val => wrap w val.toInt
  | w, .convert e => wrap w (e.value n)
  | _, .add (w := w) (v := v) e e' => wrap (w.max v) (e.value n + e'.value n)
  | _, .addInt (w := w) v e val => wrap (w.max v) (e.value n + val.toNat)
  | _, .sub (w := w) (v := v) e e' => wrap (w.max v) (e.value n - e'.value n)
  | _, .subInt (w := w) v e val => wrap (w.max v) (e.value n - val.toNat)
  | w, .shiftLeft _ e shift => wrap w (e.value n * 2 ^ shift.toNat)
  | _, .shiftRight e shift => e.value n / 2 ^ shift.toNat

def Stmt.value (n : Var → Nat) : Stmt W → Nat
  | .assign x e => wrap (W x) (e.value n)
  | .addAssign x e => wrap (W x) (n x + e.value n)
  | .addAssignInt x val => wrap (W x) (n x + val.toNat)
  | .subAssign x e => wrap (W x) (n x - e.value n)
  | .subAssignInt x val => wrap (W x) (n x - val.toNat)
  | .shiftLeftAssign x _ shift => wrap (W x) (n x * 2 ^ shift.toNat)
  | .shiftRightAssign x shift => n x / 2 ^ shift.toNat
  | .preIncrement x => wrap (W x) (n x + 1)
  | .preDecrement x => wrap (W x) (n x - 1)

def Stmt.effect (n : Var → Nat) (s : Stmt W) : Var → Nat :=
  Function.update n s.target (s.value n)

def meaning (p : List (Stmt W)) (n : Var → Nat) : Var → Nat :=
  p.foldl Stmt.effect n

/-! ## Blocks that count -/

/-- No bit that counts is in a block that the other operand of `+`, or the left one of `-`, does not
have; integers have at most 64 bits. -/
def Expr.Covered (n : Var → Nat) : {w : Width} → Expr W w → Prop
  | _, .var _ => True
  | _, .unsigned (k := k) _ => k ≤ 64
  | _, .signed (k := k) _ _ => k ≤ 64
  | _, .convert e => e.Covered n
  | _, .add (w := w) (v := v) e e' => (e.Covered n ∧ e'.Covered n) ∧
      Clear (e.value n) (64 * min w.blockSize v.blockSize) (w.max v).bits ∧
      Clear (e'.value n) (64 * min w.blockSize v.blockSize) (w.max v).bits
  | _, .addInt (w := w) v e _ => e.Covered n ∧ Clear (e.value n) 64 (w.max v).bits
  | _, .sub (w := w) (v := v) e e' => (e.Covered n ∧ e'.Covered n) ∧
      Clear (e'.value n) (64 * w.blockSize) (w.max v).bits
  | _, .subInt v e _ => e.Covered n ∧ v.bits ≤ 64
  | _, .shiftLeft _ e _ => e.Covered n
  | _, .shiftRight e _ => e.Covered n

def Stmt.Covered (n : Var → Nat) : Stmt W → Prop
  | .assign _ e => e.Covered n
  | .addAssign (v := v) x e => e.Covered n ∧
      Clear (n x) (64 * min (W x).blockSize v.blockSize) (W x).bits ∧
      Clear (e.value n) (64 * min (W x).blockSize v.blockSize) (W x).bits
  | .addAssignInt (k := k) x _ => k ≤ 64 ∧ Clear (n x) 64 (W x).bits
  | .subAssign _ e => e.Covered n
  | .subAssignInt (k := k) _ _ => k ≤ 64
  | .shiftLeftAssign _ _ _ | .shiftRightAssign _ _ => True
  | .preIncrement x => Clear (n x) 64 (W x).bits
  | .preDecrement _ => True

/-- Each statement is covered when it is reached. -/
def Covered : List (Stmt W) → (Var → Nat) → Prop
  | [], _ => True
  | s :: rest, n => s.Covered n ∧ Covered rest (s.effect n)

/-! ## One operator -/

section Operators

variable {r : Option (ArrayUint w)} {m : Nat} {x a : ArrayUint w} {b : ArrayUint v}

/-- What is returned has the number `m`, within its width. -/
def Returns (r : Option (ArrayUint w)) (m : Nat) : Prop :=
  ∃ x, r = some x ∧ x.num = m ∧ m < 2 ^ w.bits

theorem cast_wrap (w : Width) (n : ℤ) : (wrap w n : ℤ) = n % 2 ^ w.bits :=
  Int.toNat_of_nonneg (Int.emod_nonneg _ (by positivity))

theorem wrap_lt (w : Width) (n : ℤ) : wrap w n < 2 ^ w.bits := by
  have hlt := Int.emod_lt_of_pos n (show (0 : ℤ) < 2 ^ w.bits by positivity)
  rw [← cast_wrap] at hlt
  exact_mod_cast hlt

theorem wrap_of_lt (h : m < 2 ^ w.bits) : wrap w m = m := by
  have hmod : ((m : ℤ)) % 2 ^ w.bits = m :=
    Int.emod_eq_of_lt (Int.natCast_nonneg _) (by exact_mod_cast h)
  exact_mod_cast (cast_wrap w m).trans hmod

theorem Denotes.returns {n : ℤ} (h : Denotes r n) : Returns r (wrap w n) := by
  rcases h with ⟨x, hx, hnum⟩
  rw [← cast_wrap] at hnum
  exact ⟨x, hx, by exact_mod_cast hnum, wrap_lt w n⟩

theorem Returns.sanitised (h : Returns r m) : Sanitised r := by
  rcases h with ⟨x, hx, rfl, hlt⟩
  exact ⟨x, hx, hlt⟩

theorem denotes_of_adds {m k : Nat} (h : Adds m k r) : Denotes r (m + k) := by
  rcases h with ⟨x, hx, hnum⟩
  exact_mod_cast Denotes.of_num hx hnum

/-- An integer as 64 bits. -/
theorem fromUnsigned_w64 {k : Nat} (hk : k ≤ 64) (val : BitVec k) :
    ∃ b : ArrayUint Width.w64, fromUnsigned val = some b ∧ b.num = val.toNat := by
  rcases (fromUnsigned_denotes (w := Width.w64) hk val).returns with ⟨b, hb, hnum, -⟩
  have hlt : val.toNat < 2 ^ Width.w64.bits :=
    val.isLt.trans_le (Nat.pow_le_pow_right Nat.two_pos hk)
  exact ⟨b, hb, hnum.trans (wrap_of_lt hlt)⟩

theorem clear_w64 {k : Nat} (hk : k ≤ 64) (val : BitVec k) {lo hi : Nat} (hlo : 64 ≤ lo) :
    Clear val.toNat lo hi :=
  clear_of_lt (val.isLt.trans_le (Nat.pow_le_pow_right Nat.two_pos (hk.trans hlo)))

theorem min_w64 (w : Width) : 64 * min w.blockSize Width.w64.blockSize = 64 := by
  have hpos := w.blockSize_pos
  have hone : Width.w64.blockSize = 1 := rfl
  rw [hone, min_eq_right hpos]

theorem add_denotes (ha : Clear a.num (64 * min w.blockSize v.blockSize) (w.max v).bits)
    (hb : Clear b.num (64 * min w.blockSize v.blockSize) (w.max v).bits) :
    Denotes (add a b) (a.num + b.num) :=
  denotes_of_adds ((addTo_correct_iff zero (.other a) (.other b)).2 ⟨ha, hb⟩)

theorem addInt_denotes (val : U64) (ha : Clear a.num 64 (w.max v).bits) :
    Denotes (addInt v a val) (a.num + val.toNat) := by
  rcases fromUnsigned_w64 le_rfl val with ⟨b, hb, hnum⟩
  have hadds := (addTo_correct_iff (zero : ArrayUint (w.max v)) (.other a) (.other b)).2
    (by rw [min_w64]; exact ⟨ha, hnum ▸ clear_w64 le_rfl val le_rfl⟩)
  have hrun : addInt v a val = addTo zero (.other a) (.other b) := by simp [addInt, hb]
  rw [hrun, ← hnum]
  exact denotes_of_adds hadds

theorem sub_denotes (hb : Clear b.num (64 * w.blockSize) (w.max v).bits) :
    Denotes (sub a b) (a.num - b.num) :=
  (subTo_correct_iff zero (.other a) (.other b)).2 hb

theorem subInt_denotes (hv : v.bits ≤ 64) (a : ArrayUint w) (val : BitVec v.bits) :
    Denotes (subInt v a val) (a.num - val.toNat) := by
  rcases fromUnsigned_w64 hv val with ⟨b, hb, hnum⟩
  have hpos := w.blockSize_pos
  have hsub := (subTo_correct_iff (zero : ArrayUint (w.max v)) (.other a) (.other b)).2
    (hnum ▸ clear_w64 hv val (by omega))
  have hrun : subInt v a val = subTo zero (.other a) (.other b) := by simp [subInt, hb]
  rw [hrun, ← hnum]
  exact hsub

theorem leftShift_denotes (lay : Layout) (out : ArrayUint w) (a : Operand w w) (shift : U64) :
    Denotes (leftShiftTo lay out a shift) ((a.get out).num * 2 ^ shift.toNat) := by
  rcases leftShiftTo_spec lay out a shift with ⟨r, hr, hnum⟩
  exact_mod_cast Denotes.of_num hr hnum

theorem rightShift_returns (out : ArrayUint w) (a : Operand w w) (shift : U64)
    (ha : (a.get out).num < 2 ^ w.bits) :
    Returns (rightShiftTo out a shift) ((a.get out).num / 2 ^ shift.toNat) := by
  rcases rightShiftTo_spec out a shift with ⟨r, hr, hnum⟩
  have hlt : (a.get out).num / 2 ^ shift.toNat < 2 ^ w.bits := (Nat.div_le_self _ _).trans_lt ha
  refine ⟨r, hr, ?_, hlt⟩
  rw [hnum]
  split_ifs with hbig
  · -- Shifted out altogether.
    exact (Nat.div_eq_of_lt (ha.trans_le (Nat.pow_le_pow_right Nat.two_pos hbig))).symm
  · exact Nat.mod_eq_of_lt hlt

theorem addAssign_denotes (y : Operand w v)
    (hx : Clear x.num (64 * min w.blockSize v.blockSize) w.bits)
    (hy : Clear (y.get x).num (64 * min w.blockSize v.blockSize) w.bits) :
    Denotes (addAssign x y) (x.num + (y.get x).num) :=
  denotes_of_adds ((addTo_correct_iff x .same y).2 ⟨hx, hy⟩)

theorem addAssignInt_denotes {k : Nat} (hk : k ≤ 64) (val : BitVec k) (hx : Clear x.num 64 w.bits) :
    Denotes (addAssignInt x val) (x.num + val.toNat) := by
  rcases fromUnsigned_w64 hk val with ⟨b, hb, hnum⟩
  have hadds := (addTo_correct_iff x .same (.other b)).2
    (by rw [min_w64]; exact ⟨hx, hnum ▸ clear_w64 hk val le_rfl⟩)
  have hrun : addAssignInt x val = addTo x .same (.other b) := by simp [addAssignInt, hb]
  rw [hrun, ← hnum]
  exact denotes_of_adds hadds

theorem subAssign_denotes (x : ArrayUint w) (y : Operand w v) :
    Denotes (subAssign x y) (x.num - (y.get x).num) :=
  (subTo_correct_iff x .same y).2 (clear_of_le w.bits_le)

theorem subAssignInt_denotes {k : Nat} (hk : k ≤ 64) (x : ArrayUint w) (val : BitVec k) :
    Denotes (subAssignInt x val) (x.num - val.toNat) := by
  rcases fromUnsigned_w64 hk val with ⟨b, hb, hnum⟩
  have hrun : subAssignInt x val = subAssign x (.other b) := by
    simp [subAssignInt, subAssign, hb]
  rw [hrun, ← hnum]
  exact subAssign_denotes x (.other b)

theorem preIncrement_denotes (hx : Clear x.num 64 w.bits) :
    Denotes (preIncrement x) (x.num + 1) := by
  rcases one_spec with ⟨b, hb, hnum⟩
  have hadds := (addTo_correct_iff x .same (.other b)).2
    (by rw [min_w64]; exact ⟨hx, clear_of_lt (hnum ▸ by norm_num)⟩)
  have hrun : preIncrement x = addTo x .same (.other b) := by simp [preIncrement, hb]
  have hone : (1 : ℤ) = b.num := by rw [hnum]; rfl
  rw [hrun, hone]
  exact denotes_of_adds hadds

theorem preDecrement_denotes (x : ArrayUint w) : Denotes (preDecrement x) (x.num - 1) := by
  rcases one_spec with ⟨b, hb, hnum⟩
  have hrun : preDecrement x = subAssign x (.other b) := by simp [preDecrement, subAssign, hb]
  have hone : (1 : ℤ) = b.num := by rw [hnum]; rfl
  rw [hrun, hone]
  exact subAssign_denotes x (.other b)

theorem assignTo_returns (x : ArrayUint w) {val : ArrayUint v} (hval : val.num < 2 ^ v.bits) :
    Returns (assignTo x val) (wrap w val.num) := by
  by_cases h : v = w
  · subst h
    exact ⟨val, by simp [assignTo], (wrap_of_lt hval).symm, wrap_lt _ _⟩
  · rw [assignTo, dif_neg h]
    exact (assign_denotes x val).returns

end Operators

/-! ## Expressions and statements -/

section Steps

variable {σ : Store W} {n : Var → Nat}

/-- The variables hold the numbers `n`. -/
structure Shows (σ : Store W) (n : Var → Nat) : Prop where
  num (x : Var) : (σ x).num = n x
  lt (x : Var) : n x < 2 ^ (W x).bits

omit [DecidableEq Var] in
theorem Expr.returns (h : Shows σ n) {w : Width} (e : Expr W w) (he : e.Covered n) :
    Returns (e.eval σ) (e.value n) := by
  induction e with
  | var x => exact ⟨σ x, rfl, h.num x, h.lt x⟩
  | unsigned val => exact (fromUnsigned_denotes he val).returns
  | signed before val => exact (fromSigned_denotes he before val).returns
  | convert e ih =>
      rcases ih he with ⟨a, ha, hnum, -⟩
      rw [Expr.eval, ha, Option.bind_some, Expr.value, ← hnum]
      exact (convert_denotes a).returns
  | add e e' ih ih' =>
      rcases he with ⟨⟨he, he'⟩, hclear, hclear'⟩
      rcases ih he with ⟨a, ha, hnum, -⟩
      rcases ih' he' with ⟨b, hb, hnum', -⟩
      rw [Expr.eval, ha, Option.bind_some, hb, Option.bind_some, Expr.value, ← hnum, ← hnum']
      rw [← hnum] at hclear
      rw [← hnum'] at hclear'
      exact (add_denotes hclear hclear').returns
  | addInt v e val ih =>
      rcases he with ⟨he, hclear⟩
      rcases ih he with ⟨a, ha, hnum, -⟩
      rw [Expr.eval, ha, Option.bind_some, Expr.value, ← hnum]
      rw [← hnum] at hclear
      exact (addInt_denotes val hclear).returns
  | sub e e' ih ih' =>
      rcases he with ⟨⟨he, he'⟩, hclear'⟩
      rcases ih he with ⟨a, ha, hnum, -⟩
      rcases ih' he' with ⟨b, hb, hnum', -⟩
      rw [Expr.eval, ha, Option.bind_some, hb, Option.bind_some, Expr.value, ← hnum, ← hnum']
      rw [← hnum'] at hclear'
      exact (sub_denotes hclear').returns
  | subInt v e val ih =>
      rcases he with ⟨he, hv⟩
      rcases ih he with ⟨a, ha, hnum, -⟩
      rw [Expr.eval, ha, Option.bind_some, Expr.value, ← hnum]
      exact (subInt_denotes hv a val).returns
  | shiftLeft lay e shift ih =>
      rcases ih he with ⟨a, ha, hnum, -⟩
      rw [Expr.eval, ha, Option.bind_some, Expr.value, ← hnum]
      exact (leftShift_denotes lay zero (.other a) shift).returns
  | shiftRight e shift ih =>
      rcases ih he with ⟨a, ha, hnum, hlt⟩
      rw [Expr.eval, ha, Option.bind_some, Expr.value, ← hnum]
      exact rightShift_returns zero (.other a) shift (hnum ▸ hlt)

/-- The operand stands for the value of the expression. -/
theorem Expr.operand_eval (σ : Store W) (x : Var) {v : Width} (e : Expr W v) :
    (e.operand σ x).map (Operand.get (σ x)) = e.eval σ := by
  cases e with
  | var y =>
      by_cases hy : y = x
      · subst hy
        simp [Expr.operand, Expr.eval, Operand.sameOf, Operand.get]
      · simp [Expr.operand, Expr.eval, hy, Operand.get]
  | _ =>
      show ((Expr.eval σ _).map Operand.other).map (Operand.get (σ x)) = _
      rw [Option.map_map]
      exact Option.map_id'

/-- The right operand of a compound operator. -/
theorem Expr.exists_operand (h : Shows σ n) (x : Var) {v : Width} (e : Expr W v)
    (he : e.Covered n) : ∃ y, e.operand σ x = some y ∧ (y.get (σ x)).num = e.value n := by
  rcases e.returns h he with ⟨a, ha, hnum, -⟩
  rw [← e.operand_eval σ x] at ha
  rcases Option.map_eq_some_iff.1 ha with ⟨y, hy, rfl⟩
  exact ⟨y, hy, hnum⟩

theorem Stmt.returns (h : Shows σ n) (s : Stmt W) (hs : s.Covered n) :
    Returns (s.result σ) (s.value n) := by
  cases s with
  | assign x e =>
      rcases e.returns h hs with ⟨a, ha, hnum, hlt⟩
      show Returns ((e.eval σ).bind (assignTo (σ x))) _
      rw [ha, Option.bind_some, Stmt.value, ← hnum]
      exact assignTo_returns (σ x) (hnum ▸ hlt)
  | addAssign x e =>
      rcases hs with ⟨he, hclear, hclear'⟩
      rcases e.exists_operand h x he with ⟨y, hy, hnum⟩
      show Returns ((e.operand σ x).bind (ArrayUint.addAssign (σ x))) _
      rw [hy, Option.bind_some, Stmt.value, ← hnum, ← h.num]
      rw [← h.num] at hclear
      rw [← hnum] at hclear'
      exact (addAssign_denotes y hclear hclear').returns
  | addAssignInt x val =>
      rw [Stmt.value, ← h.num]
      exact (addAssignInt_denotes hs.1 val (h.num x ▸ hs.2)).returns
  | subAssign x e =>
      rcases e.exists_operand h x hs with ⟨y, hy, hnum⟩
      show Returns ((e.operand σ x).bind (ArrayUint.subAssign (σ x))) _
      rw [hy, Option.bind_some, Stmt.value, ← hnum, ← h.num]
      exact (subAssign_denotes (σ x) y).returns
  | subAssignInt x val =>
      rw [Stmt.value, ← h.num]
      exact (subAssignInt_denotes hs (σ x) val).returns
  | shiftLeftAssign x lay shift =>
      rw [Stmt.value, ← h.num]
      exact (leftShift_denotes lay (σ x) .same shift).returns
  | shiftRightAssign x shift =>
      rw [Stmt.value, ← h.num]
      exact rightShift_returns (σ x) .same shift (h.num x ▸ h.lt x)
  | preIncrement x =>
      rw [Stmt.value, ← h.num]
      exact (preIncrement_denotes (h.num x ▸ hs)).returns
  | preDecrement x =>
      rw [Stmt.value, ← h.num]
      exact (preDecrement_denotes (σ x)).returns

/-- One statement, and the numbers after it. -/
theorem Shows.exec (h : Shows σ n) (s : Stmt W) (hs : s.Covered n) :
    ∃ σ', s.exec σ = some σ' ∧ Shows σ' (s.effect n) := by
  rcases s.returns h hs with ⟨a, ha, hnum, hlt⟩
  refine ⟨Function.update σ s.target a, by rw [Stmt.exec, ha, Option.map_some], ?_, ?_⟩
  · intro x
    by_cases hx : x = s.target
    · subst hx
      rw [Function.update_self, Stmt.effect, Function.update_self, hnum]
    · rw [Function.update_of_ne hx, Stmt.effect, Function.update_of_ne hx]
      exact h.num x
  · intro x
    by_cases hx : x = s.target
    · subst hx
      rw [Stmt.effect, Function.update_self]
      exact hlt
    · rw [Stmt.effect, Function.update_of_ne hx]
      exact h.lt x

/-- A program, statement by statement. -/
theorem Shows.run (h : Shows σ n) (p : List (Stmt W)) (hp : Covered p n) :
    ∃ σ', runProgram p σ = some σ' ∧ Shows σ' (meaning p n) := by
  induction p generalizing σ n with
  | nil => exact ⟨σ, rfl, h⟩
  | cons s rest ih =>
      rcases h.exec s hp.1 with ⟨σ₁, hexec, hshows⟩
      rcases ih hshows hp.2 with ⟨σ', hrun, hshows'⟩
      exact ⟨σ', by rw [runProgram, hexec, Option.bind_some, hrun], hshows'⟩

end Steps

/-! ## Every program -/

section Programs

variable {σ : Store W} {n : Var → Nat}

/-- The numbers of the variables. -/
def numbers (σ : Store W) (x : Var) : Nat :=
  (σ x).num

omit [DecidableEq Var] in
/-- No expression leaves its arrays. -/
theorem Expr.sanitised (hσ : ∀ x, numbers σ x < 2 ^ (W x).bits) {w : Width} (e : Expr W w) :
    Sanitised (e.eval σ) := by
  induction e with
  | var x => exact ⟨σ x, rfl, hσ x⟩
  | unsigned val => exact fromUnsigned_returns val
  | signed before val => exact fromSigned_returns before val
  | convert e ih =>
      rcases ih with ⟨a, ha, -⟩
      rw [Expr.eval, ha, Option.bind_some]
      exact convert_returns a
  | add e e' ih ih' =>
      rcases ih with ⟨a, ha, -⟩
      rcases ih' with ⟨b, hb, -⟩
      rw [Expr.eval, ha, Option.bind_some, hb, Option.bind_some]
      exact addTo_returns zero (.other a) (.other b)
  | addInt v e val ih =>
      rcases ih with ⟨a, ha, -⟩
      rw [Expr.eval, ha, Option.bind_some]
      exact addInt_returns v a val
  | sub e e' ih ih' =>
      rcases ih with ⟨a, ha, -⟩
      rcases ih' with ⟨b, hb, -⟩
      rw [Expr.eval, ha, Option.bind_some, hb, Option.bind_some]
      exact subTo_returns zero (.other a) (.other b)
  | subInt v e val ih =>
      rcases ih with ⟨a, ha, -⟩
      rw [Expr.eval, ha, Option.bind_some]
      exact subInt_returns v a val
  | shiftLeft lay e shift ih =>
      rcases ih with ⟨a, ha, -⟩
      rw [Expr.eval, ha, Option.bind_some]
      exact leftShiftTo_returns lay zero (.other a) shift
  | shiftRight e shift ih =>
      rcases ih with ⟨a, ha, -⟩
      rw [Expr.eval, ha, Option.bind_some]
      exact rightShiftTo_returns zero (.other a) shift

theorem Stmt.sanitised (hσ : ∀ x, numbers σ x < 2 ^ (W x).bits) (s : Stmt W) :
    Sanitised (s.result σ) := by
  have hoperand : ∀ (x : Var) {v : Width} (e : Expr W v), ∃ y, e.operand σ x = some y := by
    intro x v e
    rcases e.sanitised hσ with ⟨a, ha, -⟩
    rw [← e.operand_eval σ x] at ha
    rcases Option.map_eq_some_iff.1 ha with ⟨y, hy, -⟩
    exact ⟨y, hy⟩
  cases s with
  | assign x e =>
      rcases e.sanitised hσ with ⟨a, ha, hlt⟩
      show Sanitised ((e.eval σ).bind (assignTo (σ x)))
      rw [ha, Option.bind_some]
      exact (assignTo_returns (σ x) hlt).sanitised
  | addAssign x e =>
      rcases hoperand x e with ⟨y, hy⟩
      show Sanitised ((e.operand σ x).bind (ArrayUint.addAssign (σ x)))
      rw [hy, Option.bind_some]
      exact addTo_returns (σ x) .same y
  | addAssignInt x val => exact addAssignInt_returns (σ x) val
  | subAssign x e =>
      rcases hoperand x e with ⟨y, hy⟩
      show Sanitised ((e.operand σ x).bind (ArrayUint.subAssign (σ x)))
      rw [hy, Option.bind_some]
      exact subTo_returns (σ x) .same y
  | subAssignInt x val => exact subAssignInt_returns (σ x) val
  | shiftLeftAssign x lay shift => exact leftShiftTo_returns lay (σ x) .same shift
  | shiftRightAssign x shift => exact rightShiftTo_returns (σ x) .same shift
  | preIncrement x => exact preIncrement_returns (σ x)
  | preDecrement x => exact preDecrement_returns (σ x)

/-- A program runs to its end, within its arrays. -/
theorem exists_run (hσ : ∀ x, numbers σ x < 2 ^ (W x).bits) (p : List (Stmt W)) :
    ∃ σ', runProgram p σ = some σ' ∧ ∀ x, numbers σ' x < 2 ^ (W x).bits := by
  induction p generalizing σ with
  | nil => exact ⟨σ, rfl, hσ⟩
  | cons s rest ih =>
      rcases s.sanitised hσ with ⟨a, ha, hlt⟩
      have hnext : ∀ x, numbers (Function.update σ s.target a) x < 2 ^ (W x).bits := by
        intro x
        by_cases hx : x = s.target
        · subst hx
          rw [numbers, Function.update_self]
          exact hlt
        · rw [numbers, Function.update_of_ne hx]
          exact hσ x
      rcases ih hnext with ⟨σ', hrun, hσ'⟩
      exact ⟨σ', by rw [runProgram, Stmt.exec, ha, Option.map_some, Option.bind_some, hrun], hσ'⟩

/-! ## Widths that see to it -/

/-- The operands of `+` have as many blocks as each other, and the left operand of `-` as many as
the right one. -/
def Expr.Fitted : {w : Width} → Expr W w → Prop
  | _, .var _ => True
  | _, .unsigned (k := k) _ => k ≤ 64
  | _, .signed (k := k) _ _ => k ≤ 64
  | _, .convert e => e.Fitted
  | _, .add (w := w) (v := v) e e' => (e.Fitted ∧ e'.Fitted) ∧ w.blockSize = v.blockSize
  | _, .addInt (w := w) v e _ => e.Fitted ∧ (w.max v).bits ≤ 64
  | _, .sub (w := w) (v := v) e e' => (e.Fitted ∧ e'.Fitted) ∧ v.blockSize ≤ w.blockSize
  | _, .subInt v e _ => e.Fitted ∧ v.bits ≤ 64
  | _, .shiftLeft _ e _ => e.Fitted
  | _, .shiftRight e _ => e.Fitted

def Stmt.Fitted : Stmt W → Prop
  | .assign _ e => e.Fitted
  | .addAssign (v := v) x e => e.Fitted ∧ (W x).blockSize ≤ v.blockSize
  | .addAssignInt (k := k) x _ => k ≤ 64 ∧ (W x).bits ≤ 64
  | .subAssign _ e => e.Fitted
  | .subAssignInt (k := k) _ _ => k ≤ 64
  | .shiftLeftAssign _ _ _ | .shiftRightAssign _ _ => True
  | .preIncrement x => (W x).bits ≤ 64
  | .preDecrement _ => True

omit [DecidableEq Var] in
theorem Expr.value_lt (hn : ∀ x, n x < 2 ^ (W x).bits) {w : Width} (e : Expr W w) :
    e.value n < 2 ^ w.bits := by
  induction e with
  | var x => exact hn x
  | shiftRight e shift ih => exact (Nat.div_le_self _ _).trans_lt ih
  | _ => exact wrap_lt _ _

omit [DecidableEq Var] in
theorem Stmt.value_lt (hn : ∀ x, n x < 2 ^ (W x).bits) (s : Stmt W) :
    s.value n < 2 ^ (W s.target).bits := by
  cases s with
  | shiftRightAssign x shift => exact (Nat.div_le_self _ _).trans_lt (hn x)
  | _ => exact wrap_lt _ _

theorem lt_of_blockSize_le {m : Nat} (hm : m < 2 ^ v.bits) (hle : v.blockSize ≤ w.blockSize) :
    m < 2 ^ (64 * w.blockSize) :=
  hm.trans_le (Nat.pow_le_pow_right Nat.two_pos
    (v.bits_le.trans (Nat.mul_le_mul_left 64 hle)))

omit [DecidableEq Var] in
theorem Expr.Fitted.covered (hn : ∀ x, n x < 2 ^ (W x).bits) {w : Width} {e : Expr W w}
    (he : e.Fitted) : e.Covered n := by
  induction e with
  | var x => exact trivial
  | unsigned val | signed before val => exact he
  | convert e ih | shiftLeft lay e shift ih | shiftRight e shift ih => exact ih he
  | add e e' ih ih' =>
      rcases he with ⟨⟨he, he'⟩, hsame⟩
      refine ⟨⟨ih he, ih' he'⟩, ?_⟩
      rw [hsame, min_self]
      exact ⟨clear_of_lt (lt_of_blockSize_le (e.value_lt hn) hsame.le),
        clear_of_lt (lt_of_blockSize_le (e'.value_lt hn) le_rfl)⟩
  | addInt v e val ih => exact ⟨ih he.1, clear_of_le he.2⟩
  | sub e e' ih ih' =>
      rcases he with ⟨⟨he, he'⟩, hle⟩
      exact ⟨⟨ih he, ih' he'⟩, clear_of_lt (lt_of_blockSize_le (e'.value_lt hn) hle)⟩
  | subInt v e val ih => exact ⟨ih he.1, he.2⟩

omit [DecidableEq Var] in
theorem Stmt.Fitted.covered (hn : ∀ x, n x < 2 ^ (W x).bits) {s : Stmt W} (hs : s.Fitted) :
    s.Covered n := by
  cases s with
  | assign x e | subAssign x e => exact Expr.Fitted.covered hn hs
  | addAssign x e =>
      refine ⟨Expr.Fitted.covered hn hs.1, ?_⟩
      rw [min_eq_left hs.2]
      exact ⟨clear_of_le (W x).bits_le, clear_of_le (W x).bits_le⟩
  | addAssignInt x val => exact ⟨hs.1, clear_of_le hs.2⟩
  | subAssignInt x val => exact hs
  | shiftLeftAssign x lay shift | shiftRightAssign x shift | preDecrement x => exact trivial
  | preIncrement x => exact clear_of_le hs

theorem covered_of_fitted {p : List (Stmt W)} (hp : ∀ s ∈ p, s.Fitted)
    (hn : ∀ x, n x < 2 ^ (W x).bits) : Covered p n := by
  induction p generalizing n with
  | nil => exact trivial
  | cons s rest ih =>
      refine ⟨Stmt.Fitted.covered hn (hp s List.mem_cons_self),
        ih (fun s' hs' => hp s' (List.mem_cons_of_mem s hs')) fun x => ?_⟩
      by_cases hx : x = s.target
      · subst hx
        rw [Stmt.effect, Function.update_self]
        exact s.value_lt hn
      · rw [Stmt.effect, Function.update_of_ne hx]
        exact hn x

/-- **Programs.**  For variables of any widths that hold canonical values, every straight-line
program of assignments, compound operators, shifts, increments and expressions runs to its end
without an access outside an array and leaves canonical values.  They are the numbers that the
program means modulo the powers of two, if no `+` or `-` drops a block whose bits count; and the
program's widths see to that when the operands of each `+` have the same number of blocks, the right
operand of `-` has no more than the left one, and that of `+=` no fewer. -/
theorem programs_exact (p : List (Stmt W)) (σ : Store W) (hσ : ∀ x, (σ x).Canonical) :
    (∃ σ', runProgram p σ = some σ' ∧ (∀ x, (σ' x).Canonical) ∧
      (Covered p (numbers σ) → ∀ x, (σ' x).num = meaning p (numbers σ) x)) ∧
    ((∀ s ∈ p, s.Fitted) → Covered p (numbers σ)) := by
  have hlt : ∀ x, numbers σ x < 2 ^ (W x).bits := fun x => canonical_iff.1 (hσ x)
  refine ⟨?_, fun hp => covered_of_fitted hp hlt⟩
  rcases exists_run hlt p with ⟨σ', hrun, hσ'⟩
  refine ⟨σ', hrun, fun x => canonical_iff.2 (hσ' x), fun hp x => ?_⟩
  rcases Shows.run ⟨fun _ => rfl, hlt⟩ p hp with ⟨τ, hrun', hshows⟩
  rw [hrun] at hrun'
  cases hrun'
  exact hshows.num x

/-! ## A program -/

/-- Variables of 100 and of 128 bits. -/
def twoWidths : Bool → Width
  | false => ⟨100, by decide⟩
  | true => Width.w128

/-- `x` is `2 ^ 100 - 1`, and `y` is `5`. -/
def twoVars : Store twoWidths
  | false => ⟨[0xFFFFFFFFFFFFFFFF, 0xFFFFFFFFF], rfl⟩
  | true => ⟨[5, 0], rfl⟩

/-- `x += y; y = y - x; x += x; y <<= 3;`. -/
def wrapping : List (Stmt twoWidths) :=
  [.addAssign false (.var true), .assign true (.sub (.var true) (.var false)),
    .addAssign false (.var false), .shiftLeftAssign true ⟨0, 0, false⟩ 3]

theorem programs_exact_wrapping :
    ∃ σ, runProgram wrapping twoVars = some σ ∧ (σ false).num = 8 ∧ (σ true).num = 8 ∧
      ∀ x, (σ x).Canonical := by
  have hcanonical : ∀ x, (twoVars x).Canonical := by
    intro x
    cases x <;> exact canonical_iff.2 (by decide)
  have hfitted : ∀ s ∈ wrapping, s.Fitted := by
    intro s hs
    simp only [wrapping, List.mem_cons, List.not_mem_nil, or_false] at hs
    rcases hs with rfl | rfl | rfl | rfl
    · exact ⟨trivial, by decide⟩
    · exact ⟨⟨trivial, trivial⟩, by decide⟩
    · exact ⟨trivial, le_rfl⟩
    · exact trivial
  rcases programs_exact wrapping twoVars hcanonical with ⟨⟨σ, hrun, hσ, hexact⟩, hcovered⟩
  have hnum := hexact (hcovered hfitted)
  refine ⟨σ, hrun, (hnum false).trans ?_, (hnum true).trans ?_, hσ⟩
  · decide
  · decide

end Programs

end ArrayUint
end Struct
end Chenc
