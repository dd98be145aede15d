import Chenc.Core.MoreInt
import Chenc.Lib.MachineInt

/-!
# IntOperators — the operators of `no_ailgn_int` and `more_int`

The operators of both classes, and the integers that they compute. `no_ailgn_int` takes its bytes as
an unsigned number everywhere. `more_int` extends the sign for `/`, `%`, `>>`, unary `-` and the
comparisons only, and takes the raw bytes for the others.

* `Obj` : an object of either class, of any size;
* `Obj.value` : the integer that its conversion operator gives;
* `Obj.value_binary`, `Obj.value_compound`, `Obj.value_unary` : the operators are those on the
  integers, reduced to the bytes of the object;
* `Obj.eq_of_value` : the bytes are determined by the value.
-/

namespace Chenc
namespace Core

open ByteOrder
open MachineInt

/-! ## Operators -/

inductive BinOp
  | low (op : LowOp)
  | high (op : HighOp)
  deriving DecidableEq, Repr

namespace BinOp

/-- How the right operand is read. -/
def operand : BinOp → Sign → Sign
  | low op, s => op.operand s
  | high op, s => op.operand s

def int : BinOp → ℤ → ℤ → Option ℤ
  | low op, a, v => op.int 64 a v
  | high op, a, v => op.int 64 a v

end BinOp

inductive UnOp
  | plus
  | neg
  | compl
  deriving DecidableEq, Repr

/-- The negation of the smallest `i64` is undefined. -/
def UnOp.int : UnOp → ℤ → Option ℤ
  | plus, a => some a
  | neg, a => if a = -2 ^ 63 then none else some (-a)
  | compl, a => some a.lnot

/-! ## `no_ailgn_int` -/

namespace NoAilgnInt

variable {B : Bytes} (native : Endian)

/-- `no_ailgn_int(u64 val)`: `set` writes every byte of the fresh object. -/
def ofU64 (val : U64) : NoAilgnInt B :=
  set native zero val

/-- `get() op v`. -/
def compute (s : NoAilgnInt B) : BinOp → U64 → Option U64
  | .low op, v => op.word (s.get native) v
  | .high op, v => op.word .unsigned (s.get native) v

/-- `operator op(u64 v)`: `{get() op v}`. -/
def binary (s : NoAilgnInt B) (op : BinOp) (v : U64) : Option (NoAilgnInt B) :=
  (s.compute native op v).map (ofU64 native)

/-- `operator op=(u64 v)`: `set(get() op v)`. -/
def compound (s : NoAilgnInt B) (op : BinOp) (v : U64) : Option (NoAilgnInt B) :=
  (s.compute native op v).map (s.set native)

/-- The unary operators `+`, `-` and `~`. -/
def unary (s : NoAilgnInt B) : UnOp → Option (NoAilgnInt B)
  | .plus => some s
  | .neg => some (ofU64 native (-s.get native))
  | .compl => some (ofU64 native (~~~s.get native))

def preIncr (s : NoAilgnInt B) : NoAilgnInt B :=
  s.set native (s.get native + 1)

/-- `operator++(int)`: the value returned, and the object after it. -/
def postIncr (s : NoAilgnInt B) : NoAilgnInt B × NoAilgnInt B :=
  (s, s.set native (s.get native + 1))

def preDecr (s : NoAilgnInt B) : NoAilgnInt B :=
  s.set native (s.get native - 1)

/-- `operator--(int)`: the value returned, and the object after it. -/
def postDecr (s : NoAilgnInt B) : NoAilgnInt B × NoAilgnInt B :=
  (s, s.set native (s.get native - 1))

/-- `explicit operator bool`. -/
def toBool (s : NoAilgnInt B) : Bool :=
  s.get native != 0

/-- `operator!`. -/
def isZero (s : NoAilgnInt B) : Bool :=
  s.get native == 0

/-- `operator==(u64 v)`. -/
def eq (s : NoAilgnInt B) (v : U64) : Bool :=
  s.get native == v

/-- `operator<=>(u64 v)`. -/
def cmp (s : NoAilgnInt B) (v : U64) : Ordering :=
  compare (s.get native).toNat v.toNat

end NoAilgnInt

/-! ## `more_int` -/

namespace MoreInt

variable {B : Bytes} (native : Endian)

/-- The raw bytes, or for `/`, `%` and `>>` the value, `op v`. -/
def compute (m : MoreInt B) : BinOp → I64 → Option I64
  | .low op, v => op.word (m.getRaw native) v
  | .high op, v => op.word .signed (m.get native) v

/-- `operator op(v)`. -/
def binary (m : MoreInt B) (op : BinOp) (v : I64) : Option (MoreInt B) :=
  (m.compute native op v).map (ofI64 native)

/-- `operator op=(v)`. -/
def compound (m : MoreInt B) : BinOp → I64 → Option (MoreInt B)
  | .low .add, v => some (m.addAssign native v)
  | .low .sub, v => some (m.subAssign native v)
  | .low .mul, v => some (m.mulAssign native v)
  | .low .and, v => some (m.andAssign native v)
  | .low .or, v => some (m.orAssign native v)
  | .low .xor, v => some (m.xorAssign native v)
  | .low .shl, v => if v.toNat < 64 then some (m.shlAssign native v) else none
  | .high op, v => (op.word .signed (m.get native) v).map (m.set native)

/-- The unary operators `+`, `-` and `~`. -/
def unary (m : MoreInt B) : UnOp → Option (MoreInt B)
  | .plus => some m
  | .neg =>
      if m.get native = BitVec.intMin 64 then none else some (ofI64 native (-m.get native))
  | .compl => some (ofI64 native (~~~m.getRaw native))

/-- `explicit operator bool`. -/
def toBool (m : MoreInt B) : Bool :=
  m.getRaw native != 0

/-- `operator!`. -/
def isZero (m : MoreInt B) : Bool :=
  m.getRaw native == 0

/-- `operator==(i64 v)`. -/
def eq (m : MoreInt B) (v : I64) : Bool :=
  m.get native == v

/-- `operator<=>(i64 v)`. -/
def cmp (m : MoreInt B) (v : I64) : Ordering :=
  compare (m.get native).toInt v.toInt

theorem compound_eq (m : MoreInt B) (op : BinOp) (v : I64) :
    m.compound native op v = (m.compute native op v).map (m.set native) := by
  cases op with
  | low op =>
      cases op with
      | shl =>
          simp only [compound, compute, LowOp.word]
          split_ifs <;> rfl
      | _ => rfl
  | high op => rfl

end MoreInt

/-! ## Objects -/

deriving instance DecidableEq for Bytes

/-- A class and its template parameter: `more_int` is the signed one. -/
structure Ty where
  sign : Sign
  bytes : Bytes
  deriving DecidableEq

namespace Ty

def bits (t : Ty) : Nat :=
  8 * t.bytes.count

theorem bits_le (t : Ty) : t.bits ≤ 64 :=
  t.bytes.bits_le

/-- An integer reduced to the bytes of an object. -/
def wrap (t : Ty) (z : ℤ) : ℤ :=
  t.sign.wrap t.bits z

end Ty

inductive Obj : Ty → Type
  | unsigned {B : Bytes} (s : NoAilgnInt B) : Obj ⟨.unsigned, B⟩
  | signed {B : Bytes} (m : MoreInt B) : Obj ⟨.signed, B⟩

namespace Obj

variable {t : Ty} (native : Endian)

/-- `operator u64` and `operator i64`. -/
def get : {t : Ty} → Obj t → U64
  | _, .unsigned s => s.get native
  | _, .signed m => m.get native

/-- The constructor from a word. -/
def make : (t : Ty) → U64 → Obj t
  | ⟨.unsigned, _⟩, val => .unsigned (.ofU64 native val)
  | ⟨.signed, _⟩, val => .signed (.ofI64 native val)

/-- `operator=` of a word. -/
def set : {t : Ty} → Obj t → U64 → Obj t
  | _, .unsigned s, val => .unsigned (s.set native val)
  | _, .signed m, val => .signed (m.set native val)

def compute : {t : Ty} → Obj t → BinOp → U64 → Option U64
  | _, .unsigned s, op, v => s.compute native op v
  | _, .signed m, op, v => m.compute native op v

def binary : {t : Ty} → Obj t → BinOp → U64 → Option (Obj t)
  | _, .unsigned s, op, v => (s.binary native op v).map .unsigned
  | _, .signed m, op, v => (m.binary native op v).map .signed

def compound : {t : Ty} → Obj t → BinOp → U64 → Option (Obj t)
  | _, .unsigned s, op, v => (s.compound native op v).map .unsigned
  | _, .signed m, op, v => (m.compound native op v).map .signed

def unary : {t : Ty} → Obj t → UnOp → Option (Obj t)
  | _, .unsigned s, op => (s.unary native op).map .unsigned
  | _, .signed m, op => (m.unary native op).map .signed

def preIncr : {t : Ty} → Obj t → Obj t
  | _, .unsigned s => .unsigned (s.preIncr native)
  | _, .signed m => .signed (m.preIncr native)

def preDecr : {t : Ty} → Obj t → Obj t
  | _, .unsigned s => .unsigned (s.preDecr native)
  | _, .signed m => .signed (m.preDecr native)

def postIncr : {t : Ty} → Obj t → Obj t × Obj t
  | _, .unsigned s => (s.postIncr native).map .unsigned .unsigned
  | _, .signed m => (m.postIncr native).map .signed .signed

def postDecr : {t : Ty} → Obj t → Obj t × Obj t
  | _, .unsigned s => (s.postDecr native).map .unsigned .unsigned
  | _, .signed m => (m.postDecr native).map .signed .signed

def toBool : {t : Ty} → Obj t → Bool
  | _, .unsigned s => s.toBool native
  | _, .signed m => m.toBool native

def isZero : {t : Ty} → Obj t → Bool
  | _, .unsigned s => s.isZero native
  | _, .signed m => m.isZero native

def eq : {t : Ty} → Obj t → U64 → Bool
  | _, .unsigned s, v => s.eq native v
  | _, .signed m, v => m.eq native v

def cmp : {t : Ty} → Obj t → U64 → Ordering
  | _, .unsigned s, v => s.cmp native v
  | _, .signed m, v => m.cmp native v

/-- The word of the bytes. -/
def held : {t : Ty} → Obj t → BitVec t.bits
  | _, .unsigned s => s.held native
  | _, .signed m => m.held native

/-- The integer that the conversion operator gives. -/
def value (o : Obj t) : ℤ :=
  t.sign.read (o.get native)

/-! ## What is held -/

@[simp] theorem held_set (o : Obj t) (val : U64) :
    (o.set native val).held native = val.setWidth t.bits := by
  cases o with
  | unsigned s => exact NoAilgnInt.held_set native s val
  | signed m => exact MoreInt.held_set native m val

@[simp] theorem held_make (t : Ty) (val : U64) :
    (make native t val).held native = val.setWidth t.bits := by
  rcases t with ⟨_ | _, B⟩
  · exact NoAilgnInt.held_set native NoAilgnInt.zero val
  · exact MoreInt.held_set native _ val

theorem held_injective {o o' : Obj t} (h : o.held native = o'.held native) : o = o' := by
  cases o with
  | unsigned s =>
      cases o' with
      | unsigned s' => exact congrArg unsigned (NoAilgnInt.held_injective native h)
  | signed m =>
      cases o' with
      | signed m' => exact congrArg signed (MoreInt.held_injective native h)

theorem get_eq_extend (o : Obj t) : o.get native = t.sign.extend 64 (o.held native) := by
  cases o with
  | unsigned s => exact NoAilgnInt.get_eq native s
  | signed m => exact MoreInt.get_eq_signExtend native m

theorem value_eq (o : Obj t) : o.value native = t.sign.read (o.held native) := by
  rw [value, get_eq_extend, Sign.read_extend _ t.bits_le]

theorem value_of_held {o : Obj t} {z : ℤ} (h : o.held native = BitVec.ofInt t.bits z) :
    o.value native = t.wrap z := by
  rw [value_eq, h, Sign.read_ofInt]
  rfl

/-- The value fits. -/
theorem wrap_value (o : Obj t) : t.wrap (o.value native) = o.value native := by
  rw [value_eq]
  exact t.sign.wrap_read _

/-- The bytes are determined by the value. -/
theorem eq_of_value {o o' : Obj t} (h : o.value native = o'.value native) : o = o' := by
  rw [value_eq, value_eq] at h
  exact held_injective native (t.sign.read_injective h)

/-- The word behind the value, read for a parameter of either sign. -/
theorem read_get (s : Sign) (o : Obj t) : s.read (o.get native) = s.wrap 64 (o.value native) := by
  have hword : BitVec.ofInt 64 (o.value native) = o.get native := by
    rw [value, Sign.ofInt_read _ le_rfl, BitVec.setWidth_eq]
  rw [← Sign.read_ofInt, hword]

theorem value_make (t : Ty) (val : U64) (s : Sign) :
    (make native t val).value native = t.wrap (s.read val) := by
  refine value_of_held native ?_
  rw [held_make, Sign.ofInt_read _ t.bits_le]

theorem value_set (o : Obj t) (val : U64) (s : Sign) :
    (o.set native val).value native = t.wrap (s.read val) := by
  refine value_of_held native ?_
  rw [held_set, Sign.ofInt_read _ t.bits_le]

/-! ## What the operators compute -/

/-- A result is stored by its low bits. -/
theorem map_value {f : U64 → Obj t} (hf : ∀ val, (f val).held native = val.setWidth t.bits)
    {r : Option U64} {z : Option ℤ}
    (h : r.map (BitVec.setWidth t.bits) = z.map (BitVec.ofInt t.bits)) :
    (r.map f).map (value native) = z.map t.wrap := by
  cases r with
  | none =>
      cases z with
      | none => rfl
      | some z => cases h
  | some val =>
      cases z with
      | none => cases h
      | some z =>
          rw [Option.map_some, Option.map_some, Option.some.injEq] at h
          exact congrArg some (value_of_held native ((hf val).trans h))

theorem exact_low {x : U64} {s : Sign} {op : HighOp} (hk : t.bits ≤ 64) (v : U64) :
    (op.word s x v).map (BitVec.setWidth t.bits) =
      (op.int 64 (s.read x) ((op.operand s).read v)).map (BitVec.ofInt t.bits) := by
  rw [← HighOp.word_exact (by decide), Option.map_map]
  refine congrArg (fun f => Option.map f _) (funext fun val => ?_)
  exact (s.ofInt_read hk val).symm

/-- The low bits of what is computed, raw or not. -/
theorem compute_low (o : Obj t) (op : BinOp) (v : U64) :
    (o.compute native op v).map (BitVec.setWidth t.bits) =
      (op.int (o.value native) ((op.operand t.sign).read v)).map (BitVec.ofInt t.bits) := by
  have hk := t.bits_le
  cases o with
  | unsigned s =>
      cases op with
      | low op => exact op.word_low hk .unsigned (Sign.unsigned.ofInt_read hk _).symm v
      | high op => exact exact_low hk v
  | signed m =>
      cases op with
      | low op =>
          -- The raw bits are not those of the value, but agree with them on the bytes.
          refine op.word_low hk .signed ?_ v
          exact (MoreInt.getRaw_congr_get native m).trans (Sign.signed.ofInt_read hk _).symm
      | high op => exact exact_low hk v

theorem binary_eq (o : Obj t) (op : BinOp) (v : U64) :
    o.binary native op v = (o.compute native op v).map (make native t) := by
  cases o with
  | unsigned s => exact Option.map_map _ _ _
  | signed m => exact Option.map_map _ _ _

theorem compound_eq (o : Obj t) (op : BinOp) (v : U64) :
    o.compound native op v = (o.compute native op v).map (o.set native) := by
  cases o with
  | unsigned s => exact Option.map_map _ _ _
  | signed m =>
      rw [compound, MoreInt.compound_eq]
      exact Option.map_map _ _ _

theorem value_binary (o : Obj t) (op : BinOp) (v : U64) :
    (o.binary native op v).map (value native) =
      (op.int (o.value native) ((op.operand t.sign).read v)).map t.wrap := by
  rw [binary_eq]
  exact map_value native (held_make native t) (compute_low native o op v)

theorem value_compound (o : Obj t) (op : BinOp) (v : U64) :
    (o.compound native op v).map (value native) =
      (op.int (o.value native) ((op.operand t.sign).read v)).map t.wrap := by
  rw [compound_eq]
  exact map_value native (held_set native o) (compute_low native o op v)

theorem read_one (s : Sign) : s.read (1 : U64) = 1 := by
  cases s <;> rfl

theorem value_preIncr (o : Obj t) :
    (o.preIncr native).value native = t.wrap (o.value native + 1) := by
  have hadd : o.compound native (.low .add) 1 = some (o.preIncr native) := by
    cases o <;> rfl
  have hvalue := value_compound native o (.low .add) 1
  have hone : ((BinOp.low .add).operand t.sign).read (1 : U64) = 1 := read_one t.sign
  rw [hadd, hone] at hvalue
  exact Option.some.inj hvalue

theorem value_preDecr (o : Obj t) :
    (o.preDecr native).value native = t.wrap (o.value native - 1) := by
  have hsub : o.compound native (.low .sub) 1 = some (o.preDecr native) := by
    cases o <;> rfl
  have hvalue := value_compound native o (.low .sub) 1
  have hone : ((BinOp.low .sub).operand t.sign).read (1 : U64) = 1 := read_one t.sign
  rw [hsub, hone] at hvalue
  exact Option.some.inj hvalue

theorem postIncr_eq (o : Obj t) : o.postIncr native = (o, o.preIncr native) := by
  cases o <;> rfl

theorem postDecr_eq (o : Obj t) : o.postDecr native = (o, o.preDecr native) := by
  cases o <;> rfl

/-- The low bits of the word that `~` starts from. -/
theorem value_compl {o o' : Obj t} {x : U64} (hx : x.setWidth t.bits = o.held native)
    (ho : o' = make native t (~~~x)) : o'.value native = t.wrap (o.value native).lnot := by
  refine value_of_held native ?_
  rw [ho, held_make, BitVec.setWidth_not t.bits_le, hx, ofInt_lnot, value_eq,
    Sign.ofInt_read _ le_rfl, BitVec.setWidth_eq]

theorem value_neg {o o' : Obj t} (ho : o' = make native t (-o.get native)) :
    o'.value native = t.wrap (-o.value native) := by
  refine value_of_held native ?_
  rw [ho, held_make, BitVec.setWidth_neg_of_le t.bits_le, BitVec.ofInt_neg, value,
    Sign.ofInt_read _ t.bits_le]

theorem value_unary (o : Obj t) (op : UnOp) :
    (o.unary native op).map (value native) = (op.int (o.value native)).map t.wrap := by
  cases op with
  | plus =>
      have hsame : o.unary native .plus = some o := by cases o <;> rfl
      rw [hsame, Option.map_some, UnOp.int, Option.map_some, wrap_value]
  | neg =>
      cases o with
      | unsigned s =>
          have hne : (unsigned s).value native ≠ -2 ^ 63 := by
            have hnonneg : (0 : ℤ) ≤ (unsigned s).value native := Int.natCast_nonneg _
            omega
          rw [UnOp.int, if_neg hne]
          exact congrArg some (value_neg native rfl)
      | signed m =>
          have hmin : (signed m).value native = -2 ^ 63 ↔ m.get native = BitVec.intMin 64 := by
            have hread : Sign.signed.read (BitVec.intMin 64) = -2 ^ 63 := by decide
            rw [← hread]
            exact ⟨Sign.signed.read_injective, congrArg _⟩
          rw [UnOp.int, unary, MoreInt.unary]
          simp only [hmin]
          split_ifs with hundef
          · rfl
          · exact congrArg some (value_neg native rfl)
  | compl =>
      have hk := t.bits_le
      cases o with
      | unsigned s =>
          refine congrArg some (value_compl native (x := s.get native) ?_ rfl)
          rw [NoAilgnInt.get_eq, BitVec.setWidth_setWidth_of_le _ hk]
          exact BitVec.setWidth_eq _
      | signed m =>
          refine congrArg some (value_compl native (x := m.getRaw native) ?_ rfl)
          rw [MoreInt.getRaw_eq_setWidth, BitVec.setWidth_setWidth_of_le _ hk]
          exact BitVec.setWidth_eq _

/-! ## Comparisons -/

theorem isZero_eq (o : Obj t) : o.isZero native = decide (o.value native = 0) := by
  cases o with
  | unsigned s =>
      rw [value, decide_eq_decide.2 (Sign.read_eq_zero_iff _ _)]
      rfl
  | signed m =>
      -- The raw bytes are zero exactly when the value is.
      have hraw : m.getRaw native = 0 ↔ (signed m).value native = 0 := by
        rw [value_eq, Sign.read_eq_zero_iff, ← Sign.unsigned.read_eq_zero_iff,
          MoreInt.getRaw_eq_setWidth, ← Sign.unsigned.read_eq_zero_iff]
        exact iff_of_eq (congrArg (· = 0) (Sign.unsigned.read_extend (Bytes.bits_le _) _))
      rw [← decide_eq_decide.2 hraw]
      rfl

theorem toBool_eq (o : Obj t) : o.toBool native = decide (o.value native ≠ 0) := by
  have hnot : o.toBool native = !o.isZero native := by cases o <;> rfl
  rw [hnot, isZero_eq, decide_not]

theorem eq_eq (o : Obj t) (v : U64) :
    o.eq native v = decide (o.value native = t.sign.read v) := by
  have hword : o.eq native v = decide (o.get native = v) := by
    cases o <;> exact beq_eq_decide _ _
  rw [hword, decide_eq_decide]
  exact ⟨congrArg _, t.sign.read_injective⟩

theorem cmp_eq (o : Obj t) (v : U64) :
    o.cmp native v = compare (o.value native) (t.sign.read v) := by
  cases o with
  | unsigned s =>
      have hcast : ∀ a b : Nat, compare a b = compare (a : ℤ) b := by
        intro a b
        simp only [compare, compareOfLessAndEq, Int.natCast_inj, Int.ofNat_lt]
      exact hcast _ _
  | signed m => rfl

end Obj

end Core
end Chenc
