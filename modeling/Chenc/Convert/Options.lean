import Chenc.Lib.Unicode

/-!
# Options — character types, conversion options and results

Data model of `convert/utf_char.hpp` and `convert/utf_opt.hpp`:

* `CharType` : an integer type admitted by `any_utf_char`, that is its width (which selects
  the encoding form) and its signedness;
* `Options`  : `options_t`, with its five modes and the replacement character;
* `CharResult`, `StrResult` : the accounting records `char_result_t` and `str_result_t`.

The `u64` counters are natural numbers.  A unit read is charged with four units to write at most,
so none exceeds four times the units of the input, or those of the output buffer, by more than a
constant.
-/

namespace Chenc
namespace Convert

abbrev U8 : Type := BitVec 8
abbrev U16 : Type := BitVec 16
abbrev U32 : Type := BitVec 32
abbrev U64 : Type := BitVec 64

/-! ## Character types -/

/-- `any_utf_char`: one, two or four bytes, signed or unsigned. -/
structure CharType where
  form : Unicode.Form
  signed : Bool
  deriving DecidableEq, Repr

namespace CharType

/-- `sizeof(T)`. -/
@[reducible] def size (T : CharType) : Nat :=
  match T.form with
  | .utf8 => 1
  | .utf16 => 2
  | .utf32 => 4

@[reducible] def bits (T : CharType) : Nat :=
  8 * T.size

/-- A value of the type, as its bit pattern. -/
abbrev Unit (T : CharType) : Type :=
  BitVec T.bits

/-- `static_cast<u32>(x)`: the value of `x` modulo `2^32`, so signed types are sign-extended. -/
def toU32 (T : CharType) (x : T.Unit) : U32 :=
  if T.signed then x.signExtend 32 else x.setWidth 32

/-- `static_cast<T>(c)` from `u32`. -/
def ofU32 (T : CharType) (c : U32) : T.Unit :=
  c.setWidth T.bits

/-- The unsigned type of an encoding form (`char8_t`, `char16_t`, `char32_t`). -/
@[reducible] def ofForm (f : Unicode.Form) : CharType :=
  { form := f, signed := false }

end CharType

/-- The code units of a text as numbers. -/
def numbers {T : CharType} (s : List T.Unit) : List Nat :=
  s.map BitVec.toNat

@[simp] theorem numbers_nil {T : CharType} : numbers ([] : List T.Unit) = [] := rfl

@[simp] theorem numbers_cons {T : CharType} (u : T.Unit) (s : List T.Unit) :
    numbers (u :: s) = u.toNat :: numbers s := rfl

@[simp] theorem numbers_append {T : CharType} (s t : List T.Unit) :
    numbers (s ++ t) = numbers s ++ numbers t :=
  List.map_append

@[simp] theorem numbers_length {T : CharType} (s : List T.Unit) :
    (numbers s).length = s.length :=
  List.length_map _

theorem numbers_drop {T : CharType} (s : List T.Unit) (k : Nat) :
    numbers (s.drop k) = (numbers s).drop k :=
  List.map_drop

theorem numbers_injective {T : CharType} {s t : List T.Unit} (h : numbers s = numbers t) :
    s = t :=
  (List.map_inj_right fun _ _ => BitVec.eq_of_toNat_eq).1 h

/-! ## Options -/

inductive CharMode
  | strict
  | compatible
  | none
  deriving DecidableEq, Repr

inductive ErrorMode
  | stop
  | skip
  | replace
  deriving DecidableEq, Repr

inductive InputMode
  | normal
  | noneCheckBuffer
  deriving DecidableEq, Repr

inductive OutMode
  | normal
  | full
  | noneCheckBuffer
  | count
  deriving DecidableEq, Repr

inductive PerfMode
  | normal
  | simd
  deriving DecidableEq, Repr

/-- `replace_char_t<C>`: a code point that passes the three static assertions. -/
structure ReplaceChar where
  value : U32
  inRange : value ≤ 0x10FFFF#32
  notSurrogate : ¬ (0xD800#32 ≤ value ∧ value ≤ 0xDFFF#32)
  notNonCharacter : ¬ ((0xFDD0#32 ≤ value ∧ value ≤ 0xFDEF#32) ∨
    value &&& 0xFFFF#32 = 0xFFFE#32 ∨ value &&& 0xFFFF#32 = 0xFFFF#32)
  deriving DecidableEq

/-- The default `replace_char_`. -/
def ReplaceChar.replacement : ReplaceChar where
  value := 0xFFFD#32
  inRange := by decide
  notSurrogate := by decide
  notNonCharacter := by decide

/-- `options_t`.  The field `replace_char_` is only ever assigned its default or a
`replace_char_t` value, so it carries the static assertions. -/
structure Options where
  charMode : CharMode := .strict
  errorMode : ErrorMode := .stop
  outMode : OutMode := .normal
  inputMode : InputMode := .normal
  perfMode : PerfMode := .normal
  replaceChar : ReplaceChar := .replacement
  deriving DecidableEq

/-- `default_opt`. -/
def defaultOpt : Options := {}

/-- `fast_opt`. -/
def fastOpt : Options where
  charMode := .none
  outMode := .noneCheckBuffer
  inputMode := .noneCheckBuffer

/-! ## Results -/

/-- `status_t`; `partially` is its enumerator `partial`. -/
inductive Status
  | ok
  | partially
  | error
  deriving DecidableEq, Repr

/-- The enumerators of `error_t`. -/
inductive ErrorT
  | none
  | inTruncated
  | outOverflow
  | invalidSource
  | invalidUnicode
  | nonCharacters
  | surrogates
  | nonShortest
  deriving DecidableEq, Repr

/-- The bit of an enumerator of `error_t`. -/
def ErrorT.flag : ErrorT → U8
  | .none => 0#8
  | .inTruncated => 1#8 <<< 0
  | .outOverflow => 1#8 <<< 1
  | .invalidSource => 1#8 <<< 2
  | .invalidUnicode => 1#8 <<< 3
  | .nonCharacters => 1#8 <<< 4
  | .surrogates => 1#8 <<< 5
  | .nonShortest => 1#8 <<< 6

/-- `char_result_t`; `error` is a union of `ErrorT.flag` bits. -/
structure CharResult where
  inputBlock : Nat := 0
  outputBlock : Nat := 0
  status : Status := .ok
  error : U8 := 0#8
  unicode : U32 := 0#32
  deriving DecidableEq, Repr

/-- `result.input_block_ += k`. -/
def CharResult.takeInput (r : CharResult) (k : Nat) : CharResult :=
  { r with inputBlock := r.inputBlock + k }

/-- `result.output_block_ += k`. -/
def CharResult.putOutput (r : CharResult) (k : Nat) : CharResult :=
  { r with outputBlock := r.outputBlock + k }

/-- `str_result_t`; `error` is a union of `ErrorT.flag` bits. -/
structure StrResult where
  inputBlockCount : Nat := 0
  outputBlockCount : Nat := 0
  convNormalCharCount : Nat := 0
  convErrorCharCount : Nat := 0
  needOutputBlockCount : Nat := 0
  status : Status := .ok
  error : U8 := 0#8
  deriving DecidableEq, Repr

/-- The input side of an iteration: `k` units read, `normal` and `bad` characters counted. -/
def StrResult.charge (r : StrResult) (k normal bad : Nat) : StrResult :=
  { r with
    inputBlockCount := r.inputBlockCount + k
    convNormalCharCount := r.convNormalCharCount + normal
    convErrorCharCount := r.convErrorCharCount + bad }

/-- The output side of an iteration: `out` units stored, `need` units added to the total. -/
def StrResult.credit (r : StrResult) (out need : Nat) : StrResult :=
  { r with
    outputBlockCount := r.outputBlockCount + out
    needOutputBlockCount := r.needOutputBlockCount + need }

theorem StrResult.charge_charge (r : StrResult) (j k m n a b : Nat) :
    (r.charge j m a).charge k n b = r.charge (j + k) (m + n) (a + b) := by
  simp [StrResult.charge, Nat.add_assoc]

theorem StrResult.charge_credit (r : StrResult) (k normal bad out need : Nat) :
    (r.credit out need).charge k normal bad = (r.charge k normal bad).credit out need := rfl

/-- `result.status_ = status; result.error_ |= err`. -/
def StrResult.raise (r : StrResult) (status : Status) (err : ErrorT) : StrResult :=
  { r with
    status := status
    error := r.error ||| err.flag }

/-- `operator bool`. -/
def StrResult.good (r : StrResult) : Prop :=
  r.status = .ok ∧ r.error = ErrorT.none.flag

end Convert
end Chenc
