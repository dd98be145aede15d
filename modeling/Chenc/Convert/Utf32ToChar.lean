import Chenc.Lib.Region
import Chenc.Convert.Options

/-!
# Utf32ToChar — encoding one character

Model of `utf32_to_char` (`convert/detail/utf32_to_char.hpp`).  The pointers `output_char` and
`output_end` are offsets from the start of the caller's buffer, and the units stored so far are
a `Region`.

Every branch of the source does the same with the units it would store: a bound check in the
modes `normal` and `full`, counting only in the mode `count`, the stores otherwise.  That body is
`putUnits`; `utf32Units` lists the units of each branch.
-/

namespace Chenc
namespace Convert

/-- `is_out_mode__normal || is_out_mode__full`. -/
def Options.checksOutput (o : Options) : Prop :=
  o.outMode = .normal ∨ o.outMode = .full

instance (o : Options) : Decidable o.checksOutput := by
  unfold Options.checksOutput
  infer_instance

/-- The units stored for `unicode`; `unicode` is assumed to be legal, larger values lose their
high bits. -/
def utf32Units (Out : CharType) (unicode : U32) : List Out.Unit :=
  match Out.form with
  | .utf8 =>
      if unicode ≤ 0x7F#32 then
        [Out.ofU32 unicode]
      else if unicode ≤ 0x7FF#32 then
        [Out.ofU32 (0xC0#32 ||| unicode >>> 6), Out.ofU32 (0x80#32 ||| (unicode &&& 0x3F#32))]
      else if unicode ≤ 0xFFFF#32 then
        [Out.ofU32 (0xE0#32 ||| unicode >>> 12),
          Out.ofU32 (0x80#32 ||| (unicode >>> 6 &&& 0x3F#32)),
          Out.ofU32 (0x80#32 ||| (unicode &&& 0x3F#32))]
      else
        [Out.ofU32 (0xF0#32 ||| unicode >>> 18),
          Out.ofU32 (0x80#32 ||| (unicode >>> 12 &&& 0x3F#32)),
          Out.ofU32 (0x80#32 ||| (unicode >>> 6 &&& 0x3F#32)),
          Out.ofU32 (0x80#32 ||| (unicode &&& 0x3F#32))]
  | .utf16 =>
      if unicode ≤ 0xFFFF#32 then
        [Out.ofU32 unicode]
      else
        [Out.ofU32 (0xD800#32 ||| (unicode - 0x10000#32) >>> 10),
          Out.ofU32 (0xDC00#32 ||| (unicode &&& 0x3FF#32))]
  | .utf32 => [Out.ofU32 unicode]

/-- The body shared by the branches of `utf32_to_char`. -/
def putUnits (o : Options) {Out : CharType} (units : List Out.Unit) (outputChar outputEnd : Nat)
    (mem : Region Out.Unit) (result : CharResult) : ErrorT × CharResult × Region Out.Unit :=
  if o.checksOutput ∧ outputEnd ≤ outputChar + (units.length - 1) then
    -- The units are counted although nothing is stored.
    (.outOverflow, result.putOutput units.length, mem)
  else if o.outMode = .count then
    (.none, result.putOutput units.length, mem)
  else
    (.none, result.putOutput units.length, mem.storeAll outputChar units)

/-- `utf32_to_char`: the error, the updated `result` and the stores. -/
def utf32ToChar (o : Options) (Out : CharType) (unicode : U32) (outputChar outputEnd : Nat)
    (mem : Region Out.Unit) (result : CharResult) : ErrorT × CharResult × Region Out.Unit :=
  putUnits o (utf32Units Out unicode) outputChar outputEnd mem result

theorem utf32Units_length_pos (Out : CharType) (c : U32) : 0 < (utf32Units Out c).length := by
  unfold utf32Units
  split <;> (try split_ifs) <;> simp

theorem utf32Units_length_le_four (Out : CharType) (c : U32) :
    (utf32Units Out c).length ≤ 4 := by
  unfold utf32Units
  split <;> (try split_ifs) <;> simp

/-- A character fits exactly when its last unit lies inside the buffer. -/
theorem putUnits_eq (o : Options) {Out : CharType} (c : U32) (outputChar outputEnd : Nat)
    (mem : Region Out.Unit) (result : CharResult) :
    utf32ToChar o Out c outputChar outputEnd mem result =
      if o.checksOutput ∧ outputEnd < outputChar + (utf32Units Out c).length then
        (.outOverflow, result.putOutput (utf32Units Out c).length, mem)
      else if o.outMode = .count then
        (.none, result.putOutput (utf32Units Out c).length, mem)
      else
        (.none, result.putOutput (utf32Units Out c).length,
          mem.storeAll outputChar (utf32Units Out c)) := by
  have hpos := utf32Units_length_pos Out c
  have hiff : outputEnd ≤ outputChar + ((utf32Units Out c).length - 1) ↔
      outputEnd < outputChar + (utf32Units Out c).length := by omega
  simp only [utf32ToChar, putUnits, hiff]

end Convert
end Chenc
