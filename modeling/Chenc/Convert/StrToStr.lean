import Chenc.Lib.Lanes
import Chenc.Lib.WhileLoop
import Chenc.Convert.CharToUtf32
import Chenc.Convert.Utf32ToChar

/-!
# StrToStr — converting a text

Model of `str_to_str` (`convert/detail/utf_to_utf.hpp`).

* `LoopState` holds what the loop changes: the units from `in_str` to `in_end`, the offset of
  `out_str`, the stores made, and `result`;
* `loopBody` is one iteration, which ends in `continue` or `return`;
* `strLoop` is the loop.  Its fuel is the number of units left, which suffices because every
  iteration that continues reads one (`Convert.Scan`); a result `none` stands for a read past
  the end of the input.
-/

namespace Chenc
namespace Convert

open WhileLoop (Flow)

structure LoopState (In Out : CharType) where
  inStr : List In.Unit
  outStr : Nat
  mem : Region Out.Unit
  result : StrResult

/-! ## The eight-byte path -/

/-- `8 / sizeof(T)`. -/
def CharType.blockUnits (T : CharType) : Nat :=
  8 / T.size

theorem CharType.blockUnits_pos (T : CharType) : 0 < T.blockUnits := by
  simp only [CharType.blockUnits, CharType.size]
  split <;> norm_num

/-- The mask tested against the packed block. -/
def CharType.asciiMask (T : CharType) : U64 :=
  match T.form with
  | .utf8 => 0x8080808080808080#64
  | .utf16 => 0xFF80FF80FF80FF80#64
  | .utf32 => 0xFFFFFF80FFFFFF80#64

/-- `std::bit_cast<u64>` of an array of units, the first unit in the low bits. -/
def packUnits {w : Nat} (us : List (BitVec w)) : U64 :=
  Lanes.pack 64 us

/-- The test in front of the fast path: both ranges hold eight bytes and the block is ASCII. -/
def fastPath (o : Options) {In Out : CharType} (outEnd : Nat) (s : LoopState In Out) : Prop :=
  o.perfMode = .simd ∧ In.blockUnits ≤ s.inStr.length ∧ s.outStr + Out.blockUnits ≤ outEnd ∧
    packUnits (s.inStr.take In.blockUnits) &&& In.asciiMask = 0#64

instance (o : Options) {In Out : CharType} (outEnd : Nat) (s : LoopState In Out) :
    Decidable (fastPath o outEnd s) := by
  unfold fastPath
  infer_instance

/-- The fast path copies one input block, unit by unit. -/
def fastStep {In Out : CharType} (s : LoopState In Out) : LoopState In Out :=
  { inStr := s.inStr.drop In.blockUnits
    outStr := s.outStr + In.blockUnits
    mem := s.mem.storeAll s.outStr ((s.inStr.take In.blockUnits).map (BitVec.setWidth Out.bits))
    result := (s.result.charge In.blockUnits In.blockUnits 0).credit In.blockUnits 0 }

/-! ## One iteration -/

/-- `in_str += k`. -/
def LoopState.skipInput {In Out : CharType} (s : LoopState In Out) (k : Nat) :
    LoopState In Out :=
  { s with inStr := s.inStr.drop k }

/-- The counters the switch over `err1` updates in a branch. -/
def LoopState.charge {In Out : CharType} (s : LoopState In Out) (k normal bad : Nat) :
    LoopState In Out :=
  { s with result := s.result.charge k normal bad }

def LoopState.raise {In Out : CharType} (s : LoopState In Out) (status : Status) (err : ErrorT) :
    LoopState In Out :=
  { s with result := s.result.raise status err }

/-- The call of `utf32_to_char` and the switch over `err2`. -/
def outputStep (o : Options) {In Out : CharType} (outEnd : Nat) (charResult : CharResult)
    (s : LoopState In Out) : Flow (LoopState In Out) :=
  match utf32ToChar o Out charResult.unicode s.outStr outEnd s.mem charResult with
  | (.none, charResult, mem) =>
      -- Each mode has its own choice of pointer and counters to advance.
      match o.outMode with
      | .count =>
          .next { s with
            mem := mem
            result := s.result.credit 0 charResult.outputBlock }
      | .noneCheckBuffer | .normal =>
          .next { s with
            mem := mem
            outStr := s.outStr + charResult.outputBlock
            result := s.result.credit charResult.outputBlock 0 }
      | .full =>
          .next { s with
            mem := mem
            outStr := s.outStr + charResult.outputBlock
            result := s.result.credit charResult.outputBlock charResult.outputBlock }
  | (.outOverflow, charResult, mem) =>
      match o.outMode with
      | .normal => .ret { s with mem := mem, result := s.result.raise .error .outOverflow }
      | .full =>
          -- `out_str` stays where it is, and the loop goes on.
          .next { s with
            mem := mem
            result := (s.result.credit 0 charResult.outputBlock).raise .partially .outOverflow }
      | .noneCheckBuffer | .count => .next { s with mem := mem }
  | (_, _, mem) => .next { s with mem := mem }

/-- The slow path: `char_to_utf32`, the switch over `err1`, then the output. -/
def slowStep (o : Options) {In Out : CharType} (outEnd : Nat) (s : LoopState In Out) :
    Option (Flow (LoopState In Out)) := do
  let (err1, charResult) ← charToUtf32 o In s.inStr {}
  let k := charResult.inputBlock
  -- `in_str` and the input counters move on before the output is tried.
  match err1 with
  | .none => some (outputStep o outEnd charResult ((s.charge k 1 0).skipInput k))
  | .inTruncated => some (.ret ((s.charge k 0 1).raise .error .inTruncated))
  | .outOverflow => some (outputStep o outEnd charResult (s.skipInput k))
  -- The content errors.
  | err =>
      match o.errorMode with
      | .stop => some (.ret ((s.charge k 0 1).raise .error err))
      | .skip => some (.next (((s.charge k 0 1).raise .partially err).skipInput k))
      | .replace =>
          some (outputStep o outEnd { charResult with unicode := o.replaceChar.value }
            (((s.charge k 0 1).raise .partially err).skipInput k))

def loopBody (o : Options) {In Out : CharType} (outEnd : Nat) (s : LoopState In Out) :
    Option (Flow (LoopState In Out)) :=
  if fastPath o outEnd s then
    some (.next (fastStep s))
  else
    slowStep o outEnd s

/-! ## The loop -/

/-- `in_str < in_end`. -/
def LoopState.hasInput {In Out : CharType} (s : LoopState In Out) : Prop :=
  s.inStr ≠ []

instance {In Out : CharType} :
    DecidablePred (LoopState.hasInput : LoopState In Out → Prop) := fun s => by
  unfold LoopState.hasInput
  infer_instance

/-- `while (in_str < in_end)`. -/
def strLoop (o : Options) {In Out : CharType} (outEnd : Nat) :
    Nat → LoopState In Out → Option (LoopState In Out) :=
  WhileLoop.run LoopState.hasInput (loopBody o outEnd)

def LoopState.start {In : CharType} (Out : CharType) (input : List In.Unit) : LoopState In Out :=
  { inStr := input
    outStr := 0
    mem := Region.untouched
    result := {} }

/-- What a call leaves behind: its result and its stores. -/
structure Run (Out : CharType) where
  result : StrResult
  mem : Region Out.Unit

def LoopState.toRun {In Out : CharType} (s : LoopState In Out) : Run Out :=
  { result := s.result
    mem := s.mem }

/-- `str_to_str`, on the units from `input_str` on and `output_len` units of space. -/
def strToStr (o : Options) (In Out : CharType) (input : List In.Unit) (outputLen : Nat) :
    Option (Run Out) :=
  (strLoop o outputLen input.length (LoopState.start Out input)).map LoopState.toRun

/-- The loop run of a call. -/
theorem exists_loop_of_strToStr {o : Options} {In Out : CharType} {input : List In.Unit}
    {outputLen : Nat} {run : Run Out} (hrun : strToStr o In Out input outputLen = some run) :
    ∃ s', strLoop o outputLen input.length (LoopState.start Out input) = some s' ∧
      s'.toRun = run :=
  Option.map_eq_some_iff.1 hrun

/-- The first `output_block_count_` units of the buffer. -/
def Run.written {Out : CharType} (r : Run Out) : List Out.Unit :=
  r.mem.front r.result.outputBlockCount

/-- The options that write a whole conversion: the slow path, into an unbounded buffer. -/
def Options.unbounded (o : Options) : Options :=
  { o with outMode := .normal, perfMode := .normal }

/-- The output an unbounded buffer receives; none if the text is read past its end.  No input
unit stands for more than four output units, so `4 * input.length` units of space are unbounded. -/
def completeConversion (o : Options) (In Out : CharType) (input : List In.Unit) :
    Option (List Out.Unit) :=
  (strToStr o.unbounded In Out input (4 * input.length)).map Run.written

end Convert
end Chenc
