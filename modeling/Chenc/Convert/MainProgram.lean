import Chenc.Convert.ApplyArg
import Chenc.Convert.Compatible
import Chenc.Convert.Sizing

/-!
# MainProgram — from a UTF-8 file to a UTF-16 file

Model of `u8s_to_u16s` and `main` (`convert/detail/utf_to_utf.hpp`).

* `readLoop` : the file is read block by block;
* `main` : what has been read is measured, converted into a string of that size, and written;
* `readLoop_eq` : the blocks make up the file, whatever its size;
* `main_converts` : what is written is the longest well-formed beginning of the file.

That the file opens, and the clock, are left out.
-/

namespace Chenc
namespace Convert

open Unicode

/-- `char`, which the machine may have signed. -/
@[reducible] def char (signed : Bool) : CharType :=
  { form := .utf8, signed := signed }

/-- `char16_t`. -/
abbrev char16 : CharType :=
  .ofForm .utf16

/-! ## Reading the file -/

/-- `std::ifstream`: what is still to be read, and whether every read so far was complete. -/
structure InFile where
  rest : List U8
  good : Bool

/-- `read(buf, n)`, with what it has put into `buf`. -/
def InFile.read (file : InFile) (n : Nat) : List U8 × InFile :=
  (file.rest.take n, ⟨file.rest.drop n, decide (n ≤ file.rest.length)⟩)

structure Reader where
  file : InFile
  str : List U8

/-- `sizeof(buf)`. -/
def bufSize : Nat :=
  4096

/-- `read`, and `append` of what it has put into `buf`. -/
def Reader.block (s : Reader) : Reader :=
  let (buf, file) := s.file.read bufSize
  { file := file, str := s.str ++ buf }

/-- `while (file)`. -/
def readLoop : Nat → Reader → Option Reader :=
  WhileLoop.run (fun s => s.file.good = true) fun s => some (.next s.block)

/-- The blocks make up the file; the last one is short, if only because it is empty. -/
theorem readLoop_eq (content : List U8) {fuel : Nat} (hfuel : content.length / bufSize + 1 ≤ fuel) :
    ∃ s, readLoop fuel ⟨⟨content, true⟩, []⟩ = some s ∧ s.str = content := by
  refine WhileLoop.run_rule
    (m := fun s : Reader => if s.file.good then s.file.rest.length / bufSize + 1 else 0)
    (I := fun s => s.str ++ s.file.rest = content ∧ (s.file.good = false → s.file.rest = []))
    ?_ ?_ ?_ ⟨rfl, fun h => by cases h⟩ hfuel
  · intro s hgood
    rw [if_pos hgood]
    exact Nat.succ_pos _
  · rintro s ⟨hstr, hend⟩ hgood
    rwa [hend (Bool.eq_false_iff.2 hgood), List.append_nil] at hstr
  · rintro s ⟨hstr, -⟩ hgood
    refine .inr ⟨s.block, rfl, ⟨?_, ?_⟩, ?_⟩
    · show (s.str ++ s.file.rest.take bufSize) ++ s.file.rest.drop bufSize = content
      rw [List.append_assoc, List.take_append_drop]
      exact hstr
    · -- A short block is the rest of the file.
      intro hshort
      have hlt : s.file.rest.length < bufSize := Nat.lt_of_not_le (of_decide_eq_false hshort)
      exact List.drop_of_length_le hlt.le
    · have hdrop : s.block.file.rest.length = s.file.rest.length - bufSize := List.length_drop
      rw [if_pos hgood, hdrop, bufSize]
      split_ifs with hfull
      · have hle : 4096 ≤ s.file.rest.length := of_decide_eq_true hfull
        omega
      · exact Nat.succ_pos _

/-! ## The program -/

/-- `count_opt`. -/
def countOpt : Options :=
  .make [.preset defaultOpt, .outMode .count, .perfMode .simd]

/-- `opt`. -/
def convertOpt : Options :=
  .make [.preset defaultOpt, .perfMode .simd]

def u8sToU16s (signed : Bool) (inputChar : List U8) (outputLen : Nat) : Option (Run char16) :=
  strToStr convertOpt (char signed) char16 inputChar outputLen

/-- A string of `n` zeros after the stores of a call. -/
def resized (n : Nat) (mem : Region U16) : List U16 :=
  (List.range n).map fun i => (mem i).getD 0

/-- What the program prints, and what it writes to `test_u16.txt`. -/
structure Output where
  need : Nat
  bytes : Nat
  file : List U16

def main (signed : Bool) (content : List U8) : Option Output := do
  let reader ← readLoop (content.length / bufSize + 1) ⟨⟨content, true⟩, []⟩
  let sizeResult ← strToStr countOpt (char signed) char16 reader.str 0
  let need := sizeResult.result.needOutputBlockCount
  let run ← u8sToU16s signed reader.str need
  let u16str := resized need run.mem
  some
    { need := need
      bytes := run.result.outputBlockCount * char16.size
      file := u16str.take run.result.outputBlockCount }

theorem resized_filled (w : List U16) : resized w.length (Region.filled w) = w := by
  refine List.ext_getElem (by simp [resized]) fun i hi hi' => ?_
  simp [resized, Region.filled, hi']

/-- **The program.**  Of every file it writes the longest well-formed beginning, in UTF-16, and so
all of a well-formed file.  The sizes it prints are those of what it writes, and the conversion does
not touch anything behind the string. -/
theorem main_converts (signed : Bool) (content : List U8) :
    ∃ out cs, main signed content = some out ∧
      LongestText .utf8 (numbers (T := char signed) content) cs ∧
      numbers (T := char16) out.file = encodeAll .utf16 cs ∧
      out.need = out.file.length ∧ out.bytes = 2 * out.file.length ∧
      ∀ run, u8sToU16s signed content out.need = some run → run.mem.Within out.need := by
  rcases readLoop_eq content (le_refl _) with ⟨reader, hread, hstr⟩
  rcases @Scan.exists defaultOpt (char signed) content with ⟨items, e, hscan⟩
  have hcount : @Scan countOpt (char signed) content items e :=
    hscan.congr _ rfl rfl rfl rfl
  have hconvert : @Scan convertOpt (char signed) content items e :=
    hscan.congr _ rfl rfl rfl rfl
  have hunsigned : @Scan defaultOpt (.ofForm .utf8) content items e :=
    (scan_unextended_iff (T := char signed) fun hf => by cases hf).1 hscan
  -- What is read is the longest text, and its characters are what is written.
  rcases Scan.strict_stop (f := .utf8) rfl rfl hunsigned with
    ⟨cs, t, hcs, hitems, hnum, hdone, hstuck⟩
  have hlongest : LongestText .utf8 (numbers (T := char signed) content) cs := by
    have hnum' : numbers (T := char signed) content = encodeAll .utf8 cs ++ t := hnum
    rw [hnum']
    refine longestText_of_stuck .utf8 hcs fun c hc hpre => ?_
    by_cases he : e = .done
    · rw [hdone he] at hpre
      have hpos := encode_length_pos .utf8 c
      have hle := hpre.length_le
      rw [List.length_nil] at hle
      omega
    · exact (hstuck he).2 c hc hpre
  have hout : numbers (output char16 items) = encodeAll .utf16 cs := by
    rw [hitems]
    exact numbers_output_charItems .utf8 char16 hcs
  -- The two passes.
  rcases Ending.close_isSome (hscan.ne_fault rfl) (tally items {}) with ⟨r, hr⟩
  rcases Ending.close_tally_outputCounts hr with ⟨hzero, hneed⟩
  have hsized : strToStr countOpt (char signed) char16 content 0 =
      some { result := r.credit 0 (output char16 items).length, mem := Region.filled [] } := by
    rw [strToStr_of_fits (not_fastPath_of_empty countOpt) hcount
      (fun hchecks => by rcases hchecks with h | h <;> cases h), hr]
    rfl
  have hrun : u8sToU16s signed content (output char16 items).length =
      some { result := r.credit (output char16 items).length 0,
             mem := Region.filled (output char16 items) } := by
    rw [u8sToU16s, strToStr_of_room (.inl rfl) hconvert (le_refl _), hr]
    rfl
  have hmain : main signed content = some
      { need := (output char16 items).length
        bytes := (output char16 items).length * 2
        file := output char16 items } := by
    have hpass : (r.credit 0 (output char16 items).length).needOutputBlockCount =
        (output char16 items).length := by
      simp [StrResult.credit, hneed]
    have hwritten : (r.credit (output char16 items).length 0).outputBlockCount =
        (output char16 items).length := by
      simp [StrResult.credit, hzero]
    have hfile : (resized (output char16 items).length (Region.filled (output char16 items))).take
        (output char16 items).length = output char16 items := by
      rw [resized_filled]
      exact List.take_length
    simp only [main, hread, hstr, hsized, hpass, hrun, hwritten, Option.bind_eq_bind,
      Option.bind_some]
    exact congrArg (fun file => some (Output.mk _ _ file)) hfile
  refine ⟨_, cs, hmain, hlongest, hout, rfl, Nat.mul_comm _ _, ?_⟩
  intro run hagain
  have hsame := hrun.symm.trans hagain
  cases hsame
  intro i hi
  exact List.getElem?_eq_none hi

end Convert
end Chenc
