import Chenc.Convert.Options

/-!
# CharToUtf32 — decoding one character

Model of `char_to_utf32` (`convert/detail/char_to_utf32.hpp`).  The pair of pointers
`input_char`, `input_end` is the list of units between them, so `input_char + k >= input_end`
reads `input.length ≤ k`, and reading a unit past the end has no result (`none`).

The three `if constexpr` blocks and the branches of the UTF-8 block keep a definition each.  In
every branch the checks that follow the assembly of `unicode` are listed in source order by a
function that returns the first error; `CharResult.deliver` is their common exit.
-/

namespace Chenc
namespace Convert

/-- `is_char_mode__strict || is_char_mode__compatible`. -/
def Options.checksSource (o : Options) : Prop :=
  o.charMode = .strict ∨ o.charMode = .compatible

instance (o : Options) : Decidable o.checksSource := by
  unfold Options.checksSource
  infer_instance

/-- `is_input_mode__normal` and fewer than `k + 1` units left. -/
def Options.truncates (o : Options) (k left : Nat) : Prop :=
  o.inputMode = .normal ∧ left ≤ k

instance (o : Options) (k left : Nat) : Decidable (o.truncates k left) := by
  unfold Options.truncates
  infer_instance

/-- `(unicode >= 0xD800) && (unicode <= 0xDFFF)`. -/
def inSurrogates (unicode : U32) : Prop :=
  0xD800#32 ≤ unicode ∧ unicode ≤ 0xDFFF#32

/-- `((unicode >= 0xFDD0) && (unicode <= 0xFDEF)) || ((unicode & 0xFFFE) == 0xFFFE)`. -/
def inNonCharacters (unicode : U32) : Prop :=
  (0xFDD0#32 ≤ unicode ∧ unicode ≤ 0xFDEF#32) ∨ unicode &&& 0xFFFE#32 = 0xFFFE#32

instance (unicode : U32) : Decidable (inSurrogates unicode) := by
  unfold inSurrogates
  infer_instance

instance (unicode : U32) : Decidable (inNonCharacters unicode) := by
  unfold inNonCharacters
  infer_instance

/-- The exit of a branch that has read `k` units and assembled `unicode`: the first error of
its checks, or the character. -/
def CharResult.deliver (result : CharResult) (k : Nat) (err : ErrorT) (unicode : U32) :
    ErrorT × CharResult :=
  if err = .none then
    (.none, { result.takeInput k with unicode := unicode })
  else
    (err, result.takeInput k)

/-! ## UTF-8 input -/

section Utf8

variable (o : Options) {In : CharType} (input : List In.Unit) (result : CharResult)

def twoByteError (unicode : U32) : ErrorT :=
  if o.charMode = .strict then
    if unicode < 0x80#32 then .nonShortest
    else .none
  else .none

def utf8TwoBytes : Option (ErrorT × CharResult) :=
  if o.truncates 1 input.length then
    some (.inTruncated, result.takeInput 2)
  else do
    let b0 : U8 := (← input[0]?).setWidth 8
    let b1 : U8 := (← input[1]?).setWidth 8
    if o.checksSource ∧ (b0 &&& 0xE0#8 ≠ 0xC0#8 ∨ b1 &&& 0xC0#8 ≠ 0x80#8) then
      some (.invalidSource, result.takeInput 2)
    else
      let unicode : U32 := (b0 &&& 0x1F#8).setWidth 32 <<< 6 ||| (b1 &&& 0x3F#8).setWidth 32
      some (result.deliver 2 (twoByteError o unicode) unicode)

/-- A sequence is reported as cut short or is there in full. -/
theorem utf8TwoBytes_cases {o : Options} {s : List In.Unit} {r : CharResult}
    {p : ErrorT × CharResult} (h : utf8TwoBytes o s r = some p) :
    (s.length ≤ 1 ∧ p = (.inTruncated, r.takeInput 2)) ∨ ∃ u0 u1 t, s = u0 :: u1 :: t := by
  unfold utf8TwoBytes at h
  split_ifs at h with ht
  · cases h
    exact .inl ⟨ht.2, rfl⟩
  · rcases s with _ | ⟨u0, _ | ⟨u1, t⟩⟩
    · simp at h
    · simp at h
    · exact .inr ⟨u0, u1, t, rfl⟩

/-- In full it is checked and delivered, with bound checks or without. -/
theorem utf8TwoBytes_cons (u0 u1 : In.Unit) (t : List In.Unit) :
    utf8TwoBytes o (u0 :: u1 :: t) result =
      let b0 : U8 := u0.setWidth 8
      let b1 : U8 := u1.setWidth 8
      let unicode : U32 := (b0 &&& 0x1F#8).setWidth 32 <<< 6 ||| (b1 &&& 0x3F#8).setWidth 32
      some (if o.checksSource ∧ (b0 &&& 0xE0#8 ≠ 0xC0#8 ∨ b1 &&& 0xC0#8 ≠ 0x80#8) then
          (.invalidSource, result.takeInput 2)
        else result.deliver 2 (twoByteError o unicode) unicode) := by
  have hlen : ¬ o.truncates 1 (u0 :: u1 :: t).length := by simp [Options.truncates]
  simp only [utf8TwoBytes, if_neg hlen, List.getElem?_cons_zero, List.getElem?_cons_succ,
    Option.bind_eq_bind, Option.bind_some, apply_ite some]

def threeByteError (unicode : U32) : ErrorT :=
  if o.charMode = .strict then
    if unicode < 0x800#32 then .nonShortest
    else if inSurrogates unicode then .surrogates
    else if inNonCharacters unicode then .nonCharacters
    else .none
  else .none

def utf8ThreeBytes : Option (ErrorT × CharResult) :=
  if o.truncates 2 input.length then
    some (.inTruncated, result.takeInput 3)
  else do
    let b0 : U8 := (← input[0]?).setWidth 8
    let b1 : U8 := (← input[1]?).setWidth 8
    let b2 : U8 := (← input[2]?).setWidth 8
    if o.checksSource ∧
        (b0 &&& 0xF0#8 ≠ 0xE0#8 ∨ b1 &&& 0xC0#8 ≠ 0x80#8 ∨ b2 &&& 0xC0#8 ≠ 0x80#8) then
      some (.invalidSource, result.takeInput 3)
    else
      let unicode : U32 :=
        (b0 &&& 0x0F#8).setWidth 32 <<< 12 ||| (b1 &&& 0x3F#8).setWidth 32 <<< 6 |||
          (b2 &&& 0x3F#8).setWidth 32
      some (result.deliver 3 (threeByteError o unicode) unicode)

theorem utf8ThreeBytes_cases {o : Options} {s : List In.Unit} {r : CharResult}
    {p : ErrorT × CharResult} (h : utf8ThreeBytes o s r = some p) :
    (s.length ≤ 2 ∧ p = (.inTruncated, r.takeInput 3)) ∨
      ∃ u0 u1 u2 t, s = u0 :: u1 :: u2 :: t := by
  unfold utf8ThreeBytes at h
  split_ifs at h with ht
  · cases h
    exact .inl ⟨ht.2, rfl⟩
  · rcases s with _ | ⟨u0, _ | ⟨u1, _ | ⟨u2, t⟩⟩⟩
    · simp at h
    · simp at h
    · simp at h
    · exact .inr ⟨u0, u1, u2, t, rfl⟩

theorem utf8ThreeBytes_cons (u0 u1 u2 : In.Unit) (t : List In.Unit) :
    utf8ThreeBytes o (u0 :: u1 :: u2 :: t) result =
      let b0 : U8 := u0.setWidth 8
      let b1 : U8 := u1.setWidth 8
      let b2 : U8 := u2.setWidth 8
      let unicode : U32 :=
        (b0 &&& 0x0F#8).setWidth 32 <<< 12 ||| (b1 &&& 0x3F#8).setWidth 32 <<< 6 |||
          (b2 &&& 0x3F#8).setWidth 32
      some (if o.checksSource ∧
            (b0 &&& 0xF0#8 ≠ 0xE0#8 ∨ b1 &&& 0xC0#8 ≠ 0x80#8 ∨ b2 &&& 0xC0#8 ≠ 0x80#8) then
          (.invalidSource, result.takeInput 3)
        else result.deliver 3 (threeByteError o unicode) unicode) := by
  have hlen : ¬ o.truncates 2 (u0 :: u1 :: u2 :: t).length := by simp [Options.truncates]
  simp only [utf8ThreeBytes, if_neg hlen, List.getElem?_cons_zero, List.getElem?_cons_succ,
    Option.bind_eq_bind, Option.bind_some, apply_ite some]

/-- Strict mode looks for surrogates and noncharacters before range and length; compatible mode
keeps the range check only. -/
def fourByteError (unicode : U32) : ErrorT :=
  if o.charMode = .strict then
    if inSurrogates unicode then .surrogates
    else if inNonCharacters unicode then .nonCharacters
    else if 0x10FFFF#32 < unicode then .invalidUnicode
    else if unicode < 0x10000#32 then .nonShortest
    else .none
  else if o.charMode = .compatible then
    if 0x10FFFF#32 < unicode then .invalidUnicode
    else .none
  else .none

def utf8FourBytes : Option (ErrorT × CharResult) :=
  if o.truncates 3 input.length then
    some (.inTruncated, result.takeInput 4)
  else do
    let b0 : U8 := (← input[0]?).setWidth 8
    let b1 : U8 := (← input[1]?).setWidth 8
    let b2 : U8 := (← input[2]?).setWidth 8
    let b3 : U8 := (← input[3]?).setWidth 8
    if o.checksSource ∧
        (b0 &&& 0xF8#8 ≠ 0xF0#8 ∨ b1 &&& 0xC0#8 ≠ 0x80#8 ∨ b2 &&& 0xC0#8 ≠ 0x80#8 ∨
          b3 &&& 0xC0#8 ≠ 0x80#8) then
      some (.invalidSource, result.takeInput 4)
    else
      let unicode : U32 :=
        (b0 &&& 0x07#8).setWidth 32 <<< 18 ||| (b1 &&& 0x3F#8).setWidth 32 <<< 12 |||
          (b2 &&& 0x3F#8).setWidth 32 <<< 6 ||| (b3 &&& 0x3F#8).setWidth 32
      some (result.deliver 4 (fourByteError o unicode) unicode)

theorem utf8FourBytes_cases {o : Options} {s : List In.Unit} {r : CharResult}
    {p : ErrorT × CharResult} (h : utf8FourBytes o s r = some p) :
    (s.length ≤ 3 ∧ p = (.inTruncated, r.takeInput 4)) ∨
      ∃ u0 u1 u2 u3 t, s = u0 :: u1 :: u2 :: u3 :: t := by
  unfold utf8FourBytes at h
  split_ifs at h with ht
  · cases h
    exact .inl ⟨ht.2, rfl⟩
  · rcases s with _ | ⟨u0, _ | ⟨u1, _ | ⟨u2, _ | ⟨u3, t⟩⟩⟩⟩
    · simp at h
    · simp at h
    · simp at h
    · simp at h
    · exact .inr ⟨u0, u1, u2, u3, t, rfl⟩

theorem utf8FourBytes_cons (u0 u1 u2 u3 : In.Unit) (t : List In.Unit) :
    utf8FourBytes o (u0 :: u1 :: u2 :: u3 :: t) result =
      let b0 : U8 := u0.setWidth 8
      let b1 : U8 := u1.setWidth 8
      let b2 : U8 := u2.setWidth 8
      let b3 : U8 := u3.setWidth 8
      let unicode : U32 :=
        (b0 &&& 0x07#8).setWidth 32 <<< 18 ||| (b1 &&& 0x3F#8).setWidth 32 <<< 12 |||
          (b2 &&& 0x3F#8).setWidth 32 <<< 6 ||| (b3 &&& 0x3F#8).setWidth 32
      some (if o.checksSource ∧
            (b0 &&& 0xF8#8 ≠ 0xF0#8 ∨ b1 &&& 0xC0#8 ≠ 0x80#8 ∨ b2 &&& 0xC0#8 ≠ 0x80#8 ∨
              b3 &&& 0xC0#8 ≠ 0x80#8) then
          (.invalidSource, result.takeInput 4)
        else result.deliver 4 (fourByteError o unicode) unicode) := by
  have hlen : ¬ o.truncates 3 (u0 :: u1 :: u2 :: u3 :: t).length := by simp [Options.truncates]
  simp only [utf8FourBytes, if_neg hlen, List.getElem?_cons_zero, List.getElem?_cons_succ,
    Option.bind_eq_bind, Option.bind_some, apply_ite some]

/-- The branch is chosen by the first byte alone. -/
def utf8ToUtf32 : Option (ErrorT × CharResult) := do
  let first ← input[0]?
  let c1 : U8 := first.setWidth 8
  if c1 < 0x80#8 then
    -- ASCII passes unchecked, in every mode.
    some (.none, { result.takeInput 1 with unicode := In.toU32 first })
  else if c1 &&& 0xE0#8 = 0xC0#8 then
    utf8TwoBytes o input result
  else if c1 &&& 0xF0#8 = 0xE0#8 then
    utf8ThreeBytes o input result
  else if c1 &&& 0xF8#8 = 0xF0#8 then
    utf8FourBytes o input result
  else
    -- A trail byte, or `0xF8` and above.
    some (.invalidSource, result.takeInput 1)

end Utf8

/-! ## UTF-16 input -/

section Utf16

variable (o : Options) {In : CharType} (input : List In.Unit) (result : CharResult)

def bmpError (unicode : U32) : ErrorT :=
  if o.charMode = .strict then
    if inNonCharacters unicode then .nonCharacters
    else .none
  else .none

def pairError (unicode : U32) : ErrorT :=
  if o.charMode = .strict then
    if unicode < 0x10000#32 then .nonShortest
    else if inSurrogates unicode then .surrogates
    else if unicode &&& 0xFFFE#32 = 0xFFFE#32 then .nonCharacters
    else .none
  else .none

/-- The bound check before the second unit does not depend on the input mode. -/
def utf16ToUtf32 : Option (ErrorT × CharResult) := do
  let unicode : U32 := In.toU32 (← input[0]?)
  if unicode < 0xD800#32 ∨ 0xDFFF#32 < unicode then
    some (result.deliver 1 (bmpError o unicode) unicode)
  else if unicode ≤ 0xDBFF#32 then
    -- A high surrogate, which stands for two units even if no low one follows.
    if input.length ≤ 1 then
      some (.inTruncated, result.takeInput 2)
    else do
      let c2 : U16 := (← input[1]?).setWidth 16
      if o.checksSource ∧ (c2 < 0xDC00#16 ∨ 0xDFFF#16 < c2) then
        some (.invalidSource, result.takeInput 2)
      else
        let pair : U32 :=
          ((unicode &&& 0x03FF#32) <<< 10 ||| (c2 &&& 0x03FF#16).setWidth 32) + 0x10000#32
        some (result.deliver 2 (pairError o pair) pair)
  else
    -- A low surrogate on its own.
    some (.invalidSource, result.takeInput 1)

end Utf16

/-! ## UTF-32 input -/

section Utf32

variable (o : Options) {In : CharType} (input : List In.Unit) (result : CharResult)

def utf32Error (unicode : U32) : ErrorT :=
  if o.charMode = .strict then
    if inSurrogates unicode then .surrogates
    else if inNonCharacters unicode then .nonCharacters
    else if 0x10FFFF#32 < unicode then .invalidUnicode
    else .none
  else if o.charMode = .compatible then
    if 0x10FFFF#32 < unicode then .invalidUnicode
    else .none
  else .none

def utf32ToUtf32 : Option (ErrorT × CharResult) := do
  let unicode : U32 := In.toU32 (← input[0]?)
  some (result.deliver 1 (utf32Error o unicode) unicode)

end Utf32

/-! ## The decoder -/

/-- `char_to_utf32`: the error and the updated `result`. -/
def charToUtf32 (o : Options) (In : CharType) (input : List In.Unit) (result : CharResult) :
    Option (ErrorT × CharResult) :=
  if o.truncates 0 input.length then
    some (.inTruncated, result.takeInput 1)
  else
    match In.form with
    | .utf8 => utf8ToUtf32 o input result
    | .utf16 => utf16ToUtf32 o input result
    | .utf32 => utf32ToUtf32 o input result

end Convert
end Chenc
