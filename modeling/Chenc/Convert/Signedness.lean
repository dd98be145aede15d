import Chenc.Convert.FastPath
import Chenc.Convert.Truncation

/-!
# Signedness — code units of signed types

The input is widened by `static_cast<u32>`, which extends the sign of a signed unit.  Every
decoder but that of UTF-16 then cuts the unit back to its width, or had no bit to add.

* `charToUtf32_sign` : outside UTF-16 the sign of the units is not seen;
* `charToUtf32_extended` : a signed 16-bit unit with its sign bit set is a code point far beyond
  the Unicode range;
* `scan_unsigned_iff` : a text that hides its signs is read as if its units were unsigned;
* `strToStr_retype` : where the decoders agree on what is read, the calls agree;
* `sameForBits_iff` : when a conversion depends on the bits of its input only.
-/

namespace Chenc
namespace Convert

open Unicode
open WhileLoop (Flow)

/-! ## Widened units -/

/-- There are no bits to fill. -/
theorem toU32_utf32 (signed : Bool) (u : U32) :
    CharType.toU32 { form := .utf32, signed := signed } u = u := by
  unfold CharType.toU32
  split_ifs
  · exact BitVec.signExtend_eq u
  · exact BitVec.setWidth_eq u

theorem toU32_low (signed : Bool) {u : U16} (hu : u.toNat < 0x8000) :
    CharType.toU32 { form := .utf16, signed := signed } u = u.setWidth 32 := by
  unfold CharType.toU32
  split_ifs
  · have hmsb : u.msb = false := BitVec.msb_eq_false_iff_two_mul_lt.2 (by omega)
    exact BitVec.signExtend_eq_setWidth_of_msb_false hmsb
  · rfl

theorem toNat_toU32_high {u : U16} (hu : 0x8000 ≤ u.toNat) :
    (CharType.toU32 { form := .utf16, signed := true } u).toNat = 0xFFFF0000 + u.toNat := by
  have hmsb : u.msb = true := BitVec.msb_eq_true_iff_two_mul_ge.2 (by omega)
  have hlt := u.isLt
  change (u.signExtend 32).toNat = _
  rw [BitVec.toNat_signExtend, hmsb, BitVec.toNat_setWidth, if_pos rfl]
  omega

/-! ## Decoding -/

/-- Outside UTF-16 the sign is not seen. -/
theorem charToUtf32_sign (o : Options) {f : Form} (hf : f ≠ .utf16) (a a' : Bool)
    (s : List (CharType.ofForm f).Unit) :
    charToUtf32 o { form := f, signed := a } s {} =
      charToUtf32 o { form := f, signed := a' } s {} := by
  cases f with
  | utf8 => exact (charToUtf32_utf8_signed o a s).trans (charToUtf32_utf8_signed o a' s).symm
  | utf16 => exact absurd rfl hf
  | utf32 =>
      rcases s with _ | ⟨u, t⟩
      · rfl
      · simp only [charToUtf32, utf32ToUtf32, List.getElem?_cons_zero, Option.bind_eq_bind,
          Option.bind_some, toU32_utf32]

section Utf16

variable (o : Options) (signed : Bool) {u : U16} (s : List U16)

/-- A unit that is no surrogate once widened. -/
theorem charToUtf32_bmp {c : U32}
    (hc : CharType.toU32 { form := .utf16, signed := signed } u = c)
    (hbmp : c.toNat < 0xD800 ∨ 0xDFFF < c.toNat) :
    charToUtf32 o { form := .utf16, signed := signed } (u :: s) {} =
      some (({} : CharResult).deliver 1 (bmpError o c) c) := by
  have hlen : ¬ o.truncates 0 (u :: s).length := by simp [Options.truncates]
  have hbranch : c < 0xD800#32 ∨ 0xDFFF#32 < c := by
    simpa only [BitVec.lt_def, BitVec.toNat_ofNat] using hbmp
  simp only [charToUtf32, if_neg hlen, utf16ToUtf32, List.getElem?_cons_zero,
    Option.bind_eq_bind, Option.bind_some, hc, if_pos hbranch]

theorem charToUtf32_lowSurrogate (hmin : 0xDC00 ≤ u.toNat) (hmax : u.toNat ≤ 0xDFFF) :
    charToUtf32 o (.ofForm .utf16) (u :: s) {} = some (.invalidSource, { inputBlock := 1 }) := by
  have hlen : ¬ o.truncates 0 (u :: s).length := by simp [Options.truncates]
  have hnat : (CharType.toU32 (.ofForm .utf16) u).toNat = u.toNat :=
    @CharType.toNat_toU32 (.ofForm .utf16) rfl u
  have hbmp : ¬ (CharType.toU32 (.ofForm .utf16) u < 0xD800#32 ∨
      0xDFFF#32 < CharType.toU32 (.ofForm .utf16) u) := by
    simp only [BitVec.lt_def, hnat, BitVec.toNat_ofNat]
    omega
  have hhigh : ¬ CharType.toU32 (.ofForm .utf16) u ≤ 0xDBFF#32 := by
    simp only [BitVec.le_def, hnat, BitVec.toNat_ofNat]
    omega
  simp only [charToUtf32, if_neg hlen, utf16ToUtf32, List.getElem?_cons_zero,
    Option.bind_eq_bind, Option.bind_some, if_neg hbmp, if_neg hhigh]
  rfl

/-- A unit below `0x8000` is a character of its own, whatever follows. -/
theorem charToUtf32_low (hu : u.toNat < 0x8000) :
    charToUtf32 o { form := .utf16, signed := signed } (u :: s) {} =
      some (.none, { inputBlock := 1, unicode := u.setWidth 32 }) := by
  have hnat : (u.setWidth 32).toNat = u.toNat := by
    rw [BitVec.toNat_setWidth]
    omega
  have hnon : ¬ inNonCharacters (u.setWidth 32) := by
    rw [inNonCharacters_iff, hnat, IsNoncharacter]
    omega
  have herr : bmpError o (u.setWidth 32) = .none := by simp [bmpError, hnon]
  rw [charToUtf32_bmp o signed s (toU32_low signed hu) (by omega), herr]
  rfl

/-- The last two units are noncharacters under either sign. -/
theorem charToUtf32_nonCharacter (ho : o.charMode = .strict) (hu : 0xFFFE ≤ u.toNat) :
    charToUtf32 o { form := .utf16, signed := signed } (u :: s) {} =
      some (.nonCharacters, { inputBlock := 1 }) := by
  have hlt := u.isLt
  have hnat : ∃ c, CharType.toU32 { form := .utf16, signed := signed } u = c ∧
      0xFFFE ≤ c.toNat ∧ 0xFFFE ≤ c.toNat % 0x10000 := by
    refine ⟨_, rfl, ?_⟩
    cases signed with
    | false =>
        rw [CharType.toNat_toU32 rfl]
        omega
    | true =>
        rw [toNat_toU32_high (by omega)]
        omega
  rcases hnat with ⟨c, hc, hmin, hlow⟩
  have herr : bmpError o c = .nonCharacters := by
    have hnon : inNonCharacters c := (inNonCharacters_iff c).2 (.inr hlow)
    simp [bmpError, ho, hnon]
  rw [charToUtf32_bmp o signed s hc (by omega), herr]
  rfl

/-- **Sign extension.**  A signed unit with its sign bit set is delivered as a code point beyond
all others; strict mode only stops the two whose low bits look like a noncharacter. -/
theorem charToUtf32_extended (hu : 0x8000 ≤ u.toNat)
    (hnon : o.charMode = .strict → u.toNat < 0xFFFE) :
    ∃ c : U32, c.toNat = 0xFFFF0000 + u.toNat ∧
      charToUtf32 o { form := .utf16, signed := true } (u :: s) {} =
        some (.none, { inputBlock := 1, unicode := c }) := by
  have hlt := u.isLt
  have hnat := toNat_toU32_high hu
  have herr : bmpError o (CharType.toU32 { form := .utf16, signed := true } u) = .none := by
    by_cases ho : o.charMode = .strict
    · rw [bmpError_eq_none ho, hnat, IsNoncharacter]
      have hmax := hnon ho
      omega
    · simp [bmpError, ho]
  refine ⟨_, hnat, ?_⟩
  rw [charToUtf32_bmp o true s rfl (by omega), herr]
  rfl

/-- What becomes of a signed unit: a character, one of the two noncharacters, or a code point
beyond the range. -/
theorem charToUtf32_signed_cases (u : U16) :
    (u.toNat < 0x8000 ∧ ∃ c : U32, c.toNat ≤ 0xFFFF ∧
      charToUtf32 o ⟨.utf16, true⟩ (u :: s) {} = some (.none, { inputBlock := 1, unicode := c })) ∨
    (¬ u.toNat < 0x8000 ∧ o.charMode = .strict ∧ 0xFFFE ≤ u.toNat ∧
      charToUtf32 o ⟨.utf16, true⟩ (u :: s) {} = some (.nonCharacters, { inputBlock := 1 })) ∨
    ∃ c : U32, 0xFFFF < c.toNat ∧
      charToUtf32 o ⟨.utf16, true⟩ (u :: s) {} =
        some (.none, { inputBlock := 1, unicode := c }) := by
  by_cases hu : u.toNat < 0x8000
  · refine .inl ⟨hu, _, ?_, charToUtf32_low o true s hu⟩
    rw [BitVec.toNat_setWidth]
    omega
  · by_cases hnon : o.charMode = .strict ∧ 0xFFFE ≤ u.toNat
    · exact .inr (.inl ⟨hu, hnon.1, hnon.2, charToUtf32_nonCharacter o true s hnon.1 hnon.2⟩)
    · have hmax : o.charMode = .strict → u.toNat < 0xFFFE := fun ho =>
        Nat.lt_of_not_le fun hmin => hnon ⟨ho, hmin⟩
      rcases charToUtf32_extended o s (Nat.le_of_not_lt hu) hmax with ⟨c, hc, hdecode⟩
      exact .inr (.inr ⟨c, by omega, hdecode⟩)

end Utf16

/-! ## Scans of units whose sign is not seen -/

/-- The types whose units are not extended: all but the signed 16-bit types. -/
def CharType.Unextended (T : CharType) : Prop :=
  T.form = .utf16 → T.signed = false

theorem charToUtf32_unextended {T : CharType} (hT : T.Unextended) (o : Options)
    (s : List T.Unit) : charToUtf32 o T s {} = charToUtf32 o (.ofForm T.form) s {} := by
  rcases T with ⟨f, signed⟩
  by_cases hf : f = .utf16
  · have hsigned : signed = false := hT hf
    rw [hsigned]
  · exact charToUtf32_sign o hf signed false s

/-- Units that are decoded alike are scanned alike. -/
theorem Scan.retype {o : Options} {f : Form} {a a' : Bool}
    (hdecode : ∀ s : List (CharType.ofForm f).Unit,
      charToUtf32 o ⟨f, a⟩ s {} = charToUtf32 o ⟨f, a'⟩ s {})
    {s : List (CharType.Unit ⟨f, a⟩)} {items : List Item} {e : Ending} (h : Scan o s items e) :
    @Scan o ⟨f, a'⟩ s items e := by
  induction h with
  | nil => exact .nil
  | item hr hv _ ih => exact .item ((hdecode _).symm.trans hr) hv ih
  | halt hr hv => exact .halt ((hdecode _).symm.trans hr) hv
  | fault hr => exact .fault ((hdecode _).symm.trans hr)

theorem CharType.eq_of_not_unextended {T : CharType} (h : ¬ T.Unextended) : T = ⟨.utf16, true⟩ := by
  rcases T with ⟨f, signed⟩
  simp only [CharType.Unextended, Classical.not_imp, Bool.not_eq_false] at h
  rw [h.1, h.2]

/-- The scan of such units is that of the unsigned ones. -/
theorem scan_unextended_iff {T : CharType} (hT : T.Unextended) {o : Options} {s : List T.Unit}
    {items : List Item} {e : Ending} :
    Scan o s items e ↔ @Scan o (.ofForm T.form) s items e := by
  have hdecode := charToUtf32_unextended hT o
  rcases T with ⟨f, signed⟩
  exact ⟨Scan.retype hdecode, Scan.retype fun s => (hdecode s).symm⟩

/-! ## Calls on the same bits -/

/-- The same bits in units of other signs. -/
def LoopState.retype {f g : Form} {a b : Bool} (a' b' : Bool) (s : LoopState ⟨f, a⟩ ⟨g, b⟩) :
    LoopState ⟨f, a'⟩ ⟨g, b'⟩ :=
  { inStr := s.inStr
    outStr := s.outStr
    mem := s.mem
    result := s.result }

def Run.retype {g : Form} {b : Bool} (b' : Bool) (run : Run ⟨g, b⟩) : Run ⟨g, b'⟩ :=
  { result := run.result
    mem := run.mem }

section Retype

variable {o : Options} {f g : Form} {a a' b b' : Bool} {outEnd : Nat}

theorem fastPath_retype (s : LoopState ⟨f, a⟩ ⟨g, b⟩) :
    fastPath o outEnd (s.retype a' b') ↔ fastPath o outEnd s :=
  Iff.rfl

/-- The output side sees neither sign. -/
theorem consume_retype (i : Item) (s : LoopState ⟨f, a⟩ ⟨g, b⟩) :
    consume o outEnd i (s.retype a' b') =
      (consume o outEnd i s).map (LoopState.retype a' b') := by
  unfold consume
  cases i.code with
  | none => rfl
  | some c =>
      by_cases hover : o.checksOutput ∧ outEnd < s.outStr + (utf32Units ⟨g, b⟩ c).length
      · have hleft : o.checksOutput ∧
            outEnd < (i.accept (s.retype a' b')).outStr + (utf32Units ⟨g, b'⟩ c).length := hover
        have hright : o.checksOutput ∧
            outEnd < (i.accept s).outStr + (utf32Units ⟨g, b⟩ c).length := hover
        simp only [emit, if_pos hleft, if_pos hright]
        split_ifs <;> rfl
      · have hleft : ¬ (o.checksOutput ∧
            outEnd < (i.accept (s.retype a' b')).outStr + (utf32Units ⟨g, b'⟩ c).length) := hover
        have hright : ¬ (o.checksOutput ∧
            outEnd < (i.accept s).outStr + (utf32Units ⟨g, b⟩ c).length) := hover
        simp only [emit, if_neg hleft, if_neg hright]
        rfl

/-- Where the decoders agree an iteration does the same. -/
theorem loopBody_retype {s : LoopState ⟨f, a⟩ ⟨g, b⟩} (hcond : s.hasInput)
    (hdecode : charToUtf32 o ⟨f, a'⟩ s.inStr {} = charToUtf32 o ⟨f, a⟩ s.inStr {}) :
    loopBody o outEnd (s.retype a' b') =
      (loopBody o outEnd s).map (Flow.map (LoopState.retype a' b')) := by
  by_cases hpath : fastPath o outEnd s
  · rw [loopBody, loopBody, if_pos hpath, if_pos ((fastPath_retype s).2 hpath)]
    rfl
  · rcases (hasInput_iff s).1 hcond with ⟨u, t, hs⟩
    have hs' : (s.retype a' b').inStr = u :: t := hs
    have hpath' : ¬ fastPath o outEnd (s.retype a' b') := hpath
    rw [hs] at hdecode
    rw [loopBody_of_slow hs hpath, loopBody_of_slow hs' hpath', hdecode, Option.map_map]
    refine congrArg (fun h => Option.map h _) (funext fun r => ?_)
    simp only [Function.comp]
    cases hv : o.verdict r with
    | item i => exact consume_retype i s
    | halt k err => rfl

/-- Where the decoders agree as far as the input is read, the calls agree.  `J` is what keeps them
agreeing. -/
theorem strToStr_retype (J : List (CharType.ofForm f).Unit → Prop)
    (hdecode : ∀ u t, J (u :: t) →
      charToUtf32 o ⟨f, a'⟩ (u :: t) {} = charToUtf32 o ⟨f, a⟩ (u :: t) {})
    (hnext : ∀ s t : LoopState ⟨f, a⟩ ⟨g, b⟩, J s.inStr → s.hasInput →
      loopBody o outEnd s = some (.next t) → J t.inStr)
    {input : List (CharType.ofForm f).Unit} (hJ : J input) :
    strToStr o ⟨f, a'⟩ ⟨g, b'⟩ input outEnd =
      (strToStr o ⟨f, a⟩ ⟨g, b⟩ input outEnd).map (Run.retype b') := by
  have hloop : strLoop o outEnd input.length
      ((@LoopState.start ⟨f, a⟩ ⟨g, b⟩ input).retype a' b') =
      (strLoop o outEnd input.length (@LoopState.start ⟨f, a⟩ ⟨g, b⟩ input)).map
        (LoopState.retype a' b') := by
    refine WhileLoop.run_map (LoopState.retype a' b')
      (fun s : LoopState ⟨f, a⟩ ⟨g, b⟩ => J s.inStr) (fun _ => Iff.rfl) ?_ ?_ hJ
    · intro s hs hcond
      rcases (hasInput_iff s).1 hcond with ⟨u, t, heq⟩
      refine loopBody_retype hcond ?_
      rw [heq] at hs ⊢
      exact hdecode u t hs
    · intro s t hs hcond hbody
      exact hnext s t hs hcond hbody
  have hstart : (@LoopState.start ⟨f, a⟩ ⟨g, b⟩ input).retype a' b' =
      @LoopState.start ⟨f, a'⟩ ⟨g, b'⟩ input := rfl
  rw [hstart] at hloop
  rw [strToStr, strToStr, Option.map_map]
  refine (congrArg _ hloop).trans ?_
  rw [Option.map_map]
  rfl

end Retype

/-! ## Texts that hide the sign -/

/-- The units of a UTF-16 text that are read have their sign bit clear, but for the two that strict
mode rejects under either sign, and at which `stop` ends the reading. -/
def Options.HidesSign (o : Options) : List Nat → Prop
  | [] => True
  | u :: s =>
      if u < 0x8000 then
        o.HidesSign s
      else
        o.charMode = .strict ∧ 0xFFFE ≤ u ∧ (o.errorMode = .stop ∨ o.HidesSign s)

section Hidden

variable {o : Options} {a a' b : Bool} {u : U16} {s : List U16}

theorem hidesSign_cons_low {n : Nat} (hn : n < 0x8000) (ns : List Nat) :
    o.HidesSign (n :: ns) ↔ o.HidesSign ns := by
  rw [Options.HidesSign, if_pos hn]

theorem hidesSign_cons_high {n : Nat} (hn : ¬ n < 0x8000) (ns : List Nat) :
    o.HidesSign (n :: ns) ↔
      o.charMode = .strict ∧ 0xFFFE ≤ n ∧ (o.errorMode = .stop ∨ o.HidesSign ns) := by
  rw [Options.HidesSign, if_neg hn]

theorem hidesSign_append {ms ns : List Nat} (hms : ∀ m ∈ ms, m < 0x8000) :
    o.HidesSign (ms ++ ns) ↔ o.HidesSign ns := by
  induction ms with
  | nil => rfl
  | cons m ms ih =>
      rcases List.forall_mem_cons.1 hms with ⟨hm, hms⟩
      rw [List.cons_append, hidesSign_cons_low hm, ih hms]

theorem charToUtf32_of_hidesSign (h : o.HidesSign (u.toNat :: s.map BitVec.toNat)) :
    charToUtf32 o ⟨.utf16, a'⟩ (u :: s) {} = charToUtf32 o ⟨.utf16, a⟩ (u :: s) {} := by
  by_cases hu : u.toNat < 0x8000
  · rw [charToUtf32_low o a' s hu, charToUtf32_low o a s hu]
  · rcases (hidesSign_cons_high hu _).1 h with ⟨ho, hmin, -⟩
    rw [charToUtf32_nonCharacter o a' s ho hmin, charToUtf32_nonCharacter o a s ho hmin]

/-- What is left behind an item still hides the sign. -/
theorem hidesSign_item (h : o.HidesSign (u.toNat :: s.map BitVec.toNat)) {r : ErrorT × CharResult}
    {i : Item} (hr : charToUtf32 o ⟨.utf16, a⟩ (u :: s) {} = some r)
    (hv : o.verdict r = .item i) : i.units = 1 ∧ o.HidesSign (s.map BitVec.toNat) := by
  by_cases hu : u.toNat < 0x8000
  · rw [charToUtf32_low o a s hu] at hr
    cases hr
    cases hv
    exact ⟨rfl, (hidesSign_cons_low hu _).1 h⟩
  · rcases (hidesSign_cons_high hu _).1 h with ⟨ho, hmin, hstop | hrest⟩
    · rw [charToUtf32_nonCharacter o a s ho hmin] at hr
      cases hr
      simp only [Options.verdict, hstop] at hv
      cases hv
    · rw [charToUtf32_nonCharacter o a s ho hmin] at hr
      cases hr
      refine ⟨?_, hrest⟩
      simp only [Options.verdict] at hv
      cases hm : o.errorMode <;> simp only [hm] at hv <;> cases hv <;> rfl

/-- A text that hides the sign is scanned alike. -/
theorem Scan.of_hidesSign {s : List (CharType.Unit ⟨.utf16, a⟩)} {items : List Item} {e : Ending}
    (h : Scan o s items e) (hhides : o.HidesSign (s.map BitVec.toNat)) :
    @Scan o ⟨.utf16, a'⟩ s items e := by
  induction h with
  | nil => exact .nil
  | @item u t r i items e hr hv _ ih =>
      rcases hidesSign_item hhides hr hv with ⟨hone, hrest⟩
      refine .item ((charToUtf32_of_hidesSign hhides).trans hr) hv (ih ?_)
      rwa [hone]
  | halt hr hv => exact .halt ((charToUtf32_of_hidesSign hhides).trans hr) hv
  | fault hr => exact .fault ((charToUtf32_of_hidesSign hhides).trans hr)

/-- In strict mode, where errors do not end the reading, that is a condition on every unit. -/
theorem hidesSign_iff (ho : o.charMode = .strict) (he : o.errorMode ≠ .stop) (ns : List Nat) :
    o.HidesSign ns ↔ ∀ n ∈ ns, n < 0x8000 ∨ 0xFFFE ≤ n := by
  induction ns with
  | nil => simp [Options.HidesSign]
  | cons n ns ih =>
      rw [List.forall_mem_cons, ← ih]
      by_cases hn : n < 0x8000
      · rw [hidesSign_cons_low hn]
        exact ⟨fun h => ⟨.inl hn, h⟩, fun h => h.2⟩
      · rw [hidesSign_cons_high hn]
        exact ⟨fun ⟨_, hmin, h⟩ => ⟨.inr hmin, h.resolve_left he⟩,
          fun ⟨hmin, h⟩ => ⟨ho, hmin.resolve_left hn, .inr h⟩⟩

/-- Units of any type whose sign is not seen. -/
theorem scan_unsigned_iff {T : CharType} {s : List T.Unit} {items : List Item} {e : Ending}
    (h : ¬ T.Unextended → o.HidesSign (numbers s)) :
    Scan o s items e ↔ @Scan o (.ofForm T.form) s items e := by
  by_cases hT : T.Unextended
  · exact scan_unextended_iff hT
  · have hhides := h hT
    have heq := CharType.eq_of_not_unextended hT
    subst heq
    have hback : @Scan o ⟨.utf16, false⟩ s items e → @Scan o ⟨.utf16, true⟩ s items e :=
      fun hscan => Scan.of_hidesSign (a := false) hscan hhides
    exact ⟨fun hscan => hscan.of_hidesSign hhides, hback⟩

theorem hidesSign_next {Out : CharType} {outEnd : Nat} {t v : LoopState ⟨.utf16, a⟩ Out}
    (h : o.HidesSign (t.inStr.map BitVec.toNat)) (hcond : t.hasInput)
    (hbody : loopBody o outEnd t = some (.next v)) :
    o.HidesSign (v.inStr.map BitVec.toNat) := by
  by_cases hpath : fastPath o outEnd t
  · -- A block of the fast path is ASCII.
    rw [loopBody, if_pos hpath] at hbody
    cases hbody
    have hsplit : t.inStr = t.block ++ (fastStep t).inStr :=
      (List.take_append_drop _ t.inStr).symm
    rw [hsplit, List.map_append] at h
    refine (hidesSign_append ?_).1 h
    intro n hn
    rcases List.mem_map.1 hn with ⟨w, hw, rfl⟩
    exact lt_trans (fastPath_block_ascii hpath w hw) (by norm_num)
  · rcases (hasInput_iff t).1 hcond with ⟨w, rest, ht⟩
    rw [loopBody_of_slow ht hpath] at hbody
    rcases Option.map_eq_some_iff.1 hbody with ⟨r, hr, hflow⟩
    cases hv : o.verdict r with
    | item i =>
        rw [hv] at hflow
        rw [ht] at h
        rcases hidesSign_item h hr hv with ⟨hone, hrest⟩
        rw [consume_next_inStr hflow, ht, hone]
        exact hrest
    | halt k err =>
        rw [hv] at hflow
        cases hflow

end Hidden

/-! ## What a call adds up to -/

def Item.bad (i : Item) : Nat :=
  if i.error = .none then 0 else 1

def badItems (items : List Item) : Nat :=
  (items.map Item.bad).sum

def Ending.units : Ending → Nat
  | .halt k _ => k
  | .done | .fault => 0

def Ending.bad : Ending → Nat
  | .halt _ _ => 1
  | .done | .fault => 0

/-- The units sent to the output: those stored, and in the mode `count` those counted. -/
def Options.produced (o : Options) (r : StrResult) : Nat :=
  r.outputBlockCount + if o.outMode = .count then r.needOutputBlockCount else 0

/-- Between two results `out` units were sent, `units` read and `bad` errors counted. -/
structure Adds (o : Options) (r r' : StrResult) (out units bad : Nat) : Prop where
  sent : o.produced r' = o.produced r + out
  read : r'.inputBlockCount = r.inputBlockCount + units
  errors : r'.convErrorCharCount = r.convErrorCharCount + bad

section Totals

variable {In Out : CharType} {o : Options}

theorem Adds.trans {r r' r'' : StrResult} {out units bad out' units' bad' : Nat}
    (h : Adds o r r' out units bad) (h' : Adds o r' r'' out' units' bad') :
    Adds o r r'' (out + out') (units + units') (bad + bad') := by
  refine ⟨?_, ?_, ?_⟩
  · rw [h'.sent, h.sent, Nat.add_assoc]
  · rw [h'.read, h.read, Nat.add_assoc]
  · rw [h'.errors, h.errors, Nat.add_assoc]

theorem adds_item (i : Item) (s : LoopState In Out) :
    Adds o s.result
      ((i.accept s).write (o.stored (i.output Out)) (o.needed (i.output Out).length)).result
      (i.output Out).length i.units i.bad := by
  have htally : (i.tally s.result).inputBlockCount = s.result.inputBlockCount + i.units ∧
      (i.tally s.result).convErrorCharCount = s.result.convErrorCharCount + i.bad := by
    unfold Item.tally Item.bad
    split_ifs <;> exact ⟨rfl, rfl⟩
  have hcounts := tally_outputCounts [i] s.result
  rw [tally_cons, tally_nil] at hcounts
  refine ⟨?_, htally.1, htally.2⟩
  simp only [Options.produced, LoopState.write, Item.accept, StrResult.credit, hcounts]
  cases hm : o.outMode
  all_goals simp [Options.stored, Options.needed, hm]
  omega

theorem badItems_cons (i : Item) (items : List Item) :
    badItems (i :: items) = i.bad + badItems items := rfl

theorem badItems_append (items more : List Item) :
    badItems (items ++ more) = badItems items + badItems more := by
  simp [badItems]

theorem badItems_ascii (us : List In.Unit) : badItems (us.map asciiItem) = 0 := by
  induction us with
  | nil => rfl
  | cons u us ih => exact (Nat.zero_add _).trans ih

theorem adds_fastStep {outEnd : Nat} {s : LoopState In Out} (hpath : fastPath o outEnd s) :
    Adds o s.result (fastStep s).result (output Out (s.block.map asciiItem)).length
      (unitsRead (s.block.map asciiItem)) (badItems (s.block.map asciiItem)) := by
  have hlen := fastPath_block_length hpath
  rw [output_ascii (fastPath_block_ascii hpath), unitsRead_ascii, badItems_ascii,
    List.length_map, hlen]
  refine ⟨?_, rfl, rfl⟩
  simp only [Options.produced, fastStep, StrResult.credit, StrResult.charge, Nat.add_zero]
  omega

/-- **The totals of a call** that has room for its output, in every mode and on either path. -/
theorem strLoop_totals {outEnd fuel : Nat} {items : List Item} {e : Ending}
    {s s' : LoopState In Out} (hrun : strLoop o outEnd fuel s = some s')
    (hscan : Scan o s.inStr items e)
    (hfit : o.checksOutput → s.outStr + (output Out items).length ≤ outEnd) :
    Adds o s.result s'.result (output Out items).length (unitsRead items + e.units)
      (badItems items + e.bad) := by
  refine strLoop_rule (M := fun items e s s' =>
    (o.checksOutput → s.outStr + (output Out items).length ≤ outEnd) →
    Adds o s.result s'.result (output Out items).length (unitsRead items + e.units)
      (badItems items + e.bad)) ?_ ?_ ?_ ?_ ?_ hrun hscan hfit
  · intro s _ _
    exact ⟨rfl, rfl, rfl⟩
  · intro k err s _ _ _
    exact ⟨rfl, (Nat.add_comm 0 k).symm ▸ rfl, rfl⟩
  · -- With room no character ends the call.
    intro i items e s t _ _ hret hfit
    rw [consume_of_fits (room_head hfit)] at hret
    cases hret
  · intro i items e s t s' _ _ _ hnext ih hfit
    rw [consume_of_fits (room_head hfit)] at hnext
    cases hnext
    have hsum := (adds_item i s).trans (ih (room_tail hfit))
    rwa [← List.length_append, ← output_cons, ← Nat.add_assoc, ← unitsRead_cons,
      ← Nat.add_assoc] at hsum
  · intro rest e s s' _ hpath ih hfit
    have hsum := (adds_fastStep hpath).trans (ih (room_fastStep hpath hfit))
    rwa [← List.length_append, ← output_append, ← Nat.add_assoc, ← unitsRead_append,
      ← Nat.add_assoc, ← badItems_append] at hsum

end Totals

/-! ## The balance of a UTF-16 text

Into UTF-16 no unsigned text sends more units than it reads, but for the replacement characters,
and no error is free of units.  A unit whose sign is extended sends two. -/

/-- The units `replace` sends for an error. -/
def Options.replacementLength (o : Options) : Nat :=
  if o.errorMode = .replace then
    (utf32Units (.ofForm .utf16) o.replaceChar.value).length
  else
    0

section Balance

variable {o : Options}

theorem utf16Units_length (signed : Bool) (c : U32) :
    (utf32Units ⟨.utf16, signed⟩ c).length = if c.toNat ≤ 0xFFFF then 1 else 2 := by
  have hif : c ≤ 0xFFFF#32 ↔ c.toNat ≤ 0xFFFF := by
    rw [BitVec.le_def, BitVec.toNat_ofNat]
  simp only [utf32Units, hif]
  split_ifs <;> rfl

/-- A character delivered from unsigned units needs no more of them. -/
theorem utf16Units_length_le {u : U16} {s : List U16} {cr : CharResult}
    (h : charToUtf32 o (.ofForm .utf16) (u :: s) {} = some (.none, cr)) :
    (utf32Units (.ofForm .utf16) cr.unicode).length ≤ cr.inputBlock := by
  have hreads := charToUtf32_reads h
  have hnat : (CharType.toU32 (.ofForm .utf16) u).toNat = u.toNat :=
    @CharType.toNat_toU32 (.ofForm .utf16) rfl u
  have hlt := u.isLt
  have hann : cr.inputBlock = leadLength .utf16 u.toNat := by
    rw [← hnat]
    exact hreads.input
  rw [utf16Units_length, hann, leadLength]
  by_cases hhigh : 0xD800 ≤ u.toNat ∧ u.toNat ≤ 0xDBFF
  · rw [if_pos hhigh]
    split_ifs <;> omega
  · -- A unit that starts no pair is delivered as it is; a low surrogate is not delivered.
    have hlow : u.toNat < 0xD800 ∨ 0xDFFF < u.toNat := by
      by_contra hsur
      rw [charToUtf32_lowSurrogate o s (by omega) (by omega)] at h
      cases h
    rw [charToUtf32_bmp o false s rfl (hnat.symm ▸ hlow)] at h
    rcases deliver_eq_none (Option.some.inj h) with ⟨-, rfl⟩
    simp only [hnat]
    rw [if_pos (by omega), if_neg hhigh]

theorem output_length_of_error {r : ErrorT × CharResult} {i : Item} (hv : o.verdict r = .item i)
    (herr : r.1 ≠ .none) :
    (i.output (.ofForm .utf16)).length = o.replacementLength := by
  unfold Item.output Options.replacementLength
  rcases verdict_item_of_error hv herr with ⟨-, ⟨hm, hcode⟩ | ⟨hm, hcode⟩⟩
  · simp [hm, hcode]
  · simp [hm, hcode]

/-- The balance of an unsigned text. -/
theorem Scan.balance_unsigned {s : List (CharType.ofForm .utf16).Unit} {items : List Item}
    {e : Ending} (h : Scan o s items e) :
    (output (.ofForm .utf16) items).length + (badItems items + e.bad) ≤
      unitsRead items + e.units + o.replacementLength * (badItems items + e.bad) := by
  induction h with
  | nil => simp [badItems, Ending.bad]
  | @item u t r i items e hr hv _ ih =>
      have hitem : (i.output (.ofForm .utf16)).length + i.bad ≤
          i.units + o.replacementLength * i.bad := by
        by_cases herr : r.1 = .none
        · rcases r with ⟨err, cr⟩
          cases herr
          cases hv
          simpa [Item.bad, Item.output] using utf16Units_length_le hr
        · have hpos := verdict_item_pos hr hv
          have hbad : i.bad = 1 := if_neg fun h => herr ((verdict_item_error hv).symm.trans h)
          rw [output_length_of_error hv herr, hbad]
          omega
      rw [output_cons, List.length_append, badItems_cons, unitsRead_cons, Nat.add_assoc i.bad,
        Nat.mul_add]
      omega
  | @halt u t r k err hr hv =>
      have hpos : 0 < k := by
        rw [verdict_halt_units hv, (charToUtf32_reads hr).input]
        exact CharType.announced_pos _ u
      simp only [output_nil, List.length_nil, badItems, List.map_nil, List.sum_nil, Ending.bad,
        Ending.units, unitsRead]
      omega
  | fault _ => simp [badItems, Ending.bad]

/-- The balance of a signed text: every sign that is extended tips it. -/
theorem Scan.balance_signed {s : List (CharType.Unit ⟨.utf16, true⟩)} {items : List Item}
    {e : Ending} (h : Scan o s items e) :
    ∃ n, (¬ o.HidesSign (numbers s) → 0 < n) ∧
      unitsRead items + e.units + o.replacementLength * (badItems items + e.bad) + n ≤
        (output (.ofForm .utf16) items).length + (badItems items + e.bad) := by
  induction h with
  | nil =>
      refine ⟨0, fun hnot => absurd trivial hnot, ?_⟩
      simp [badItems, unitsRead, Ending.bad, Ending.units]
  | @item u t r i items e hr hv _ ih =>
      rcases ih with ⟨n, hn, hle⟩
      have hadd : ∀ m, i.units + o.replacementLength * i.bad + m ≤
          (i.output (.ofForm .utf16)).length + i.bad →
          unitsRead (i :: items) + e.units +
              o.replacementLength * (badItems (i :: items) + e.bad) + (n + m) ≤
            (output (.ofForm .utf16) (i :: items)).length + (badItems (i :: items) + e.bad) := by
        intro m hm
        rw [output_cons, List.length_append, badItems_cons, unitsRead_cons, Nat.add_assoc i.bad,
          Nat.mul_add]
        omega
      rcases charToUtf32_signed_cases o t u with
        ⟨hu, c, hc, hdecode⟩ | ⟨hu, ho, hmin, hdecode⟩ | ⟨c, hc, hdecode⟩
      · -- The sign bit is clear: one unit is read and one is sent.
        cases hr.symm.trans hdecode
        cases hv
        refine ⟨n + 0, fun hnot => hn fun hrest => ?_, hadd 0 ?_⟩
        · exact hnot ((hidesSign_cons_low hu _).2 hrest)
        · simp only [Item.bad, Item.output, utf16Units_length, if_pos hc]
          simp
      · -- A noncharacter is rejected under either sign.
        cases hr.symm.trans hdecode
        have hlen := output_length_of_error hv (by simp)
        have hbad : i.bad = 1 := if_neg (by rw [verdict_item_error hv]; simp)
        have hone : i.units = 1 := (verdict_item_of_error hv (by simp)).1.symm
        refine ⟨n + 0, fun hnot => hn fun hrest => ?_, hadd 0 ?_⟩
        · refine hnot ((hidesSign_cons_high hu _).2 ⟨ho, hmin, .inr ?_⟩)
          rwa [hone] at hrest
        · rw [hlen, hbad, hone]
          omega
      · -- The extended sign passes for a code point and takes two units.
        cases hr.symm.trans hdecode
        cases hv
        refine ⟨n + 1, fun _ => Nat.succ_pos n, hadd 1 ?_⟩
        simp only [Item.bad, Item.output, utf16Units_length, if_neg (Nat.not_le.2 hc)]
        simp
  | @halt u t r k err hr hv =>
      -- Only an error ends the reading, and only under `stop`.
      rcases charToUtf32_signed_cases o t u with
        ⟨-, c, -, hdecode⟩ | ⟨hu, ho, hmin, hdecode⟩ | ⟨c, -, hdecode⟩
      · cases hr.symm.trans hdecode
        cases hv
      · cases hr.symm.trans hdecode
        have hone : k = 1 := verdict_halt_units hv
        have hstop : o.errorMode = .stop := by
          cases hm : o.errorMode
          case stop => rfl
          all_goals
            simp only [Options.verdict, hm] at hv
            cases hv
        refine ⟨0, fun hnot => absurd ?_ hnot, ?_⟩
        · exact (hidesSign_cons_high hu _).2 ⟨ho, hmin, .inl hstop⟩
        · simp [badItems, unitsRead, Ending.bad, Ending.units, Options.replacementLength, hstop,
            hone]
      · cases hr.symm.trans hdecode
        cases hv
  | @fault u t hr =>
      rcases charToUtf32_signed_cases o t u with
        ⟨-, c, -, hdecode⟩ | ⟨-, -, -, hdecode⟩ | ⟨c, -, hdecode⟩
      all_goals cases hr.symm.trans hdecode

/-- A signed text is never read past its end. -/
theorem Scan.ne_fault_signed {s : List (CharType.Unit ⟨.utf16, true⟩)} {items : List Item}
    {e : Ending} (h : Scan o s items e) : e ≠ .fault := by
  induction h with
  | nil => simp
  | item _ _ _ ih => exact ih
  | halt _ _ => simp
  | @fault u t hr =>
      rcases charToUtf32_signed_cases o t u with
        ⟨-, c, -, hdecode⟩ | ⟨-, -, -, hdecode⟩ | ⟨c, -, hdecode⟩
      all_goals cases hr.symm.trans hdecode

/-- Where a sign is extended the results differ. -/
theorem result_ne_of_not_hidesSign {input : List U16} (h : ¬ o.HidesSign (input.map BitVec.toNat))
    {run run' : Run (.ofForm .utf16)}
    (hrun : strToStr o ⟨.utf16, true⟩ (.ofForm .utf16) input (4 * input.length) = some run)
    (hrun' : strToStr o (.ofForm .utf16) (.ofForm .utf16) input (4 * input.length) = some run') :
    run.result ≠ run'.result := by
  intro heq
  rcases exists_loop_of_strToStr hrun with ⟨s, hloop, rfl⟩
  rcases exists_loop_of_strToStr hrun' with ⟨s', hloop', rfl⟩
  rcases @Scan.exists o ⟨.utf16, true⟩ input with ⟨items, e, hscan⟩
  rcases @Scan.exists o (.ofForm .utf16) input with ⟨items', e', hscan'⟩
  have htotals := strLoop_totals hloop hscan fun _ => by
    rw [LoopState.start, Nat.zero_add]
    exact hscan.output_length_le _
  have htotals' := strLoop_totals hloop' hscan' fun _ => by
    rw [LoopState.start, Nat.zero_add]
    exact hscan'.output_length_le _
  rcases hscan.balance_signed with ⟨n, hn, hle⟩
  have hle' := hscan'.balance_unsigned
  have hpos : 0 < n := hn h
  change s.result = s'.result at heq
  -- Equal results have equal totals, and the two balances leave no room for the `n` units more.
  have hsent := htotals.sent.symm.trans ((congrArg o.produced heq).trans htotals'.sent)
  have hread := htotals.read.symm.trans ((congrArg _ heq).trans htotals'.read)
  have herrors := htotals.errors.symm.trans ((congrArg _ heq).trans htotals'.errors)
  simp only [LoopState.start] at hsent hread herrors
  rw [Nat.add_left_cancel hsent, Nat.add_left_cancel herrors] at hle
  omega

end Balance

/-! ## Bits only -/

/-- Under these options inputs of the same bits, in units of the signs `a` and `a'`, are converted
with the same result to the same bits, into units of any form and sign and any buffer. -/
def SameForBits (o : Options) (f : Form) (a a' : Bool) (input : List (CharType.ofForm f).Unit) :
    Prop :=
  ∀ (g : Form) (b b' : Bool) (outputLen : Nat),
    strToStr o ⟨f, a'⟩ ⟨g, b'⟩ input outputLen =
      (strToStr o ⟨f, a⟩ ⟨g, b⟩ input outputLen).map (Run.retype b')

/-- **Bits only.**  A conversion depends on the bits of its input alone, except where signed 16-bit
units are widened with their sign. -/
theorem sameForBits_iff (o : Options) (f : Form) (a a' : Bool)
    (input : List (CharType.ofForm f).Unit) :
    SameForBits o f a a' input ↔ (f = .utf16 → a ≠ a' → o.HidesSign (numbers input)) := by
  constructor
  · -- Into UTF-16, with four units of room for each unit read, the results differ already.
    rintro hsame rfl hne
    by_contra hhides
    have hsome : (strToStr o ⟨.utf16, true⟩ (.ofForm .utf16) input
        (4 * input.length)).isSome := by
      rcases @Scan.exists o ⟨.utf16, true⟩ input with ⟨items, e, hscan⟩
      exact strToStr_isSome_of_scan hscan hscan.ne_fault_signed _
    rcases Option.isSome_iff_exists.1 hsome with ⟨run, hrun⟩
    have hsame := hsame .utf16 false false (4 * input.length)
    cases a with
    | true =>
        cases a' with
        | true => exact hne rfl
        | false =>
            rw [hrun, Option.map_some] at hsame
            exact result_ne_of_not_hidesSign hhides hrun hsame rfl
    | false =>
        cases a' with
        | true =>
            rw [hrun] at hsame
            rcases Option.map_eq_some_iff.1 hsame.symm with ⟨run', hrun', rfl⟩
            exact result_ne_of_not_hidesSign hhides hrun hrun' rfl
        | false => exact hne rfl
  · intro hhides g b b' outputLen
    by_cases hf : f = .utf16
    · subst hf
      by_cases ha : a = a'
      · subst ha
        apply strToStr_retype fun _ => True
        · exact fun _ _ _ => rfl
        · exact fun _ _ _ _ _ => trivial
        · trivial
      · apply strToStr_retype fun s => o.HidesSign (s.map BitVec.toNat)
        · intro u t h
          exact charToUtf32_of_hidesSign h
        · intro s t h hcond hbody
          exact hidesSign_next h hcond hbody
        · exact hhides rfl ha
    · apply strToStr_retype fun _ => True
      · intro u t _
        exact charToUtf32_sign o hf a' a (u :: t)
      · exact fun _ _ _ _ _ => trivial
      · trivial

/-- U+8BED in a signed unit is read as `0xFFFF8BED`, which takes two units to write. -/
theorem not_sameForBits_signed : ¬ SameForBits defaultOpt .utf16 true false [0x8BED#16] := by
  intro hsame
  have hsigned : (strToStr defaultOpt ⟨.utf16, true⟩ (.ofForm .utf16) [0x8BED#16] 4).map
      (fun run => run.result.outputBlockCount) = some 2 := by decide
  have hunsigned : (strToStr defaultOpt (.ofForm .utf16) (.ofForm .utf16) [0x8BED#16] 4).map
      (fun run => run.result.outputBlockCount) = some 1 := by decide
  rw [hsame .utf16 false false 4, Option.map_map] at hunsigned
  exact absurd (hsigned.symm.trans hunsigned) (by decide)

end Convert
end Chenc
