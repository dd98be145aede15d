import Chenc.Convert.StrictDecoding

/-!
# Truncation — when a decoder asks for more input

`charToUtf32` compares the announced length with the units left before it looks at any unit but
the first.

* `charToUtf32_utf8_signed` : signed and unsigned bytes are decoded alike;
* `charToUtf32_answers` : `in_truncated` means that fewer units are left than announced, which
  covers every beginning of a standard sequence; any other error is final.
-/

namespace Chenc
namespace Convert

open Unicode

/-- The sign of a byte does not reach the decoder: only ASCII bytes are widened as they are. -/
theorem charToUtf32_utf8_signed (o : Options) (signed : Bool) (s : List (BitVec 8)) :
    charToUtf32 o { form := .utf8, signed := signed } s {} =
      charToUtf32 o (CharType.ofForm .utf8) s {} := by
  rcases s with _ | ⟨u, t⟩
  · rfl
  · by_cases hu : u.toNat < 0x80
    · have hsame : CharType.toU32 { form := .utf8, signed := signed } u =
          (CharType.ofForm .utf8).toU32 u := by
        apply BitVec.eq_of_toNat_eq
        rw [CharType.toNat_toU32_ascii _ hu, CharType.toNat_toU32_ascii _ hu]
      have hleft : charToUtf32 o { form := .utf8, signed := signed } (u :: t) {} = some (.none,
          { inputBlock := 1, unicode := CharType.toU32 { form := .utf8, signed := signed } u }) :=
        @charToUtf32_ascii o { form := .utf8, signed := signed } u hu t
      have hright : charToUtf32 o (CharType.ofForm .utf8) (u :: t) {} = some (.none,
          { inputBlock := 1, unicode := (CharType.ofForm .utf8).toU32 u }) :=
        @charToUtf32_ascii o (CharType.ofForm .utf8) u hu t
      rw [hleft, hright, hsame]
    · have hone : ¬ (u.setWidth 8 : U8) < 0x80#8 := by
        rw [BitVec.lt_def, BitVec.setWidth_eq]
        exact hu
      have hlen : ¬ o.truncates 0 (u :: t).length := by simp [Options.truncates]
      simp only [charToUtf32, if_neg hlen, utf8ToUtf32, List.getElem?_cons_zero,
        Option.bind_eq_bind, Option.bind_some, if_neg hone]
      rfl

/-- What a decoder answers to `r`, a remainder whose first unit announces `k` units: it asks for
more input, or it delivers a character, or its error is final. -/
structure Answers (f : Form) (k : Nat) (r : List Nat) (err : ErrorT) (cr : CharResult) :
    Prop where
  truncated : err = .inTruncated ↔ r.length < k
  completable : Completable f r → err = .inTruncated
  utf16 : f = .utf16 → err = .inTruncated → Completable f r
  content : k ≤ r.length → err.IsContent
  accepted : err = .none ↔ ∃ c, IsCharacter c ∧ encode f c <+: r
  delivered : err = .none → ∃ c, IsCharacter c ∧ encode f c <+: r ∧
    cr = { inputBlock := (encode f c).length, unicode := BitVec.ofNat 32 c }
  final : err.IsContent → err ≠ .none → ∀ more c, IsCharacter c → ¬ encode f c <+: r ++ more

theorem answers_ofForm {o : Options} (ho : o.charMode = .strict) (hin : o.inputMode = .normal)
    (f : Form) (u : (CharType.ofForm f).Unit) (s : List (CharType.ofForm f).Unit) :
    ∃ err cr, charToUtf32 o (CharType.ofForm f) (u :: s) {} = some (err, cr) ∧
      Answers f (leadLength f u.toNat) (numbers (u :: s)) err cr := by
  have hsome := charToUtf32_isSome s (u := u) (.inl hin)
  rcases Option.isSome_iff_exists.1 hsome with ⟨⟨err, cr⟩, hr⟩
  have hreads := charToUtf32_reads hr
  rw [announced_ofForm] at hreads
  have htruncated : err = .inTruncated ↔ (numbers (u :: s)).length < leadLength f u.toNat := by
    rw [numbers_length]
    exact hreads.truncated
  have hdelivered : err = .none → ∃ c, IsCharacter c ∧ encode f c <+: numbers (u :: s) ∧
      cr = { inputBlock := (encode f c).length, unicode := BitVec.ofNat 32 c } := by
    rintro rfl
    exact (charToUtf32_strict_iff ho).1 hr
  have haccepted : err = .none ↔ ∃ c, IsCharacter c ∧ encode f c <+: numbers (u :: s) := by
    constructor
    · intro hnone
      rcases hdelivered hnone with ⟨c, hc, hpre, -⟩
      exact ⟨c, hc, hpre⟩
    · rintro ⟨c, hc, hpre⟩
      have hthere := (charToUtf32_strict_iff ho).2 ⟨c, hc, hpre, rfl⟩
      rw [hr] at hthere
      exact (Prod.mk.inj (Option.some.inj hthere)).1
  refine ⟨err, cr, hr, htruncated, fun h => htruncated.2 h.cut.1, ?_, ?_, haccepted, hdelivered,
    ?_⟩
  · rintro rfl htrunc
    exact completable_utf16_iff.2 (htruncated.1 htrunc)
  · intro hlen
    exact ⟨fun htrunc => absurd (htruncated.1 htrunc) (Nat.not_lt.2 hlen), hreads.notOverflow⟩
  · -- More input behind the announced units would not start a character either.
    intro hcontent hne more c hc hpre
    have hlen : leadLength f u.toNat ≤ (numbers (u :: s)).length :=
      Nat.le_of_not_lt fun hlt => hcontent.1 (htruncated.2 hlt)
    exact hne (haccepted.2 ⟨c, hc, isPrefix_of_announced hc hlen hpre⟩)

/-- Byte strings of either sign, and UTF-16 of unsigned units. -/
def CharType.ReadsBits (In : CharType) : Prop :=
  In.form = .utf8 ∨ In = CharType.ofForm .utf16

/-- **Truncation** in strict mode.  `in_truncated` is returned exactly where fewer units are left
than the first one announces.  Every beginning of a standard sequence is such a place; in UTF-16
there are no others.  Where the announced units are there, the character whose sequence they are is
delivered, or an error that no further input could undo. -/
theorem charToUtf32_answers (o : Options) (ho : o.charMode = .strict)
    (hin : o.inputMode = .normal) (In : CharType) (hIn : In.ReadsBits) (u : In.Unit)
    (s : List In.Unit) :
    ∃ err cr, charToUtf32 o In (u :: s) {} = some (err, cr) ∧
      Answers In.form (leadLength In.form u.toNat) (numbers (u :: s)) err cr := by
  rcases hIn with hform | rfl
  · rcases In with ⟨form, signed⟩
    cases hform
    rw [charToUtf32_utf8_signed]
    exact answers_ofForm ho hin .utf8 u s
  · exact answers_ofForm ho hin .utf16 u s

/-- The first two bytes of a three-byte sequence, as signed bytes. -/
theorem charToUtf32_answers_euro :
    ∃ err cr, charToUtf32 defaultOpt { form := .utf8, signed := true } [0xE2#8, 0x82#8] {} =
        some (err, cr) ∧
      Answers .utf8 3 [0xE2, 0x82] err cr :=
  charToUtf32_answers defaultOpt rfl rfl { form := .utf8, signed := true } (.inl rfl) 0xE2#8
    [0x82#8]

/-- The length comes before the content: a letter cannot continue a sequence, but two bytes are
not three. -/
theorem hopeless_inTruncated :
    charToUtf32 defaultOpt (.ofForm .utf8) [0xE2#8, 0x41#8] {} =
        some (.inTruncated, { inputBlock := 3 }) ∧
      ¬ Completable .utf8 [0xE2, 0x41] := by
  refine ⟨by decide, fun h => ?_⟩
  have htrail := h.cut.2 0x41 (by decide)
  exact absurd htrail.1 (by decide)

end Convert
end Chenc
