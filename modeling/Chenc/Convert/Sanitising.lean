import Chenc.Convert.Composition

/-!
# Sanitising — what malformed text is turned into

* `strToStr_sanitises` : in strict mode what is written from unsigned units is well formed, so
  converting it again changes nothing;
* `not_wellFormed_of_extended` : a code point that is a sign-extended unit spoils the text around
  it in every form;
* `strToStr_sanitised_iff` : over all types, the text is sanitised exactly when no sign is extended,
  neither where it is read nor where what was written is read again.
-/

namespace Chenc
namespace Convert

open Unicode

variable {In Out : CharType}

/-! ## Reading well-formed text again -/

/-- A well-formed text is scanned into its characters by every type, signed 16-bit units included
if no sign bit is set. -/
theorem Scan.of_lowText {o : Options} (ho : o.charMode = .strict) {T : CharType} {cs : List Nat}
    (hcs : IsText cs) (hlow : ¬ T.Unextended → ∀ c ∈ cs, c < 0x8000) {s : List T.Unit}
    (hs : numbers s = encodeAll T.form cs) : Scan o s (cs.map (charItem T.form)) .done := by
  refine (scan_unsigned_iff fun hT => ?_).2 (Scan.of_text ho hcs hs)
  have hform : T.form = .utf16 := by rw [CharType.eq_of_not_unextended hT]
  rw [hs, hform, encodeAll_utf16_of_lt fun c hc => Nat.lt_trans (hlow hT c hc) (by norm_num)]
  have hall : o.HidesSign (cs ++ []) := (hidesSign_append (hlow hT)).2 trivial
  rwa [List.append_nil] at hall

/-- Strict conversion to the same type accepts and reproduces it. -/
theorem strToStr_reproduces {cs : List Nat} (hcs : IsText cs)
    (hlow : ¬ Out.Unextended → ∀ c ∈ cs, c < 0x8000) {w : List Out.Unit}
    (hw : numbers w = encodeAll Out.form cs) :
    (∀ o : Options, o.charMode = .strict → completeConversion o Out Out w = some w) ∧
      ∀ rc n, w.length ≤ n → ∃ again : Run Out,
        strToStr (strictOpt rc) Out Out w n = some again ∧ again.result.good ∧
        again.mem = Region.filled w ∧ again.result.outputBlockCount = w.length := by
  have hsame : output Out (cs.map (charItem Out.form)) = w := by
    apply numbers_injective
    rw [numbers_output_charItems Out.form Out hcs, hw]
  refine ⟨fun o ho => ?_, fun rc n hn => ?_⟩
  · rw [completeConversion_eq (Scan.of_lowText ho hcs hlow hw) (by simp), hsame]
  · have hagain := Scan.of_lowText (o := strictOpt rc) rfl hcs hlow hw
    have hfit : (output Out (cs.map (charItem Out.form))).length ≤ n := by rwa [hsame]
    rcases exists_run_of_room (.inl rfl) hagain (by simp) hfit with
      ⟨again, r, hr, hrun, hres, hmem, -⟩
    rw [hsame] at hres hmem
    rw [tally_charItems, Ending.close, Option.some.injEq] at hr
    subst hr
    refine ⟨again, hrun, ?_, hmem, ?_⟩
    · rw [hres]
      exact ⟨rfl, rfl⟩
    · rw [hres]
      simp [StrResult.credit, StrResult.charge]

/-- **Sanitising** of unsigned units.  In strict mode, under every error mode, the units written
are a well-formed text of the output form: strict conversion to the same form accepts and
reproduces them, and so does sanitising them again. -/
theorem strToStr_sanitises (o : Options) (f g : Form) (input : List (CharType.ofForm f).Unit)
    (outputLen : Nat) (ho : o.charMode = .strict)
    (hmode : o.outMode ≠ .count)
    (hroom : ∃ w, completeConversion o (CharType.ofForm f) (CharType.ofForm g) input = some w ∧
      w.length ≤ outputLen) :
    ∃ run : Run (CharType.ofForm g),
      strToStr o (CharType.ofForm f) (CharType.ofForm g) input outputLen = some run ∧
      WellFormed g (numbers run.written) ∧
      completeConversion o (CharType.ofForm g) (CharType.ofForm g) run.written =
        some run.written ∧
      ∀ rc n, run.written.length ≤ n →
        ∃ again : Run (CharType.ofForm g),
          strToStr (strictOpt rc) (CharType.ofForm g) (CharType.ofForm g) run.written n =
            some again ∧
          again.result.good ∧ again.mem = Region.filled run.written ∧
          again.result.outputBlockCount = run.written.length := by
  rcases hroom with ⟨w, hw, hlen⟩
  rcases exists_scan_of_completeConversion hw with ⟨items, e, hscan, he, rfl⟩
  rcases exists_written_of_room hmode hscan he hlen with ⟨run, hrun, hwritten⟩
  have hcodes := hscan.strict_codes ho
  have htext : IsText (codes items) := forall_codes hcodes
  have hnum : numbers run.written = encodeAll g (codes items) := by
    rw [hwritten]
    exact numbers_output_of_codes (CharType.ofForm g) fun i hi c hc => (hcodes i hi c hc).1
  have hunsigned : ¬ (CharType.ofForm g).Unextended → ∀ c ∈ codes items, c < 0x8000 :=
    fun hnot => absurd (fun _ => rfl) hnot
  rcases strToStr_reproduces htext hunsigned hnum with ⟨hagain, hstrict⟩
  exact ⟨run, hrun, ⟨_, htext, hnum⟩, hagain o ho, hstrict⟩

/-! ## Sign-extended units -/

section Extended

variable {c : U32} (hc : 0xFFFF8000 ≤ c.toNat)

include hc

/-- The first byte of such a code point is no lead byte. -/
theorem utf8Units_extended (signed : Bool) :
    ∃ t, numbers (utf32Units ⟨.utf8, signed⟩ c) = 0xFF :: t := by
  have hlt := c.isLt
  have hbig : ∀ n : Nat, n ≤ 0xFFFF → ¬ c ≤ BitVec.ofNat 32 n := by
    intro n hn
    rw [BitVec.le_def, BitVec.toNat_ofNat]
    omega
  have hshift : c >>> 18 = 0x3FFF#32 := by
    apply BitVec.eq_of_toNat_eq
    rw [Bits.toNat_ushiftRight, BitVec.toNat_ofNat]
    omega
  simp only [utf32Units, if_neg (hbig 0x7F (by norm_num)), if_neg (hbig 0x7FF (by norm_num)),
    if_neg (hbig 0xFFFF (by norm_num)), numbers_cons, hshift]
  have hfirst : (CharType.ofU32 ⟨.utf8, signed⟩ (0xF0#32 ||| 0x3FFF#32)).toNat = 0xFF := by
    cases signed <;> decide
  exact ⟨_, congrArg (· :: _) hfirst⟩

/-- Its first UTF-16 unit is a character of its own, which leaves a low surrogate. -/
theorem utf16Units_extended (signed : Bool) :
    ∃ h l, numbers (utf32Units ⟨.utf16, signed⟩ c) = [h, l] ∧
      (0xFFA0 ≤ h ∧ h ≤ 0xFFBF) ∧ 0xDC00 ≤ l ∧ l ≤ 0xDFFF := by
  have hlt := c.isLt
  have hbig : ¬ c ≤ 0xFFFF#32 := by
    rw [BitVec.le_def, BitVec.toNat_ofNat]
    omega
  have hsub : (c - 0x10000#32).toNat = c.toNat - 0x10000 :=
    BitVec.toNat_sub_of_le (by rw [BitVec.le_def, BitVec.toNat_ofNat]; omega)
  have hlow : (0xDC00#32 ||| (c &&& 0x3FF#32)).toNat = 0xDC00 + c.toNat % 0x400 := by
    rw [Bits.toNat_or_of_dvd 10 (by decide) (by rw [Bits.toNat_and_low 10 rfl]; omega),
      Bits.toNat_and_low 10 rfl]
    rfl
  -- The shifted value has one of 32 values, and the marker bits are set in all of them.
  have hhigh : ∀ k : Fin 32, ((0xD800#32 ||| BitVec.ofNat 32 (0x3FFFA0 + k)).toNat % 2 ^ 16 =
      0xFFA0 + k) := by decide
  have hshift : (c - 0x10000#32) >>> 10 =
      BitVec.ofNat 32 (0x3FFFA0 + (c.toNat - 0xFFFF8000) / 0x400) := by
    apply BitVec.eq_of_toNat_eq
    rw [Bits.toNat_ushiftRight, hsub, BitVec.toNat_ofNat]
    omega
  have hk := hhigh ⟨(c.toNat - 0xFFFF8000) / 0x400, by omega⟩
  rw [← hshift] at hk
  refine ⟨(0xD800#32 ||| (c - 0x10000#32) >>> 10).toNat % 2 ^ 16, 0xDC00 + c.toNat % 0x400,
    ?_, by omega, by omega⟩
  have hsecond : (0xDC00 + c.toNat % 0x400) % 2 ^ 16 = 0xDC00 + c.toNat % 0x400 := by omega
  simp only [utf32Units, if_neg hbig, numbers_cons, numbers_nil, CharType.ofU32,
    BitVec.toNat_setWidth, hlow]
  exact congrArg (fun l => [_, l]) hsecond

/-- Behind any text such a code point leaves something that starts no character. -/
theorem exists_stuck_of_extended (Out : CharType) (rest : List Nat) :
    ∃ as t, numbers (utf32Units Out c) ++ rest = encodeAll Out.form as ++ t ∧ IsText as ∧
      t ≠ [] ∧ ∀ d, IsCharacter d → ¬ encode Out.form d <+: t := by
  rcases Out with ⟨form, signed⟩
  cases form with
  | utf8 =>
      rcases utf8Units_extended hc signed with ⟨t, ht⟩
      -- `0xFF` begins no character.
      refine ⟨[], 0xFF :: t ++ rest, by rw [ht]; rfl, by simp, by simp, fun d hd hpre => ?_⟩
      have hmax := hd.1
      simp only [encode] at hpre
      split_ifs at hpre
      all_goals
        have hhead := (List.cons_prefix_cons.1 hpre).1
        omega
  | utf16 =>
      rcases utf16Units_extended hc signed with ⟨h, l, ht, hh, hl⟩
      -- Nor does a low surrogate.
      refine ⟨[h], l :: rest, ?_, ?_, by simp, fun d hd hpre => ?_⟩
      · have hone : h < 0x10000 := by omega
        rw [ht, encodeAll_utf16_of_lt (by simpa using hone)]
        rfl
      · simp only [isText_cons, isText_nil, and_true, IsCharacter, IsSurrogate, IsNoncharacter]
        omega
      · rcases hd with ⟨hmax, hsur, -⟩
        simp only [IsSurrogate] at hsur
        simp only [encode] at hpre
        split_ifs at hpre
        all_goals
          have hhead := (List.cons_prefix_cons.1 hpre).1
          omega
  | utf32 =>
      have hunit : numbers (utf32Units ⟨.utf32, signed⟩ c) = [c.toNat] := by
        simp only [utf32Units, CharType.ofU32, numbers_cons, numbers_nil, BitVec.toNat_setWidth,
          List.cons.injEq, and_true]
        exact Nat.mod_eq_of_lt c.isLt
      refine ⟨[], c.toNat :: rest, by rw [hunit]; rfl, by simp, by simp, fun d hd hpre => ?_⟩
      have hmax := hd.1
      have hhead := (List.cons_prefix_cons.1 hpre).1
      omega

end Extended

/-- Text that takes in such a code point is not well formed, whatever stands before it. -/
theorem not_wellFormed_of_extended {items : List Item}
    (hcodes : ∀ i ∈ items, ∀ c, i.code = some c → IsCharacter c.toNat ∨ 0xFFFF8000 ≤ c.toNat)
    (hext : ∃ c ∈ codes items, 0xFFFF8000 ≤ c) {as : List Nat} (has : IsText as) :
    ¬ WellFormed Out.form (encodeAll Out.form as ++ numbers (output Out items)) := by
  induction items generalizing as with
  | nil =>
      rcases hext with ⟨c, hc, -⟩
      cases hc
  | cons i items ih =>
      rcases List.forall_mem_cons.1 hcodes with ⟨hi, hitems⟩
      rw [output_cons, numbers_append]
      cases hcode : i.code with
      | none =>
          rw [Item.output_of_none hcode, numbers_nil, List.nil_append]
          exact ih hitems (codes_cons_none hcode items ▸ hext) has
      | some c =>
          rw [Item.output_of_some hcode]
          rcases hi c hcode with hc | hc
          · -- A character goes to the text before it.
            have hrest : ∃ d ∈ codes items, 0xFFFF8000 ≤ d := by
              rcases hext with ⟨d, hd, hle⟩
              rw [codes_cons_some hcode] at hd
              rcases List.mem_cons.1 hd with rfl | hd
              · have hmax := hc.1
                omega
              · exact ⟨d, hd, hle⟩
            have hnext := ih hitems hrest
              (isText_append.2 ⟨has, isText_cons.2 ⟨hc, isText_nil⟩⟩)
            rwa [encodeAll_append, encodeAll_cons, encodeAll_nil, List.append_nil,
              ← numbers_utf32Units Out hc.1, List.append_assoc] at hnext
          · -- What follows it is left over behind a text.
            rcases exists_stuck_of_extended hc Out (numbers (output Out items)) with
              ⟨as', t, heq, has', ht, hstuck⟩
            rw [heq, ← List.append_assoc, ← encodeAll_append]
            exact not_wellFormed_of_stuck Out.form (isText_append.2 ⟨has, has'⟩) ht hstuck

/-- What strict mode makes of a signed 16-bit unit. -/
inductive SignedItem (u : U16) (i : Item) : Prop
  | low (c : U32) (hu : u.toNat < 0x8000) (herr : i.error = .none) (hcode : i.code = some c)
      (hc : c.toNat = u.toNat)
  | extended (c : U32) (hmin : 0x8000 ≤ u.toNat) (hmax : u.toNat < 0xFFFE)
      (herr : i.error = .none) (hcode : i.code = some c) (hc : c.toNat = 0xFFFF0000 + u.toNat)
  | rejected (hmin : 0xFFFE ≤ u.toNat) (herr : i.error ≠ .none)
      (hcode : ∀ c, i.code = some c → IsCharacter c.toNat)

section Signed

variable {o : Options} (ho : o.charMode = .strict) {s : List (CharType.Unit ⟨.utf16, true⟩)}
  {items : List Item} {e : Ending}

include ho

/-- Every signed unit is an item of its own. -/
theorem Scan.signed_items (h : Scan o s items e) (hdone : e = .done) :
    List.Forall₂ SignedItem s items := by
  induction h with
  | nil => exact .nil
  | @item u t r i items e hr hv _ ih =>
      have hrest : i.units = 1 → List.Forall₂ SignedItem t items := fun hone => by
        have htail := ih hdone
        rwa [hone, List.drop_one, List.tail_cons] at htail
      by_cases hu : u.toNat < 0x8000
      · cases hr.symm.trans (charToUtf32_low o true t hu)
        cases hv
        refine .cons (.low _ hu rfl rfl ?_) (hrest rfl)
        rw [BitVec.toNat_setWidth]
        omega
      · by_cases hmin : 0xFFFE ≤ u.toNat
        · -- An error hands on nothing or the replacement character.
          cases hr.symm.trans (charToUtf32_nonCharacter o true t ho hmin)
          rcases verdict_item_of_error hv (by simp) with ⟨hunits, hcode⟩
          refine .cons (.rejected hmin ?_ ?_) (hrest hunits.symm)
          · rw [verdict_item_error hv]
            simp
          · intro c hc
            rcases hcode with ⟨-, hnone⟩ | ⟨-, hsome⟩
            · rw [hnone] at hc
              cases hc
            · rw [hsome] at hc
              cases hc
              exact o.replaceChar.isCharacter
        · rcases charToUtf32_extended o t (Nat.le_of_not_lt hu) fun _ => Nat.lt_of_not_le hmin with
            ⟨c, hc, hdecode⟩
          cases hr.symm.trans hdecode
          cases hv
          exact .cons (.extended c (Nat.le_of_not_lt hu) (Nat.lt_of_not_le hmin) rfl rfl hc)
            (hrest rfl)
  | halt _ _ => cases hdone
  | fault _ => cases hdone

omit ho in
/-- Where errors do not end the reading nothing does. -/
theorem Scan.done_of_signed (he : o.errorMode = .skip ∨ o.errorMode = .replace)
    (h : Scan o s items e) : e = .done := by
  induction h with
  | nil => rfl
  | item _ _ _ ih => exact ih
  | @halt u t r k err hr hv =>
      have hnot : r.1 ≠ .inTruncated := by
        rcases charToUtf32_signed_cases o t u with
          ⟨-, c, -, hdecode⟩ | ⟨-, -, -, hdecode⟩ | ⟨c, -, hdecode⟩
        all_goals
          cases hr.symm.trans hdecode
          simp
      rcases verdict_continues he hnot with ⟨i, hi⟩
      cases hi.symm.trans hv
  | @fault u t hr =>
      rcases charToUtf32_signed_cases o t u with
        ⟨-, c, -, hdecode⟩ | ⟨-, -, -, hdecode⟩ | ⟨c, -, hdecode⟩
      all_goals cases hr.symm.trans hdecode

omit ho

theorem signedItem_code {u : U16} {i : Item} (h : SignedItem u i) {c : U32}
    (hcode : i.code = some c) : IsCharacter c.toNat ∨ 0xFFFF8000 ≤ c.toNat := by
  cases h with
  | low d hu _ hd hval =>
      cases hd.symm.trans hcode
      refine .inl ?_
      simp only [IsCharacter, IsSurrogate, IsNoncharacter]
      omega
  | extended d hmin _ _ hd hval =>
      cases hd.symm.trans hcode
      exact .inr (by omega)
  | rejected _ _ hall => exact .inl (hall c hcode)

theorem signedItems_codes (h : List.Forall₂ SignedItem s items) :
    ∀ i ∈ items, ∀ c, i.code = some c → IsCharacter c.toNat ∨ 0xFFFF8000 ≤ c.toNat := by
  induction h with
  | nil => simp
  | cons hi _ ih => exact List.forall_mem_cons.2 ⟨fun c => signedItem_code hi, ih⟩

theorem mem_codes_of_extended (h : List.Forall₂ SignedItem s items) {u : U16} (hu : u ∈ s)
    (hmin : 0x8000 ≤ u.toNat) (hmax : u.toNat < 0xFFFE) :
    0xFFFF0000 + u.toNat ∈ codes items := by
  induction h with
  | nil => cases hu
  | @cons v i t items hi _ ih =>
      rcases List.mem_cons.1 hu with rfl | hu
      · cases hi with
        | low => omega
        | extended c _ _ _ hcode hc =>
            rw [codes_cons_some hcode, hc]
            exact List.mem_cons_self
        | rejected => omega
      · have hmem := ih hu
        cases hcode : i.code with
        | none => rwa [codes_cons_none hcode]
        | some c =>
            rw [codes_cons_some hcode]
            exact List.mem_cons_of_mem _ hmem

/-- Text of signed units that is read without an error takes no fewer UTF-16 units, and as many only
if no sign bit is set. -/
theorem output_length_signed (h : List.Forall₂ SignedItem s items) (hclean : Clean items)
    (signed : Bool) :
    s.length ≤ (output ⟨.utf16, signed⟩ items).length ∧
      ((output ⟨.utf16, signed⟩ items).length ≤ s.length → ∀ u ∈ s, u.toNat < 0x8000) := by
  induction h with
  | nil => simp
  | @cons u i t items hi _ ih =>
      rcases List.forall_mem_cons.1 hclean with ⟨hnone, hrest⟩
      rcases ih hrest with ⟨hle, hlow⟩
      rw [output_cons, List.length_append, List.length_cons, List.forall_mem_cons]
      cases hi with
      | low c hu _ hcode hc =>
          have hone : (i.output ⟨.utf16, signed⟩).length = 1 := by
            rw [Item.output_of_some hcode, utf16Units_length, if_pos (by omega)]
          exact ⟨by omega, fun hall => ⟨hu, hlow (by omega)⟩⟩
      | extended c _ _ _ hcode hc =>
          have htwo : (i.output ⟨.utf16, signed⟩).length = 2 := by
            rw [Item.output_of_some hcode, utf16Units_length, if_neg (by omega)]
          exact ⟨by omega, fun hall => absurd hall (by omega)⟩
      | rejected _ herr _ => exact absurd hnone herr

end Signed

/-- A code point from `0x8000` on takes a unit with its top bit set. -/
theorem exists_high_unit (signed : Bool) {c : U32} (hc : 0x8000 ≤ c.toNat) :
    ∃ v ∈ utf32Units ⟨.utf16, signed⟩ c, 0x8000 ≤ v.toNat := by
  by_cases hone : c ≤ 0xFFFF#32
  · simp only [utf32Units, if_pos hone]
    refine ⟨_, List.mem_singleton_self _, ?_⟩
    rw [BitVec.le_def, BitVec.toNat_ofNat] at hone
    have hfit : c.toNat % 2 ^ 16 = c.toNat := Nat.mod_eq_of_lt (by omega)
    rw [CharType.ofU32, BitVec.toNat_setWidth]
    exact hfit.symm ▸ hc
  · simp only [utf32Units, if_neg hone]
    refine ⟨_, List.mem_cons_self, ?_⟩
    have hmark : 0xD800 ≤ (0xD800#32 ||| (c - 0x10000#32) >>> 10).toNat % 2 ^ 16 := by
      rw [BitVec.toNat_or, Nat.or_mod_two_pow]
      exact Nat.left_le_or
    rw [CharType.ofU32, BitVec.toNat_setWidth]
    exact Nat.le_trans (by norm_num) hmark

/-! ## Sanitising over all types -/

/-- Strict conversion to the type the units are of accepts and reproduces what the call has written,
and so does sanitising it again. -/
structure Run.Sanitised {Out : CharType} (run : Run Out) (o : Options) : Prop where
  accepted : ∀ rc n,
    (∀ w, completeConversion (strictOpt rc) Out Out run.written = some w → w.length ≤ n) →
    ∃ again : Run Out, strToStr (strictOpt rc) Out Out run.written n = some again ∧
      again.result.good ∧ again.written = run.written
  twice : completeConversion o Out Out run.written = some run.written

/-- What is written for characters, below `0x8000` where their units would be sign-extended, is
sanitised. -/
theorem sanitised_of_codes {o : Options} (ho : o.charMode = .strict) {run : Run Out}
    {items : List Item} (hwritten : run.written = output Out items)
    (hcodes : ∀ i ∈ items, ∀ c, i.code = some c → IsCharacter c.toNat)
    (hlow : ¬ Out.Unextended → ∀ c ∈ codes items, c < 0x8000) : run.Sanitised o := by
  have hnum : numbers run.written = encodeAll Out.form (codes items) := by
    rw [hwritten]
    exact numbers_output_of_codes Out fun i hi c hc => (hcodes i hi c hc).1
  rcases strToStr_reproduces (forall_codes hcodes) hlow hnum with ⟨hsame, hstrict⟩
  refine ⟨fun rc n hroom => ?_, hsame o ho⟩
  rcases hstrict rc n (hroom _ (hsame (strictOpt rc) rfl)) with ⟨again, hagain, hgood, hmem, hcount⟩
  refine ⟨again, hagain, hgood, ?_⟩
  rw [Run.written, hmem, hcount, Region.front_filled, List.take_length]

/-- Reading the units of a sanitised text again meets no error and leads to the same units. -/
theorem Run.Sanitised.exists_scan {o : Options} {run : Run Out} (h : run.Sanitised o) :
    ∃ items, Scan (strictOpt .replacement) run.written items .done ∧ Clean items ∧
      output Out items = run.written := by
  rcases Scan.exists (strictOpt .replacement) run.written with ⟨items, e, hscan⟩
  have hroom := hscan.output_length_le Out
  have he := hscan.ne_fault rfl
  rcases h.accepted .replacement _ (fun w hw => by
    rw [completeConversion_eq hscan he] at hw
    cases hw
    exact hroom) with ⟨again, hagain, hgood, hsame⟩
  rcases exists_written_of_room (o := strictOpt .replacement) (by decide) hscan he hroom with
    ⟨again', hagain', hwritten⟩
  cases hagain.symm.trans hagain'
  rcases exists_loop_of_strToStr hagain with ⟨s', hloop, rfl⟩
  rcases strLoop_clean hloop hscan hgood.1 with ⟨rfl, hclean, -⟩
  exact ⟨items, hscan, hclean, hwritten.symm.trans hsame⟩

/-- Signed 16-bit units give nothing back but what has no sign to extend. -/
theorem Run.Sanitised.codes_low {o : Options} {run : Run Out} (h : run.Sanitised o)
    {items : List Item} (hwritten : run.written = output Out items) (hOut : ¬ Out.Unextended) :
    ∀ c ∈ codes items, c < 0x8000 := by
  rcases h.exists_scan with ⟨again, hscan, hclean, hsame⟩
  have heq := CharType.eq_of_not_unextended hOut
  subst heq
  have hlow := (output_length_signed (hscan.signed_items rfl rfl) hclean true).2
    (by rw [hsame])
  intro c hc
  rcases List.mem_filterMap.1 hc with ⟨i, hi, hcode⟩
  rcases Option.map_eq_some_iff.1 hcode with ⟨d, hd, rfl⟩
  by_contra hhigh
  rcases exists_high_unit true (Nat.le_of_not_lt hhigh) with ⟨v, hv, hmin⟩
  have hmem : v ∈ run.written := by
    rw [hwritten, output, List.mem_flatMap]
    exact ⟨i, hi, Item.output_of_some hd ▸ hv⟩
  have hmax := hlow v hmem
  omega

/-- Neither does reading them: a unit whose sign was extended spoils what is written for it. -/
theorem Run.Sanitised.input_low {o : Options} {run : Run Out} (h : run.Sanitised o)
    (ho : o.charMode = .strict) (he : o.errorMode = .skip ∨ o.errorMode = .replace)
    {input : List In.Unit} {items : List Item} {e : Ending} (hscan : Scan o input items e)
    (hwritten : run.written = output Out items) (hIn : ¬ In.Unextended) :
    ∀ u ∈ input, u.toNat < 0x8000 ∨ 0xFFFE ≤ u.toNat := by
  intro u hu
  by_contra hext
  have heq := CharType.eq_of_not_unextended hIn
  subst heq
  have hitems := hscan.signed_items ho (hscan.done_of_signed he)
  have hmem := mem_codes_of_extended hitems hu (by omega) (by omega)
  by_cases hOut : Out.Unextended
  · -- What was read back is a text, which the extended unit rules out.
    rcases h.exists_scan with ⟨again, hagain, hclean, -⟩
    rcases ((scan_unextended_iff hOut).1 hagain).strict_clean rfl rfl hclean with
      ⟨cs, hcs, -, hnum⟩
    have hnot : ¬ WellFormed Out.form (encodeAll Out.form [] ++ numbers (output Out items)) :=
      not_wellFormed_of_extended (signedItems_codes hitems) ⟨_, hmem, by omega⟩ isText_nil
    rw [encodeAll_nil, List.nil_append, ← hwritten] at hnot
    exact hnot ⟨cs, hcs, hnum⟩
  · have hmax := h.codes_low hwritten hOut _ hmem
    omega

/-- **Sanitising.**  In strict mode under `skip` and `replace` the units written are accepted and
reproduced exactly when no unit is sign-extended on the way: none of the signed 16-bit units that
are read, but for the two that are errors, and none of those that are written. -/
theorem strToStr_sanitised_iff (o : Options) (In Out : CharType) (input : List In.Unit)
    (outputLen : Nat) (items : List Item) (e : Ending) (ho : o.charMode = .strict)
    (he : o.errorMode = .skip ∨ o.errorMode = .replace) (hmode : o.outMode ≠ .count)
    (hscan : Scan o input items e)
    (hroom : ∃ w, completeConversion o In Out input = some w ∧ w.length ≤ outputLen) :
    ∃ run : Run Out, strToStr o In Out input outputLen = some run ∧
      (run.Sanitised o ↔
        (¬ In.Unextended → ∀ u ∈ input, u.toNat < 0x8000 ∨ 0xFFFE ≤ u.toNat) ∧
        (¬ Out.Unextended → ∀ c ∈ codes items, c < 0x8000)) := by
  have hstop : o.errorMode ≠ .stop := by
    rcases he with he | he <;> simp [he]
  rcases hroom with ⟨w, hw, hlen⟩
  rcases exists_scan_of_completeConversion hw with ⟨items', e', hscan', hfault, rfl⟩
  rcases hscan.unique hscan' with ⟨rfl, rfl⟩
  rcases exists_written_of_room hmode hscan hfault hlen with ⟨run, hrun, hwritten⟩
  refine ⟨run, hrun, ?_, ?_⟩
  · intro hsan
    exact ⟨hsan.input_low ho he hscan hwritten, hsan.codes_low hwritten⟩
  · rintro ⟨hIn, hOut⟩
    have hhides : ¬ In.Unextended → o.HidesSign (numbers input) := fun hext =>
      (hidesSign_iff ho hstop _).2 (List.forall_mem_map.2 (hIn hext))
    exact sanitised_of_codes ho hwritten (((scan_unsigned_iff hhides).1 hscan).strict_codes ho) hOut

/-- Two letters and a noncharacter between them, in signed units on both sides. -/
theorem strToStr_sanitised_iff_letters :
    ∃ run : Run ⟨.utf16, true⟩,
      strToStr { defaultOpt with errorMode := .skip } ⟨.utf16, true⟩ ⟨.utf16, true⟩
        [0x6F#16, 0xFFFF#16, 0x6B#16] 2 = some run ∧
      run.Sanitised { defaultOpt with errorMode := .skip } := by
  have hscan : @Scan { defaultOpt with errorMode := .skip } ⟨.utf16, true⟩
      [0x6F#16, 0xFFFF#16, 0x6B#16] [⟨1, .none, some 0x6F#32⟩, ⟨1, .nonCharacters, none⟩,
        ⟨1, .none, some 0x6B#32⟩] .done := by
    refine .item (charToUtf32_low _ true _ (by decide)) rfl ?_
    refine .item (charToUtf32_nonCharacter _ true _ rfl (by decide)) rfl ?_
    exact .item (charToUtf32_low _ true _ (by decide)) rfl .nil
  have hunits : ∀ u ∈ [0x6F#16, 0xFFFF#16, 0x6B#16], u.toNat < 0x8000 ∨ 0xFFFE ≤ u.toNat := by
    simp
  have hcodes : ∀ c ∈ codes [⟨1, .none, some 0x6F#32⟩, ⟨1, .nonCharacters, none⟩,
      ⟨1, .none, some 0x6B#32⟩], c < 0x8000 := by
    simp [codes]
  rcases strToStr_sanitised_iff { defaultOpt with errorMode := .skip } ⟨.utf16, true⟩
    ⟨.utf16, true⟩ [0x6F#16, 0xFFFF#16, 0x6B#16] 2 _ .done rfl (.inl rfl) (by decide) hscan
    ⟨[0x6F#16, 0x6B#16], by decide, by decide⟩ with ⟨run, hrun, hiff⟩
  exact ⟨run, hrun, hiff.2 ⟨fun _ => hunits, fun _ => hcodes⟩⟩

/-- U+8BED in a signed unit becomes a halfwidth letter and half a pair. -/
theorem not_sanitised_signed :
    ∃ run : Run (.ofForm .utf16),
      strToStr { defaultOpt with errorMode := .skip } ⟨.utf16, true⟩ (.ofForm .utf16) [0x8BED#16]
        4 = some run ∧
      run.result.good ∧ run.written = [0xFFA2#16, 0xDFED#16] ∧
      (strToStr (strictOpt .replacement) (.ofForm .utf16) (.ofForm .utf16) run.written 8).map
        (fun again : Run (.ofForm .utf16) => again.result.status) = some .error ∧
      ¬ run.Sanitised { defaultOpt with errorMode := .skip } := by
  have hout : (strToStr { defaultOpt with errorMode := .skip } ⟨.utf16, true⟩ (.ofForm .utf16)
      [0x8BED#16] 4).map (fun run => ((run.result.status, run.result.error), run.written)) =
        some ((.ok, 0#8), [0xFFA2#16, 0xDFED#16]) := by decide
  have hagain : (strToStr (strictOpt .replacement) (.ofForm .utf16) (.ofForm .utf16)
      [0xFFA2#16, 0xDFED#16] 8).map (fun run : Run (.ofForm .utf16) => run.result.status) =
        some .error := by decide
  rcases Option.map_eq_some_iff.1 hout with ⟨run, hrun, hvals⟩
  rcases Prod.mk.inj hvals with ⟨hgood, hwritten⟩
  rcases Prod.mk.inj hgood with ⟨hstatus, herror⟩
  rw [← hwritten] at hagain
  refine ⟨run, hrun, ⟨hstatus, herror⟩, hwritten, hagain, fun hsan => ?_⟩
  have hroom : ∀ w, completeConversion (strictOpt .replacement) (.ofForm .utf16)
      (.ofForm .utf16) run.written = some w → w.length ≤ 8 := by
    intro w hw
    rcases exists_scan_of_completeConversion hw with ⟨items, e, hscan, -, rfl⟩
    have hle := hscan.output_length_le (.ofForm .utf16)
    rwa [hwritten] at hle
  rcases hsan.accepted .replacement 8 hroom with ⟨again, hcall, hok, -⟩
  rw [hcall, Option.map_some, Option.some.injEq, hok.1] at hagain
  cases hagain

end Convert
end Chenc
