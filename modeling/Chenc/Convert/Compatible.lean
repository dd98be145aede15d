import Chenc.Convert.Relaxed
import Chenc.Convert.Signedness
import Chenc.Convert.StrictText

/-!
# Compatible — compatible mode there and back

Compatible mode reads surrogate code points in UTF-8 and in UTF-32, and writes them as single
units in UTF-16, where they cannot be read back.

* `charToUtf32_compatible` : what compatible mode delivers is in range, and from UTF-16 never a
  surrogate;
* `Options.admits_compatible` : it admits every code point in range;
* `strToStr_compatible_iff` : when the way back goes through the same code points.
-/

namespace Chenc
namespace Convert

open Unicode

/-! ## Code points in compatible mode -/

section Range

variable {o : Options} (ho : o.charMode = .compatible)

include ho

/-- Compatible mode admits the code points, surrogates and noncharacters among them. -/
theorem Options.admits_compatible {c : Nat} (hc : c ≤ 0x10FFFF) : o.Admits c := by
  have hrange : ¬ 0x10FFFF#32 < BitVec.ofNat 32 c := by
    rw [BitVec.lt_def, toNat_ofNat_codePoint hc, BitVec.toNat_ofNat]
    omega
  refine ⟨hc, ?_, ?_, ?_, ?_, ?_, ?_⟩
  · intro _
    simp [twoByteError, ho]
  · intro _ _
    simp [threeByteError, ho]
  · intro _
    simp [fourByteError, ho, hrange]
  · simp [bmpError, ho]
  · intro _
    simp [pairError, ho]
  · simp [utf32Error, ho, hrange]

theorem fourByteError_range {c : U32} (h : fourByteError o c = .none) : c.toNat ≤ 0x10FFFF := by
  simp only [fourByteError, ho, reduceCtorEq, if_false, if_true] at h
  split_ifs at h with hlt
  exact Nat.le_of_not_lt hlt

theorem utf32Error_range {c : U32} (h : utf32Error o c = .none) : c.toNat ≤ 0x10FFFF := by
  simp only [utf32Error, ho, reduceCtorEq, if_false, if_true] at h
  split_ifs at h with hlt
  exact Nat.le_of_not_lt hlt

omit ho in
theorem utf8TwoBytes_range {In : CharType} {s : List In.Unit} {cr : CharResult}
    (h : utf8TwoBytes o s {} = some (.none, cr)) : cr.unicode.toNat ≤ 0x10FFFF := by
  rcases utf8TwoBytes_cases h with ⟨-, hp⟩ | ⟨u0, u1, t, rfl⟩
  · cases hp
  · simp only [utf8TwoBytes_cons] at h
    split_ifs at h
    · cases h
    · rcases deliver_eq_none (Option.some.inj h) with ⟨-, rfl⟩
      simp only [toNat_twoBytes]
      omega

omit ho in
theorem utf8ThreeBytes_range {In : CharType} {s : List In.Unit} {cr : CharResult}
    (h : utf8ThreeBytes o s {} = some (.none, cr)) : cr.unicode.toNat ≤ 0x10FFFF := by
  rcases utf8ThreeBytes_cases h with ⟨-, hp⟩ | ⟨u0, u1, u2, t, rfl⟩
  · cases hp
  · simp only [utf8ThreeBytes_cons] at h
    split_ifs at h
    · cases h
    · rcases deliver_eq_none (Option.some.inj h) with ⟨-, rfl⟩
      simp only [toNat_threeBytes]
      omega

/-- Four bytes can say more than the range, and are checked. -/
theorem utf8FourBytes_range {In : CharType} {s : List In.Unit} {cr : CharResult}
    (h : utf8FourBytes o s {} = some (.none, cr)) : cr.unicode.toNat ≤ 0x10FFFF := by
  rcases utf8FourBytes_cases h with ⟨-, hp⟩ | ⟨u0, u1, u2, u3, t, rfl⟩
  · cases hp
  · simp only [utf8FourBytes_cons] at h
    split_ifs at h
    · cases h
    · rcases deliver_eq_none (Option.some.inj h) with ⟨he, rfl⟩
      exact fourByteError_range ho he

theorem utf8ToUtf32_range {In : CharType} {s : List In.Unit} {cr : CharResult}
    (hbyte : ∀ u : In.Unit, (u.setWidth 8 : U8).toNat = u.toNat) (hs : In.signed = false)
    (h : utf8ToUtf32 o s {} = some (.none, cr)) : cr.unicode.toNat ≤ 0x10FFFF := by
  simp only [utf8ToUtf32, Option.bind_eq_bind, Option.bind_eq_some_iff] at h
  rcases h with ⟨u, -, h⟩
  split_ifs at h with h1
  · -- One byte, below 0x80.
    cases h
    rw [BitVec.lt_def, hbyte, BitVec.toNat_ofNat] at h1
    simp only [CharType.toNat_toU32 hs]
    omega
  · exact utf8TwoBytes_range h
  · exact utf8ThreeBytes_range h
  · exact utf8FourBytes_range ho h
  · cases h

/-- A high surrogate and a low one make a code point behind the first plane. -/
theorem utf16ToUtf32_range {In : CharType} {s : List In.Unit} {cr : CharResult}
    (hword : ∀ u : In.Unit, (u.setWidth 16 : U16).toNat = u.toNat) (hs : In.signed = false)
    (h : utf16ToUtf32 o s {} = some (.none, cr)) :
    cr.unicode.toNat ≤ 0x10FFFF ∧ ¬ IsSurrogate cr.unicode.toNat := by
  simp only [utf16ToUtf32, Option.bind_eq_bind, Option.bind_eq_some_iff] at h
  rcases h with ⟨u, -, h⟩
  have hu := CharType.toNat_toU32 hs u
  have hlt := hword u ▸ (u.setWidth 16 : U16).isLt
  simp only [BitVec.lt_def, BitVec.le_def, BitVec.toNat_ofNat, hu] at h
  split_ifs at h with h1 h2 h3
  · -- A unit outside the surrogates is delivered as it is.
    rcases deliver_eq_none (Option.some.inj h) with ⟨-, rfl⟩
    simp only [hu, IsSurrogate]
    omega
  · cases h
  · rcases Option.bind_eq_some_iff.1 h with ⟨u1, -, h⟩
    split_ifs at h with hsrc
    · cases h
    · rcases deliver_eq_none (Option.some.inj h) with ⟨-, rfl⟩
      -- The second unit is tested for a low surrogate in compatible mode too.
      have hlow : ¬ ((u1.setWidth 16 : U16).toNat < 0xDC00 ∨
          0xDFFF < (u1.setWidth 16 : U16).toNat) := fun hout => hsrc ⟨.inr ho, hout⟩
      have hpair := toNat_pair (a := In.toU32 u) (b := u1.setWidth 16) (h := u.toNat - 0xD800)
        (l := (u1.setWidth 16 : U16).toNat - 0xDC00) (by omega) (by omega) (by omega) (by omega)
      simp only [hpair, IsSurrogate]
      omega
  · cases h

/-- **Compatible mode** delivers code points in range, and no surrogates from UTF-16. -/
theorem charToUtf32_compatible {f : Form} {s : List (CharType.ofForm f).Unit} {cr : CharResult}
    (h : charToUtf32 o (.ofForm f) s {} = some (.none, cr)) :
    cr.unicode.toNat ≤ 0x10FFFF ∧ (f = .utf16 → ¬ IsSurrogate cr.unicode.toNat) := by
  unfold charToUtf32 at h
  split_ifs at h
  · cases h
  · cases f with
    | utf8 =>
        have hrange := utf8ToUtf32_range ho (fun u => toNat_setWidth_ofForm u (by decide)) rfl h
        exact ⟨hrange, fun hf => by cases hf⟩
    | utf16 =>
        rcases utf16ToUtf32_range ho (fun u => toNat_setWidth_ofForm u (by decide)) rfl h with
          ⟨hrange, hsur⟩
        exact ⟨hrange, fun _ => hsur⟩
    | utf32 =>
        simp only [utf32ToUtf32, Option.bind_eq_bind, Option.bind_eq_some_iff] at h
        rcases h with ⟨u, -, h⟩
        rcases deliver_eq_none (Option.some.inj h) with ⟨he, rfl⟩
        exact ⟨utf32Error_range ho he, fun hf => by cases hf⟩

/-- The code points of a scan. -/
theorem Scan.compatible_codes {f : Form} {s : List (CharType.ofForm f).Unit} {items : List Item}
    {e : Ending} (h : Scan o s items e) :
    ∀ i ∈ items, ∀ c, i.code = some c →
      c.toNat ≤ 0x10FFFF ∧ (f = .utf16 → ¬ IsSurrogate c.toNat) := by
  induction h with
  | nil => simp
  | @item u t r i items e hr hv _ ih =>
      refine List.forall_mem_cons.2 ⟨?_, ih⟩
      intro c hcode
      by_cases herr : r.1 = .none
      · rcases r with ⟨err, cr⟩
        cases herr
        cases hv
        cases hcode
        exact charToUtf32_compatible ho hr
      · -- An error hands on nothing or the replacement character.
        rcases verdict_item_of_error hv herr with ⟨-, ⟨-, hnone⟩ | ⟨-, hsome⟩⟩
        · rw [hnone] at hcode
          cases hcode
        · rw [hsome] at hcode
          cases hcode
          exact ⟨o.replaceChar.isCharacter.1, fun _ => o.replaceChar.isCharacter.2.1⟩
  | halt _ _ => simp
  | fault _ => simp

end Range

/-! ## There and back -/

variable {In Out : CharType}

/-- Reading the input meets no error, and these are the code points that are read. -/
def GoesThrough (o : Options) {In : CharType} (input : List In.Unit) (cs : List Nat) : Prop :=
  ∃ items, Scan o input items .done ∧ Clean items ∧ codes items = cs

theorem clean_charItems (f : Form) (cs : List Nat) : Clean (cs.map (charItem f)) := by
  intro i hi
  rcases List.mem_map.1 hi with ⟨c, -, rfl⟩
  rfl

theorem codes_charItems (f : Form) {cs : List Nat} (hcs : ∀ c ∈ cs, c ≤ 0x10FFFF) :
    codes (cs.map (charItem f)) = cs := by
  induction cs with
  | nil => rfl
  | cons c cs ih =>
      rcases List.forall_mem_cons.1 hcs with ⟨hc, hcs⟩
      have hhead : (BitVec.ofNat 32 c).toNat = c := toNat_ofNat_codePoint hc
      have hcode : (charItem f c).code = some (BitVec.ofNat 32 c) := rfl
      rw [List.map_cons, codes_cons_some hcode, hhead, ih hcs]

/-- A call that reads its text without an error and has room for it ends with status `ok`. -/
theorem strLoop_ok {o : Options} {outEnd fuel : Nat} {items : List Item} {s s' : LoopState In Out}
    (hrun : strLoop o outEnd fuel s = some s') (hscan : Scan o s.inStr items .done)
    (hclean : Clean items)
    (hfit : o.checksOutput → s.outStr + (output Out items).length ≤ outEnd)
    (hok : s.result.status = .ok) : s'.result.status = .ok := by
  refine strLoop_rule (M := fun items e s s' => e = .done → Clean items →
    (o.checksOutput → s.outStr + (output Out items).length ≤ outEnd) →
    s.result.status = .ok → s'.result.status = .ok) ?_ ?_ ?_ ?_ ?_ hrun hscan rfl hclean hfit hok
  · intro s _ _ _ _ hok
    exact hok
  · intro k err s _ _ he
    cases he
  · -- With room no character ends the call.
    intro i items e s t _ _ hret _ _ hfit
    rw [consume_of_fits (room_head hfit)] at hret
    cases hret
  · -- A clean item leaves the status as it is.
    intro i items e s t s' _ _ _ hnext ih he hclean hfit hok
    rcases List.forall_mem_cons.1 hclean with ⟨hi, hclean⟩
    rw [consume_of_fits (room_head hfit)] at hnext
    cases hnext
    refine ih he hclean (room_tail hfit) ?_
    change (i.tally s.result).status = .ok
    rw [Item.tally, if_pos hi]
    exact hok
  · intro rest e s s' _ hpath ih he hclean hfit hok
    exact ih he (fun i hi => hclean i (List.mem_append_right _ hi)) (room_fastStep hpath hfit) hok

/-- **Compatible mode there and back.**  What compatible mode converts with status `ok` goes back
through the same code points exactly when no surrogate has been written in UTF-16.  Types whose
units are extended are left out. -/
theorem strToStr_compatible_iff (o o' : Options) (In Out : CharType) (input : List In.Unit)
    (outputLen n : Nat) (run : Run Out) (ho : o.charMode = .compatible)
    (ho' : o'.charMode = .compatible) (hmode : o.outMode ≠ .count) (hIn : In.Unextended)
    (hOut : Out.Unextended) (hrun : strToStr o In Out input outputLen = some run)
    (hok : run.result.status = .ok)
    (hroom : ∀ w, completeConversion o In Out input = some w → w.length ≤ outputLen)
    (hback : ∀ w, completeConversion o' Out In run.written = some w → w.length ≤ n) :
    ∃ cs, GoesThrough o input cs ∧
      ((∃ back : Run In, strToStr o' Out In run.written n = some back ∧
          back.result.status = .ok ∧ GoesThrough o' run.written cs) ↔
        Out.form ≠ .utf16 ∨ ∀ c ∈ cs, ¬ IsSurrogate c) := by
  rcases Scan.exists o input with ⟨items, e, hscan⟩
  rcases exists_loop_of_strToStr hrun with ⟨s', hloop, rfl⟩
  rcases strLoop_clean hloop hscan hok with ⟨rfl, hclean, -⟩
  refine ⟨codes items, ⟨items, hscan, hclean, rfl⟩, ?_⟩
  have hfit := hroom _ (completeConversion_eq hscan (by simp))
  have hholds := strLoop_holds hmode hloop hscan (holds_start Out input) (by simpa using hfit)
  rw [List.nil_append] at hholds
  have hcodes := ((scan_unextended_iff hIn).1 hscan).compatible_codes ho
  have hrange : ∀ c ∈ codes items, c ≤ 0x10FFFF :=
    forall_codes fun i hi c hc => (hcodes i hi c hc).1
  have hnum : numbers s'.toRun.written = encodeAll Out.form (codes items) := by
    rw [hholds.written]
    exact numbers_output_of_codes Out fun i hi c hc => (hcodes i hi c hc).1
  constructor
  · -- What is read from UTF-16 on the way back is no surrogate.
    rintro ⟨back, -, -, items', hscan', -, hsame⟩
    by_cases hf : Out.form = .utf16
    · right
      rw [← hsame]
      have hcodes' := ((scan_unextended_iff hOut).1 hscan').compatible_codes ho'
      exact forall_codes fun i hi c hc => (hcodes' i hi c hc).2 hf
    · exact .inl hf
  · -- What was written is the encoding of admitted code points, so it is read back as these.
    intro hsur
    have hsur' : Out.form = .utf16 → ∀ c ∈ codes items, ¬ IsSurrogate c := fun hf =>
      hsur.resolve_left fun hne => hne hf
    have hunsigned : @Scan o' (.ofForm Out.form) s'.toRun.written
        ((codes items).map (charItem Out.form)) .done :=
      Scan.of_codes (fun c hc => Options.admits_compatible ho' (hrange c hc)) hsur' hnum
    have hagain := (scan_unextended_iff hOut).2 hunsigned
    have hfit' := hback _ (completeConversion_eq hagain (by simp))
    have hsome : (strToStr o' Out In s'.toRun.written n).isSome :=
      strToStr_isSome_of_scan hagain (by simp) n
    rcases Option.isSome_iff_exists.1 hsome with ⟨back, hrun'⟩
    rcases exists_loop_of_strToStr hrun' with ⟨t', hloop', rfl⟩
    have hclean' := clean_charItems Out.form (codes items)
    refine ⟨_, hrun', ?_, _, hagain, hclean', codes_charItems Out.form hrange⟩
    refine strLoop_ok hloop' hagain hclean' (fun _ => ?_) rfl
    rwa [LoopState.start, Nat.zero_add]

/-- An overlong "A" in UTF-8, through UTF-32. -/
theorem strToStr_compatible_iff_overlong :
    ∃ (run : Run (.ofForm .utf32)) (back : Run (.ofForm .utf8)),
      strToStr { defaultOpt with charMode := .compatible } (.ofForm .utf8) (.ofForm .utf32)
        [0xC1#8, 0x81#8] 8 = some run ∧
      strToStr { defaultOpt with charMode := .compatible } (.ofForm .utf32) (.ofForm .utf8)
        run.written 8 = some back ∧
      back.result.status = .ok := by
  have hout : (strToStr { defaultOpt with charMode := .compatible } (.ofForm .utf8)
      (.ofForm .utf32) [0xC1#8, 0x81#8] 8).map
        (fun run => (run.result.status, run.written)) = some (.ok, [0x41#32]) := by decide
  have hroom : completeConversion { defaultOpt with charMode := .compatible } (.ofForm .utf8)
      (.ofForm .utf32) [0xC1#8, 0x81#8] = some [0x41#32] := by decide
  have hback : completeConversion { defaultOpt with charMode := .compatible } (.ofForm .utf32)
      (.ofForm .utf8) [0x41#32] = some [0x41#8] := by decide
  rcases Option.map_eq_some_iff.1 hout with ⟨run, hrun, hvals⟩
  rcases Prod.mk.inj hvals with ⟨hok, hwritten⟩
  rcases strToStr_compatible_iff { defaultOpt with charMode := .compatible }
    { defaultOpt with charMode := .compatible } (.ofForm .utf8) (.ofForm .utf32)
    [0xC1#8, 0x81#8] 8 8 run rfl rfl (by decide) (fun _ => rfl) (fun _ => rfl) hrun hok
    (fun w hw => by
      cases hroom.symm.trans hw
      decide)
    (fun w hw => by
      rw [hwritten] at hw
      cases hback.symm.trans hw
      decide) with ⟨cs, -, hiff⟩
  rcases hiff.2 (.inl (by decide)) with ⟨back, hrun', hok', -⟩
  exact ⟨run, back, hrun, hrun', hok'⟩

/-- A surrogate in UTF-8 goes through UTF-16 one way: the way back asks for the other half of the
pair. -/
theorem not_compatible_closed :
    ∃ (run : Run (.ofForm .utf16)) (back : Run (.ofForm .utf8)),
      strToStr { defaultOpt with charMode := .compatible } (.ofForm .utf8) (.ofForm .utf16)
        [0xED#8, 0xA0#8, 0x80#8] 12 = some run ∧
      run.result.status = .ok ∧
      strToStr { defaultOpt with charMode := .compatible } (.ofForm .utf16) (.ofForm .utf8)
        run.written 12 = some back ∧
      back.result.status = .error := by
  have hout : (strToStr { defaultOpt with charMode := .compatible } (.ofForm .utf8)
      (.ofForm .utf16) [0xED#8, 0xA0#8, 0x80#8] 12).map
        (fun run => (run.result.status, run.written)) = some (.ok, [0xD800#16]) := by decide
  have hback : (strToStr { defaultOpt with charMode := .compatible } (.ofForm .utf16)
      (.ofForm .utf8) [0xD800#16] 12).map (fun run => run.result.status) = some .error := by
    decide
  rcases Option.map_eq_some_iff.1 hout with ⟨run, hrun, hvals⟩
  rcases Prod.mk.inj hvals with ⟨hok, hwritten⟩
  rcases Option.map_eq_some_iff.1 hback with ⟨back, hrun', hstatus⟩
  exact ⟨run, back, hrun, hok, hwritten.symm ▸ hrun', hstatus⟩

end Convert
end Chenc
