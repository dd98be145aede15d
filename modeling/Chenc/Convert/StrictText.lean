import Chenc.Convert.StrictDecoding
import Chenc.Convert.Encoding
import Chenc.Convert.Replay

/-!
# StrictText — strict conversion of whole texts

In strict mode the scan of a text of unsigned units meets standard characters and nothing else:

* `Scan.strict_stop` : under the error mode `stop` the items are the characters of the longest
  well-formed beginning of the text;
* `Scan.strict_codes` : under every error mode the code points handed on are characters;
* `strToStr_strict` : the conversion between any two encoding forms.
-/

namespace Chenc
namespace Convert

open Unicode

/-- The item of a well-formed character. -/
def charItem (f : Form) (c : Nat) : Item :=
  { units := (encode f c).length
    error := .none
    code := some (BitVec.ofNat 32 c) }

section Scans

variable {o : Options} (ho : o.charMode = .strict) {f : Form}
  {s : List (CharType.ofForm f).Unit} {items : List Item} {e : Ending}

include ho

/-- Where decoding reports an error, no character starts. -/
theorem no_character_starts {u : (CharType.ofForm f).Unit}
    (herr : ∀ cr, charToUtf32 o (CharType.ofForm f) (u :: s) {} ≠ some (.none, cr)) :
    ∀ c, IsCharacter c → ¬ encode f c <+: numbers (u :: s) := by
  intro c hc hpre
  exact herr _ ((charToUtf32_strict_iff ho).2 ⟨c, hc, hpre, rfl⟩)

omit ho in
theorem verdict_item_stop (hs : o.errorMode = .stop) {r : ErrorT × CharResult} {i : Item}
    (hv : o.verdict r = .item i) :
    r.1 = .none ∧ i = { units := r.2.inputBlock, error := .none, code := some r.2.unicode } := by
  rcases r with ⟨err', cr⟩
  cases err' <;> simp only [Options.verdict, hs] at hv
  case none =>
    cases hv
    exact ⟨rfl, rfl⟩
  all_goals cases hv

/-- **Strict reading.**  The items are characters, and no character starts where reading
ends early. -/
theorem Scan.strict_stop (hs : o.errorMode = .stop) (h : Scan o s items e) :
    ∃ cs t, IsText cs ∧ items = cs.map (charItem f) ∧ numbers s = encodeAll f cs ++ t ∧
      (e = .done → t = []) ∧
      (e ≠ .done → t ≠ [] ∧ ∀ c, IsCharacter c → ¬ encode f c <+: t) := by
  induction h with
  | nil => exact ⟨[], [], by simp, rfl, rfl, fun _ => rfl, fun h => absurd rfl h⟩
  | @item u t r i items e hr hv _ ih =>
      -- An item under `stop` is a character, and its sequence is what was read.
      rcases verdict_item_stop hs hv with ⟨hnone, rfl⟩
      rcases r with ⟨err, cr⟩
      subst hnone
      rcases (charToUtf32_strict_iff ho).1 hr with ⟨c, hc, hpre, rfl⟩
      rcases ih with ⟨cs, rest, hcs, hitems, hnum, hdone, hstuck⟩
      refine ⟨c :: cs, rest, isText_cons.2 ⟨hc, hcs⟩, ?_, ?_, hdone, hstuck⟩
      · rw [List.map_cons, hitems]
        rfl
      · rw [encodeAll_cons, List.append_assoc, ← hnum, numbers_drop]
        exact (List.prefix_iff_eq_append.1 hpre).symm
  | @halt u t r k err hr hv =>
      -- The error met is not `none`, so no sequence starts here.
      rcases verdict_halt_error hv with ⟨rfl, hne⟩
      refine ⟨[], numbers (u :: t), by simp, rfl, rfl, fun h => (by cases h), fun _ => ?_⟩
      refine ⟨by simp, no_character_starts ho ?_⟩
      intro cr hcr
      rw [hr] at hcr
      cases hcr
      exact hne rfl
  | @fault u t hr =>
      refine ⟨[], numbers (u :: t), by simp, rfl, rfl, fun h => (by cases h), fun _ => ?_⟩
      refine ⟨by simp, no_character_starts ho ?_⟩
      intro cr hcr
      rw [hr] at hcr
      cases hcr

/-- Every code point handed to the encoder is a character. -/
theorem Scan.strict_codes (h : Scan o s items e) :
    ∀ i ∈ items, ∀ c, i.code = some c → IsCharacter c.toNat := by
  induction h with
  | nil => simp
  | @item u t r i items e hr hv _ ih =>
      intro j hj c hcode
      rcases List.mem_cons.1 hj with rfl | hj
      · rcases r with ⟨err, cr⟩
        cases err <;> simp only [Options.verdict] at hv
        case none =>
          cases hv
          cases hcode
          rcases (charToUtf32_strict_iff ho).1 hr with ⟨d, hd, -, rfl⟩
          rw [toNat_ofNat_codePoint hd.1]
          exact hd
        case inTruncated => cases hv
        all_goals
          -- An error hands on nothing or the replacement character.
          cases hm : o.errorMode <;> simp only [hm] at hv
          · cases hv
          · cases hv
            cases hcode
          · cases hv
            cases hcode
            exact o.replaceChar.isCharacter
      · exact ih j hj c hcode
  | halt _ _ => simp
  | fault _ => simp

omit ho in
/-- A text of admitted code points is scanned into them under every error mode.  Surrogates have no
sequences in UTF-16. -/
theorem Scan.of_codes {cs : List Nat} (hadm : ∀ c ∈ cs, o.Admits c)
    (hsur : f = .utf16 → ∀ c ∈ cs, ¬ IsSurrogate c) (hs : numbers s = encodeAll f cs) :
    Scan o s (cs.map (charItem f)) .done := by
  induction cs generalizing s with
  | nil =>
      have hnil : s = [] := List.length_eq_zero_iff.1 (by rw [← numbers_length, hs]; rfl)
      rw [hnil]
      exact .nil
  | cons c cs ih =>
      rcases List.forall_mem_cons.1 hadm with ⟨hc, hcs⟩
      have hsur' : f = .utf16 → ∀ c ∈ cs, ¬ IsSurrogate c := fun hf =>
        (List.forall_mem_cons.1 (hsur hf)).2
      rw [encodeAll_cons] at hs
      rcases s with _ | ⟨u, t⟩
      · have hpos := encode_length_pos f c
        have hlen := congrArg List.length hs
        simp at hlen
        omega
      · have hpre : encode f c <+: numbers (u :: t) := by
          rw [hs]
          exact List.prefix_append _ _
        have hdrop : numbers ((u :: t).drop (encode f c).length) = encodeAll f cs := by
          rw [numbers_drop, hs, List.drop_left]
        have hdecode := charToUtf32_of_admits hc (fun hf => hsur hf c (by simp)) hpre
        exact .item hdecode rfl (ih hcs hsur' hdrop)

/-- A well-formed text is scanned into its characters. -/
theorem Scan.of_text {cs : List Nat} (hcs : IsText cs) (hs : numbers s = encodeAll f cs) :
    Scan o s (cs.map (charItem f)) .done :=
  Scan.of_codes (fun c hc => Options.admits_strict ho (hcs c hc)) (fun _ c hc => (hcs c hc).2.1) hs

end Scans

/-! ## What the items of a text amount to -/

theorem tally_charItems (f : Form) (cs : List Nat) (r : StrResult) :
    tally (cs.map (charItem f)) r = r.charge (encodeAll f cs).length cs.length 0 := by
  induction cs generalizing r with
  | nil => rfl
  | cons c cs ih =>
      rw [List.map_cons, tally_cons, ih]
      simp only [Item.tally, charItem, if_true, StrResult.charge, encodeAll_cons,
        List.length_append, List.length_cons, Nat.add_assoc, Nat.add_zero]
      congr 2
      omega

theorem numbers_output_charItems (f : Form) (Out : CharType) {cs : List Nat} (hcs : IsText cs) :
    numbers (output Out (cs.map (charItem f))) = encodeAll Out.form cs := by
  induction cs with
  | nil => rfl
  | cons c cs ih =>
      rcases isText_cons.1 hcs with ⟨hc, hcs⟩
      have hval := toNat_ofNat_codePoint hc.1
      rw [List.map_cons, output_cons, numbers_append, ih hcs, encodeAll_cons]
      congr 1
      change numbers (utf32Units Out (BitVec.ofNat 32 c)) = encode Out.form c
      rw [numbers_utf32Units Out (by rw [hval]; exact hc.1), hval]

/-- The code points handed to the encoder. -/
def codes (items : List Item) : List Nat :=
  items.filterMap fun i => i.code.map BitVec.toNat

theorem codes_cons_none {i : Item} (hcode : i.code = none) (items : List Item) :
    codes (i :: items) = codes items := by
  simp [codes, hcode]

theorem codes_cons_some {i : Item} {c : U32} (hcode : i.code = some c) (items : List Item) :
    codes (i :: items) = c.toNat :: codes items := by
  simp [codes, hcode]

theorem forall_codes {P : Nat → Prop} {items : List Item}
    (h : ∀ i ∈ items, ∀ c, i.code = some c → P c.toNat) : ∀ c ∈ codes items, P c := by
  intro c hc
  rcases List.mem_filterMap.1 hc with ⟨i, hi, hcode⟩
  rcases Option.map_eq_some_iff.1 hcode with ⟨d, hd, rfl⟩
  exact h i hi d hd

theorem numbers_output_of_codes (Out : CharType) {items : List Item}
    (h : ∀ i ∈ items, ∀ c, i.code = some c → c.toNat ≤ 0x10FFFF) :
    numbers (output Out items) = encodeAll Out.form (codes items) := by
  induction items with
  | nil => rfl
  | cons i items ih =>
      rcases List.forall_mem_cons.1 h with ⟨hi, hitems⟩
      rw [output_cons, numbers_append, ih hitems]
      cases hcode : i.code with
      | none =>
          rw [codes_cons_none hcode, Item.output_of_none hcode, numbers_nil, List.nil_append]
      | some c =>
          rw [codes_cons_some hcode, Item.output_of_some hcode, numbers_utf32Units Out (hi c hcode),
            encodeAll_cons]

/-! ## Strict conversion -/

/-- `default_opt`, with any replacement character: strict, stopping at errors, all bounds
checked, without the eight-byte path. -/
def strictOpt (rc : ReplaceChar) : Options :=
  { defaultOpt with replaceChar := rc }

/-- **Strict conversion** between any two encoding forms, into a buffer with room for every
conversion of a well-formed beginning of the input. -/
theorem strToStr_strict (rc : ReplaceChar) (f g : Form)
    (input : List (CharType.ofForm f).Unit) (outputLen : Nat)
    (hroom : ∀ cs, IsText cs → encodeAll f cs <+: numbers input →
      (encodeAll g cs).length ≤ outputLen) :
    ∃ run : Run (CharType.ofForm g),
      strToStr (strictOpt rc) (CharType.ofForm f) (CharType.ofForm g) input outputLen = some run ∧
      (run.result.good ↔ WellFormed f (numbers input)) ∧
      (∀ cs, IsText cs → numbers input = encodeAll f cs →
        (∃ w, run.mem = Region.filled w ∧ numbers w = encodeAll g cs) ∧
        run.result.outputBlockCount = (encodeAll g cs).length ∧
        run.result.convNormalCharCount = cs.length) ∧
      (¬ WellFormed f (numbers input) →
        run.result.status = .error ∧
        ∃ cs w, LongestText f (numbers input) cs ∧
          run.mem = Region.filled w ∧ numbers w = encodeAll g cs) := by
  rcases Scan.exists (strictOpt rc) input with ⟨items, e, hscan⟩
  have hfault : e ≠ .fault := hscan.ne_fault rfl
  rcases hscan.strict_stop rfl rfl with ⟨cs, t, hcs, hitems, hnum, hdone, hstuck⟩
  have hout : numbers (output (CharType.ofForm g) items) = encodeAll g cs := by
    rw [hitems]
    exact numbers_output_charItems f (CharType.ofForm g) hcs
  have hlen : (output (CharType.ofForm g) items).length = (encodeAll g cs).length := by
    rw [← hout, numbers_length]
  have hfit : (output (CharType.ofForm g) items).length ≤ outputLen := by
    rw [hlen]
    exact hroom cs hcs (by rw [hnum]; exact List.prefix_append _ _)
  have hrun := strToStr_of_fits (not_fastPath_of_normal rfl outputLen) hscan fun _ => hfit
  rw [hitems, tally_charItems, ← hitems] at hrun
  have hstored : (strictOpt rc).stored (output (CharType.ofForm g) items) =
      output (CharType.ofForm g) items := rfl
  rw [hstored] at hrun
  -- The text is well formed exactly when reading reaches its end.
  by_cases he : e = .done
  · subst he
    have hnil := hdone rfl
    rw [hnil, List.append_nil] at hnum
    have hwf : WellFormed f (numbers input) := ⟨cs, hcs, hnum⟩
    refine ⟨_, hrun, ⟨fun _ => hwf, fun _ => ⟨rfl, rfl⟩⟩, ?_, fun hnot => absurd hwf hnot⟩
    intro ds hds hnum'
    have hcd : cs = ds := encodeAll_injective f hcs hds (hnum.symm.trans hnum')
    subst hcd
    refine ⟨⟨_, rfl, hout⟩, ?_, ?_⟩
    · simp [StrResult.credit, StrResult.charge, hlen]
    · simp [StrResult.credit, StrResult.charge]
  · -- Reading ends early at a point where no character starts.
    have hstop := hstuck he
    have hnwf : ¬ WellFormed f (numbers input) := by
      rw [hnum]
      exact not_wellFormed_of_stuck f hcs hstop.1 hstop.2
    have hlongest : LongestText f (numbers input) cs := by
      rw [hnum]
      exact longestText_of_stuck f hcs hstop.2
    cases e with
    | done => exact absurd rfl he
    | fault => exact absurd rfl hfault
    | halt k err =>
        refine ⟨_, hrun, ?_, ?_, ?_⟩
        · refine ⟨fun hgood => ?_, fun hwf => absurd hwf hnwf⟩
          exact absurd hgood.1 (by simp [StrResult.credit, StrResult.raise])
        · intro ds hds hnum'
          exact absurd ⟨ds, hds, hnum'⟩ hnwf
        · intro _
          exact ⟨rfl, cs, _, hlongest, rfl, hout⟩

theorem strToStr_strict_e_acute :
    ∃ run : Run (CharType.ofForm .utf16),
      strToStr (strictOpt .replacement) (CharType.ofForm .utf8) (CharType.ofForm .utf16)
        [0xC3#8, 0xA9#8] 8 = some run ∧
      run.result.good ∧ ∃ w, run.mem = Region.filled w ∧ numbers w = [0xE9] := by
  have hroom : ∀ cs, IsText cs →
      encodeAll .utf8 cs <+: numbers (T := CharType.ofForm .utf8) [0xC3#8, 0xA9#8] →
      (encodeAll .utf16 cs).length ≤ 8 := by
    intro cs _ hpre
    have hlen : (encodeAll .utf8 cs).length ≤ 2 := hpre.length_le
    have hgrow := encodeAll_length_le .utf8 .utf16 cs
    omega
  have htext : IsText [0xE9] := by decide
  rcases strToStr_strict .replacement .utf8 .utf16 [0xC3#8, 0xA9#8] 8 hroom with
    ⟨run, hrun, hgood, hwf, -⟩
  refine ⟨run, hrun, hgood.2 ⟨[0xE9], htext, by decide⟩, ?_⟩
  exact (hwf [0xE9] htext (by decide)).1

end Convert
end Chenc
