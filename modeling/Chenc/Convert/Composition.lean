import Chenc.Convert.Compatible

/-!
# Composition — calls one after another

* `charToUtf32_append` : what follows a sequence that is there in full plays no part in its
  decoding;
* `strToStr_chunks` : a text that is converted chunk by chunk, each read to its end, is converted as
  in one call;
* `strToStr_pivot` : in strict mode a conversion by way of another form is the direct one;
* `strToStr_round_trip` : a strict conversion without errors is undone by the one back.
-/

namespace Chenc
namespace Convert

open Unicode

variable {o : Options} {In Mid Out : CharType}

/-! ## Text behind a sequence -/

section Behind

variable (o) {u : In.Unit} (s y : List In.Unit)

theorem utf8TwoBytes_append (hlen : 2 ≤ s.length) :
    utf8TwoBytes o (s ++ y) {} = utf8TwoBytes o s {} := by
  rcases s with _ | ⟨u0, _ | ⟨u1, t⟩⟩
  · simp at hlen
  · simp at hlen
  · simp only [List.cons_append, utf8TwoBytes_cons]

theorem utf8ThreeBytes_append (hlen : 3 ≤ s.length) :
    utf8ThreeBytes o (s ++ y) {} = utf8ThreeBytes o s {} := by
  rcases s with _ | ⟨u0, _ | ⟨u1, _ | ⟨u2, t⟩⟩⟩
  · simp at hlen
  · simp at hlen
  · simp at hlen
  · simp only [List.cons_append, utf8ThreeBytes_cons]

theorem utf8FourBytes_append (hlen : 4 ≤ s.length) :
    utf8FourBytes o (s ++ y) {} = utf8FourBytes o s {} := by
  rcases s with _ | ⟨u0, _ | ⟨u1, _ | ⟨u2, _ | ⟨u3, t⟩⟩⟩⟩
  · simp at hlen
  · simp at hlen
  · simp at hlen
  · simp at hlen
  · simp only [List.cons_append, utf8FourBytes_cons]

theorem utf8ToUtf32_append (hlen : leadLength .utf8 (u.setWidth 8 : U8).toNat ≤ (u :: s).length) :
    utf8ToUtf32 o (u :: s ++ y) {} = utf8ToUtf32 o (u :: s) {} := by
  simp only [utf8ToUtf32, List.cons_append, List.getElem?_cons_zero, Option.bind_eq_bind,
    Option.bind_some, lead_two_iff, lead_three_iff, lead_four_iff, BitVec.lt_def,
    BitVec.toNat_ofNat]
  simp only [leadLength] at hlen
  -- The branch is that of the first byte, and its bytes are there.
  split_ifs with h1 h2 h3 h4
  · rfl
  · rw [if_neg (by omega), if_pos (by omega)] at hlen
    exact utf8TwoBytes_append o (u :: s) y hlen
  · rw [if_neg (by omega), if_neg (by omega), if_pos (by omega)] at hlen
    exact utf8ThreeBytes_append o (u :: s) y hlen
  · rw [if_neg (by omega), if_neg (by omega), if_neg (by omega), if_pos (by omega)] at hlen
    exact utf8FourBytes_append o (u :: s) y hlen
  · rfl

theorem utf16ToUtf32_append (hlen : leadLength .utf16 (In.toU32 u).toNat ≤ (u :: s).length) :
    utf16ToUtf32 o (u :: s ++ y) {} = utf16ToUtf32 o (u :: s) {} := by
  simp only [utf16ToUtf32, List.cons_append, List.getElem?_cons_zero, Option.bind_eq_bind,
    Option.bind_some]
  rcases s with _ | ⟨u1, t⟩
  · -- A high surrogate would announce two units.
    simp only [leadLength, List.length_singleton] at hlen
    simp only [BitVec.lt_def, BitVec.le_def, BitVec.toNat_ofNat]
    split_ifs at hlen with hlead
    · omega
    · split_ifs with h1 h2
      · rfl
      · omega
      · omega
      · omega
      · omega
      · rfl
  · simp only [List.cons_append, List.length_cons, List.getElem?_cons_zero,
      List.getElem?_cons_succ, Option.bind_some]
    rw [if_neg (show ¬ (t ++ y).length + 1 + 1 ≤ 1 by omega),
      if_neg (show ¬ t.length + 1 + 1 ≤ 1 by omega)]

/-- A sequence that is there in full is decoded without regard to what follows. -/
theorem charToUtf32_append (hlen : In.announced u ≤ (u :: s).length) :
    charToUtf32 o In (u :: s ++ y) {} = charToUtf32 o In (u :: s) {} := by
  have hshort : ¬ o.truncates 0 (u :: s).length := by simp [Options.truncates]
  have hlong : ¬ o.truncates 0 (u :: s ++ y).length := by simp [Options.truncates]
  rw [charToUtf32, charToUtf32, if_neg hshort, if_neg hlong]
  unfold CharType.announced at hlen
  cases hf : In.form with
  | utf8 =>
      simp only [hf] at hlen
      exact utf8ToUtf32_append o s y hlen
  | utf16 =>
      simp only [hf] at hlen
      exact utf16ToUtf32_append o s y hlen
  | utf32 => rfl

end Behind

/-- Reading goes on behind a text that has been read to its end. -/
theorem Scan.append {s y : List In.Unit} {items more : List Item} {e : Ending}
    (h : Scan o s items .done) (hy : Scan o y more e) : Scan o (s ++ y) (items ++ more) e := by
  generalize hdone : Ending.done = d at h
  induction h with
  | nil => exact hy
  | @item u t r i items e' hr hv _ ih =>
      rcases verdict_item_units hr hv with ⟨hunits, hle⟩
      have hdecode := charToUtf32_append o t y (hunits ▸ hle)
      have htail := ih hdone
      rw [← List.drop_append_of_le_length hle] at htail
      exact .item (hdecode.trans hr) hv htail
  | halt hr hv => cases hdone
  | fault hr => cases hdone

/-! ## Results of calls one after another -/

/-- The status of two calls one after another. -/
def Status.andThen : Status → Status → Status
  | s, .ok => s
  | _, s => s

/-- The result of a call that goes on where another one has stopped. -/
def StrResult.append (r q : StrResult) : StrResult where
  inputBlockCount := r.inputBlockCount + q.inputBlockCount
  outputBlockCount := r.outputBlockCount + q.outputBlockCount
  convNormalCharCount := r.convNormalCharCount + q.convNormalCharCount
  convErrorCharCount := r.convErrorCharCount + q.convErrorCharCount
  needOutputBlockCount := r.needOutputBlockCount + q.needOutputBlockCount
  status := r.status.andThen q.status
  error := r.error ||| q.error

theorem Status.andThen_assoc (s t u : Status) :
    (s.andThen t).andThen u = s.andThen (t.andThen u) := by
  cases t <;> cases u <;> rfl

theorem Status.andThen_of_ne {s t : Status} (h : t ≠ .ok) : s.andThen t = t := by
  cases t with
  | ok => exact absurd rfl h
  | _ => rfl

namespace StrResult

variable (r q p : StrResult)

theorem append_empty : r.append {} = r := by
  simp [append, Status.andThen]

theorem append_assoc : (r.append q).append p = r.append (q.append p) := by
  simp only [append, Nat.add_assoc, BitVec.or_assoc, Status.andThen_assoc]

theorem append_charge (k normal bad : Nat) :
    r.append (q.charge k normal bad) = (r.append q).charge k normal bad := by
  simp only [append, charge, Nat.add_assoc]

/-- What is raised in the second call stands. -/
theorem append_raise {status : Status} (h : status ≠ .ok) (err : ErrorT) :
    r.append (q.raise status err) = (r.append q).raise status err := by
  simp only [append, raise, Status.andThen_of_ne h, BitVec.or_assoc]

theorem append_credit (a b : Nat) : (r.credit a 0).append (q.credit b 0) =
    (r.append q).credit (a + b) 0 := by
  simp only [append, credit, Nat.add_zero, Nat.add_add_add_comm]

end StrResult

/-- What the items add does not depend on what has been counted before. -/
theorem tally_eq_append (items : List Item) (r : StrResult) :
    tally items r = r.append (tally items {}) := by
  induction items generalizing r with
  | nil => exact r.append_empty.symm
  | cons i items ih =>
      have hi : i.tally r = r.append (i.tally {}) := by
        unfold Item.tally
        split_ifs
        · rw [StrResult.append_charge, StrResult.append_empty]
        · rw [StrResult.append_raise _ _ (by decide), StrResult.append_charge,
            StrResult.append_empty]
      rw [tally_cons, tally_cons, ih, ih (i.tally {}), hi, StrResult.append_assoc]

theorem Ending.close_append (e : Ending) (r q : StrResult) :
    e.close (r.append q) = (e.close q).map r.append := by
  cases e with
  | done => rfl
  | halt k err =>
      have hraise := r.append_raise (q.charge k 0 1) (show Status.error ≠ .ok by decide) err
      rw [StrResult.append_charge] at hraise
      exact congrArg some hraise.symm
  | fault => rfl

/-! ## Chunks -/

/-- A call with room for the whole conversion. -/
def Converts (o : Options) (chunk : List In.Unit) (run : Run Out) : Prop :=
  ∃ n w, completeConversion o In Out chunk = some w ∧ w.length ≤ n ∧
    strToStr o In Out chunk n = some run

/-- Such a call that has read the chunk to its end. -/
def ReadsThrough (o : Options) (chunk : List In.Unit) (run : Run Out) : Prop :=
  Converts o chunk run ∧ run.result.status ≠ .error

section Chunks

variable (hmode : o.outMode = .normal ∨ o.outMode = .noneCheckBuffer)

include hmode

/-- The scan behind such a call. -/
theorem Converts.exists_scan {chunk : List In.Unit} {run : Run Out} (h : Converts o chunk run) :
    ∃ items e r, Scan o chunk items e ∧ e.close (tally items {}) = some r ∧
      run.result = r.credit (output Out items).length 0 ∧ run.written = output Out items := by
  rcases h with ⟨n, w, hw, hlen, hrun⟩
  rcases exists_scan_of_completeConversion hw with ⟨items, e, hscan, he, rfl⟩
  rcases exists_run_of_room hmode hscan he hlen with ⟨run', r, hr, hrun', hresult, -, hwritten⟩
  rw [hrun, Option.some.injEq] at hrun'
  subst hrun'
  exact ⟨items, e, r, hscan, hr, hresult, hwritten⟩

/-- A chunk read to its end leaves nothing over. -/
theorem ReadsThrough.exists_scan {chunk : List In.Unit} {run : Run Out}
    (h : ReadsThrough o chunk run) :
    ∃ items, Scan o chunk items .done ∧
      run.result = (tally items {}).credit (output Out items).length 0 ∧
      run.written = output Out items := by
  rcases h with ⟨hcall, hstatus⟩
  rcases hcall.exists_scan hmode with ⟨items, e, r, hscan, hr, hresult, hwritten⟩
  cases e with
  | done =>
      cases hr
      exact ⟨items, hscan, hresult, hwritten⟩
  | halt k err =>
      -- Whatever ends the reading sets the status.
      cases hr
      rw [hresult] at hstatus
      exact absurd rfl hstatus
  | fault => cases hr

/-- The size of the buffer plays no part as long as there is room. -/
theorem Converts.at_room {chunk : List In.Unit} {run : Run Out} (h : Converts o chunk run) {n : Nat}
    (hn : run.written.length ≤ n) : strToStr o In Out chunk n = some run := by
  rcases h.exists_scan hmode with ⟨items, e, r, hscan, hr, -, hwritten⟩
  rcases h with ⟨k, w, hw, hlen, hrun⟩
  rw [completeConversion_eq hscan (fun he => by rw [he] at hr; cases hr)] at hw
  cases hw
  rw [hwritten] at hn
  rw [strToStr_of_room hmode hscan hn, ← strToStr_of_room hmode hscan hlen, hrun]

/-- A chunk in front of a text. -/
theorem Converts.prepend {chunk text : List In.Unit} {first rest : Run Out}
    (hfirst : ReadsThrough o chunk first) (hrest : Converts o text rest) :
    ∃ run, Converts o (chunk ++ text) run ∧ run.result = first.result.append rest.result ∧
      run.written = first.written ++ rest.written := by
  rcases hfirst.exists_scan hmode with ⟨items, hscan, hresult, hwritten⟩
  rcases hrest.exists_scan hmode with ⟨more, e, r, hscan', hr, hresult', hwritten'⟩
  have hboth := hscan.append hscan'
  have hfault : e ≠ .fault := by
    rintro rfl
    cases hr
  rcases exists_run_of_room hmode hboth hfault (le_refl _) with ⟨run, q, hq, hrun, hres, -, hw⟩
  have hclose : q = (tally items {}).append r := by
    rw [tally_append, tally_eq_append, Ending.close_append, hr, Option.map_some] at hq
    exact (Option.some.inj hq).symm
  refine ⟨run, ⟨_, _, completeConversion_eq hboth hfault, le_refl _, hrun⟩, ?_, ?_⟩
  · rw [hres, hclose, hresult, hresult', StrResult.append_credit, output_append,
      List.length_append]
  · rw [hw, output_append, hwritten, hwritten']

/-- **Chunk by chunk.**  Chunks that are each read to their end and a last one, whatever comes of
it, are converted together as they are one by one: the same units, and results that add up. -/
theorem strToStr_chunks {chunks : List (List In.Unit)} {runs : List (Run Out)}
    (h : List.Forall₂ (ReadsThrough o) chunks runs) {last : List In.Unit} {lastRun : Run Out}
    (hlast : Converts o last lastRun) {n : Nat}
    (hn : ((runs.map Run.written).flatten ++ lastRun.written).length ≤ n) :
    ∃ run, strToStr o In Out (chunks.flatten ++ last) n = some run ∧
      run.result = (runs.map Run.result).foldr StrResult.append lastRun.result ∧
      run.written = (runs.map Run.written).flatten ++ lastRun.written := by
  have hall : ∃ run, Converts o (chunks.flatten ++ last) run ∧
      run.result = (runs.map Run.result).foldr StrResult.append lastRun.result ∧
      run.written = (runs.map Run.written).flatten ++ lastRun.written := by
    clear hn
    induction h with
    | nil => exact ⟨lastRun, hlast, rfl, rfl⟩
    | @cons chunk run chunks runs hfirst _ ih =>
        rcases ih with ⟨rest, hrest, hresult, hwritten⟩
        rcases Converts.prepend hmode hfirst hrest with ⟨both, hboth, hres, hw⟩
        rw [← List.append_assoc] at hboth
        refine ⟨both, hboth, ?_, ?_⟩
        · rw [hres, hresult]
          rfl
        · rw [hw, hwritten, List.map_cons, List.flatten_cons, List.append_assoc]
  rcases hall with ⟨run, hrun, hresult, hwritten⟩
  exact ⟨run, hrun.at_room hmode (hwritten ▸ hn), hresult, hwritten⟩

end Chunks

/-- "chéri" in two chunks, of which the second ends inside a character. -/
theorem strToStr_chunks_cut :
    ∃ run, strToStr defaultOpt (.ofForm .utf8) (.ofForm .utf16)
        ([[0x63#8, 0x68#8, 0xC3#8, 0xA9#8]].flatten ++ [0x72#8, 0x69#8, 0xC3#8]) 8 = some run ∧
      run.result.inputBlockCount = 8 ∧ run.result.status = .error ∧
      run.written = [0x63#16, 0x68#16, 0xE9#16, 0x72#16, 0x69#16] := by
  have hcall : ∀ (chunk : List (CharType.ofForm .utf8).Unit) (r : StrResult) w,
      (strToStr defaultOpt (.ofForm .utf8) (.ofForm .utf16) chunk 4).map
        (fun run => (run.result, run.written)) = some (r, w) →
      completeConversion defaultOpt (.ofForm .utf8) (.ofForm .utf16) chunk = some w →
      w.length ≤ 4 → ∃ run : Run (.ofForm .utf16),
        Converts defaultOpt chunk run ∧ run.result = r ∧ run.written = w := by
    intro chunk r w hrun hw hlen
    rcases Option.map_eq_some_iff.1 hrun with ⟨run, hrun, hpair⟩
    rcases Prod.mk.inj hpair with ⟨hr, hwritten⟩
    exact ⟨run, ⟨4, w, hw, hlen, hrun⟩, hr, hwritten⟩
  rcases hcall [0x63#8, 0x68#8, 0xC3#8, 0xA9#8] ⟨4, 3, 3, 0, 0, .ok, 0#8⟩
    [0x63#16, 0x68#16, 0xE9#16] (by decide) (by decide) (by decide) with
    ⟨first, hfirst, hr, hw⟩
  rcases hcall [0x72#8, 0x69#8, 0xC3#8] ⟨4, 2, 2, 1, 0, .error, 1#8⟩ [0x72#16, 0x69#16]
    (by decide) (by decide) (by decide) with ⟨rest, hrest, hr', hw'⟩
  have hthrough : ReadsThrough defaultOpt
      ([0x63#8, 0x68#8, 0xC3#8, 0xA9#8] : List (CharType.ofForm .utf8).Unit) first :=
    ⟨hfirst, by rw [hr]; decide⟩
  rcases strToStr_chunks (.inl rfl) (.cons hthrough .nil) hrest (n := 8)
    (by simp [hw, hw']) with ⟨run, hrun, hresult, hwritten⟩
  refine ⟨run, hrun, ?_, ?_, ?_⟩
  · rw [hresult, List.map_singleton, List.foldr_cons, List.foldr_nil, hr, hr']
    rfl
  · rw [hresult, List.map_singleton, List.foldr_cons, List.foldr_nil, hr, hr']
    rfl
  · rw [hwritten, List.map_singleton, hw, hw']
    rfl

/-! ## By way of another form -/

/-- The encoding of a text in one form is converted into its encoding in another one. -/
theorem exists_run_of_encodeAll {o : Options} (ho : o.charMode = .strict)
    (hmode : o.outMode ≠ .count) (hIn : In.Unextended) {cs : List Nat} (hcs : IsText cs)
    {input : List In.Unit} (hinput : numbers input = encodeAll In.form cs) {out : List Out.Unit}
    (hout : numbers out = encodeAll Out.form cs) {n : Nat} (hn : out.length ≤ n) :
    ∃ run : Run Out, strToStr o In Out input n = some run ∧ run.written = out ∧
      run.result.status = .ok := by
  have hscan : Scan o input (cs.map (charItem In.form)) .done :=
    (scan_unextended_iff hIn).2 (Scan.of_text ho hcs hinput)
  have hsame : output Out (cs.map (charItem In.form)) = out := by
    apply numbers_injective
    rw [numbers_output_charItems In.form Out hcs, hout]
  rcases exists_written_of_room hmode hscan (by simp) (hsame ▸ hn) with ⟨run, hrun, hwritten⟩
  refine ⟨run, hrun, hwritten.trans hsame, ?_⟩
  rcases exists_loop_of_strToStr hrun with ⟨s', hloop, rfl⟩
  refine strLoop_ok hloop hscan (clean_charItems In.form cs) (fun _ => ?_) rfl
  rwa [hsame, LoopState.start, Nat.zero_add]

/-- **By way of another form.**  Strict conversion into any form, under any error mode, and from
there strictly into a third one writes what the direct conversion writes, and the second call meets
no error.  Types whose units are extended are left out on the reading side. -/
theorem strToStr_pivot (o o' : Options) (In Mid Out : CharType) (input : List In.Unit)
    (n k : Nat) (ho : o.charMode = .strict) (ho' : o'.charMode = .strict)
    (hmode : o.outMode ≠ .count) (hmode' : o'.outMode ≠ .count) (hIn : In.Unextended)
    (hMid : Mid.Unextended)
    (hroom : ∃ w, completeConversion o In Mid input = some w ∧ w.length ≤ n)
    (hroom' : ∃ w, completeConversion o In Out input = some w ∧ w.length ≤ k) :
    ∃ (first : Run Mid) (second direct : Run Out), strToStr o In Mid input n = some first ∧
      strToStr o' Mid Out first.written k = some second ∧
      strToStr o In Out input k = some direct ∧ second.written = direct.written ∧
      second.result.status = .ok := by
  rcases hroom with ⟨w, hw, hlen⟩
  rcases exists_scan_of_completeConversion hw with ⟨items, e, hscan, he, rfl⟩
  rcases hroom' with ⟨w', hw', hlen'⟩
  rw [completeConversion_eq hscan he] at hw'
  cases hw'
  rcases exists_written_of_room hmode hscan he hlen with ⟨first, hfirst, hwritten⟩
  rcases exists_written_of_room hmode hscan he hlen' with ⟨direct, hdirect, hsame⟩
  -- What is in between is the encoding of characters, so reading it meets these characters.
  have hcodes := ((scan_unextended_iff hIn).1 hscan).strict_codes ho
  have htext : IsText (codes items) := forall_codes hcodes
  have hnum : ∀ T : CharType, numbers (output T items) = encodeAll T.form (codes items) :=
    fun T => numbers_output_of_codes T fun i hi c hc => (hcodes i hi c hc).1
  rcases exists_run_of_encodeAll ho' hmode' hMid htext (hwritten ▸ hnum Mid) (hnum Out) hlen' with
    ⟨second, hsecond, hwritten', hok⟩
  exact ⟨first, second, direct, hfirst, hsecond, hdirect, hwritten'.trans hsame.symm, hok⟩

/-- A stray byte between two letters, through UTF-16 and back. -/
theorem strToStr_pivot_stray :
    ∃ (first : Run (.ofForm .utf16)) (second : Run (.ofForm .utf8)),
      strToStr { defaultOpt with errorMode := .replace } (.ofForm .utf8) (.ofForm .utf16)
        [0x6F#8, 0xFF#8, 0x6B#8] 8 = some first ∧
      strToStr defaultOpt (.ofForm .utf16) (.ofForm .utf8) first.written 8 = some second ∧
      second.written = [0x6F#8, 0xEF#8, 0xBF#8, 0xBD#8, 0x6B#8] := by
  have hout : (strToStr { defaultOpt with errorMode := .replace } (.ofForm .utf8) (.ofForm .utf8)
      [0x6F#8, 0xFF#8, 0x6B#8] 8).map Run.written =
        some [0x6F#8, 0xEF#8, 0xBF#8, 0xBD#8, 0x6B#8] := by decide
  rcases strToStr_pivot { defaultOpt with errorMode := .replace } defaultOpt (.ofForm .utf8)
    (.ofForm .utf16) (.ofForm .utf8) [0x6F#8, 0xFF#8, 0x6B#8] 8 8 rfl rfl
    (by decide) (by decide) (fun h => by cases h) (fun _ => rfl)
    ⟨[0x6F#16, 0xFFFD#16, 0x6B#16], by decide, by decide⟩
    ⟨[0x6F#8, 0xEF#8, 0xBF#8, 0xBD#8, 0x6B#8], by decide, by decide⟩ with
    ⟨first, second, direct, hfirst, hsecond, hdirect, hsame, -⟩
  refine ⟨first, second, hfirst, hsecond, ?_⟩
  rw [hdirect, Option.map_some, Option.some.injEq] at hout
  rw [hsame, hout]

/-! ## There and back -/

/-- Items without errors that take in the whole input are those of a text, and the input is its
encoding. -/
theorem Scan.strict_clean {o : Options} (ho : o.charMode = .strict) {f : Form}
    {s : List (CharType.ofForm f).Unit} {items : List Item} {e : Ending} (h : Scan o s items e)
    (he : e = .done) (hclean : Clean items) :
    ∃ cs, IsText cs ∧ items = cs.map (charItem f) ∧ numbers s = encodeAll f cs := by
  induction h with
  | nil => exact ⟨[], by simp, rfl, rfl⟩
  | @item u t r i items e hr hv _ ih =>
      rcases List.forall_mem_cons.1 hclean with ⟨hi, hrest⟩
      rcases r with ⟨err, cr⟩
      have hnone : err = .none := (verdict_item_error hv).symm.trans hi
      subst hnone
      cases hv
      rcases (charToUtf32_strict_iff ho).1 hr with ⟨c, hc, hpre, rfl⟩
      rcases ih he hrest with ⟨cs, hcs, hitems, hnum⟩
      refine ⟨c :: cs, isText_cons.2 ⟨hc, hcs⟩, ?_, ?_⟩
      · rw [List.map_cons, hitems]
        rfl
      · -- The sequence of the character, and behind it those of the others.
        rw [encodeAll_cons, ← hnum, numbers_drop]
        exact (List.prefix_iff_eq_append.1 hpre).symm
  | halt hr hv => cases he
  | fault hr => cases he

/-- **There and back.**  What strict conversion turns into another form with status `ok`, under
whatever error mode, strict conversion turns back into the very input, again with status `ok`.
Types whose units are extended are left out. -/
theorem strToStr_round_trip (o o' : Options) (In Mid : CharType) (input : List In.Unit)
    (n k : Nat) (first : Run Mid) (ho : o.charMode = .strict) (ho' : o'.charMode = .strict)
    (hmode : o.outMode ≠ .count) (hmode' : o'.outMode ≠ .count) (hIn : In.Unextended)
    (hMid : Mid.Unextended) (hrun : strToStr o In Mid input n = some first)
    (hok : first.result.status = .ok)
    (hroom : ∀ w, completeConversion o In Mid input = some w → w.length ≤ n)
    (hk : input.length ≤ k) :
    ∃ back : Run In, strToStr o' Mid In first.written k = some back ∧ back.written = input ∧
      back.result.status = .ok := by
  rcases Scan.exists o input with ⟨items, e, hscan⟩
  rcases exists_loop_of_strToStr hrun with ⟨s', hloop, hs'⟩
  rw [← hs'] at hok
  rcases strLoop_clean hloop hscan hok with ⟨rfl, hclean, -⟩
  have hfit := hroom _ (completeConversion_eq hscan (by simp))
  rcases exists_written_of_room hmode hscan (by simp) hfit with ⟨run, hrun', hwritten⟩
  rw [hrun, Option.some.injEq] at hrun'
  subst hrun'
  rcases ((scan_unextended_iff hIn).1 hscan).strict_clean ho rfl hclean with
    ⟨cs, hcs, rfl, hinput⟩
  have hback : numbers (T := In) input = encodeAll In.form cs := hinput
  refine exists_run_of_encodeAll ho' hmode' hMid hcs ?_ hback hk
  rw [hwritten]
  exact numbers_output_charItems In.form Mid hcs

/-- "né" under `skip` into UTF-16 and back. -/
theorem strToStr_round_trip_e_acute :
    ∃ (first : Run (.ofForm .utf16)) (back : Run (.ofForm .utf8)),
      strToStr { defaultOpt with errorMode := .skip } (.ofForm .utf8) (.ofForm .utf16)
        [0x6E#8, 0xC3#8, 0xA9#8] 2 = some first ∧ first.written = [0x6E#16, 0xE9#16] ∧
      strToStr defaultOpt (.ofForm .utf16) (.ofForm .utf8) first.written 3 = some back ∧
      back.written = [0x6E#8, 0xC3#8, 0xA9#8] := by
  have hfirst : (strToStr { defaultOpt with errorMode := .skip } (.ofForm .utf8)
      (.ofForm .utf16) [0x6E#8, 0xC3#8, 0xA9#8] 2).map (fun run =>
        (run.result.status, run.written)) = some (.ok, [0x6E#16, 0xE9#16]) := by decide
  have hcomplete : completeConversion { defaultOpt with errorMode := .skip } (.ofForm .utf8)
      (.ofForm .utf16) [0x6E#8, 0xC3#8, 0xA9#8] = some [0x6E#16, 0xE9#16] := by decide
  rcases Option.map_eq_some_iff.1 hfirst with ⟨first, hrun, hpair⟩
  rcases Prod.mk.inj hpair with ⟨hok, hwritten⟩
  rcases strToStr_round_trip { defaultOpt with errorMode := .skip } defaultOpt (.ofForm .utf8)
    (.ofForm .utf16) [0x6E#8, 0xC3#8, 0xA9#8] 2 3 first rfl rfl (by decide) (by decide)
    (fun h => by cases h) (fun _ => rfl) hrun hok
    (fun w hw => by rw [hcomplete] at hw; cases hw; decide) (by decide) with
    ⟨back, hback, hsame, -⟩
  exact ⟨first, back, hrun, hwritten, hback, hsame⟩

end Convert
end Chenc
