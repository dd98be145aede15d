import Chenc.Convert.Progress

/-!
# Relaxed — modes that check less

* `charToUtf32_relaxed` : what strict mode delivers every other mode delivers, with or without
  bound checks;
* `strLoop_clean` : a call that returns with status `ok` has met no error;
* `strToStr_relaxed` : on such input the modes `compatible` and `none` and the preset `fast_opt`
  make the same call.
-/

namespace Chenc
namespace Convert

open WhileLoop (Flow)

variable {o : Options} {In Out : CharType}

/-! ## Checks -/

section Checks

variable (ho : o.charMode = .strict) (o' : Options) {c : U32}

include ho

theorem twoByteError_relaxed (h : twoByteError o c = .none) : twoByteError o' c = .none := by
  simp only [twoByteError, ho, if_true] at h ⊢
  split_ifs at h ⊢ <;> rfl

theorem threeByteError_relaxed (h : threeByteError o c = .none) :
    threeByteError o' c = .none := by
  simp only [threeByteError, ho, if_true] at h ⊢
  split_ifs at h ⊢ <;> rfl

/-- Compatible mode keeps one check of strict mode. -/
theorem fourByteError_relaxed (h : fourByteError o c = .none) : fourByteError o' c = .none := by
  simp only [fourByteError, ho, if_true] at h ⊢
  split_ifs at h ⊢ <;> rfl

theorem bmpError_relaxed (h : bmpError o c = .none) : bmpError o' c = .none := by
  simp only [bmpError, ho, if_true] at h ⊢
  split_ifs at h ⊢ <;> rfl

theorem pairError_relaxed (h : pairError o c = .none) : pairError o' c = .none := by
  simp only [pairError, ho, if_true] at h ⊢
  split_ifs at h ⊢ <;> rfl

theorem utf32Error_relaxed (h : utf32Error o c = .none) : utf32Error o' c = .none := by
  simp only [utf32Error, ho, if_true] at h ⊢
  split_ifs at h ⊢ <;> rfl

/-- A check of the source that strict mode passes is passed. -/
theorem not_checksSource_and {p : Prop} (h : ¬ (o.checksSource ∧ p)) :
    ¬ (o'.checksSource ∧ p) :=
  fun hp => h ⟨.inl ho, hp.2⟩

end Checks

/-! ## The decoder -/

section Decoder

variable (ho : o.charMode = .strict) (o' : Options) {s : List In.Unit} {cr : CharResult}

include ho

theorem utf8TwoBytes_relaxed (h : utf8TwoBytes o s {} = some (.none, cr)) :
    utf8TwoBytes o' s {} = some (.none, cr) := by
  rcases utf8TwoBytes_cases h with ⟨-, hp⟩ | ⟨u0, u1, t, rfl⟩
  · simp at hp
  · simp only [utf8TwoBytes_cons] at h ⊢
    split_ifs at h with hsrc
    · simp at h
    · rcases deliver_eq_none (Option.some.inj h) with ⟨he, rfl⟩
      rw [if_neg (not_checksSource_and ho o' hsrc), twoByteError_relaxed ho o' he,
        deliver_of_none]

theorem utf8ThreeBytes_relaxed (h : utf8ThreeBytes o s {} = some (.none, cr)) :
    utf8ThreeBytes o' s {} = some (.none, cr) := by
  rcases utf8ThreeBytes_cases h with ⟨-, hp⟩ | ⟨u0, u1, u2, t, rfl⟩
  · simp at hp
  · simp only [utf8ThreeBytes_cons] at h ⊢
    split_ifs at h with hsrc
    · simp at h
    · rcases deliver_eq_none (Option.some.inj h) with ⟨he, rfl⟩
      rw [if_neg (not_checksSource_and ho o' hsrc), threeByteError_relaxed ho o' he,
        deliver_of_none]

theorem utf8FourBytes_relaxed (h : utf8FourBytes o s {} = some (.none, cr)) :
    utf8FourBytes o' s {} = some (.none, cr) := by
  rcases utf8FourBytes_cases h with ⟨-, hp⟩ | ⟨u0, u1, u2, u3, t, rfl⟩
  · simp at hp
  · simp only [utf8FourBytes_cons] at h ⊢
    split_ifs at h with hsrc
    · simp at h
    · rcases deliver_eq_none (Option.some.inj h) with ⟨he, rfl⟩
      rw [if_neg (not_checksSource_and ho o' hsrc), fourByteError_relaxed ho o' he,
        deliver_of_none]

theorem utf8ToUtf32_relaxed (h : utf8ToUtf32 o s {} = some (.none, cr)) :
    utf8ToUtf32 o' s {} = some (.none, cr) := by
  rcases s with _ | ⟨u, t⟩
  · simp [utf8ToUtf32] at h
  · simp only [utf8ToUtf32, List.getElem?_cons_zero, Option.bind_eq_bind,
      Option.bind_some] at h ⊢
    -- The branch does not depend on the options.
    split_ifs at h ⊢
    · exact h
    · exact utf8TwoBytes_relaxed ho o' h
    · exact utf8ThreeBytes_relaxed ho o' h
    · exact utf8FourBytes_relaxed ho o' h
    · exact h

theorem utf16ToUtf32_relaxed (h : utf16ToUtf32 o s {} = some (.none, cr)) :
    utf16ToUtf32 o' s {} = some (.none, cr) := by
  rcases s with _ | ⟨u, t⟩
  · simp [utf16ToUtf32] at h
  · simp only [utf16ToUtf32, List.getElem?_cons_zero, Option.bind_eq_bind,
      Option.bind_some] at h ⊢
    split_ifs at h ⊢ with h1 h2 h3
    · rcases deliver_eq_none (Option.some.inj h) with ⟨he, rfl⟩
      rw [bmpError_relaxed ho o' he, deliver_of_none]
    · simp at h
    · rcases t with _ | ⟨u1, t⟩
      · simp at h3
      · simp only [List.getElem?_cons_zero, List.getElem?_cons_succ, Option.bind_some] at h ⊢
        split_ifs at h with hsrc
        · simp at h
        · rcases deliver_eq_none (Option.some.inj h) with ⟨he, rfl⟩
          rw [if_neg (not_checksSource_and ho o' hsrc), pairError_relaxed ho o' he,
            deliver_of_none]
    · exact h

theorem utf32ToUtf32_relaxed (h : utf32ToUtf32 o s {} = some (.none, cr)) :
    utf32ToUtf32 o' s {} = some (.none, cr) := by
  rcases s with _ | ⟨u, t⟩
  · simp [utf32ToUtf32] at h
  · simp only [utf32ToUtf32, List.getElem?_cons_zero, Option.bind_eq_bind,
      Option.bind_some] at h ⊢
    rcases deliver_eq_none (Option.some.inj h) with ⟨he, rfl⟩
    rw [utf32Error_relaxed ho o' he, deliver_of_none]

/-- **Relaxation.**  A character that strict mode delivers is delivered under all options. -/
theorem charToUtf32_relaxed {u : In.Unit} {t : List In.Unit}
    (h : charToUtf32 o In (u :: t) {} = some (.none, cr)) :
    charToUtf32 o' In (u :: t) {} = some (.none, cr) := by
  have hlen : ¬ o.truncates 0 (u :: t).length := by simp [Options.truncates]
  have hlen' : ¬ o'.truncates 0 (u :: t).length := by simp [Options.truncates]
  rw [charToUtf32, if_neg hlen] at h
  rw [charToUtf32, if_neg hlen']
  cases hf : In.form with
  | utf8 =>
      simp only [hf] at h
      exact utf8ToUtf32_relaxed ho o' h
  | utf16 =>
      simp only [hf] at h
      exact utf16ToUtf32_relaxed ho o' h
  | utf32 =>
      simp only [hf] at h
      exact utf32ToUtf32_relaxed ho o' h

end Decoder

/-! ## Calls without errors -/

/-- No error is met. -/
def Clean (items : List Item) : Prop :=
  ∀ i ∈ items, i.error = .none

theorem tally_clean {items : List Item} (h : Clean items) (r : StrResult) :
    tally items r = r.charge (unitsRead items) items.length 0 := by
  induction items generalizing r with
  | nil => rfl
  | cons i items ih =>
      rcases List.forall_mem_cons.1 h with ⟨hi, hitems⟩
      rw [tally_cons, ih hitems, Item.tally, if_pos hi, StrResult.charge_charge, unitsRead_cons,
        List.length_cons, Nat.add_comm 1]

/-- A character that ends a call leaves the status `error`. -/
theorem consume_ret_status {outEnd : Nat} {i : Item} {s t : LoopState In Out}
    (h : consume o outEnd i s = .ret t) : t.result.status = .error := by
  unfold consume emit at h
  split at h
  · cases h
  · split_ifs at h
    cases h
    rfl

/-- An iteration that leaves the status `ok` has met no error and a full buffer neither. -/
theorem consume_next_clean {outEnd : Nat} {i : Item} {s t : LoopState In Out}
    (h : consume o outEnd i s = .next t) (hok : t.result.status = .ok) :
    i.error = .none ∧ ∃ out need, t.result = (s.result.charge i.units 1 0).credit out need := by
  have haccept : (i.accept s).result.status = .ok →
      i.error = .none ∧ (i.accept s).result = s.result.charge i.units 1 0 := by
    intro hstatus
    change (i.tally s.result).status = .ok at hstatus
    change _ ∧ i.tally s.result = _
    unfold Item.tally at hstatus ⊢
    split_ifs at hstatus ⊢ with hnone
    · exact ⟨hnone, rfl⟩
    · cases hstatus
  unfold consume emit at h
  split at h
  · cases h
    rcases haccept hok with ⟨hnone, hresult⟩
    exact ⟨hnone, 0, 0, hresult⟩
  · split_ifs at h
    · cases h
      cases hok
    · cases h
      rcases haccept hok with ⟨hnone, hresult⟩
      exact ⟨hnone, _, _, congrArg (fun r => StrResult.credit r _ _) hresult⟩

/-- **Clean calls.**  A loop that ends with status `ok` has read its input to the end and met no
error, and its counters say so. -/
theorem strLoop_clean {outEnd fuel : Nat} {items : List Item} {e : Ending}
    {s s' : LoopState In Out} (hrun : strLoop o outEnd fuel s = some s')
    (hscan : Scan o s.inStr items e) (hok : s'.result.status = .ok) :
    e = .done ∧ Clean items ∧ ∃ out need,
      s'.result = (s.result.charge (unitsRead items) items.length 0).credit out need := by
  refine strLoop_rule (M := fun items e s s' => s'.result.status = .ok →
    e = .done ∧ Clean items ∧ ∃ out need,
      s'.result = (s.result.charge (unitsRead items) items.length 0).credit out need)
    ?_ ?_ ?_ ?_ ?_ hrun hscan hok
  · intro s _ _
    exact ⟨rfl, by simp [Clean], 0, 0, rfl⟩
  · intro k err s _ _ hok
    cases hok
  · intro i items e s t _ _ hret hok
    rw [consume_ret_status hret] at hok
    cases hok
  · -- The status never comes back to `ok`, so it is `ok` behind the first item.
    intro i items e s t s' _ _ _ hnext ih hok
    rcases ih hok with ⟨hdone, hclean, out, need, hresult⟩
    have hstatus : t.result.status = .ok := by
      rw [hresult] at hok
      exact hok
    rcases consume_next_clean hnext hstatus with ⟨hi, out', need', ht⟩
    refine ⟨hdone, List.forall_mem_cons.2 ⟨hi, hclean⟩, out' + out, need' + need, ?_⟩
    rw [hresult, ht, StrResult.charge_credit, StrResult.charge_charge, credit_credit,
      unitsRead_cons, List.length_cons, Nat.add_comm 1]
  · intro rest e s s' _ hpath ih hok
    rcases ih hok with ⟨hdone, hclean, out, need, hresult⟩
    refine ⟨hdone, ?_, In.blockUnits + out, need, ?_⟩
    · intro i hi
      rcases List.mem_append.1 hi with hi | hi
      · rcases List.mem_map.1 hi with ⟨u, -, rfl⟩
        rfl
      · exact hclean i hi
    · have hlen := fastPath_block_length hpath
      have hread : unitsRead (s.block.map asciiItem ++ rest) =
          In.blockUnits + unitsRead rest := by
        rw [unitsRead_append, unitsRead_ascii, hlen]
      change s'.result = _ at hresult ⊢
      rw [hresult, hread, List.length_append, List.length_map, hlen]
      simp only [fastStep, StrResult.charge_credit, StrResult.charge_charge, credit_credit,
        Nat.zero_add]

/-! ## The same call under other options -/

/-- Text that strict mode reads without an error is read so under all options. -/
theorem Scan.relaxed (ho : o.charMode = .strict) (o' : Options) {s : List In.Unit}
    {items : List Item} {e : Ending} (h : Scan o s items e) (he : e = .done)
    (hclean : Clean items) : Scan o' s items e := by
  induction h with
  | nil => exact .nil
  | @item u t r i items e hr hv _ ih =>
      rcases List.forall_mem_cons.1 hclean with ⟨hi, hitems⟩
      rcases r with ⟨err, cr⟩
      have hnone : err = .none := (verdict_item_error hv).symm.trans hi
      subst hnone
      cases hv
      exact .item (charToUtf32_relaxed ho o' hr) rfl (ih he hitems)
  | halt _ _ => cases he
  | fault _ => cases he

/-- Of the options the output side sees the output mode only. -/
theorem consume_congr {o' : Options} (hout : o.outMode = o'.outMode) (outEnd : Nat) (i : Item)
    (s : LoopState In Out) : consume o outEnd i s = consume o' outEnd i s := by
  cases o
  cases o'
  cases hout
  rfl

/-- Options that read the input alike, and send the output alike, run the loop alike. -/
theorem strLoop_congr {o' : Options} (hout : o.outMode = o'.outMode)
    (hperf : o.perfMode = o'.perfMode) {outEnd fuel : Nat} {items : List Item} {e : Ending}
    {s : LoopState In Out} (h : Scan o s.inStr items e) (h' : Scan o' s.inStr items e) :
    strLoop o outEnd fuel s = strLoop o' outEnd fuel s := by
  induction fuel generalizing items s with
  | zero => rfl
  | succ fuel ih =>
      by_cases hcond : s.hasInput
      · by_cases hpath : fastPath o outEnd s
        · have hpath' : fastPath o' outEnd s := ⟨hperf ▸ hpath.1, hpath.2⟩
          rcases h.of_fastPath hpath with ⟨rest, rfl, hrest⟩
          rcases h'.of_fastPath hpath' with ⟨rest', heq, hrest'⟩
          rw [← List.append_cancel_left heq] at hrest'
          rw [strLoop, strLoop, WhileLoop.run_next hcond (if_pos hpath),
            WhileLoop.run_next hcond (if_pos hpath')]
          exact ih hrest hrest'
        · have hpath' : ¬ fastPath o' outEnd s := fun hp => hpath ⟨hperf ▸ hp.1, hp.2⟩
          rcases h.slow_cases hcond hpath with
            ⟨i, rest, rfl, hbody, htail, -⟩ | ⟨k, err, rfl, rfl, hbody⟩ | ⟨rfl, rfl, hbody⟩
          · rcases h'.slow_cases hcond hpath' with
              ⟨j, rest', heq, hbody', htail', -⟩ | ⟨_, _, hnil, -⟩ | ⟨hnil, -⟩
            · cases heq
              rw [← consume_congr hout] at hbody'
              cases hc : consume o outEnd i s with
              | next t =>
                  have hin := consume_next_inStr hc
                  rw [hc] at hbody hbody'
                  rw [strLoop, strLoop, WhileLoop.run_next hcond hbody,
                    WhileLoop.run_next hcond hbody']
                  exact ih (hin ▸ htail) (hin ▸ htail')
              | ret t =>
                  rw [hc] at hbody hbody'
                  rw [strLoop, strLoop, WhileLoop.run_ret hcond hbody,
                    WhileLoop.run_ret hcond hbody']
            · cases hnil
            · cases hnil
          · rcases h'.slow_cases hcond hpath' with
              ⟨_, _, hcons, -⟩ | ⟨k', err', -, heq, hbody'⟩ | ⟨-, heq, -⟩
            · cases hcons
            · cases heq
              rw [strLoop, strLoop, WhileLoop.run_ret hcond hbody,
                WhileLoop.run_ret hcond hbody']
            · cases heq
          · rcases h'.slow_cases hcond hpath' with
              ⟨_, _, hcons, -⟩ | ⟨_, _, -, heq, -⟩ | ⟨-, -, hbody'⟩
            · cases hcons
            · cases heq
            · rw [strLoop, strLoop, WhileLoop.run_fail hcond hbody,
                WhileLoop.run_fail hcond hbody']
      · rw [strLoop, strLoop, WhileLoop.run_exit hcond, WhileLoop.run_exit hcond]

/-- **Relaxation.**  On input that strict mode converts with status `ok` the modes `compatible` and
`none` make the same call.  So does `fast_opt`, into a buffer with room for the conversion, apart
from the total that it does not keep. -/
theorem strToStr_relaxed (o : Options) (ho : o.charMode = .strict) (In Out : CharType)
    (input : List In.Unit) (outputLen : Nat) (run : Run Out)
    (hrun : strToStr o In Out input outputLen = some run) (hok : run.result.status = .ok) :
    run.result.good ∧
      (∀ mode, strToStr { o with charMode := mode } In Out input outputLen = some run) ∧
      (o.outMode ≠ .count →
        (∃ w, completeConversion o In Out input = some w ∧ w.length ≤ outputLen) →
        ∃ fast, strToStr fastOpt In Out input outputLen = some fast ∧
          fast.mem = run.mem ∧ fast.mem.Within outputLen ∧ fast.written = run.written ∧
          fast.result = { run.result with needOutputBlockCount := 0 }) := by
  rcases Scan.exists o input with ⟨items, e, hscan⟩
  rcases exists_loop_of_strToStr hrun with ⟨s', hloop, rfl⟩
  rcases strLoop_clean hloop hscan hok with ⟨rfl, hclean, out, need, hresult⟩
  have hrelaxed : ∀ o', Scan o' input items .done := fun o' =>
    hscan.relaxed ho o' rfl hclean
  refine ⟨⟨hok, by rw [LoopState.toRun, hresult]; rfl⟩, fun mode => ?_, ?_⟩
  · have hsame : strLoop o outputLen input.length (LoopState.start Out input) =
        strLoop { o with charMode := mode } outputLen input.length (LoopState.start Out input) :=
      strLoop_congr (by rfl) (by rfl) hscan (hrelaxed _)
    rw [strToStr, ← hsame, hloop]
    rfl
  · rintro hmode ⟨w, hw, hlen⟩
    cases (completeConversion_eq hscan (by simp)).symm.trans hw
    -- Both calls write the output of the scan.
    have hholds := strLoop_holds hmode hloop hscan (holds_start Out input) (by simpa using hlen)
    rw [List.nil_append] at hholds
    have hfast : strToStr fastOpt In Out input outputLen =
        (Ending.done.close (tally items {})).map fun r =>
          { result := r.credit (output Out items).length 0
            mem := Region.filled (output Out items) } :=
      strToStr_of_fits (not_fastPath_of_normal rfl outputLen) (hrelaxed fastOpt)
        (by simp [Options.checksOutput, fastOpt])
    rw [tally_clean hclean, Ending.close, Option.map_some] at hfast
    have hcount : out = (output Out items).length := by
      rw [← hholds.count, hresult]
      exact (Nat.zero_add out).symm
    refine ⟨_, hfast, hholds.mem.symm, ?_, ?_, ?_⟩
    · intro i hi
      exact List.getElem?_eq_none (hlen.trans hi)
    · rw [hholds.written]
      exact Run.written_of_filled (Nat.zero_add _)
    · rw [LoopState.toRun, hresult, hcount]
      rfl

/-- "cé" in UTF-8 to UTF-16. -/
theorem strToStr_relaxed_mixed :
    ∃ run : Run (CharType.ofForm .utf16),
      strToStr defaultOpt (.ofForm .utf8) (.ofForm .utf16) mixedText 2 = some run ∧
      (∀ mode, strToStr { defaultOpt with charMode := mode } (.ofForm .utf8) (.ofForm .utf16)
        mixedText 2 = some run) ∧
      ∃ fast, strToStr fastOpt (.ofForm .utf8) (.ofForm .utf16) mixedText 2 = some fast ∧
        fast.written = run.written := by
  have hrun : (strToStr defaultOpt (.ofForm .utf8) (.ofForm .utf16) mixedText 2).map
      (fun run => run.result.status) = some .ok := by
    decide
  have hroom : completeConversion defaultOpt (.ofForm .utf8) (.ofForm .utf16) mixedText =
      some [0x63#16, 0xE9#16] := by
    decide
  rcases Option.map_eq_some_iff.1 hrun with ⟨run, hrun, hok⟩
  rcases strToStr_relaxed defaultOpt rfl (.ofForm .utf8) (.ofForm .utf16) mixedText 2 run hrun hok
    with ⟨-, hmodes, hfast⟩
  rcases hfast (by decide) ⟨_, hroom, by decide⟩ with ⟨fast, hfast, -, -, hwritten, -⟩
  exact ⟨run, hrun, hmodes, fast, hfast, hwritten⟩

end Convert
end Chenc
