import Chenc.Convert.FastPath

/-!
# Sizing — what `need_output_block_count_` counts

* `strToStr_two_pass` : a counting pass over an empty buffer sizes the buffer of a second pass;
* `strToStr_need_iff` : the total of the modes `full` and `count` is that of the complete
  conversion exactly when no iteration takes the eight-byte path, which does not count it.
-/

namespace Chenc
namespace Convert

open WhileLoop (Flow Head)

variable {In Out : CharType}

/-! ## Errors of a scan -/

/-- `out_overflow` is not among the errors. -/
def StrResult.NoOverflow (r : StrResult) : Prop :=
  r.error &&& ErrorT.outOverflow.flag = 0#8

theorem raise_noOverflow {r : StrResult} (h : r.NoOverflow) (status : Status) {err : ErrorT}
    (herr : err ≠ .outOverflow) : (r.raise status err).NoOverflow := by
  have hflag : err.flag &&& ErrorT.outOverflow.flag = 0#8 := by
    cases err <;> first | exact absurd rfl herr | decide
  change (r.error ||| err.flag) &&& ErrorT.outOverflow.flag = 0#8
  rw [BitVec.and_or_distrib_right, hflag, show r.error &&& _ = 0#8 from h]
  rfl

theorem tally_noOverflow {items : List Item} {r : StrResult} (h : r.NoOverflow)
    (hitems : ∀ i ∈ items, i.error ≠ .outOverflow) : (tally items r).NoOverflow := by
  induction items generalizing r with
  | nil => exact h
  | cons i items ih =>
      rcases List.forall_mem_cons.1 hitems with ⟨hi, hitems⟩
      rw [tally_cons]
      refine ih ?_ hitems
      unfold Item.tally
      split_ifs
      · exact h
      · exact raise_noOverflow (r := r.charge i.units 0 1) h _ hi

/-- The result of a scan does not report a full buffer. -/
theorem Scan.close_noOverflow {o : Options} {s : List In.Unit} {items : List Item} {e : Ending}
    (hscan : Scan o s items e) {r : StrResult} (hr : e.close (tally items {}) = some r) :
    r.NoOverflow := by
  rcases hscan.notOverflow with ⟨hitems, hend⟩
  have hstart : (tally items {}).NoOverflow := tally_noOverflow rfl hitems
  cases e with
  | done =>
      cases hr
      exact hstart
  | halt k err =>
      cases hr
      exact raise_noOverflow (r := (tally items {}).charge k 0 1) hstart _ (hend k err rfl)
  | fault => cases hr

/-! ## Two passes -/

theorem not_fastPath_of_empty (o : Options) (t : LoopState In Out) : ¬ fastPath o 0 t := by
  rintro ⟨-, -, hout, -⟩
  have hpos := Out.blockUnits_pos
  omega

/-- **Two-pass sizing.**  A counting pass over an empty buffer, then a pass into a buffer of
exactly the size it returned. -/
theorem strToStr_two_pass (o : Options) (In Out : CharType) (input : List In.Unit)
    (sized : Run Out)
    (hsized : strToStr { o with outMode := .count } In Out input 0 = some sized) :
    ∃ run w,
      strToStr { o with outMode := .normal } In Out input sized.result.needOutputBlockCount =
        some run ∧
      run.result.NoOverflow ∧
      run.mem = Region.filled w ∧ w.length = sized.result.needOutputBlockCount ∧
      run.result.outputBlockCount = sized.result.needOutputBlockCount ∧
      run.result.inputBlockCount = sized.result.inputBlockCount ∧
      run.result.convNormalCharCount = sized.result.convNormalCharCount ∧
      run.result.convErrorCharCount = sized.result.convErrorCharCount ∧
      run.result.status = sized.result.status ∧ run.result.error = sized.result.error := by
  rcases Scan.exists o input with ⟨items, e, hscan⟩
  have hcount : Scan { o with outMode := .count } input items e := hscan.congr _ rfl rfl rfl rfl
  have hwrite : Scan { o with outMode := .normal } input items e := hscan.congr _ rfl rfl rfl rfl
  -- The counting pass checks no bounds and finds no room for a block, so it fits.
  rw [strToStr_of_fits (not_fastPath_of_empty _) hcount
    (by simp [Options.checksOutput])] at hsized
  rcases hr : e.close (tally items {}) with _ | r
  · rw [hr] at hsized
    cases hsized
  · rw [hr, Option.map_some, Option.some.injEq] at hsized
    subst hsized
    rcases Ending.close_tally_outputCounts hr with ⟨hout, hneed⟩
    have htotal : (r.credit (Options.stored { o with outMode := .count } (output Out items)).length
        (Options.needed { o with outMode := .count } (output Out items).length)
        ).needOutputBlockCount = (output Out items).length := by
      simp [StrResult.credit, hneed, Options.needed]
    have hrun := strToStr_of_room (o := { o with outMode := .normal }) (.inl rfl) hwrite
      (le_refl (output Out items).length)
    rw [hr, Option.map_some] at hrun
    have hno := hscan.close_noOverflow hr
    simp only [htotal]
    refine ⟨_, output Out items, hrun, hno, rfl, rfl, ?_,
      rfl, rfl, rfl, rfl, rfl⟩
    simp [StrResult.credit, hout]

/-- "héllo" in UTF-8, sized and converted to UTF-16. -/
theorem strToStr_two_pass_hello :
    ∃ sized run w,
      strToStr { defaultOpt with outMode := .count } (.ofForm .utf8) (.ofForm .utf16)
        [0x68#8, 0xC3#8, 0xA9#8, 0x6C#8, 0x6C#8, 0x6F#8] 0 = some sized ∧
      strToStr { defaultOpt with outMode := .normal } (.ofForm .utf8) (.ofForm .utf16)
        [0x68#8, 0xC3#8, 0xA9#8, 0x6C#8, 0x6C#8, 0x6F#8] sized.result.needOutputBlockCount =
          some run ∧
      run.result.NoOverflow ∧ run.mem = Region.filled w ∧
      w.length = sized.result.needOutputBlockCount := by
  have hsome : (strToStr { defaultOpt with outMode := .count } (.ofForm .utf8) (.ofForm .utf16)
      [0x68#8, 0xC3#8, 0xA9#8, 0x6C#8, 0x6C#8, 0x6F#8] 0).isSome := by decide
  rcases Option.isSome_iff_exists.1 hsome with ⟨sized, hsized⟩
  rcases strToStr_two_pass defaultOpt _ _ _ sized hsized with ⟨run, w, hrun, hno, hmem, hlen, -⟩
  exact ⟨sized, run, w, hsized, hrun, hno, hmem, hlen⟩

/-! ## The total of the modes `full` and `count` -/

section Need

variable {o : Options} {outEnd : Nat} (hmode : o.outMode = .full ∨ o.outMode = .count)

include hmode

/-- A character always goes on the total, whether it fits or not. -/
theorem emit_need (us : List Out.Unit) (s : LoopState In Out) :
    ∃ t, emit o outEnd us s = .next t ∧
      t.result.needOutputBlockCount = s.result.needOutputBlockCount + us.length := by
  have hneed : o.needed us.length = us.length := by
    rcases hmode with hm | hm <;> simp [Options.needed, hm]
  have hnormal : o.outMode ≠ .normal := by
    rcases hmode with hm | hm <;> simp [hm]
  unfold emit
  rw [if_neg hnormal, hneed]
  split_ifs
  · exact ⟨_, rfl, rfl⟩
  · exact ⟨_, rfl, rfl⟩

variable (outEnd) in
theorem consume_need (i : Item) (s : LoopState In Out) :
    ∃ t, consume o outEnd i s = .next t ∧
      t.result.needOutputBlockCount =
        s.result.needOutputBlockCount + (i.output Out).length := by
  have haccept : (i.accept s).result.needOutputBlockCount = s.result.needOutputBlockCount :=
    (tally_outputCounts [i] s.result).2
  unfold consume Item.output
  cases hcode : i.code with
  | none => exact ⟨_, rfl, haccept⟩
  | some c =>
      rcases emit_need hmode (utf32Units Out c) (i.accept s) with ⟨t, ht, hneed⟩
      exact ⟨t, ht, by rw [hneed, haccept]⟩

/-- **The total falls short by the units of the fast steps.** -/
theorem strLoop_need {fuel : Nat} {items : List Item} {e : Ending} {s s' : LoopState In Out}
    (hrun : strLoop o outEnd fuel s = some s') (hscan : Scan o s.inStr items e) :
    e ≠ .fault ∧
      s'.result.needOutputBlockCount ≤
        s.result.needOutputBlockCount + (output Out items).length ∧
      (s'.result.needOutputBlockCount =
          s.result.needOutputBlockCount + (output Out items).length ↔
        ∀ t, Head LoopState.hasInput (loopBody o outEnd) s t → ¬ fastPath o outEnd t) := by
  refine strLoop_rule (M := fun items e s s' => e ≠ .fault ∧
      s'.result.needOutputBlockCount ≤
        s.result.needOutputBlockCount + (output Out items).length ∧
      (s'.result.needOutputBlockCount =
          s.result.needOutputBlockCount + (output Out items).length ↔
        ∀ t, Head LoopState.hasInput (loopBody o outEnd) s t → ¬ fastPath o outEnd t))
    ?_ ?_ ?_ ?_ ?_ hrun hscan
  · intro s hcond
    have hslow : ¬ fastPath o outEnd s := not_fastPath_of_exit hcond
    rw [WhileLoop.forall_head_stop fun u hc => absurd hc hcond]
    simpa using hslow
  · intro k err s hslow hbody
    rw [WhileLoop.forall_head_stop fun u _ => hbody u]
    refine ⟨by simp, le_refl _, fun _ => hslow, fun _ => rfl⟩
  · -- These modes never return at a character.
    intro i items e s t _ _ hret
    rcases consume_need outEnd hmode i s with ⟨v, hv, -⟩
    rw [hv] at hret
    cases hret
  · -- A slow step adds the units of its character to the total.
    intro i items e s t s' hcond hslow hbody hconsume ih
    rcases consume_need outEnd hmode i s with ⟨v, hv, hneed⟩
    rw [hv] at hconsume
    cases hconsume
    rcases ih with ⟨he, hle, hiff⟩
    rw [WhileLoop.forall_head_next hcond hbody, ← hiff, output_cons, List.length_append]
    refine ⟨he, by omega, ?_⟩
    constructor
    · intro heq
      exact ⟨hslow, by omega⟩
    · rintro ⟨-, heq⟩
      omega
  · intro rest e s s' hcond hpath ih
    -- The block is output but not counted.
    have hblock : (output Out (s.block.map asciiItem)).length = In.blockUnits := by
      rw [output_ascii (fastPath_block_ascii hpath), List.length_map,
        fastPath_block_length hpath]
    have hneed : (fastStep s).result.needOutputBlockCount = s.result.needOutputBlockCount := rfl
    have hpos := In.blockUnits_pos
    rcases ih with ⟨he, hle, -⟩
    rw [output_append, List.length_append]
    refine ⟨he, by omega, ?_⟩
    constructor
    · intro heq
      omega
    · intro hall
      exact absurd hpath (hall s .start)

end Need

/-- A loop that meets no block for the fast path does not depend on the performance mode. -/
theorem strLoop_of_slow_heads {o : Options} {outEnd : Nat} {s : LoopState In Out}
    (hslow : ∀ t, Head LoopState.hasInput (loopBody o outEnd) s t → ¬ fastPath o outEnd t)
    (fuel : Nat) :
    strLoop o outEnd fuel s = strLoop { o with perfMode := .normal } outEnd fuel s := by
  refine WhileLoop.run_congr fun t ht _ => ?_
  have hnormal : ¬ fastPath { o with perfMode := .normal } outEnd t :=
    not_fastPath_of_normal rfl outEnd t
  rw [loopBody, loopBody, if_neg (hslow t ht), if_neg hnormal]
  rfl

/-- The total is that of the complete conversion, and counting leaves the buffer alone. -/
def Run.CountsComplete {Out : CharType} (run : Run Out) (o : Options) (In : CharType)
    (input : List In.Unit) : Prop :=
  (∃ w, completeConversion o In Out input = some w ∧
    run.result.needOutputBlockCount = w.length) ∧
  (o.outMode = .count → run.mem = Region.untouched ∧ run.result.outputBlockCount = 0)

/-- **When the total is complete.**  In the modes `full` and `count` the total is that of the
complete conversion, and counting stores nothing, exactly when no iteration takes the eight-byte
path. -/
theorem strToStr_need_iff (o : Options) (In Out : CharType) (input : List In.Unit)
    (outputLen : Nat) (run : Run Out) (hmode : o.outMode = .full ∨ o.outMode = .count)
    (hrun : strToStr o In Out input outputLen = some run) :
    run.CountsComplete o In input ↔
      ∀ t, Head LoopState.hasInput (loopBody o outputLen) (LoopState.start Out input) t →
        ¬ fastPath o outputLen t := by
  rcases Scan.exists o input with ⟨items, e, hscan⟩
  rcases exists_loop_of_strToStr hrun with ⟨s', hs, rfl⟩
  rcases strLoop_need hmode hs hscan with ⟨he, -, hiff⟩
  have hcomplete : completeConversion o In Out input = some (output Out items) :=
    completeConversion_eq hscan he
  have hstart : (LoopState.start Out input).result.needOutputBlockCount = 0 := rfl
  rw [hstart, Nat.zero_add] at hiff
  rw [← hiff]
  constructor
  · rintro ⟨⟨w, hw, hneed⟩, -⟩
    rw [hcomplete] at hw
    cases hw
    exact hneed
  · intro hneed
    refine ⟨⟨_, hcomplete, hneed⟩, fun hcount => ?_⟩
    -- No fast step was taken, so this is the call of the slow path.
    have hslow : strToStr { o with perfMode := .normal } In Out input outputLen =
        some s'.toRun := by
      rw [strToStr, ← strLoop_of_slow_heads (hiff.1 hneed), hs]
      rfl
    have hscan' : Scan { o with perfMode := .normal } input items e :=
      hscan.congr _ rfl rfl rfl rfl
    have hchecks : ¬ Options.checksOutput { o with perfMode := .normal } := by
      simp [Options.checksOutput, hcount]
    have hstored : Options.stored { o with perfMode := .normal } (output Out items) = [] := by
      simp [Options.stored, hcount]
    rw [strToStr_of_fits (not_fastPath_of_normal rfl _) hscan' fun h => absurd h hchecks,
      hstored] at hslow
    rcases Ending.close_isSome he (tally items {}) with ⟨r, hr⟩
    have hout := (Ending.close_tally_outputCounts hr).1
    rw [hr, Option.map_some, Option.some.injEq] at hslow
    rw [← hslow]
    exact ⟨rfl, by simp [StrResult.credit, hout]⟩

/-- The first eight of nine letters take the fast path. -/
theorem strToStr_need_iff_block :
    ∃ run, strToStr { defaultOpt with outMode := .full, perfMode := .simd } (.ofForm .utf8)
        (.ofForm .utf16) [0x61#8, 0x62#8, 0x63#8, 0x64#8, 0x65#8, 0x66#8, 0x67#8, 0x68#8, 0x69#8]
        12 = some run ∧
      run.result.outputBlockCount = 9 ∧
      ¬ run.CountsComplete { defaultOpt with outMode := .full, perfMode := .simd } (.ofForm .utf8)
        [0x61#8, 0x62#8, 0x63#8, 0x64#8, 0x65#8, 0x66#8, 0x67#8, 0x68#8, 0x69#8] := by
  have hout : (strToStr { defaultOpt with outMode := .full, perfMode := .simd } (.ofForm .utf8)
      (.ofForm .utf16) [0x61#8, 0x62#8, 0x63#8, 0x64#8, 0x65#8, 0x66#8, 0x67#8, 0x68#8, 0x69#8]
        12).map (fun run => run.result.outputBlockCount) = some 9 := by decide
  have hfast : fastPath { defaultOpt with outMode := .full, perfMode := .simd } 12
      (LoopState.start (.ofForm .utf16) [0x61#8, 0x62#8, 0x63#8, 0x64#8, 0x65#8, 0x66#8, 0x67#8,
        0x68#8, 0x69#8] : LoopState (.ofForm .utf8) _) := by decide
  rcases Option.map_eq_some_iff.1 hout with ⟨run, hrun, hcount⟩
  refine ⟨run, hrun, hcount, fun hcomplete => ?_⟩
  exact (strToStr_need_iff _ _ _ _ _ run (.inl rfl) hrun).1 hcomplete _ .start hfast

/-- Eight ASCII bytes on the fast path are stored and not counted. -/
theorem strToStr_need_not_complete :
    ∃ run, strToStr { defaultOpt with outMode := .count, perfMode := .simd } (.ofForm .utf8)
        (.ofForm .utf8) [0x61#8, 0x62#8, 0x63#8, 0x64#8, 0x65#8, 0x66#8, 0x67#8, 0x68#8] 8 =
          some run ∧
      ¬ run.CountsComplete { defaultOpt with outMode := .count, perfMode := .simd }
        (.ofForm .utf8) [0x61#8, 0x62#8, 0x63#8, 0x64#8, 0x65#8, 0x66#8, 0x67#8, 0x68#8] := by
  have hout : (strToStr { defaultOpt with outMode := .count, perfMode := .simd } (.ofForm .utf8)
      (.ofForm .utf8) [0x61#8, 0x62#8, 0x63#8, 0x64#8, 0x65#8, 0x66#8, 0x67#8, 0x68#8] 8).map
        (fun run => run.result.outputBlockCount) = some 8 := by decide
  rcases Option.map_eq_some_iff.1 hout with ⟨run, hrun, hcount⟩
  refine ⟨run, hrun, fun hcomplete => ?_⟩
  have hzero := (hcomplete.2 rfl).2
  omega

end Convert
end Chenc
