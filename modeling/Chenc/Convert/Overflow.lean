import Chenc.Lib.Filling
import Chenc.Convert.Sizing
import Chenc.Convert.StrictText

/-!
# Overflow — characters that do not fit

An iteration counts its input before it knows whether its character fits.

* `overflow_split` : a call that returns with `out_overflow` has consumed the character that did
  not fit, so resuming behind the consumed input loses it (`strToStr_overflow_not_resumable`);
* `replay_full` : in the mode `full` the buffer is filled with every character that fits the room
  left;
* `strToStr_keepsOrder_iff` : so it holds a beginning of the complete conversion, and nothing
  behind a character that did not fit, exactly when no character overtakes one.
-/

namespace Chenc
namespace Convert

open WhileLoop (Flow Head)
open Filling (fill Overtakes Stops)

variable {In Out : CharType}

/-! ## Scans cut in two -/

theorem Scan.drop {o : Options} {xs ys : List Item} {e : Ending} {s : List In.Unit}
    (h : Scan o s (xs ++ ys) e) : Scan o (s.drop (unitsRead xs)) ys e := by
  induction xs generalizing s with
  | nil => exact h
  | cons x xs ih =>
      cases h with
      | item hr hv htail =>
          have hrest := ih htail
          rwa [List.drop_drop, ← unitsRead_cons] at hrest

/-- Items whose output does not fit have a first one that does not. -/
theorem exists_item_misfit {items : List Item} {n : Nat} (h : n < (output Out items).length) :
    ∃ xs i ys, items = xs ++ i :: ys ∧ (output Out xs).length ≤ n ∧
      n < (output Out xs).length + (i.output Out).length := by
  have hflat : ∀ items : List Item,
      (items.map (Item.output Out)).flatten = output Out items := fun items => by
    rw [output, List.flatMap_def]
  have hlong : n < (items.map (Item.output Out)).flatten.length := by rwa [hflat]
  rcases Filling.exists_misfit hlong with ⟨xs', x, ys', hsplit, hfit, hlt⟩
  rcases List.map_eq_append_iff.1 hsplit with ⟨xs, rest, rfl, rfl, hrest⟩
  rcases List.map_eq_cons_iff.1 hrest with ⟨i, ys, rfl, rfl, rfl⟩
  rw [hflat] at hfit hlt
  exact ⟨xs, i, ys, rfl, hfit, hlt⟩

/-! ## The mode `normal` -/

/-- The call stops at the first character that does not fit, which is counted as read. -/
theorem replay_overflow {o : Options} {n : Nat} (hm : o.outMode = .normal) {xs ys : List Item}
    {i : Item} {e : Ending} {s : LoopState In Out}
    (hfit : s.outStr + (output Out xs).length ≤ n)
    (hover : n < s.outStr + (output Out xs).length + (i.output Out).length) :
    replay o n (xs ++ i :: ys) e s =
      some ((i.accept (s.advance o xs)).raise .error .outOverflow) := by
  have hstored : o.stored (output Out xs) = output Out xs := Options.stored_eq_self (.inl hm) _
  have hstop : consume o n i (s.advance o xs) =
      .ret ((i.accept (s.advance o xs)).raise .error .outOverflow) := by
    unfold consume
    unfold Item.output at hover
    cases hcode : i.code with
    | none =>
        simp only [hcode, List.length_nil, Nat.add_zero] at hover
        omega
    | some c =>
        simp only [hcode] at hover
        have hlong : o.checksOutput ∧ n < (i.accept (s.advance o xs)).outStr +
            (utf32Units Out c).length := by
          refine ⟨.inl hm, ?_⟩
          simpa [Item.accept, LoopState.advance, hstored] using hover
        simp only [emit, if_pos hlong, hm, if_true]
  rw [replay_append_of_fits _ _ fun _ => hfit, replay, hstop]

/-- **Overflow.**  The call that ends at the first misfit `i`. -/
theorem strToStr_of_misfit {o : Options} (hperf : o.perfMode = .normal)
    (hm : o.outMode = .normal) {input : List In.Unit} {n : Nat} {xs ys : List Item} {i : Item}
    {e : Ending} (hscan : Scan o input (xs ++ i :: ys) e) (hfit : (output Out xs).length ≤ n)
    (hover : n < (output Out xs).length + (i.output Out).length) :
    strToStr o In Out input n = some
      { result := ((tally (xs ++ [i]) {}).credit (output Out xs).length 0).raise .error
          .outOverflow
        mem := Region.filled (output Out xs) } := by
  have hstored : o.stored (output Out xs) = output Out xs := Options.stored_eq_self (.inl hm) _
  have hneed : o.needed (output Out xs).length = 0 := Options.needed_eq_zero (.inl hm) _
  have hstart : (LoopState.start Out input).outStr = 0 := rfl
  have hloop := strLoop_eq_replay_of_slow (s := LoopState.start Out input)
    (not_fastPath_of_normal hperf n) hscan (le_refl _)
  rw [replay_overflow hm (by omega) (by omega)] at hloop
  rw [strToStr]
  refine (congrArg (Option.map LoopState.toRun) hloop).trans ?_
  rw [Option.map_some, tally_append]
  refine congrArg some ?_
  simp only [LoopState.toRun, LoopState.raise, Item.accept, LoopState.advance, hstored, hneed,
    Item.tally_credit, LoopState.start, storeAll_untouched, tally_cons, tally_nil]

/-- The items of a call that ran out of space. -/
theorem overflow_split {o : Options} (hperf : o.perfMode = .normal) (hm : o.outMode = .normal)
    {input : List In.Unit} {n : Nat} {run : Run Out}
    (hrun : strToStr o In Out input n = some run) (hover : ¬ run.result.NoOverflow)
    {items : List Item} {e : Ending} (hscan : Scan o input items e) :
    ∃ xs i ys, items = xs ++ i :: ys ∧ i.output Out ≠ [] ∧ run.written = output Out xs ∧
      run.result.inputBlockCount = unitsRead (xs ++ [i]) := by
  by_cases hfit : (output Out items).length ≤ n
  · -- With room for everything the call would not have reported an overflow.
    rw [strToStr_of_fits (not_fastPath_of_normal hperf n) hscan fun _ => hfit] at hrun
    rcases Option.map_eq_some_iff.1 hrun with ⟨r, hr, rfl⟩
    have hno := hscan.close_noOverflow hr
    exact absurd hno hover
  · rcases exists_item_misfit (Nat.lt_of_not_le hfit) with ⟨xs, i, ys, rfl, hxs, hlt⟩
    rw [strToStr_of_misfit hperf hm hscan hxs hlt, Option.some.injEq] at hrun
    subst hrun
    refine ⟨xs, i, ys, rfl, ?_, ?_, ?_⟩
    · intro hnil
      rw [hnil, List.length_nil] at hlt
      omega
    · refine Run.written_of_filled ?_
      simp [StrResult.raise, StrResult.credit, (tally_outputCounts _ _).1]
    · simp [StrResult.raise, StrResult.credit, tally_inputBlockCount]

/-- What a caller who resumes behind the consumed input relies on: the units written and the
conversion of the rest make up the whole conversion, and so do the character counts. -/
def Run.ResumesTo (run : Run Out) (o : Options) (In : CharType) (input : List In.Unit) : Prop :=
  ∃ rest whole : Run Out,
    strToStr o In Out (input.drop run.result.inputBlockCount)
      (4 * (input.drop run.result.inputBlockCount).length) = some rest ∧
    strToStr o In Out input (4 * input.length) = some whole ∧
    whole.written = run.written ++ rest.written ∧
    whole.result.convNormalCharCount =
      run.result.convNormalCharCount + rest.result.convNormalCharCount ∧
    whole.result.convErrorCharCount =
      run.result.convErrorCharCount + rest.result.convErrorCharCount

/-- What a call with unbounded space has written. -/
theorem written_of_unbounded {o : Options} (hm : o.outMode = .normal) {input : List In.Unit}
    {items : List Item} {e : Ending} (hscan : Scan o input items e) {run : Run Out}
    (hrun : strToStr o In Out input (4 * input.length) = some run) :
    run.written = output Out items := by
  have hfit := hscan.output_length_le Out
  have he : e ≠ .fault := by
    rintro rfl
    rw [strToStr_of_room (.inl hm) hscan hfit] at hrun
    cases hrun
  rcases exists_run_of_room (.inl hm) hscan he hfit with ⟨run', -, -, hrun', -, -, hwritten⟩
  rw [hrun', Option.some.injEq] at hrun
  rw [← hrun, hwritten]

/-- What resuming loses is the character that did not fit. -/
theorem strToStr_overflow_lost {o : Options} (hperf : o.perfMode = .normal)
    (hm : o.outMode = .normal) (hin : o.inputMode = .normal) {input : List In.Unit} {n : Nat}
    {run : Run Out} (hrun : strToStr o In Out input n = some run)
    (hover : ¬ run.result.NoOverflow) :
    ∃ lost rest, lost ≠ [] ∧
      completeConversion o In Out (input.drop run.result.inputBlockCount) = some rest ∧
      completeConversion o In Out input = some (run.written ++ lost ++ rest) := by
  rcases Scan.exists o input with ⟨items, e, hscan⟩
  have he := hscan.ne_fault hin
  rcases overflow_split hperf hm hrun hover hscan with ⟨xs, i, ys, rfl, hlost, hwritten, hread⟩
  have hsplit : xs ++ i :: ys = (xs ++ [i]) ++ ys := by simp
  have hrest : Scan o (input.drop run.result.inputBlockCount) ys e := by
    rw [hread]
    exact Scan.drop (hsplit ▸ hscan)
  refine ⟨i.output Out, output Out ys, hlost, completeConversion_eq hrest he, ?_⟩
  rw [completeConversion_eq hscan he, hwritten, hsplit]
  simp

/-- **No call that ran out of space can be resumed.** -/
theorem strToStr_overflow_not_resumable (o : Options) (In Out : CharType)
    (input : List In.Unit) (outputLen : Nat) (run : Run Out) (hperf : o.perfMode = .normal)
    (hm : o.outMode = .normal) (hrun : strToStr o In Out input outputLen = some run)
    (hover : ¬ run.result.NoOverflow) : ¬ run.ResumesTo o In input := by
  rintro ⟨rest, whole, hrest, hwhole, hwritten, -⟩
  rcases Scan.exists o input with ⟨items, e, hscan⟩
  rcases overflow_split hperf hm hrun hover hscan with ⟨xs, i, ys, rfl, hlost, hxs, hread⟩
  have hsplit : xs ++ i :: ys = (xs ++ [i]) ++ ys := by simp
  have hscan' : Scan o (input.drop run.result.inputBlockCount) ys e := by
    rw [hread]
    exact Scan.drop (hsplit ▸ hscan)
  rw [written_of_unbounded hm hscan hwhole, written_of_unbounded hm hscan' hrest,
    hxs] at hwritten
  -- The lost character makes the single call longer than the two together.
  have hlen := congrArg List.length hwritten
  have hpos := List.length_pos_iff.2 hlost
  simp only [output_append, output_cons, List.length_append] at hlen
  omega

theorem strToStr_overflow_not_resumable_e_acute :
    ∃ run, strToStr defaultOpt (.ofForm .utf8) (.ofForm .utf16) [0xC3#8, 0xA9#8] 0 = some run ∧
      ¬ run.ResumesTo defaultOpt (.ofForm .utf8) [0xC3#8, 0xA9#8] := by
  have hout : (strToStr defaultOpt (.ofForm .utf8) (.ofForm .utf16) [0xC3#8, 0xA9#8] 0).map
      (fun run => run.result.error) = some 2#8 := by decide
  rcases Option.map_eq_some_iff.1 hout with ⟨run, hrun, herr⟩
  have hover : ¬ run.result.NoOverflow := by
    rw [StrResult.NoOverflow, herr]
    decide
  exact ⟨run, hrun, strToStr_overflow_not_resumable _ _ _ _ _ run rfl rfl hrun hover⟩

/-- "ok" into one unit: the `k` is consumed and never written. -/
theorem strToStr_overflow_loses_k :
    ∃ run, strToStr defaultOpt (.ofForm .utf8) (.ofForm .utf8) [0x6F#8, 0x6B#8] 1 = some run ∧
      ¬ run.result.NoOverflow ∧
      ¬ run.ResumesTo defaultOpt (.ofForm .utf8) [0x6F#8, 0x6B#8] := by
  have hrun : (strToStr defaultOpt (.ofForm .utf8) (.ofForm .utf8) [0x6F#8, 0x6B#8] 1).map
      (fun run => (run.result.error, run.result.inputBlockCount, run.written.length)) =
        some (2#8, 2, 1) := by decide
  have hrest : (strToStr defaultOpt (.ofForm .utf8) (.ofForm .utf8) [] 0).map
      (fun run => run.written.length) = some 0 := by decide
  have hwhole : (strToStr defaultOpt (.ofForm .utf8) (.ofForm .utf8) [0x6F#8, 0x6B#8] 8).map
      (fun run => run.written.length) = some 2 := by decide
  rcases Option.map_eq_some_iff.1 hrun with ⟨run, hrun, hvals⟩
  rcases Prod.mk.inj hvals with ⟨herr, hvals⟩
  rcases Prod.mk.inj hvals with ⟨hread, hlen⟩
  refine ⟨run, hrun, ?_, ?_⟩
  · rw [StrResult.NoOverflow, herr]
    decide
  · rintro ⟨rest, whole, hrest', hwhole', hwritten, -⟩
    rw [hread] at hrest'
    change strToStr defaultOpt (.ofForm .utf8) (.ofForm .utf8) [] 0 = some rest at hrest'
    change strToStr defaultOpt (.ofForm .utf8) (.ofForm .utf8) [0x6F#8, 0x6B#8] 8 =
      some whole at hwhole'
    rw [hrest', Option.map_some, Option.some.injEq] at hrest
    rw [hwhole', Option.map_some, Option.some.injEq] at hwhole
    have hsum := congrArg List.length hwritten
    rw [List.length_append] at hsum
    omega

/-! ## The mode `full` -/

/-- The sequences the items would store. -/
def blocks (Out : CharType) (items : List Item) : List (List Out.Unit) :=
  items.filterMap fun i => i.code.map (utf32Units Out)

@[simp] theorem blocks_nil : blocks Out [] = [] := rfl

theorem blocks_cons_none {i : Item} (hcode : i.code = none) (items : List Item) :
    blocks Out (i :: items) = blocks Out items := by
  simp [blocks, hcode]

theorem blocks_cons_some {i : Item} {c : U32} (hcode : i.code = some c) (items : List Item) :
    blocks Out (i :: items) = utf32Units Out c :: blocks Out items := by
  simp [blocks, hcode]

theorem blocks_flatten (items : List Item) : (blocks Out items).flatten = output Out items := by
  induction items with
  | nil => rfl
  | cons i items ih =>
      rw [output_cons, ← ih]
      cases hcode : i.code with
      | none => rw [blocks_cons_none hcode, Item.output_of_none hcode, List.nil_append]
      | some c => rw [blocks_cons_some hcode, Item.output_of_some hcode, List.flatten_cons]

theorem mem_blocks {items : List Item} {b : List Out.Unit} (h : b ∈ blocks Out items) :
    ∃ c, b = utf32Units Out c := by
  rcases List.mem_filterMap.1 h with ⟨i, -, hi⟩
  rcases Option.map_eq_some_iff.1 hi with ⟨c, -, rfl⟩
  exact ⟨c, rfl⟩

theorem blocks_append (items more : List Item) :
    blocks Out (items ++ more) = blocks Out items ++ blocks Out more :=
  List.filterMap_append

theorem forall_blocks_ne_nil (items : List Item) : ∀ b ∈ blocks Out items, b ≠ [] := by
  intro b hb
  rcases mem_blocks hb with ⟨c, rfl⟩
  exact List.length_pos_iff.1 (utf32Units_length_pos Out c)

/-- The items behind the first are put into the room that it leaves. -/
theorem fill_blocks_cons (n : Nat) (w : List Out.Unit) (i : Item) (items : List Item) :
    (w ++ fill (n - w.length) (blocks Out [i])) ++
        fill (n - (w ++ fill (n - w.length) (blocks Out [i])).length) (blocks Out items) =
      w ++ fill (n - w.length) (blocks Out (i :: items)) := by
  rw [List.length_append, ← Nat.sub_sub, List.append_assoc, ← Filling.fill_append,
    ← blocks_append, List.singleton_append]

/-- The items around a sequence. -/
theorem exists_items_of_blocks {items : List Item} {xs' ys' : List (List Out.Unit)}
    {x : List Out.Unit} (h : blocks Out items = xs' ++ x :: ys') :
    ∃ xs i ys, items = xs ++ i :: ys ∧ blocks Out xs = xs' ∧ i.output Out = x ∧
      blocks Out ys = ys' := by
  rcases List.filterMap_eq_append_iff.1 h with ⟨xs, rest, rfl, hxs, hrest⟩
  rcases List.filterMap_eq_cons_iff.1 hrest with ⟨skipped, i, ys, rfl, hskipped, hi, hys⟩
  rcases Option.map_eq_some_iff.1 hi with ⟨c, hcode, rfl⟩
  refine ⟨xs ++ skipped, i, ys, by simp, ?_, Item.output_of_some hcode, hys⟩
  have hnone : blocks Out skipped = [] := List.filterMap_eq_nil_iff.2 hskipped
  rw [blocks_append, hnone, List.append_nil]
  exact hxs

section Full

variable {o : Options} (hm : o.outMode = .full) {n : Nat}

include hm

/-- An item in the mode `full` adds its units if they fit, and never ends the call. -/
theorem consume_full {i : Item} {s : LoopState In Out} {w : List Out.Unit} (hs : s.Holds w)
    (hw : w.length ≤ n) :
    ∃ t, consume o n i s = .next t ∧ t.Holds (w ++ fill (n - w.length) (blocks Out [i])) := by
  have hnormal : o.outMode ≠ .normal := by simp [hm]
  have hstored : ∀ us : List Out.Unit, o.stored us = us := by simp [Options.stored, hm]
  have hout : (i.accept s).outStr = w.length := hs.outStr
  unfold consume
  cases hcode : i.code with
  | none =>
      rw [blocks_cons_none hcode, blocks_nil, Filling.fill_nil, List.append_nil]
      exact ⟨_, rfl, hs.accept i⟩
  | some c =>
      rw [blocks_cons_some hcode, blocks_nil]
      simp only [emit, hout, hstored]
      by_cases hover : n < w.length + (utf32Units Out c).length
      · -- Passed over: only the total changes.
        have hnext := (hs.accept i).write [] (utf32Units Out c).length
        rw [List.append_nil] at hnext
        rw [if_pos ⟨.inr hm, hover⟩, if_neg hnormal, Filling.fill_cons_of_lt (by omega),
          Filling.fill_nil, List.append_nil]
        exact ⟨_, rfl, hnext.mem, hnext.outStr, hnext.count⟩
      · -- Kept: it goes behind what has been written.
        rw [if_neg fun h => hover h.2, Filling.fill_cons_of_le (by omega), Filling.fill_nil,
          List.append_nil]
        exact ⟨_, rfl, (hs.accept i).write _ _⟩

/-- **Filling the buffer.**  In the mode `full` a replay keeps every character that fits the room
left. -/
theorem replay_full {items : List Item} {e : Ending} {s s' : LoopState In Out}
    {w : List Out.Unit} (hs : s.Holds w) (hw : w.length ≤ n)
    (hrun : replay o n items e s = some s') :
    s'.Holds (w ++ fill (n - w.length) (blocks Out items)) := by
  induction items generalizing s w with
  | nil =>
      rw [replay] at hrun
      rcases Option.map_eq_some_iff.1 hrun with ⟨r, hr, rfl⟩
      rw [blocks_nil, Filling.fill_nil, List.append_nil]
      exact ⟨hs.mem, hs.outStr, (Ending.close_outputCounts hr).1.trans hs.count⟩
  | cons i items ih =>
      rcases consume_full hm (i := i) hs hw with ⟨t, ht, hholds⟩
      have hle := Filling.fill_length_le (n - w.length) (blocks Out [i])
      rw [replay, ht] at hrun
      have hrest := ih hholds (by rw [List.length_append]; omega) hrun
      rwa [fill_blocks_cons] at hrest

variable (hperf : o.perfMode = .normal)

include hperf

/-- A slow step of the mode `full`. -/
theorem loopBody_full {i : Item} {items : List Item} {e : Ending} {s : LoopState In Out}
    {w : List Out.Unit} (hscan : Scan o s.inStr (i :: items) e) (hs : s.Holds w)
    (hw : w.length ≤ n) :
    ∃ t, s.hasInput ∧ loopBody o n s = some (.next t) ∧ Scan o t.inStr items e ∧
      t.Holds (w ++ fill (n - w.length) (blocks Out [i])) := by
  have hcond : s.hasInput := fun hnil => by
    rw [hnil] at hscan
    cases hscan
  rcases hscan.slow_cases hcond (not_fastPath_of_normal hperf n s) with
    ⟨j, rest, heq, hbody, htail, -⟩ | ⟨k, err, heq, -, -⟩ | ⟨heq, -, -⟩
  · rcases List.cons.inj heq with ⟨rfl, rfl⟩
    rcases consume_full hm (i := i) hs hw with ⟨t, ht, hholds⟩
    exact ⟨t, hcond, hbody.trans (congrArg some ht), consume_next_inStr ht ▸ htail, hholds⟩
  · cases heq
  · cases heq

/-- The loop comes by every item. -/
theorem exists_head_full (xs : List Item) {ys : List Item} {e : Ending} {s : LoopState In Out}
    {w : List Out.Unit} (hscan : Scan o s.inStr (xs ++ ys) e) (hs : s.Holds w)
    (hw : w.length ≤ n) :
    ∃ t, Head LoopState.hasInput (loopBody o n) s t ∧ Scan o t.inStr ys e ∧
      t.Holds (w ++ fill (n - w.length) (blocks Out xs)) := by
  induction xs generalizing s w with
  | nil =>
      refine ⟨s, .start, hscan, ?_⟩
      rwa [blocks_nil, Filling.fill_nil, List.append_nil]
  | cons x xs ih =>
      rcases loopBody_full hm hperf hscan hs hw with ⟨t, hcond, hbody, htail, hholds⟩
      have hle := Filling.fill_length_le (n - w.length) (blocks Out [x])
      rcases ih htail hholds (by rw [List.length_append]; omega) with ⟨u, hu, hrest, hall⟩
      rw [fill_blocks_cons] at hall
      exact ⟨u, (Head.next .start hcond hbody).trans hu, hrest, hall⟩

/-- And by nothing else. -/
theorem head_full {items : List Item} {e : Ending} {s t : LoopState In Out}
    (hscan : Scan o s.inStr items e) (hs : s.Holds [])
    (ht : Head LoopState.hasInput (loopBody o n) s t) :
    ∃ xs ys, items = xs ++ ys ∧ Scan o t.inStr ys e ∧ t.Holds (fill n (blocks Out xs)) := by
  induction ht with
  | start => exact ⟨[], items, rfl, hscan, hs⟩
  | @next t u _ hcond hbody ih =>
      rcases ih with ⟨xs, ys, rfl, hrest, hholds⟩
      rcases ys with _ | ⟨y, ys⟩
      · -- At the end of the reading the iteration does not continue.
        rcases hrest.slow_cases hcond (not_fastPath_of_normal hperf n t) with
          ⟨j, rest, heq, -, -, -⟩ | ⟨k, err, -, -, hstop⟩ | ⟨-, -, hstop⟩
        · cases heq
        · rw [hstop] at hbody
          cases hbody
        · rw [hstop] at hbody
          cases hbody
      · have hle := Filling.fill_length_le n (blocks Out xs)
        rcases loopBody_full hm hperf hrest hholds hle with ⟨v, -, hbody', htail, hnext⟩
        rw [hbody', Option.some.injEq, Flow.next.injEq] at hbody
        subst hbody
        rw [← Filling.fill_append, ← blocks_append] at hnext
        exact ⟨xs ++ [y], ys, by simp, htail, hnext⟩

end Full

/-- The character that is next does not fit the room left. -/
def LoopState.Misfit (o : Options) (outEnd : Nat) (s : LoopState In Out) : Prop :=
  ∃ u rest r i, s.inStr = u :: rest ∧ charToUtf32 o In (u :: rest) {} = some r ∧
    o.verdict r = .item i ∧ outEnd < s.outStr + (i.output Out).length

/-- It is the first item of what is scanned there. -/
theorem misfit_iff {o : Options} {outEnd : Nat} {s : LoopState In Out} {items : List Item}
    {e : Ending} (hscan : Scan o s.inStr items e) :
    s.Misfit o outEnd ↔ ∃ i ys, items = i :: ys ∧ outEnd < s.outStr + (i.output Out).length := by
  constructor
  · rintro ⟨u, rest, r, i, hin, hr, hv, hover⟩
    rw [hin] at hscan
    rcases Scan.exists o ((u :: rest).drop i.units) with ⟨ys, e', htail⟩
    rcases hscan.unique (.item hr hv htail) with ⟨rfl, -⟩
    exact ⟨i, ys, rfl, hover⟩
  · rintro ⟨i, ys, rfl, hover⟩
    generalize hin : s.inStr = input at hscan
    cases hscan with
    | item hr hv _ => exact ⟨_, _, _, i, hin, hr, hv, hover⟩

/-- The buffer begins the complete conversion, and nothing is stored behind a character that did
not fit. -/
structure Run.KeepsOrder {Out : CharType} (run : Run Out) (o : Options) (In : CharType)
    (input : List In.Unit) (outputLen : Nat) : Prop where
  begins : ∃ w, completeConversion o In Out input = some w ∧ run.written <+: w
  stops : ∀ t, Head LoopState.hasInput (loopBody o outputLen) (LoopState.start Out input) t →
    t.Misfit o outputLen → run.mem = t.mem

section KeepsOrder

variable {o : Options} (hm : o.outMode = .full) (hperf : o.perfMode = .normal) {n : Nat}
  {input : List In.Unit} {items : List Item} {e : Ending} (hscan : Scan o input items e)

include hm hperf hscan

/-- A misfit among the sequences is a misfit at a head of the loop. -/
theorem stops_of_heads
    (h : ∀ t, Head LoopState.hasInput (loopBody o n) (LoopState.start Out input) t →
      t.Misfit o n → t.mem = Region.filled (fill n (blocks Out items))) :
    Stops n (blocks Out items) := by
  intro xs' x ys' hsplit hx
  rcases exists_items_of_blocks hsplit with ⟨xs, i, ys, rfl, rfl, rfl, rfl⟩
  rcases exists_head_full hm hperf xs hscan (holds_start Out input) (Nat.zero_le n) with
    ⟨t, ht, htail, hthere⟩
  rw [List.nil_append, List.length_nil, Nat.sub_zero] at hthere
  have hmisfit : t.Misfit o n :=
    (misfit_iff htail).2 ⟨i, ys, rfl, by rw [hthere.outStr]; exact hx⟩
  have hmem := h t ht hmisfit
  have hlen := Filling.fill_length_le n (blocks Out xs)
  rw [hthere.mem, hsplit, Filling.fill_append, Filling.fill_cons_of_lt (by omega)] at hmem
  exact List.append_right_eq_self.1 (Region.filled_injective hmem).symm

/-- Where nothing is kept behind a misfit, the buffer is complete at the first. -/
theorem mem_of_stops (hstops : Stops n (blocks Out items)) {t : LoopState In Out}
    (ht : Head LoopState.hasInput (loopBody o n) (LoopState.start Out input) t)
    (hmisfit : t.Misfit o n) : t.mem = Region.filled (fill n (blocks Out items)) := by
  rcases head_full hm hperf hscan (holds_start Out input) ht with ⟨xs, ys, rfl, htail, hthere⟩
  rcases (misfit_iff htail).1 hmisfit with ⟨i, ys, rfl, hover⟩
  have hlen := Filling.fill_length_le n (blocks Out xs)
  rw [hthere.outStr] at hover
  rw [hthere.mem, blocks_append, Filling.fill_append]
  cases hcode : i.code with
  | none =>
      -- What is skipped takes no room.
      rw [Item.output_of_none hcode, List.length_nil] at hover
      omega
  | some c =>
      rw [Item.output_of_some hcode] at hover
      have hnone := hstops (blocks Out xs) (utf32Units Out c) (blocks Out ys)
        (by rw [blocks_append, blocks_cons_some hcode]) hover
      rw [blocks_cons_some hcode, Filling.fill_cons_of_lt (by omega), hnone, List.append_nil]

end KeepsOrder

/-- **When the mode `full` keeps the order.**  It does exactly when behind the first character that
does not fit there comes none short enough for the room left. -/
theorem strToStr_keepsOrder_iff (o : Options) (In Out : CharType) (input : List In.Unit)
    (outputLen : Nat) (run : Run Out) (items : List Item) (e : Ending)
    (hperf : o.perfMode = .normal) (hm : o.outMode = .full)
    (hrun : strToStr o In Out input outputLen = some run) (hscan : Scan o input items e) :
    run.KeepsOrder o In input outputLen ↔ ¬ Overtakes outputLen (blocks Out items) := by
  rcases exists_loop_of_strToStr hrun with ⟨s', hloop, rfl⟩
  have hreplay : replay o outputLen items e (LoopState.start Out input) = some s' :=
    (strLoop_eq_replay_of_slow (not_fastPath_of_normal hperf outputLen) hscan
      (le_refl _)).symm.trans hloop
  have he : e ≠ .fault := (strLoop_need (.inl hm) hloop hscan).1
  have hholds := replay_full hm (holds_start Out input) (Nat.zero_le _) hreplay
  rw [List.nil_append, List.length_nil, Nat.sub_zero] at hholds
  have hne : ∀ b ∈ blocks Out items, b ≠ [] := forall_blocks_ne_nil items
  rw [← Filling.stops_iff hne]
  constructor
  · rintro ⟨-, hstops⟩
    exact stops_of_heads hm hperf hscan fun t ht hmisfit =>
      (hstops t ht hmisfit).symm.trans hholds.mem
  · intro hstops
    refine ⟨⟨_, completeConversion_eq hscan he, ?_⟩, fun t ht hmisfit => ?_⟩
    · rw [hholds.written, ← blocks_flatten]
      exact Filling.fill_isPrefix hne ((Filling.stops_iff hne).1 hstops)
    · exact hholds.mem.trans (mem_of_stops hm hperf hscan hstops ht hmisfit).symm

/-- Room for the letter and not for the two characters behind it. -/
theorem strToStr_keepsOrder_iff_letter :
    ∃ run, strToStr { defaultOpt with outMode := .full } (.ofForm .utf16) (.ofForm .utf8)
        [0x61#16, 0x4E2D#16, 0x6587#16] 3 = some run ∧
      run.result.needOutputBlockCount = 7 ∧
      run.KeepsOrder { defaultOpt with outMode := .full } (.ofForm .utf16)
        [0x61#16, 0x4E2D#16, 0x6587#16] 3 := by
  have hout : (strToStr { defaultOpt with outMode := .full } (.ofForm .utf16) (.ofForm .utf8)
      [0x61#16, 0x4E2D#16, 0x6587#16] 3).map
        (fun run => run.result.needOutputBlockCount) = some 7 := by decide
  rcases Option.map_eq_some_iff.1 hout with ⟨run, hrun, hneed⟩
  have htext : Unicode.IsText [0x61, 0x4E2D, 0x6587] := by decide
  have hscan : @Scan { defaultOpt with outMode := .full } (.ofForm .utf16)
      [0x61#16, 0x4E2D#16, 0x6587#16] _ .done := Scan.of_text rfl htext (by decide)
  refine ⟨run, hrun, hneed, ?_⟩
  exact (strToStr_keepsOrder_iff _ _ _ _ _ run _ .done rfl rfl hrun hscan).2 (by decide)

/-- A three-byte character is passed over and the letter behind it kept. -/
theorem strToStr_full_not_isPrefix :
    ∃ run w, strToStr { defaultOpt with outMode := .full } (.ofForm .utf16) (.ofForm .utf8)
        [0x4E2D#16, 0x61#16] 1 = some run ∧
      completeConversion { defaultOpt with outMode := .full } (.ofForm .utf16) (.ofForm .utf8)
        [0x4E2D#16, 0x61#16] = some w ∧ ¬ run.written <+: w := by
  have hrun : (strToStr { defaultOpt with outMode := .full } (.ofForm .utf16) (.ofForm .utf8)
      [0x4E2D#16, 0x61#16] 1).map Run.written = some [0x61#8] := by decide
  have hcomplete : completeConversion { defaultOpt with outMode := .full } (.ofForm .utf16)
      (.ofForm .utf8) [0x4E2D#16, 0x61#16] = some [0xE4#8, 0xB8#8, 0xAD#8, 0x61#8] := by decide
  rcases Option.map_eq_some_iff.1 hrun with ⟨run, hrun, hwritten⟩
  refine ⟨run, _, hrun, hcomplete, ?_⟩
  rw [hwritten]
  decide

end Convert
end Chenc
