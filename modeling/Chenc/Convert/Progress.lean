import Chenc.Convert.FastPath
import Chenc.Convert.StrictDecoding

/-!
# Progress — the input pointer and the count of input units

* `loopBody_reads` : what an iteration does with the input, on either path;
* `strToStr_progress` : no read past the end of the input, every iteration that continues moves
  the input pointer on inside the input, and so the loop ends;
* `countsInput_iff` : `input_block_count_` is right exactly when no iteration starts at a sequence
  that the end of the input cuts off;
* `countsInput_iff_owed` : where nothing ends a call early, that is a condition on the text alone.
-/

namespace Chenc
namespace Convert

open Unicode
open WhileLoop (Flow Head)

variable {In Out : CharType}

/-! ## One iteration -/

/-- The first unit announces more units than are left. -/
def CharType.CutOff (In : CharType) : List In.Unit → Prop
  | [] => False
  | u :: s => (u :: s).length < In.announced u

/-- What an iteration that continues adds to `in_str`: a block on the fast path, `input_block_`
on the slow one. -/
def stride (o : Options) (outEnd : Nat) (s : LoopState In Out) : Option Nat :=
  if fastPath o outEnd s then
    some In.blockUnits
  else
    (charToUtf32 o In s.inStr {}).map fun r => r.2.inputBlock

theorem announced_ascii {u : In.Unit} (hu : u.toNat < 0x80) : In.announced u = 1 :=
  (charToUtf32_reads (charToUtf32_ascii defaultOpt hu [])).input.symm

/-- The input is counted before the output is tried. -/
theorem consume_inputBlockCount {o : Options} {outEnd : Nat} {i : Item} {s t : LoopState In Out}
    (h : consume o outEnd i s = .next t ∨ consume o outEnd i s = .ret t) :
    t.result.inputBlockCount = s.result.inputBlockCount + i.units := by
  have haccept : (i.accept s).result.inputBlockCount = s.result.inputBlockCount + i.units :=
    tally_inputBlockCount [i] s.result
  unfold consume emit at h
  cases hcode : i.code with
  | none =>
      simp only [hcode] at h
      rcases h with h | h <;> cases h
      exact haccept
  | some c =>
      simp only [hcode] at h
      split_ifs at h <;> rcases h with h | h <;> cases h <;> exact haccept

/-- **Reading.**  An iteration counts the units its first unit announces, or a block.  Only where
the end of the input cuts the sequence off are they more than there are. -/
theorem loopBody_reads {o : Options} (hin : o.inputMode = .normal) (outEnd : Nat)
    {s : LoopState In Out} (hcond : s.hasInput) :
    ∃ k, stride o outEnd s = some k ∧ 0 < k ∧ (s.inStr.length < k ↔ In.CutOff s.inStr) ∧
      ((∃ t, loopBody o outEnd s = some (.next t) ∧ k ≤ s.inStr.length ∧
          t.inStr = s.inStr.drop k ∧
          t.result.inputBlockCount = s.result.inputBlockCount + k) ∨
        ∃ t, loopBody o outEnd s = some (.ret t) ∧
          t.result.inputBlockCount = s.result.inputBlockCount + k) := by
  rcases (hasInput_iff s).1 hcond with ⟨u, rest, hs⟩
  by_cases hpath : fastPath o outEnd s
  · -- A block of ASCII units, which announce themselves alone.
    have hlen := ((fastPath_iff o outEnd s).1 hpath).2.1
    have hpos := In.blockUnits_pos
    have hascii : u.toNat < 0x80 := by
      refine fastPath_block_ascii hpath u ?_
      rw [LoopState.block, hs]
      exact List.mem_take_iff_getElem.2 ⟨0, by simpa using hpos, rfl⟩
    refine ⟨In.blockUnits, if_pos hpath, hpos, ?_, .inl ⟨fastStep s, if_pos hpath, hlen, rfl, rfl⟩⟩
    rw [hs, CharType.CutOff, announced_ascii hascii, ← hs]
    constructor
    · intro hlt
      omega
    · intro hlt
      rw [hs, List.length_cons] at hlt
      omega
  · have hsome := charToUtf32_isSome rest (u := u) (.inl hin)
    rcases Option.isSome_iff_exists.1 hsome with ⟨r, hr⟩
    have hreads := charToUtf32_reads hr
    have hstride : stride o outEnd s = some (In.announced u) := by
      rw [stride, if_neg hpath, hs, hr, Option.map_some, hreads.input]
    have hbody := loopBody_of_slow hs hpath
    rw [hr, Option.map_some] at hbody
    refine ⟨In.announced u, hstride, In.announced_pos u, by rw [hs]; rfl, ?_⟩
    cases hv : o.verdict r with
    | item i =>
        -- An item is read in full, whatever comes of its output.
        rw [hv] at hbody
        rcases verdict_item_units hr hv with ⟨hunits, hle⟩
        rw [← hunits]
        cases hc : consume o outEnd i s with
        | next t =>
            refine .inl ⟨t, hbody.trans (congrArg some hc), hs ▸ hle, consume_next_inStr hc, ?_⟩
            exact consume_inputBlockCount (.inl hc)
        | ret t =>
            exact .inr ⟨t, hbody.trans (congrArg some hc), consume_inputBlockCount (.inr hc)⟩
    | halt k err =>
        rw [hv] at hbody
        refine .inr ⟨_, hbody, ?_⟩
        change s.result.inputBlockCount + k = _
        rw [verdict_halt_units hv, hreads.input]

/-! ## The input pointer -/

/-- What is known at the head of the loop: the pointer has moved on by what has been counted. -/
structure LoopState.Reading (s : LoopState In Out) (input : List In.Unit) : Prop where
  suffix : s.inStr <:+ input
  count : s.result.inputBlockCount + s.inStr.length = input.length

theorem reading_of_head {o : Options} (hin : o.inputMode = .normal) {input : List In.Unit}
    {outEnd : Nat} {t : LoopState In Out}
    (ht : Head LoopState.hasInput (loopBody o outEnd) (LoopState.start Out input) t) :
    t.Reading input := by
  induction ht with
  | start => exact ⟨List.suffix_refl input, Nat.zero_add _⟩
  | @next t v _ hcond hbody ih =>
      rcases loopBody_reads hin outEnd hcond with
        ⟨k, -, -, -, ⟨w, hnext, hle, hdrop, hcount⟩ | ⟨w, hret, -⟩⟩
      · cases hnext.symm.trans hbody
        refine ⟨?_, ?_⟩
        · rw [hdrop]
          exact (List.drop_suffix k t.inStr).trans ih.suffix
        · have hbefore := ih.count
          rw [hcount, hdrop, List.length_drop]
          omega
      · cases hret.symm.trans hbody

/-- With input bounds checked the loop of every call ends. -/
theorem exists_loop {o : Options} (hin : o.inputMode = .normal) (Out : CharType)
    (input : List In.Unit) (outputLen : Nat) :
    ∃ s', strLoop o outputLen input.length (LoopState.start Out input) = some s' ∧
      strToStr o In Out input outputLen = some s'.toRun := by
  have hsome : (strToStr o In Out input outputLen).isSome := strToStr_isSome hin input outputLen
  rcases Option.isSome_iff_exists.1 hsome with ⟨run, hrun⟩
  rcases exists_loop_of_strToStr hrun with ⟨s', hloop, rfl⟩
  exact ⟨s', hloop, hrun⟩

/-- An iteration that reads inside the input and, if it continues, moves the pointer on by at
least one unit and not past the end. -/
structure Advances (o : Options) (outEnd : Nat) (s : LoopState In Out) : Prop where
  reads : (loopBody o outEnd s).isSome
  moves : ∀ t, loopBody o outEnd s = some (.next t) →
    ∃ k, stride o outEnd s = some k ∧ 0 < k ∧ k ≤ s.inStr.length ∧ t.inStr = s.inStr.drop k

theorem advances_of_hasInput {o : Options} (hin : o.inputMode = .normal) (outEnd : Nat)
    {s : LoopState In Out} (hcond : s.hasInput) : Advances o outEnd s := by
  rcases loopBody_reads hin outEnd hcond with
    ⟨k, hk, hpos, -, ⟨w, hnext, hle, hdrop, -⟩ | ⟨w, hret, -⟩⟩
  · refine ⟨by rw [hnext]; rfl, fun t ht => ⟨k, hk, hpos, hle, ?_⟩⟩
    cases hnext.symm.trans ht
    exact hdrop
  · refine ⟨by rw [hret]; rfl, fun t ht => ?_⟩
    cases hret.symm.trans ht

/-- **Termination.**  With input bounds checked every iteration of a call advances inside the
input, and no more iterations are made than the input has units. -/
theorem strToStr_progress (o : Options) (hin : o.inputMode = .normal) (In Out : CharType)
    (input : List In.Unit) (outputLen : Nat) :
    (∀ t, Head LoopState.hasInput (loopBody o outputLen) (LoopState.start Out input) t →
      t.inStr <:+ input ∧ (t.hasInput → Advances o outputLen t)) ∧
    ∃ s', ∀ fuel, input.length ≤ fuel →
      strLoop o outputLen fuel (LoopState.start Out input) = some s' := by
  constructor
  · intro t ht
    exact ⟨(reading_of_head hin ht).suffix, advances_of_hasInput hin outputLen⟩
  · rcases exists_loop hin Out input outputLen with ⟨s', hloop, -⟩
    exact ⟨s', fun fuel hfuel => WhileLoop.run_mono hloop hfuel⟩

/-- "cé" in UTF-8. -/
def mixedText : List (CharType.ofForm .utf8).Unit :=
  [0x63#8, 0xC3#8, 0xA9#8]

theorem strToStr_progress_mixed :
    (∀ t, Head LoopState.hasInput (loopBody { defaultOpt with perfMode := .simd } 4)
        (LoopState.start (.ofForm .utf16) mixedText) t →
      t.inStr <:+ mixedText ∧
        (t.hasInput → Advances { defaultOpt with perfMode := .simd } 4 t)) ∧
    ∃ s', ∀ fuel, 3 ≤ fuel →
      strLoop { defaultOpt with perfMode := .simd } 4 fuel
        (LoopState.start (.ofForm .utf16) mixedText) = some s' :=
  strToStr_progress { defaultOpt with perfMode := .simd } rfl (.ofForm .utf8) (.ofForm .utf16)
    mixedText 4

/-! ## The count of input units -/

/-- The loop test of the call fails: it returns because the input is used up. -/
def ReachesEnd (o : Options) (In Out : CharType) (input : List In.Unit) (outputLen : Nat) :
    Prop :=
  ∃ t, Head LoopState.hasInput (loopBody o outputLen) (LoopState.start Out input) t ∧
    ¬ t.hasInput

/-- What a caller relies on who moves its own pointer on by `input_block_count_`. -/
def CountsInput (o : Options) (In Out : CharType) (input : List In.Unit) (outputLen : Nat) :
    Prop :=
  ∃ run : Run Out, strToStr o In Out input outputLen = some run ∧
    run.result.inputBlockCount ≤ input.length ∧
    (ReachesEnd o In Out input outputLen → run.result.inputBlockCount = input.length)

/-- A call that reaches the end of the input has counted it. -/
theorem inputBlockCount_of_reachesEnd {o : Options} (hin : o.inputMode = .normal)
    {input : List In.Unit} {outputLen : Nat} {run : Run Out}
    (hrun : strToStr o In Out input outputLen = some run)
    (hend : ReachesEnd o In Out input outputLen) :
    run.result.inputBlockCount = input.length := by
  rcases hend with ⟨t, ht, hexit⟩
  rcases exists_loop_of_strToStr hrun with ⟨s', hloop, rfl⟩
  rcases ht.run_eq hloop with ⟨fuel, hlast⟩
  rw [WhileLoop.run_exit hexit] at hlast
  cases hlast
  have hnil : t.inStr = [] := not_not.1 hexit
  have hcount := (reading_of_head hin ht).count
  rwa [hnil, List.length_nil, Nat.add_zero] at hcount

section CountsInput

variable {o : Options} (hin : o.inputMode = .normal) {input : List In.Unit} {outputLen : Nat}

include hin

/-- The iteration at a cut-off sequence returns with more units counted than there are. -/
theorem not_cutOff_of_countsInput (h : CountsInput o In Out input outputLen) :
    ∀ t, Head LoopState.hasInput (loopBody o outputLen) (LoopState.start Out input) t →
      ¬ In.CutOff t.inStr := by
  rcases h with ⟨run, hrun, hle, -⟩
  intro t ht hcut
  have hcond : t.hasInput := by
    intro hnil
    rw [hnil] at hcut
    exact hcut
  have hcount := (reading_of_head hin ht).count
  rcases exists_loop_of_strToStr hrun with ⟨s', hloop, rfl⟩
  rcases ht.run_eq hloop with ⟨fuel, hlast⟩
  rcases loopBody_reads hin outputLen hcond with
    ⟨k, -, -, hover, ⟨w, -, hfit, -⟩ | ⟨w, hret, hw⟩⟩
  · have hlt := hover.2 hcut
    omega
  · rcases fuel with _ | fuel
    · simp [WhileLoop.run, hcond] at hlast
    · rw [WhileLoop.run_ret hcond hret, Option.some.injEq] at hlast
      have hlt := hover.2 hcut
      have hle' : s'.result.inputBlockCount ≤ input.length := hle
      rw [← hlast, hw] at hle'
      omega

/-- Otherwise the last iteration counts a sequence that is there in full. -/
theorem countsInput_of_not_cutOff
    (h : ∀ t, Head LoopState.hasInput (loopBody o outputLen) (LoopState.start Out input) t →
      ¬ In.CutOff t.inStr) : CountsInput o In Out input outputLen := by
  rcases exists_loop hin Out input outputLen with ⟨s', hloop, hrun⟩
  refine ⟨_, hrun, ?_, inputBlockCount_of_reachesEnd hin hrun⟩
  rcases WhileLoop.exists_last_head hloop with ⟨t, ht, ⟨-, rfl⟩ | ⟨hcond, hbody⟩⟩
  · have hcount := (reading_of_head hin ht).count
    change s'.result.inputBlockCount ≤ input.length
    omega
  · have hcount := (reading_of_head hin ht).count
    rcases loopBody_reads hin outputLen hcond with
      ⟨k, -, -, hover, ⟨w, hnext, -⟩ | ⟨w, hret, hw⟩⟩
    · cases hnext.symm.trans hbody
    · cases hret.symm.trans hbody
      have hfit : ¬ t.inStr.length < k := fun hlt => h t ht (hover.1 hlt)
      change s'.result.inputBlockCount ≤ input.length
      omega

end CountsInput

/-- **The count of input units** is right exactly when no iteration of the call starts at a
sequence that the end of the input cuts off. -/
theorem countsInput_iff (o : Options) (hin : o.inputMode = .normal) (In Out : CharType)
    (input : List In.Unit) (outputLen : Nat) :
    CountsInput o In Out input outputLen ↔
      ∀ t, Head LoopState.hasInput (loopBody o outputLen) (LoopState.start Out input) t →
        ¬ In.CutOff t.inStr :=
  ⟨not_cutOff_of_countsInput hin, countsInput_of_not_cutOff hin⟩

/-- An `o` and the lead byte of a two-byte sequence: the second iteration starts at the latter. -/
theorem countsInput_iff_cut :
    ¬ CountsInput { defaultOpt with errorMode := .replace, outMode := .full } (.ofForm .utf8)
      (.ofForm .utf16) [0x6F#8, 0xC3#8] 4 := by
  intro hcounts
  have hwhole := (countsInput_iff { defaultOpt with errorMode := .replace, outMode := .full } rfl
    (.ofForm .utf8) (.ofForm .utf16) [0x6F#8, 0xC3#8] 4).1 hcounts
  have hcut : 1 < CharType.announced (.ofForm .utf8) 0xC3#8 := by
    decide
  refine hwhole _ (.next .start ?_ rfl) hcut
  exact List.cons_ne_nil _ _

/-- The lead byte alone counts for two units. -/
theorem cut_counts_two :
    (strToStr defaultOpt (.ofForm .utf8) (.ofForm .utf16) [0xC3#8] 4).map
        (fun run => run.result.inputBlockCount) = some 2 ∧
      ¬ CountsInput defaultOpt (.ofForm .utf8) (.ofForm .utf16) [0xC3#8] 4 := by
  have hcount : (strToStr defaultOpt (.ofForm .utf8) (.ofForm .utf16) [0xC3#8] 4).map
      (fun run => run.result.inputBlockCount) = some 2 := by
    decide
  refine ⟨hcount, ?_⟩
  rintro ⟨run, hrun, hle, -⟩
  rw [hrun, Option.map_some, Option.some.injEq] at hcount
  rw [hcount] at hle
  exact absurd hle (by decide)

/-! ## Calls that nothing ends early -/

section Owed

variable {o : Options} {f : Form} {outEnd : Nat}

theorem owed_ascii {us t : List Nat} (hus : ∀ u ∈ us, u < 0x80) :
    owed f 0 (us ++ t) = owed f 0 t := by
  induction us with
  | nil => rfl
  | cons u us ih =>
      rcases List.forall_mem_cons.1 hus with ⟨hu, hus⟩
      have hone : leadLength f u = 1 := by
        cases f <;> simp only [leadLength]
        · rw [if_pos (by omega)]
        · rw [if_neg (by omega)]
      rw [List.cons_append, owed_cons, hone, if_pos (by omega), List.drop_one, List.tail_cons]
      exact ih hus

/-- An iteration that continues leaves what the text owes. -/
theorem owed_next {s t : LoopState (CharType.ofForm f) Out}
    (hcond : s.hasInput) (hbody : loopBody o outEnd s = some (.next t)) :
    owed f 0 (numbers t.inStr) = owed f 0 (numbers s.inStr) := by
  by_cases hpath : fastPath o outEnd s
  · rw [loopBody, if_pos hpath] at hbody
    cases hbody
    have hsplit : s.inStr = s.block ++ (fastStep s).inStr :=
      (List.take_append_drop _ s.inStr).symm
    conv_rhs => rw [hsplit, numbers_append]
    refine (owed_ascii ?_).symm
    intro n hn
    rcases List.mem_map.1 hn with ⟨u, hu, rfl⟩
    exact fastPath_block_ascii hpath u hu
  · rcases (hasInput_iff s).1 hcond with ⟨u, rest, hs⟩
    rw [loopBody_of_slow hs hpath] at hbody
    rcases Option.map_eq_some_iff.1 hbody with ⟨r, hr, hflow⟩
    cases hv : o.verdict r with
    | item i =>
        -- The item takes the units its first unit announces.
        rw [hv] at hflow
        rcases verdict_item_units hr hv with ⟨hunits, hle⟩
        rw [announced_ofForm] at hunits
        rw [consume_next_inStr hflow, hs, hunits, numbers_drop, numbers_cons, owed_cons,
          numbers_length, if_pos (by simpa [hunits] using hle)]
    | halt k err =>
        rw [hv] at hflow
        cases hflow

/-- Under `skip` and `replace`, and if a full buffer does not end the call, an iteration that
returns has found its sequence cut off. -/
theorem cutOff_of_ret (he : o.errorMode = .skip ∨ o.errorMode = .replace)
    (hmode : o.outMode ≠ .normal) {s t : LoopState In Out} (hcond : s.hasInput)
    (hbody : loopBody o outEnd s = some (.ret t)) : In.CutOff s.inStr := by
  by_cases hpath : fastPath o outEnd s
  · rw [loopBody, if_pos hpath] at hbody
    cases hbody
  · rcases (hasInput_iff s).1 hcond with ⟨u, rest, hs⟩
    rw [loopBody_of_slow hs hpath] at hbody
    rcases Option.map_eq_some_iff.1 hbody with ⟨r, hr, hflow⟩
    by_cases htrunc : r.1 = .inTruncated
    · rw [hs]
      exact (charToUtf32_reads hr).truncated.1 htrunc
    · rcases verdict_continues he htrunc with ⟨i, hv⟩
      rw [hv] at hflow
      simp only [consume, emit] at hflow
      split at hflow
      · cases hflow
      · rw [if_neg hmode] at hflow
        split_ifs at hflow

/-- **Cut-off texts.**  Under `skip` and `replace`, in the output modes that do not return at a full
buffer, no iteration starts at a cut-off sequence exactly for the texts that owe nothing, reading by
lead units. -/
theorem not_cutOff_iff_owed (hin : o.inputMode = .normal)
    (he : o.errorMode = .skip ∨ o.errorMode = .replace) (hmode : o.outMode ≠ .normal)
    (Out : CharType) (input : List (CharType.ofForm f).Unit) (outputLen : Nat) :
    (∀ t, Head LoopState.hasInput (loopBody o outputLen) (LoopState.start Out input) t →
      ¬ (CharType.ofForm f).CutOff t.inStr) ↔ owed f 0 (numbers input) = 0 := by
  have howed : ∀ t, Head LoopState.hasInput (loopBody o outputLen)
      (LoopState.start Out input) t →
        owed f 0 (numbers t.inStr) = owed f 0 (numbers input) := by
    intro t ht
    induction ht with
    | start => rfl
    | next _ hcond hbody ih => exact (owed_next hcond hbody).trans ih
  constructor
  · intro hwhole
    rcases exists_loop hin Out input outputLen with ⟨s', hloop, -⟩
    rcases WhileLoop.exists_last_head hloop with ⟨t, ht, ⟨hexit, -⟩ | ⟨hcond, hbody⟩⟩
    · have hnil : t.inStr = [] := not_not.1 hexit
      rw [← howed t ht, hnil]
      rfl
    · exact absurd (cutOff_of_ret he hmode hcond hbody) (hwhole t ht)
  · intro hnone t ht hcut
    have hsame := howed t ht
    rcases hs : t.inStr with _ | ⟨u, rest⟩
    · rw [hs] at hcut
      exact hcut
    · rw [hs, CharType.CutOff, announced_ofForm, List.length_cons] at hcut
      rw [hs, numbers_cons, owed_cons, numbers_length, if_neg (by omega), hnone] at hsame
      omega

/-- So these texts, and no others, are counted right. -/
theorem countsInput_iff_owed (hin : o.inputMode = .normal)
    (he : o.errorMode = .skip ∨ o.errorMode = .replace) (hmode : o.outMode ≠ .normal)
    (Out : CharType) (input : List (CharType.ofForm f).Unit) (outputLen : Nat) :
    CountsInput o (.ofForm f) Out input outputLen ↔ owed f 0 (numbers input) = 0 := by
  rw [← not_cutOff_iff_owed hin he hmode Out input outputLen]
  exact ⟨not_cutOff_of_countsInput hin, countsInput_of_not_cutOff hin⟩

end Owed

end Convert
end Chenc
