import Chenc.Convert.Overflow

/-!
# CharToChar — one character to a call

Model of `char_to_char` (`convert/detail/utf_to_utf.hpp`), and of a caller who converts a text
with it.

* `charToChar` : one call;
* `charCalls` : calls on what is left of the input and of the buffer, until the input is used up
  or a call reports an error;
* `callLoop_replays` : the calls replay the scan of the text, and under `replace` a replacement of
  the sequence that the end of the text cuts off;
* `sameUnits_iff` : when the caller gets what one call of `strToStr` writes.
-/

namespace Chenc
namespace Convert

open WhileLoop (Flow)

/-! ## One call -/

/-- `result.status_ = status; result.error_ |= err`. -/
def CharResult.raise (r : CharResult) (status : Status) (err : ErrorT) : CharResult :=
  { r with
    status := status
    error := r.error ||| err.flag }

/-- The call of `utf32_to_char` and the test of `err2`. -/
def putChar (o : Options) {Out : CharType} (outputChar outputEnd : Nat) (mem : Region Out.Unit)
    (result : CharResult) : CharResult × Region Out.Unit :=
  match utf32ToChar o Out result.unicode outputChar outputEnd mem result with
  | (.none, result, mem) => (result, mem)
  | (err2, result, mem) => (result.raise .error err2, mem)

/-- `char_to_char`, on the units from `input_char` on and `output_len` units of space at the
offset `output_char`: the result and the stores. -/
def charToChar (o : Options) (In Out : CharType) (input : List In.Unit)
    (outputChar outputLen : Nat) (mem : Region Out.Unit) :
    Option (CharResult × Region Out.Unit) := do
  let (err1, result) ← charToUtf32 o In input {}
  if err1 = .none then
    some (putChar o outputChar (outputChar + outputLen) mem result)
  else
    match o.errorMode with
    | .stop | .skip => some (result.raise .error err1, mem)
    | .replace =>
        -- Every error is replaced, a truncated input included.
        some (putChar o outputChar (outputChar + outputLen) mem
          ({ result with unicode := o.replaceChar.value }.raise .partially err1))

/-! ## Call after call -/

structure CallState (In Out : CharType) where
  inStr : List In.Unit
  outStr : Nat
  mem : Region Out.Unit

variable {In Out : CharType}

def CallState.hasInput (c : CallState In Out) : Prop :=
  c.inStr ≠ []

instance : DecidablePred (CallState.hasInput : CallState In Out → Prop) := fun c => by
  unfold CallState.hasInput
  infer_instance

/-- One call on the remaining input and buffer.  The caller moves on by `input_block_` and
`output_block_`, and stops where the status is `error`. -/
def callBody (o : Options) (outputLen : Nat) (c : CallState In Out) :
    Option (Flow (CallState In Out)) := do
  let (result, mem) ← charToChar o In Out c.inStr c.outStr (outputLen - c.outStr) c.mem
  if result.status = .error then
    some (.ret { c with mem := mem })
  else
    some (.next
      { inStr := c.inStr.drop result.inputBlock
        outStr := c.outStr + result.outputBlock
        mem := mem })

def callLoop (o : Options) (outputLen : Nat) :
    Nat → CallState In Out → Option (CallState In Out) :=
  WhileLoop.run CallState.hasInput (callBody o outputLen)

/-- A text converted call by call.  Every call that does not stop reads a unit. -/
def charCalls (o : Options) (In Out : CharType) (input : List In.Unit) (outputLen : Nat) :
    Option (CallState In Out) :=
  callLoop o outputLen input.length
    { inStr := input
      outStr := 0
      mem := Region.untouched }

/-! ## A call consumes an item -/

section Status

variable {o : Options} {In : CharType} {s : List In.Unit} {p : ErrorT × CharResult}

theorem deliver_status (r : CharResult) (k : Nat) (err : ErrorT) (c : U32) :
    (r.deliver k err c).2.status = r.status := by
  unfold CharResult.deliver
  split_ifs <;> rfl

theorem utf8TwoBytes_status (h : utf8TwoBytes o s {} = some p) : p.2.status = .ok := by
  rcases utf8TwoBytes_cases h with ⟨-, rfl⟩ | ⟨u0, u1, t, rfl⟩
  · rfl
  · simp only [utf8TwoBytes_cons] at h
    split_ifs at h <;> cases h
    · rfl
    · exact deliver_status _ _ _ _

theorem utf8ThreeBytes_status (h : utf8ThreeBytes o s {} = some p) : p.2.status = .ok := by
  rcases utf8ThreeBytes_cases h with ⟨-, rfl⟩ | ⟨u0, u1, u2, t, rfl⟩
  · rfl
  · simp only [utf8ThreeBytes_cons] at h
    split_ifs at h <;> cases h
    · rfl
    · exact deliver_status _ _ _ _

theorem utf8FourBytes_status (h : utf8FourBytes o s {} = some p) : p.2.status = .ok := by
  rcases utf8FourBytes_cases h with ⟨-, rfl⟩ | ⟨u0, u1, u2, u3, t, rfl⟩
  · rfl
  · simp only [utf8FourBytes_cons] at h
    split_ifs at h <;> cases h
    · rfl
    · exact deliver_status _ _ _ _

theorem utf8ToUtf32_status (h : utf8ToUtf32 o s {} = some p) : p.2.status = .ok := by
  simp only [utf8ToUtf32, Option.bind_eq_bind, Option.bind_eq_some_iff] at h
  rcases h with ⟨u, -, h⟩
  split_ifs at h
  · cases h
    rfl
  · exact utf8TwoBytes_status h
  · exact utf8ThreeBytes_status h
  · exact utf8FourBytes_status h
  · cases h
    rfl

theorem utf16ToUtf32_status (h : utf16ToUtf32 o s {} = some p) : p.2.status = .ok := by
  simp only [utf16ToUtf32, Option.bind_eq_bind, Option.bind_eq_some_iff] at h
  rcases h with ⟨u, -, h⟩
  split_ifs at h
  · cases h
    exact deliver_status _ _ _ _
  · cases h
    rfl
  · rcases Option.bind_eq_some_iff.1 h with ⟨u1, -, h⟩
    split_ifs at h <;> cases h
    · rfl
    · exact deliver_status _ _ _ _
  · cases h
    rfl

/-- Decoding leaves the status to its caller. -/
theorem charToUtf32_status (h : charToUtf32 o In s {} = some p) : p.2.status = .ok := by
  unfold charToUtf32 at h
  split_ifs at h
  · cases h
    rfl
  · cases hf : In.form with
    | utf8 =>
        simp only [hf] at h
        exact utf8ToUtf32_status h
    | utf16 =>
        simp only [hf] at h
        exact utf16ToUtf32_status h
    | utf32 =>
        simp only [hf, utf32ToUtf32, Option.bind_eq_bind, Option.bind_eq_some_iff] at h
        rcases h with ⟨u, -, h⟩
        cases h
        exact deliver_status _ _ _ _

end Status

/-- The part of a loop state that the caller has too. -/
def LoopState.calls (s : LoopState In Out) : CallState In Out :=
  { inStr := s.inStr
    outStr := s.outStr
    mem := s.mem }

section Calls

variable {o : Options} {n : Nat}

theorem putChar_eq (hm : o.outMode = .normal) (outputChar : Nat) (mem : Region Out.Unit)
    (r : CharResult) :
    putChar o outputChar n mem r =
      if n < outputChar + (utf32Units Out r.unicode).length then
        ((r.putOutput (utf32Units Out r.unicode).length).raise .error .outOverflow, mem)
      else
        (r.putOutput (utf32Units Out r.unicode).length,
          mem.storeAll outputChar (utf32Units Out r.unicode)) := by
  rw [putChar, putUnits_eq]
  by_cases hover : n < outputChar + (utf32Units Out r.unicode).length
  · simp [Options.checksOutput, hm, hover]
  · simp [hm, hover]

/-- The two ends of a call for an item with a character: it does not fit, or it is written. -/
theorem callBody_of_putChar (hm : o.outMode = .normal) {s : LoopState In Out}
    (hroom : s.outStr ≤ n) {r : CharResult} {i : Item}
    (hcall : charToChar o In Out s.inStr s.outStr (n - s.outStr) s.mem =
      some (putChar o s.outStr (s.outStr + (n - s.outStr)) s.mem r))
    (hin : r.inputBlock = i.units) (hout : r.outputBlock = 0) (hstatus : r.status ≠ .error)
    (hcode : i.code = some r.unicode) :
    (∃ t, consume o n i s = .next t ∧ callBody o n s.calls = some (.next t.calls)) ∨
      ∃ t, consume o n i s = .ret t ∧ t.mem = s.mem ∧ t.outStr = s.outStr ∧
        callBody o n s.calls = some (.ret s.calls) := by
  have hend : s.outStr + (n - s.outStr) = n := by omega
  rw [hend, putChar_eq hm] at hcall
  have hstored : ∀ us : List Out.Unit, o.stored us = us := Options.stored_eq_self (.inl hm)
  unfold consume
  simp only [hcode, emit]
  by_cases hover : n < s.outStr + (utf32Units Out r.unicode).length
  · -- Neither writes anything: the loop returns, and the call's status is `error`.
    have hlong : o.checksOutput ∧
        n < (i.accept s).outStr + (utf32Units Out r.unicode).length := ⟨.inl hm, hover⟩
    refine .inr ⟨(i.accept s).raise .error .outOverflow, by rw [if_pos hlong, if_pos hm], rfl, rfl,
      ?_⟩
    rw [if_pos hover] at hcall
    simp only [callBody, LoopState.calls, hcall, Option.bind_eq_bind, Option.bind_some]
    rfl
  · -- Both write the character, and the caller moves on as the loop does.
    have hshort : ¬ (o.checksOutput ∧
        n < (i.accept s).outStr + (utf32Units Out r.unicode).length) := fun h => hover h.2
    refine .inl ⟨_, by rw [if_neg hshort], ?_⟩
    rw [if_neg hover] at hcall
    simp only [callBody, LoopState.calls, hcall, Option.bind_eq_bind, Option.bind_some,
      CharResult.putOutput, if_neg hstatus, hin, hout, LoopState.write, Item.accept, hstored,
      Nat.zero_add]

/-- Under `replace` a call replaces every sequence it cannot decode. -/
theorem callBody_of_replaced (hrep : o.errorMode = .replace) (hm : o.outMode = .normal)
    {s : LoopState In Out} (hroom : s.outStr ≤ n) {err : ErrorT} {cr : CharResult} {i : Item}
    (hr : charToUtf32 o In s.inStr {} = some (err, cr)) (herr : err ≠ .none)
    (hin : cr.inputBlock = i.units) (hout : cr.outputBlock = 0)
    (hcode : i.code = some o.replaceChar.value) :
    (∃ t, consume o n i s = .next t ∧ callBody o n s.calls = some (.next t.calls)) ∨
      ∃ t, consume o n i s = .ret t ∧ t.mem = s.mem ∧ t.outStr = s.outStr ∧
        callBody o n s.calls = some (.ret s.calls) := by
  have hcall : charToChar o In Out s.inStr s.outStr (n - s.outStr) s.mem =
      some (putChar o s.outStr (s.outStr + (n - s.outStr)) s.mem
        ({ cr with unicode := o.replaceChar.value }.raise .partially err)) := by
    simp only [charToChar, hr, Option.bind_eq_bind, Option.bind_some, if_neg herr, hrep]
  exact callBody_of_putChar hm hroom hcall hin hout (by simp [CharResult.raise]) hcode

theorem callBody_of_item (hskip : o.errorMode ≠ .skip) (hm : o.outMode = .normal)
    {s : LoopState In Out} (hroom : s.outStr ≤ n) {u : In.Unit} {t : List In.Unit}
    {r : ErrorT × CharResult} {i : Item} (hs : s.inStr = u :: t)
    (hr : charToUtf32 o In (u :: t) {} = some r) (hv : o.verdict r = .item i) :
    (∃ t, consume o n i s = .next t ∧ callBody o n s.calls = some (.next t.calls)) ∨
      ∃ t, consume o n i s = .ret t ∧ t.mem = s.mem ∧ t.outStr = s.outStr ∧
        callBody o n s.calls = some (.ret s.calls) := by
  have hout := (charToUtf32_reads hr).output
  rw [← hs] at hr
  rcases r with ⟨err, cr⟩
  by_cases herr : err = .none
  · subst herr
    cases hv
    have hcall : charToChar o In Out s.inStr s.outStr (n - s.outStr) s.mem =
        some (putChar o s.outStr (s.outStr + (n - s.outStr)) s.mem cr) := by
      simp only [charToChar, hr, Option.bind_eq_bind, Option.bind_some, if_true]
    have hok : cr.status = .ok := charToUtf32_status hr
    exact callBody_of_putChar hm hroom hcall rfl hout (by simp [hok]) rfl
  · -- Of the errors only those that are replaced leave an item.
    rcases verdict_item_of_error hv herr with ⟨hin, ⟨hmode, -⟩ | ⟨hmode, hcode⟩⟩
    · exact absurd hmode hskip
    · exact callBody_of_replaced hmode hm hroom hr herr hin hout hcode

/-- Where the calls stop: `stop` ends them at an error as it ends the loop. -/
theorem callBody_of_stop (hstop : o.errorMode = .stop) {s : LoopState In Out} {err : ErrorT}
    {cr : CharResult} (hr : charToUtf32 o In s.inStr {} = some (err, cr)) (herr : err ≠ .none) :
    callBody o n s.calls = some (.ret s.calls) := by
  simp only [callBody, LoopState.calls, charToChar, hr, Option.bind_eq_bind, Option.bind_some,
    if_neg herr, hstop, CharResult.raise, if_true]

end Calls

/-! ## Call after call along a scan -/

/-- What the calls put in the place of a sequence that the text cuts off. -/
def Options.cutItem (o : Options) (units : Nat) : Item :=
  { units := units
    error := .inTruncated
    code := some o.replaceChar.value }

/-- The item that the calls read beyond a scan.  Under `replace` a text that is not read to its
end ends inside a sequence. -/
def Options.beyond (o : Options) : Ending → List Item
  | .halt k _ => if o.errorMode = .replace then [o.cutItem k] else []
  | .done | .fault => []

theorem verdict_halt_truncated {o : Options} (hrep : o.errorMode = .replace)
    {r : ErrorT × CharResult} {k : Nat} {err : ErrorT} (hv : o.verdict r = .halt k err) :
    r.1 = .inTruncated := by
  by_contra hne
  rcases verdict_continues (.inr hrep) hne with ⟨i, hi⟩
  rw [hi] at hv
  cases hv

theorem Scan.halt_truncated {o : Options} (hrep : o.errorMode = .replace) {input : List In.Unit}
    {items : List Item} {e : Ending} (h : Scan o input items e) {k : Nat} {err : ErrorT}
    (he : e = .halt k err) : err = .inTruncated := by
  induction h with
  | nil => cases he
  | item _ _ _ ih => exact ih he
  | halt _ hv =>
      cases he
      exact (verdict_halt_error hv).1.symm.trans (verdict_halt_truncated hrep hv)
  | fault _ => cases he

theorem consume_next_room {o : Options} {n : Nat} (hm : o.outMode = .normal) {i : Item}
    {s t : LoopState In Out} (hroom : s.outStr ≤ n) (h : consume o n i s = .next t) :
    t.outStr ≤ n := by
  unfold consume emit at h
  split at h
  · cases h
    exact hroom
  · split_ifs at h with hover
    have hfit := Nat.le_of_not_lt fun hlt => hover ⟨.inl hm, hlt⟩
    cases h
    refine le_trans ?_ hfit
    exact Nat.add_le_add_left (o.stored_length_le _) _

/-- **The calls replay the scan**, and what they read beyond it. -/
theorem callLoop_replays {o : Options} {n : Nat} (hskip : o.errorMode ≠ .skip)
    (hm : o.outMode = .normal) {input : List In.Unit} {items : List Item} {e : Ending}
    (hscan : Scan o input items e) (he : e ≠ .fault) {fuel : Nat} (hfuel : input.length ≤ fuel)
    {s : LoopState In Out} (hin : s.inStr = input) (hroom : s.outStr ≤ n) :
    ∃ c s', callLoop o n fuel s.calls = some c ∧
      replay o n (items ++ o.beyond e) .done s = some s' ∧ c.mem = s'.mem ∧
      c.outStr = s'.outStr := by
  induction hscan generalizing fuel s with
  | nil =>
      have hexit : ¬ s.calls.hasInput := fun hc => hc hin
      exact ⟨s.calls, s, WhileLoop.run_exit hexit fuel, rfl, rfl, rfl⟩
  | @item u t r i items e hr hv _ ih =>
      have hcond : s.calls.hasInput := by simp [CallState.hasInput, LoopState.calls, hin]
      have hpos := verdict_item_pos hr hv
      rcases fuel with _ | fuel
      · simp at hfuel
      · rw [List.cons_append, replay]
        rcases callBody_of_item hskip hm hroom hin hr hv with
          ⟨v, hnext, hcall⟩ | ⟨v, hret, hmem, hout, hcall⟩
        · have hdrop := consume_next_inStr hnext
          rw [hin] at hdrop
          rw [hnext, callLoop, WhileLoop.run_next hcond hcall]
          refine ih he ?_ hdrop ?_
          · rw [List.length_drop]
            omega
          · exact consume_next_room hm hroom hnext
        · rw [hret, callLoop, WhileLoop.run_ret hcond hcall]
          exact ⟨_, _, rfl, rfl, hmem.symm, hout.symm⟩
  | @halt u t r k err hr hv =>
      have hcond : s.calls.hasInput := by simp [CallState.hasInput, LoopState.calls, hin]
      have hunits := verdict_halt_units hv
      have hreads := charToUtf32_reads hr
      rcases r with ⟨err', cr⟩
      rcases verdict_halt_error hv with ⟨rfl, herr⟩
      have hr' : charToUtf32 o In s.inStr {} = some (err', cr) := by rw [hin, hr]
      rcases fuel with _ | fuel
      · simp at hfuel
      · cases hmode : o.errorMode with
        | stop =>
            rw [callLoop, WhileLoop.run_ret hcond (callBody_of_stop hmode hr' herr)]
            simp only [Options.beyond, hmode, reduceCtorEq, if_false, List.append_nil]
            exact ⟨_, _, rfl, rfl, rfl, rfl⟩
        | skip => exact absurd hmode hskip
        | replace =>
            -- The sequence is cut off, so its replacement is the last thing the calls read.
            have htrunc : err' = .inTruncated := verdict_halt_truncated hmode hv
            have hcut : (u :: t).drop k = [] := by
              have hlt := hreads.truncated.1 htrunc
              have hann : k = In.announced u := hunits.trans hreads.input
              exact List.drop_of_length_le (hann ▸ hlt.le)
            simp only [Options.beyond, hmode, if_true, List.nil_append, replay]
            rcases callBody_of_replaced (i := o.cutItem k) hmode hm hroom hr' herr hunits.symm
              hreads.output rfl with ⟨v, hnext, hcall⟩ | ⟨v, hret, hmem, hout, hcall⟩
            · have hexit : ¬ v.calls.hasInput := by
                have hdrop := consume_next_inStr hnext
                rw [hin] at hdrop
                exact fun hc => hc (hdrop.trans hcut)
              rw [hnext, callLoop, WhileLoop.run_next hcond hcall, WhileLoop.run_exit hexit]
              exact ⟨_, _, rfl, rfl, rfl, rfl⟩
            · rw [hret, callLoop, WhileLoop.run_ret hcond hcall]
              exact ⟨_, _, rfl, rfl, hmem.symm, hout.symm⟩
  | fault _ => exact absurd rfl he

/-! ## Both entry points -/

section Entry

variable {o : Options} {n : Nat} (hskip : o.errorMode ≠ .skip) (hm : o.outMode = .normal)
  {input : List In.Unit} {items : List Item} {e : Ending} (hscan : Scan o input items e)
  (he : e ≠ .fault)

include hskip hm hscan he

theorem charCalls_of_fits (hfit : (output Out (items ++ o.beyond e)).length ≤ n) :
    ∃ c, charCalls o In Out input n = some c ∧
      c.mem = Region.filled (output Out (items ++ o.beyond e)) ∧
      c.outStr = (output Out (items ++ o.beyond e)).length := by
  have hstored : ∀ us : List Out.Unit, o.stored us = us := Options.stored_eq_self (.inl hm)
  rcases callLoop_replays (s := LoopState.start Out input) hskip hm hscan he (le_refl _) rfl
    (Nat.zero_le _) with ⟨c, s', hcalls, hreplay, hmem, hout⟩
  have hroom : o.checksOutput → (LoopState.start Out input : LoopState In Out).outStr +
      (output Out (items ++ o.beyond e)).length ≤ n := by
    simpa [LoopState.start] using fun _ => hfit
  have hall := replay_append_of_fits [] .done hroom
  rw [List.append_nil, hreplay] at hall
  cases hall
  refine ⟨c, hcalls, ?_, ?_⟩
  · rw [hmem]
    simp only [LoopState.advance, LoopState.start, hstored, storeAll_untouched]
  · rw [hout]
    simp only [LoopState.advance, LoopState.start, hstored, Nat.zero_add]

theorem charCalls_of_misfit {xs ys : List Item} {i : Item}
    (hsplit : items ++ o.beyond e = xs ++ i :: ys) (hfit : (output Out xs).length ≤ n)
    (hover : n < (output Out xs).length + (i.output Out).length) :
    ∃ c, charCalls o In Out input n = some c ∧ c.mem = Region.filled (output Out xs) ∧
      c.outStr = (output Out xs).length := by
  have hstored : ∀ us : List Out.Unit, o.stored us = us := Options.stored_eq_self (.inl hm)
  rcases callLoop_replays (s := LoopState.start Out input) hskip hm hscan he (le_refl _) rfl
    (Nat.zero_le _) with ⟨c, s', hcalls, hreplay, hmem, hout⟩
  have hstop : replay o n (xs ++ i :: ys) .done (LoopState.start Out input) =
      some ((i.accept ((LoopState.start Out input).advance o xs)).raise .error .outOverflow) :=
    replay_overflow hm ((Nat.zero_add _).trans_le hfit) (by rwa [LoopState.start, Nat.zero_add])
  rw [hsplit, hstop] at hreplay
  cases hreplay
  refine ⟨c, hcalls, ?_, ?_⟩
  · rw [hmem]
    simp only [LoopState.raise, Item.accept, LoopState.advance, LoopState.start, hstored,
      storeAll_untouched]
  · rw [hout]
    simp only [LoopState.raise, Item.accept, LoopState.advance, LoopState.start, hstored,
      Nat.zero_add]

end Entry

/-- Character by character and in one call, the text becomes the same units in the same number. -/
def SameUnits (o : Options) (In Out : CharType) (input : List In.Unit) (outputLen : Nat) : Prop :=
  ∃ c run, charCalls o In Out input outputLen = some c ∧
    strToStr o In Out input outputLen = some run ∧
    c.mem = run.mem ∧ c.outStr = run.result.outputBlockCount

/-- Errors are replaced, the text ends inside a sequence, and behind what stands for the text up
to there the buffer has room for the replacement character. -/
def Options.ReplacesCut (o : Options) (In Out : CharType) (input : List In.Unit)
    (outputLen : Nat) : Prop :=
  o.errorMode = .replace ∧ ∃ items k, Scan o input items (.halt k .inTruncated) ∧
    (output Out items).length + (utf32Units Out o.replaceChar.value).length ≤ outputLen

theorem replacesCut_iff {o : Options} {input : List In.Unit} {items : List Item} {e : Ending}
    (hscan : Scan o input items e) (n : Nat) :
    o.ReplacesCut In Out input n ↔
      o.beyond e ≠ [] ∧ (output Out (items ++ o.beyond e)).length ≤ n := by
  constructor
  · rintro ⟨hrep, items', k, hscan', hfit⟩
    rcases hscan.unique hscan' with ⟨rfl, rfl⟩
    simp only [Options.beyond, hrep, if_true, ne_eq, reduceCtorEq, not_false_iff, true_and]
    simpa [Item.output, Options.cutItem] using hfit
  · rintro ⟨hne, hfit⟩
    cases e with
    | done => exact absurd rfl hne
    | fault => exact absurd rfl hne
    | halt k err =>
        by_cases hrep : o.errorMode = .replace
        · cases hscan.halt_truncated hrep rfl
          refine ⟨hrep, items, k, hscan, ?_⟩
          simpa [Options.beyond, hrep, Item.output, Options.cutItem] using hfit
        · simp [Options.beyond, hrep] at hne

theorem beyond_cases (o : Options) (Out : CharType) (e : Ending) :
    o.beyond e = [] ∨ ∃ i, o.beyond e = [i] ∧ i.output Out ≠ [] := by
  cases e with
  | done => exact .inl rfl
  | fault => exact .inl rfl
  | halt k err =>
      simp only [Options.beyond]
      split_ifs
      · refine .inr ⟨_, rfl, ?_⟩
        exact List.length_pos_iff.1 (utf32Units_length_pos Out o.replaceChar.value)
      · exact .inl rfl

/-- What both callers find in the buffer decides. -/
theorem sameUnits_iff_eq {o : Options} {input : List In.Unit} {n : Nat} {c : CallState In Out}
    {run : Run Out} {w v : List Out.Unit} (hcalls : charCalls o In Out input n = some c)
    (hrun : strToStr o In Out input n = some run)
    (hc : c.mem = Region.filled w ∧ c.outStr = w.length)
    (hv : run.mem = Region.filled v ∧ run.result.outputBlockCount = v.length) :
    SameUnits o In Out input n ↔ w = v := by
  constructor
  · rintro ⟨c', run', hcalls', hrun', hmem, hlen⟩
    cases hcalls.symm.trans hcalls'
    cases hrun.symm.trans hrun'
    rw [hc.1, hv.1] at hmem
    rw [hc.2, hv.2] at hlen
    calc
      w = (Region.filled w).front w.length := by rw [Region.front_filled, List.take_length]
      _ = (Region.filled v).front v.length := by rw [hmem, hlen]
      _ = v := by rw [Region.front_filled, List.take_length]
  · rintro rfl
    exact ⟨c, run, hcalls, hrun, hc.1.trans hv.1.symm, hc.2.trans hv.2.symm⟩

/-- **One character to a call.**  With errors stopping the conversion or replaced, the calls write
what one call of `strToStr` writes unless a sequence cut off by the end of the text is replaced:
`strToStr` reports it and writes nothing for it. -/
theorem sameUnits_iff (o : Options) (In Out : CharType) (input : List In.Unit) (outputLen : Nat)
    (herr : o.errorMode = .stop ∨ o.errorMode = .replace) (hin : o.inputMode = .normal)
    (hm : o.outMode = .normal) (hperf : o.perfMode = .normal) :
    SameUnits o In Out input outputLen ↔ ¬ o.ReplacesCut In Out input outputLen := by
  have hskip : o.errorMode ≠ .skip := by rcases herr with h | h <;> simp [h]
  rcases Scan.exists o input with ⟨items, e, hscan⟩
  have he : e ≠ .fault := hscan.ne_fault hin
  rw [replacesCut_iff hscan]
  by_cases hitems : (output Out items).length ≤ outputLen
  · rcases exists_run_of_room (.inl hm) hscan he hitems with ⟨run, r, hr, hrun, hres, hmem, -⟩
    have hcount : run.result.outputBlockCount = (output Out items).length := by
      rw [hres]
      simp [StrResult.credit, (Ending.close_tally_outputCounts hr).1]
    by_cases hall : (output Out (items ++ o.beyond e)).length ≤ outputLen
    · -- The calls write everything, so all depends on what they read beyond the scan.
      rcases charCalls_of_fits hskip hm hscan he hall with ⟨c, hcalls, hc⟩
      rw [sameUnits_iff_eq hcalls hrun hc ⟨hmem, hcount⟩]
      rcases beyond_cases o Out e with hnil | ⟨i, hi, hne⟩
      · simp [hnil]
      · have hlonger : output Out (items ++ o.beyond e) ≠ output Out items := by
          simp [hi, hne]
        exact iff_of_false hlonger fun h => h ⟨by simp [hi], hall⟩
    · -- The replacement does not fit.
      rcases beyond_cases o Out e with hnil | ⟨i, hi, -⟩
      · rw [hnil, List.append_nil] at hall
        exact absurd hitems hall
      · have hover : outputLen < (output Out items).length + (i.output Out).length := by
          rw [hi, output_append] at hall
          simpa using hall
        have hsplit : items ++ o.beyond e = items ++ i :: [] := by rw [hi]
        rcases charCalls_of_misfit hskip hm hscan he hsplit hitems hover with ⟨c, hcalls, hc⟩
        rw [sameUnits_iff_eq hcalls hrun hc ⟨hmem, hcount⟩]
        exact iff_of_true rfl fun h => hall h.2
  · -- Both stop at the first character that does not fit.
    rcases exists_item_misfit (Nat.lt_of_not_le hitems) with ⟨xs, i, ys, rfl, hxs, hover⟩
    have hsplit : xs ++ i :: ys ++ o.beyond e = xs ++ i :: (ys ++ o.beyond e) := by simp
    rcases charCalls_of_misfit hskip hm hscan he hsplit hxs hover with ⟨c, hcalls, hc⟩
    have hrun := strToStr_of_misfit hperf hm hscan hxs hover
    have hcount := (tally_outputCounts (xs ++ [i]) {}).1
    rw [sameUnits_iff_eq hcalls hrun hc
      ⟨rfl, by simp [StrResult.raise, StrResult.credit, hcount]⟩]
    refine iff_of_true rfl fun h => hitems (le_trans ?_ h.2)
    rw [output_append Out (xs ++ i :: ys), List.length_append]
    exact Nat.le_add_right _ _

/-- "o" and the first byte of "é" behind it, into room for the letter only. -/
theorem sameUnits_iff_cut :
    SameUnits { defaultOpt with errorMode := .replace } (.ofForm .utf8) (.ofForm .utf16)
        [0x6F#8, 0xC3#8] 1 ↔
      ¬ Options.ReplacesCut { defaultOpt with errorMode := .replace } (.ofForm .utf8)
        (.ofForm .utf16) [0x6F#8, 0xC3#8] 1 :=
  sameUnits_iff _ _ _ _ _ (.inr rfl) rfl rfl rfl

/-- For that byte alone the calls write a replacement character, `strToStr` nothing. -/
theorem not_sameUnits_cut :
    ¬ SameUnits { defaultOpt with errorMode := .replace } (.ofForm .utf8) (.ofForm .utf16)
      [0xC3#8] 1 := by
  have hcalls : (charCalls { defaultOpt with errorMode := .replace } (.ofForm .utf8)
      (.ofForm .utf16) [0xC3#8] 1).map CallState.outStr = some 1 := by decide
  have hrun : (strToStr { defaultOpt with errorMode := .replace } (.ofForm .utf8)
      (.ofForm .utf16) [0xC3#8] 1).map (fun run => run.result.outputBlockCount) = some 0 := by
    decide
  rintro ⟨c, run, hc, hr, -, hlen⟩
  rw [hc, Option.map_some, Option.some.injEq] at hcalls
  rw [hr, Option.map_some, Option.some.injEq] at hrun
  omega

end Convert
end Chenc
