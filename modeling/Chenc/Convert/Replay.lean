import Chenc.Convert.Scan

/-!
# Replay — what a scanned text does to the loop state

The loop of `strToStr` without its eight-byte path is the replay of the scan of its input:

* `consume`, `replay` : the effect of one item and of a list of items;
* `strLoop_eq_replay` : the loop is the replay of the scan as far as fast steps agree with it;
* `replay_append_of_fits` : the closed form of a replay that does not run out of space;
* `completeConversion_eq` : the complete conversion is the output of the scan.
-/

namespace Chenc
namespace Convert

open WhileLoop (Flow)

/-! ## The input side of an item -/

def Item.tally (i : Item) (r : StrResult) : StrResult :=
  if i.error = .none then
    r.charge i.units 1 0
  else
    (r.charge i.units 0 1).raise .partially i.error

/-- The counters, the status and the errors after the items. -/
def tally (items : List Item) (r : StrResult) : StrResult :=
  items.foldl (fun r i => i.tally r) r

/-- The result a text with this ending is left with; none after a read past its end. -/
def Ending.close : Ending → StrResult → Option StrResult
  | .done, r => some r
  | .halt k err, r => some ((r.charge k 0 1).raise .error err)
  | .fault, _ => none

@[simp] theorem tally_nil (r : StrResult) : tally [] r = r := rfl

@[simp] theorem tally_cons (i : Item) (items : List Item) (r : StrResult) :
    tally (i :: items) r = tally items (i.tally r) := rfl

theorem tally_append (items more : List Item) (r : StrResult) :
    tally (items ++ more) r = tally more (tally items r) :=
  List.foldl_append

@[simp] theorem credit_zero (r : StrResult) : r.credit 0 0 = r := rfl

theorem credit_credit (r : StrResult) (a b c d : Nat) :
    (r.credit a b).credit c d = r.credit (a + c) (b + d) := by
  simp [StrResult.credit, Nat.add_assoc]

theorem Item.tally_credit (i : Item) (r : StrResult) (a b : Nat) :
    i.tally (r.credit a b) = (i.tally r).credit a b := by
  unfold Item.tally
  split_ifs <;> rfl

theorem tally_credit (items : List Item) (r : StrResult) (a b : Nat) :
    tally items (r.credit a b) = (tally items r).credit a b := by
  induction items generalizing r with
  | nil => rfl
  | cons i items ih =>
      rw [tally_cons, tally_cons, Item.tally_credit, ih]

theorem Ending.close_credit (e : Ending) (r : StrResult) (a b : Nat) :
    e.close (r.credit a b) = (e.close r).map fun r => r.credit a b := by
  cases e <;> rfl

theorem Ending.close_isSome {e : Ending} (he : e ≠ .fault) (r : StrResult) :
    ∃ r', e.close r = some r' := by
  cases e with
  | done => exact ⟨_, rfl⟩
  | halt k err => exact ⟨_, rfl⟩
  | fault => exact absurd rfl he

/-! ## The output side of an item -/

def Item.output (Out : CharType) (i : Item) : List Out.Unit :=
  match i.code with
  | none => []
  | some c => utf32Units Out c

theorem Item.output_of_none {i : Item} (h : i.code = none) : i.output Out = [] := by
  rw [Item.output, h]

theorem Item.output_of_some {i : Item} {c : U32} (h : i.code = some c) :
    i.output Out = utf32Units Out c := by
  rw [Item.output, h]

/-- The units an unbounded buffer receives for the items. -/
def output (Out : CharType) (items : List Item) : List Out.Unit :=
  items.flatMap (Item.output Out)

@[simp] theorem output_nil (Out : CharType) : output Out [] = [] := rfl

@[simp] theorem output_cons (Out : CharType) (i : Item) (items : List Item) :
    output Out (i :: items) = i.output Out ++ output Out items := rfl

@[simp] theorem output_append (Out : CharType) (items more : List Item) :
    output Out (items ++ more) = output Out items ++ output Out more :=
  List.flatMap_append

theorem Item.output_length_le_four (Out : CharType) (i : Item) : (i.output Out).length ≤ 4 := by
  unfold Item.output
  split
  · simp
  · exact utf32Units_length_le_four Out _

theorem output_length_le (Out : CharType) (items : List Item) :
    (output Out items).length ≤ 4 * items.length := by
  induction items with
  | nil => simp
  | cons i items ih =>
      have hi := i.output_length_le_four Out
      simp only [output_cons, List.length_append, List.length_cons]
      omega

/-- The units an output mode stores, of the units it handles. -/
def Options.stored (o : Options) {α : Type} (us : List α) : List α :=
  if o.outMode = .count then [] else us

/-- What an output mode adds to `need_output_block_count_` for `k` units. -/
def Options.needed (o : Options) (k : Nat) : Nat :=
  if o.outMode = .count ∨ o.outMode = .full then k else 0

@[simp] theorem Options.stored_nil (o : Options) (α : Type) : o.stored ([] : List α) = [] := by
  simp [Options.stored]

@[simp] theorem Options.needed_zero (o : Options) : o.needed 0 = 0 := by
  simp [Options.needed]

/-- In these modes everything is stored and no total is kept. -/
theorem Options.stored_eq_self {o : Options}
    (hmode : o.outMode = .normal ∨ o.outMode = .noneCheckBuffer) {α : Type} (us : List α) :
    o.stored us = us := by
  rcases hmode with hm | hm <;> simp [Options.stored, hm]

theorem Options.needed_eq_zero {o : Options}
    (hmode : o.outMode = .normal ∨ o.outMode = .noneCheckBuffer) (k : Nat) : o.needed k = 0 := by
  rcases hmode with hm | hm <;> simp [Options.needed, hm]

theorem Options.stored_append (o : Options) {α : Type} (us vs : List α) :
    o.stored (us ++ vs) = o.stored us ++ o.stored vs := by
  unfold Options.stored
  split_ifs <;> rfl

theorem Options.stored_length_le (o : Options) {α : Type} (us : List α) :
    (o.stored us).length ≤ us.length := by
  unfold Options.stored
  split_ifs <;> simp

theorem Options.needed_add (o : Options) (j k : Nat) :
    o.needed (j + k) = o.needed j + o.needed k := by
  unfold Options.needed
  split_ifs <;> rfl

variable {In Out : CharType}

/-- `us` is stored and counted, and `need` units are added to the total. -/
def LoopState.write (s : LoopState In Out) (us : List Out.Unit) (need : Nat) :
    LoopState In Out :=
  { s with
    outStr := s.outStr + us.length
    mem := s.mem.storeAll s.outStr us
    result := s.result.credit us.length need }

/-- One character of the output, in the four output modes. -/
def emit (o : Options) (outEnd : Nat) (us : List Out.Unit) (s : LoopState In Out) :
    Flow (LoopState In Out) :=
  if o.checksOutput ∧ outEnd < s.outStr + us.length then
    if o.outMode = .normal then
      .ret (s.raise .error .outOverflow)
    else
      .next ((s.write [] us.length).raise .partially .outOverflow)
  else
    .next (s.write (o.stored us) (o.needed us.length))

def Item.accept (i : Item) (s : LoopState In Out) : LoopState In Out :=
  { s with
    inStr := s.inStr.drop i.units
    result := i.tally s.result }

def consume (o : Options) (outEnd : Nat) (i : Item) (s : LoopState In Out) :
    Flow (LoopState In Out) :=
  match i.code with
  | none => .next (i.accept s)
  | some c => emit o outEnd (utf32Units Out c) (i.accept s)

def replay (o : Options) (outEnd : Nat) :
    List Item → Ending → LoopState In Out → Option (LoopState In Out)
  | [], e, s => (e.close s.result).map fun r => { s with result := r }
  | i :: items, e, s =>
      match consume o outEnd i s with
      | .next t => replay o outEnd items e t
      | .ret t => some t

/-! ## One iteration consumes one item -/

/-- The switch over `err2` is `emit`. -/
theorem outputStep_eq (o : Options) (outEnd : Nat) (cr : CharResult) (hcr : cr.outputBlock = 0)
    (s : LoopState In Out) :
    outputStep o outEnd cr s = emit o outEnd (utf32Units Out cr.unicode) s := by
  unfold outputStep emit
  rw [putUnits_eq]
  by_cases hover : o.checksOutput ∧ outEnd < s.outStr + (utf32Units Out cr.unicode).length
  · -- Only the two modes that check can find the buffer full.
    rcases hover with ⟨hm | hm, hlt⟩ <;>
      simp [Options.checksOutput, hm, hlt, CharResult.putOutput, hcr, LoopState.raise,
        LoopState.write]
  · rw [if_neg hover, if_neg hover]
    cases hm : o.outMode <;>
      simp [hm, CharResult.putOutput, hcr, LoopState.write, Options.stored, Options.needed]

/-- **One iteration of the slow path.** -/
theorem slowStep_eq (o : Options) (outEnd : Nat) {s : LoopState In Out} {u : In.Unit}
    {t : List In.Unit} (hs : s.inStr = u :: t) :
    slowStep o outEnd s = (charToUtf32 o In (u :: t) {}).map fun r =>
      match o.verdict r with
      | .item i => consume o outEnd i s
      | .halt k err => .ret ((s.charge k 0 1).raise .error err) := by
  unfold slowStep
  rw [hs]
  cases hr : charToUtf32 o In (u :: t) {} with
  | none => rfl
  | some r =>
      have hreads := charToUtf32_reads hr
      rcases r with ⟨err, cr⟩
      have hout : cr.outputBlock = 0 := hreads.output
      have hover : err ≠ .outOverflow := hreads.notOverflow
      simp only [Option.bind_eq_bind, Option.bind_some, Option.map_some]
      cases err
      case none =>
        simp only [Options.verdict, consume, outputStep_eq o outEnd cr hout]
        rfl
      case inTruncated => rfl
      case outOverflow => exact absurd rfl hover
      -- The five content errors share the switch over the error mode.
      all_goals
        simp only [Options.verdict]
        cases hm : o.errorMode
        · rfl
        · rfl
        · -- `replace` hands on the replacement character in place of what was decoded.
          simp only [consume]
          rw [outputStep_eq o outEnd { cr with unicode := o.replaceChar.value } hout]
          rfl

theorem hasInput_iff (s : LoopState In Out) :
    s.hasInput ↔ ∃ u t, s.inStr = u :: t := by
  unfold LoopState.hasInput
  cases h : s.inStr with
  | nil => simp
  | cons u t => simp

theorem consume_next_inStr {o : Options} {outEnd : Nat} {i : Item} {s t : LoopState In Out}
    (h : consume o outEnd i s = .next t) : t.inStr = s.inStr.drop i.units := by
  unfold consume emit at h
  split at h
  · cases h
    rfl
  · split_ifs at h <;> cases h <;> rfl

/-- A slow iteration and the head of the scan. -/
theorem loopBody_of_slow {o : Options} {outEnd : Nat} {s : LoopState In Out} {u : In.Unit}
    {t : List In.Unit} (hs : s.inStr = u :: t) (hslow : ¬ fastPath o outEnd s) :
    loopBody o outEnd s = (charToUtf32 o In (u :: t) {}).map fun r =>
      match o.verdict r with
      | .item i => consume o outEnd i s
      | .halt k err => .ret ((s.charge k 0 1).raise .error err) := by
  rw [loopBody, if_neg hslow, slowStep_eq o outEnd hs]

/-- **A slow iteration along a scan**: it consumes the first item, or it returns or fails as the
scan ends. -/
theorem Scan.slow_cases {o : Options} {outEnd : Nat} {s : LoopState In Out} {items : List Item}
    {e : Ending} (hscan : Scan o s.inStr items e) (hcond : s.hasInput)
    (hslow : ¬ fastPath o outEnd s) :
    (∃ i rest, items = i :: rest ∧ loopBody o outEnd s = some (consume o outEnd i s) ∧
        Scan o (s.inStr.drop i.units) rest e ∧ 0 < i.units) ∨
      (∃ k err, items = [] ∧ e = .halt k err ∧
        loopBody o outEnd s = some (.ret ((s.charge k 0 1).raise .error err))) ∨
      (items = [] ∧ e = .fault ∧ loopBody o outEnd s = none) := by
  rcases (hasInput_iff s).1 hcond with ⟨u, t, hs⟩
  have hbody := loopBody_of_slow hs hslow
  rw [hs] at hscan ⊢
  cases hscan with
  | @item _ _ r i rest _ hr hv htail =>
      rw [hr, Option.map_some, hv] at hbody
      exact .inl ⟨i, rest, rfl, hbody, htail, verdict_item_pos hr hv⟩
  | @halt _ _ r k err hr hv =>
      rw [hr, Option.map_some, hv] at hbody
      exact .inr (.inl ⟨k, err, rfl, rfl, hbody⟩)
  | fault hr =>
      rw [hr, Option.map_none] at hbody
      exact .inr (.inr ⟨rfl, rfl, hbody⟩)

/-- A scan of no input. -/
theorem Scan.of_exit {o : Options} {s : LoopState In Out} {items : List Item} {e : Ending}
    (hscan : Scan o s.inStr items e) (hexit : ¬ s.hasInput) : items = [] ∧ e = .done := by
  have hnil : s.inStr = [] := not_not.1 hexit
  rw [hnil] at hscan
  cases hscan
  exact ⟨rfl, rfl⟩

/-- **The loop replays the scan**, if a fast step of the loop does what the replay does.  `P` is
what the caller knows about the items still to come at every head of the loop. -/
theorem strLoop_eq_replay {o : Options} {outEnd : Nat}
    {P : List Item → LoopState In Out → Prop}
    (hnext : ∀ i items s t, P (i :: items) s → consume o outEnd i s = .next t → P items t)
    (hfast : ∀ items e s, P items s → Scan o s.inStr items e → fastPath o outEnd s →
      ∃ rest, Scan o (fastStep s).inStr rest e ∧ P rest (fastStep s) ∧
        replay o outEnd items e s = replay o outEnd rest e (fastStep s)) :
    ∀ {fuel : Nat} {items : List Item} {e : Ending} {s : LoopState In Out}, P items s →
      Scan o s.inStr items e → s.inStr.length ≤ fuel →
      strLoop o outEnd fuel s = replay o outEnd items e s := by
  -- Every iteration reads a unit, so the units left bound the fuel the loop needs.
  intro fuel
  induction fuel with
  | zero =>
      intro items e s _ hscan hfuel
      have hexit : ¬ s.hasInput := fun hcond =>
        hcond (List.length_eq_zero_iff.1 (Nat.le_zero.1 hfuel))
      rcases hscan.of_exit hexit with ⟨rfl, rfl⟩
      exact WhileLoop.run_exit hexit 0
  | succ fuel ih =>
      intro items e s hP hscan hfuel
      by_cases hcond : s.hasInput
      · by_cases hpath : fastPath o outEnd s
        · -- A fast step reads a whole block.
          rcases hfast items e s hP hscan hpath with ⟨rest, hrest, hP', heq⟩
          have hbody : loopBody o outEnd s = some (.next (fastStep s)) := if_pos hpath
          have hdrop : (fastStep s).inStr.length ≤ fuel := by
            have hblock := In.blockUnits_pos
            simp only [fastStep, List.length_drop]
            omega
          rw [strLoop, WhileLoop.run_next hcond hbody, heq]
          exact ih hP' hrest hdrop
        · rcases hscan.slow_cases hcond hpath with
            ⟨i, rest, rfl, hbody, htail, hpos⟩ | ⟨k, err, rfl, rfl, hbody⟩ | ⟨rfl, rfl, hbody⟩
          · -- A slow step reads an item, and the output side says whether the loop goes on.
            rw [replay]
            cases hc : consume o outEnd i s with
            | next t =>
                have hin := consume_next_inStr hc
                have hdrop : t.inStr.length ≤ fuel := by
                  rw [hin, List.length_drop]
                  omega
                rw [strLoop, WhileLoop.run_next hcond (hbody.trans (congrArg some hc))]
                exact ih (hnext i rest s t hP hc) (hin ▸ htail) hdrop
            | ret t => rw [strLoop, WhileLoop.run_ret hcond (hbody.trans (congrArg some hc))]
          · exact WhileLoop.run_ret hcond hbody fuel
          · exact WhileLoop.run_fail hcond hbody fuel
      · rcases hscan.of_exit hcond with ⟨rfl, rfl⟩
        exact WhileLoop.run_exit hcond (fuel + 1)

/-- Where no iteration takes the fast path nothing has to be known. -/
theorem strLoop_eq_replay_of_slow {o : Options} {outEnd : Nat}
    (hslow : ∀ t : LoopState In Out, ¬ fastPath o outEnd t) {fuel : Nat} {items : List Item}
    {e : Ending} {s : LoopState In Out} (hscan : Scan o s.inStr items e)
    (hfuel : s.inStr.length ≤ fuel) :
    strLoop o outEnd fuel s = replay o outEnd items e s :=
  strLoop_eq_replay (P := fun _ _ => True) (fun _ _ _ _ _ _ => trivial)
    (fun _ _ s _ _ hpath => absurd hpath (hslow s)) trivial hscan hfuel

/-! ## Replays that fit -/

theorem emit_of_fits {o : Options} {outEnd : Nat} {us : List Out.Unit} {s : LoopState In Out}
    (hfit : o.checksOutput → s.outStr + us.length ≤ outEnd) :
    emit o outEnd us s = .next (s.write (o.stored us) (o.needed us.length)) := by
  have hnot : ¬ (o.checksOutput ∧ outEnd < s.outStr + us.length) := by
    rintro ⟨hc, hlt⟩
    exact absurd (hfit hc) (by omega)
  rw [emit, if_neg hnot]

theorem consume_of_fits {o : Options} {outEnd : Nat} {i : Item} {s : LoopState In Out}
    (hfit : o.checksOutput → s.outStr + (i.output Out).length ≤ outEnd) :
    consume o outEnd i s = .next
      ((i.accept s).write (o.stored (i.output Out)) (o.needed (i.output Out).length)) := by
  unfold consume Item.output at *
  cases hi : i.code with
  | none =>
      simp only [Options.stored_nil, List.length_nil, Options.needed_zero]
      rfl
  | some c =>
      simp only [hi] at hfit
      exact emit_of_fits hfit

/-- The units a list of items reads. -/
def unitsRead (items : List Item) : Nat :=
  (items.map Item.units).sum

theorem unitsRead_cons (i : Item) (items : List Item) :
    unitsRead (i :: items) = i.units + unitsRead items := rfl

theorem unitsRead_append (items more : List Item) :
    unitsRead (items ++ more) = unitsRead items + unitsRead more := by
  simp [unitsRead]

theorem tally_inputBlockCount (items : List Item) (r : StrResult) :
    (tally items r).inputBlockCount = r.inputBlockCount + unitsRead items := by
  induction items generalizing r with
  | nil => rfl
  | cons i items ih =>
      have hi : (i.tally r).inputBlockCount = r.inputBlockCount + i.units := by
        unfold Item.tally
        split_ifs <;> rfl
      rw [tally_cons, ih, hi, unitsRead_cons, Nat.add_assoc]

/-- The loop state after items whose output fits. -/
def LoopState.advance (o : Options) (items : List Item) (s : LoopState In Out) :
    LoopState In Out :=
  { inStr := s.inStr.drop (unitsRead items)
    outStr := s.outStr + (o.stored (output Out items)).length
    mem := s.mem.storeAll s.outStr (o.stored (output Out items))
    result := (tally items s.result).credit (o.stored (output Out items)).length
      (o.needed (output Out items).length) }

@[simp] theorem advance_nil (o : Options) (s : LoopState In Out) : s.advance o [] = s := by
  simp [LoopState.advance, unitsRead]

theorem advance_cons (o : Options) (i : Item) (items : List Item) (s : LoopState In Out) :
    s.advance o (i :: items) = ((i.accept s).write (o.stored (i.output Out))
      (o.needed (i.output Out).length)).advance o items := by
  simp only [LoopState.advance, LoopState.write, Item.accept, unitsRead, List.map_cons,
    List.sum_cons, List.drop_drop, output_cons, tally_cons, tally_credit, credit_credit,
    Options.stored_append, List.length_append, Options.needed_add, Region.storeAll_append,
    Nat.add_assoc]

section Room

variable {o : Options} {outEnd : Nat} {i : Item} {items : List Item} {s : LoopState In Out}
  (hfit : o.checksOutput → s.outStr + (output Out (i :: items)).length ≤ outEnd)

include hfit

theorem room_head : o.checksOutput → s.outStr + (i.output Out).length ≤ outEnd := by
  intro hc
  have hroom := hfit hc
  rw [output_cons, List.length_append] at hroom
  omega

/-- The room left behind an item that has been written. -/
theorem room_tail : o.checksOutput → ((i.accept s).write (o.stored (i.output Out))
    (o.needed (i.output Out).length)).outStr + (output Out items).length ≤ outEnd := by
  intro hc
  have hle := o.stored_length_le (i.output Out)
  have hroom := hfit hc
  rw [output_cons, List.length_append] at hroom
  simp only [LoopState.write, Item.accept]
  omega

end Room

/-- **Replays that fit.**  Items with room for their output advance the state. -/
theorem replay_append_of_fits {o : Options} {outEnd : Nat} {items : List Item}
    (more : List Item) (e : Ending) {s : LoopState In Out}
    (hfit : o.checksOutput → s.outStr + (output Out items).length ≤ outEnd) :
    replay o outEnd (items ++ more) e s = replay o outEnd more e (s.advance o items) := by
  induction items generalizing s with
  | nil => rw [List.nil_append, advance_nil]
  | cons i items ih =>
      have hhead : consume o outEnd i s = .next
          ((i.accept s).write (o.stored (i.output Out)) (o.needed (i.output Out).length)) :=
        consume_of_fits (room_head hfit)
      rw [List.cons_append, replay, hhead, advance_cons]
      exact ih (room_tail hfit)

theorem replay_of_fits {o : Options} {outEnd : Nat} {items : List Item} (e : Ending)
    {s : LoopState In Out}
    (hfit : o.checksOutput → s.outStr + (output Out items).length ≤ outEnd) :
    (replay o outEnd items e s).map LoopState.toRun =
      (e.close (tally items s.result)).map fun r =>
        { result := r.credit (o.stored (output Out items)).length
            (o.needed (output Out items).length)
          mem := s.mem.storeAll s.outStr (o.stored (output Out items)) } := by
  have happ := replay_append_of_fits [] e hfit
  rw [List.append_nil] at happ
  simp only [happ, replay, LoopState.advance, Ending.close_credit, Option.map_map]
  rfl

/-! ## Calls that fit -/

theorem storeAll_untouched {α : Type} (us : List α) :
    (Region.untouched : Region α).storeAll 0 us = Region.filled us := by
  simpa using Region.storeAll_filled ([] : List α) us

/-- A call on the slow path with room for the whole conversion. -/
theorem strToStr_of_fits {o : Options} {outEnd : Nat}
    (hslow : ∀ t : LoopState In Out, ¬ fastPath o outEnd t) {input : List In.Unit}
    {items : List Item} {e : Ending} (hscan : Scan o input items e)
    (hfit : o.checksOutput → (output Out items).length ≤ outEnd) :
    strToStr o In Out input outEnd =
      (e.close (tally items {})).map fun r =>
        { result := r.credit (o.stored (output Out items)).length
            (o.needed (output Out items).length)
          mem := Region.filled (o.stored (output Out items)) } := by
  have hloop : strLoop o outEnd input.length (LoopState.start Out input) =
      replay o outEnd items e (LoopState.start Out input) :=
    strLoop_eq_replay_of_slow hslow hscan (le_refl _)
  have hroom : o.checksOutput → (LoopState.start Out input : LoopState In Out).outStr +
      (output Out items).length ≤ outEnd := by
    simpa [LoopState.start] using hfit
  have hclosed := replay_of_fits e hroom
  rw [strToStr, hloop, hclosed]
  simp only [LoopState.start, storeAll_untouched]

theorem not_fastPath_of_normal {o : Options} (ho : o.perfMode = .normal) (outEnd : Nat)
    (t : LoopState In Out) : ¬ fastPath o outEnd t := by
  simp [fastPath, ho]

/-! ## The complete conversion -/

theorem Scan.length_le {o : Options} {s : List In.Unit} {items : List Item} {e : Ending}
    (h : Scan o s items e) : items.length ≤ s.length := by
  induction h with
  | nil => simp
  | item hr hv _ ih =>
      have hpos := verdict_item_pos hr hv
      rw [List.length_drop] at ih
      simp only [List.length_cons] at *
      omega
  | halt _ _ => simp
  | fault _ => simp

theorem Scan.output_length_le {o : Options} {s : List In.Unit} {items : List Item} {e : Ending}
    (h : Scan o s items e) (Out : CharType) : (output Out items).length ≤ 4 * s.length := by
  have hitems := h.length_le
  have hout := Convert.output_length_le Out items
  omega

theorem Run.written_of_filled {r : StrResult} {w : List Out.Unit}
    (hr : r.outputBlockCount = w.length) :
    ({ result := r, mem := Region.filled w } : Run Out).written = w := by
  rw [Run.written, Region.front_filled, hr, List.take_length]

/-- The input side of the items leaves the output counts alone. -/
theorem tally_outputCounts (items : List Item) (r : StrResult) :
    (tally items r).outputBlockCount = r.outputBlockCount ∧
      (tally items r).needOutputBlockCount = r.needOutputBlockCount := by
  induction items generalizing r with
  | nil => exact ⟨rfl, rfl⟩
  | cons i items ih =>
      have hi : (i.tally r).outputBlockCount = r.outputBlockCount ∧
          (i.tally r).needOutputBlockCount = r.needOutputBlockCount := by
        unfold Item.tally
        split_ifs <;> exact ⟨rfl, rfl⟩
      rcases ih (i.tally r) with ⟨hout, hneed⟩
      exact ⟨hout.trans hi.1, hneed.trans hi.2⟩

theorem Ending.close_outputCounts {e : Ending} {r r' : StrResult} (h : e.close r = some r') :
    r'.outputBlockCount = r.outputBlockCount ∧
      r'.needOutputBlockCount = r.needOutputBlockCount := by
  cases e <;> cases h <;> exact ⟨rfl, rfl⟩

/-- The result of a text before any output is counted. -/
theorem Ending.close_tally_outputCounts {e : Ending} {items : List Item} {r : StrResult}
    (h : e.close (tally items {}) = some r) :
    r.outputBlockCount = 0 ∧ r.needOutputBlockCount = 0 := by
  have hclose := Ending.close_outputCounts h
  have htally := tally_outputCounts items {}
  exact ⟨hclose.1.trans htally.1, hclose.2.trans htally.2⟩

/-- **The complete conversion is the output of the scan.** -/
theorem completeConversion_eq {o : Options} {input : List In.Unit} {items : List Item}
    {e : Ending} (hscan : Scan o input items e) (he : e ≠ .fault) :
    completeConversion o In Out input = some (output Out items) := by
  have hscan' : Scan o.unbounded input items e := hscan.congr o.unbounded rfl rfl rfl rfl
  have hrun := strToStr_of_fits (not_fastPath_of_normal rfl (4 * input.length))
    hscan' fun _ => hscan.output_length_le Out
  rcases Ending.close_isSome he (tally items {}) with ⟨r, hr⟩
  have hcount := (Ending.close_tally_outputCounts hr).1
  rw [completeConversion, hrun, hr, Option.map_some, Option.map_some]
  refine congrArg some (Run.written_of_filled ?_)
  simp [StrResult.credit, hcount, Options.stored, Options.unbounded]

theorem completeConversion_fault {o : Options} {input : List In.Unit} {items : List Item}
    (hscan : Scan o input items .fault) : completeConversion o In Out input = none := by
  have hscan' : Scan o.unbounded input items .fault := hscan.congr o.unbounded rfl rfl rfl rfl
  have hrun := strToStr_of_fits (not_fastPath_of_normal rfl (4 * input.length))
    hscan' fun _ => hscan.output_length_le Out
  rw [completeConversion, hrun]
  rfl

/-- A complete conversion comes from a scan that stays inside the text. -/
theorem exists_scan_of_completeConversion {o : Options} {input : List In.Unit}
    {w : List Out.Unit} (h : completeConversion o In Out input = some w) :
    ∃ items e, Scan o input items e ∧ e ≠ .fault ∧ w = output Out items := by
  rcases Scan.exists o input with ⟨items, e, hscan⟩
  have he : e ≠ .fault := by
    rintro rfl
    rw [completeConversion_fault hscan] at h
    cases h
  rw [completeConversion_eq hscan he] at h
  exact ⟨items, e, hscan, he, (Option.some.inj h).symm⟩

end Convert
end Chenc
