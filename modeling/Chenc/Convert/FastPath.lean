import Chenc.Convert.Replay

/-!
# FastPath — the eight-byte path copies what the slow path converts

* `fastPath_iff` : the masked test of a packed block means that every unit of it is ASCII;
* `Scan.ascii` : the scan of a text that starts with ASCII units starts with their items;
* `fastStep_eq_advance` : a fast step is the replay of its block;
* `strLoop_rule` : the rule by which a property of whole runs follows from the ends an iteration
  can have;
* `exists_written_of_room` : with room for it the output of the scan is what is written;
* `strToStr_simd_eq_normal` : with room for the whole conversion both paths give the same call.
-/

namespace Chenc
namespace Convert

/-! ## The ASCII test -/

theorem asciiMask_eq (T : CharType) :
    ∃ m : T.Unit, T.asciiMask = packUnits (List.replicate T.blockUnits m) ∧
      ∀ i < T.bits, m.getLsbD i = decide (7 ≤ i) := by
  rcases T with ⟨form, signed⟩
  cases form with
  | utf8 =>
      refine ⟨(0x80#8 : BitVec 8), ?_, ?_⟩ <;> cases signed <;> decide
  | utf16 =>
      refine ⟨(0xFF80#16 : BitVec 16), ?_, ?_⟩ <;> cases signed <;> decide
  | utf32 =>
      refine ⟨(0xFFFFFF80#32 : BitVec 32), ?_, ?_⟩ <;> cases signed <;> decide

theorem CharType.blockUnits_mul_bits (T : CharType) : T.blockUnits * T.bits = 64 := by
  simp only [CharType.blockUnits, CharType.bits, CharType.size]
  split <;> norm_num

theorem packUnits_and_asciiMask {T : CharType} (us : List T.Unit)
    (hlen : us.length = T.blockUnits) :
    packUnits us &&& T.asciiMask = 0#64 ↔ ∀ u ∈ us, u.toNat < 0x80 := by
  rcases asciiMask_eq T with ⟨m, hmask, hm⟩
  have hfit : us.length * T.bits ≤ 64 := by
    rw [hlen, T.blockUnits_mul_bits]
  -- The mask is one lane pattern repeated, so it tests the lanes of the block one by one.
  rw [hmask, ← hlen]
  refine (Lanes.and_pack_replicate_eq_zero_iff us m hfit).trans ?_
  have hlane : ∀ u : T.Unit, u &&& m = 0#T.bits ↔ u.toNat < 0x80 := fun u =>
    Lanes.and_high_eq_zero_iff 7 hm
  simp only [hlane]

variable {In Out : CharType}

/-- The block a fast step would copy. -/
def LoopState.block (s : LoopState In Out) : List In.Unit :=
  s.inStr.take In.blockUnits

theorem fastPath_iff (o : Options) (outEnd : Nat) (s : LoopState In Out) :
    fastPath o outEnd s ↔
      o.perfMode = .simd ∧ In.blockUnits ≤ s.inStr.length ∧
        s.outStr + Out.blockUnits ≤ outEnd ∧ ∀ u ∈ s.block, u.toNat < 0x80 := by
  unfold fastPath LoopState.block
  constructor
  · rintro ⟨hperf, hin, hout, hmask⟩
    have hlen : (s.inStr.take In.blockUnits).length = In.blockUnits := by simp [hin]
    exact ⟨hperf, hin, hout, (packUnits_and_asciiMask _ hlen).1 hmask⟩
  · rintro ⟨hperf, hin, hout, hascii⟩
    have hlen : (s.inStr.take In.blockUnits).length = In.blockUnits := by simp [hin]
    exact ⟨hperf, hin, hout, (packUnits_and_asciiMask _ hlen).2 hascii⟩

theorem not_fastPath_of_exit {o : Options} {outEnd : Nat} {s : LoopState In Out}
    (hcond : ¬ s.hasInput) : ¬ fastPath o outEnd s := by
  rintro ⟨-, hin, -⟩
  have hnil : s.inStr = [] := not_not.1 hcond
  have hpos := In.blockUnits_pos
  rw [hnil, List.length_nil] at hin
  omega

/-! ## ASCII items -/

def asciiItem {T : CharType} (u : T.Unit) : Item :=
  { units := 1
    error := .none
    code := some (T.toU32 u) }

theorem Scan.ascii {o : Options} {us t : List In.Unit} {items : List Item} {e : Ending}
    (hus : ∀ u ∈ us, u.toNat < 0x80) (h : Scan o t items e) :
    Scan o (us ++ t) (us.map asciiItem ++ items) e := by
  induction us with
  | nil => exact h
  | cons u us ih =>
      rcases List.forall_mem_cons.1 hus with ⟨hu, hus⟩
      exact .item (charToUtf32_ascii o hu (us ++ t)) rfl (ih hus)

/-- The scan of what follows ASCII units. -/
theorem Scan.of_ascii {o : Options} {us t : List In.Unit} {items : List Item} {e : Ending}
    (hus : ∀ u ∈ us, u.toNat < 0x80) (h : Scan o (us ++ t) items e) :
    ∃ rest, items = us.map asciiItem ++ rest ∧ Scan o t rest e := by
  rcases Scan.exists o t with ⟨rest, e', hrest⟩
  rcases h.unique (hrest.ascii hus) with ⟨rfl, rfl⟩
  exact ⟨rest, rfl, hrest⟩

theorem utf32Units_ascii {u : In.Unit} (hu : u.toNat < 0x80) :
    utf32Units Out (In.toU32 u) = [u.setWidth Out.bits] := by
  have hnat := In.toNat_toU32_ascii hu
  have hunit : Out.ofU32 (In.toU32 u) = u.setWidth Out.bits := by
    apply BitVec.eq_of_toNat_eq
    rw [CharType.ofU32, BitVec.toNat_setWidth, BitVec.toNat_setWidth, hnat]
  have h8 : In.toU32 u ≤ 0x7F#32 := by
    rw [BitVec.le_def, hnat, BitVec.toNat_ofNat]
    omega
  have h16 : In.toU32 u ≤ 0xFFFF#32 := by
    rw [BitVec.le_def, hnat, BitVec.toNat_ofNat]
    omega
  unfold utf32Units
  split
  · rw [if_pos h8, hunit]
  · rw [if_pos h16, hunit]
  · rw [hunit]

theorem output_ascii {us : List In.Unit} (hus : ∀ u ∈ us, u.toNat < 0x80) :
    output Out (us.map asciiItem) = us.map (BitVec.setWidth Out.bits) := by
  induction us with
  | nil => rfl
  | cons u us ih =>
      rcases List.forall_mem_cons.1 hus with ⟨hu, hus⟩
      rw [List.map_cons, output_cons, ih hus, List.map_cons]
      change utf32Units Out (In.toU32 u) ++ _ = _
      rw [utf32Units_ascii hu, List.singleton_append]

theorem tally_ascii (us : List In.Unit) (r : StrResult) :
    tally (us.map asciiItem) r = r.charge us.length us.length 0 := by
  induction us generalizing r with
  | nil => rfl
  | cons u us ih =>
      rw [List.map_cons, tally_cons, ih]
      simp only [Item.tally, asciiItem, if_true, StrResult.charge, List.length_cons,
        Nat.add_assoc, Nat.add_zero, Nat.add_comm 1]

theorem unitsRead_ascii (us : List In.Unit) : unitsRead (us.map asciiItem) = us.length := by
  induction us with
  | nil => rfl
  | cons u us ih =>
      simp only [unitsRead, List.map_cons, List.sum_cons, List.length_cons] at *
      rw [ih]
      simp only [asciiItem]
      omega

/-! ## A fast step is the replay of its block -/

section FastStep

variable {o : Options} {outEnd : Nat} {s : LoopState In Out}

theorem fastPath_block_length (h : fastPath o outEnd s) : s.block.length = In.blockUnits := by
  have hin := ((fastPath_iff o outEnd s).1 h).2.1
  simp [LoopState.block, hin]

theorem fastPath_block_ascii (h : fastPath o outEnd s) : ∀ u ∈ s.block, u.toNat < 0x80 :=
  ((fastPath_iff o outEnd s).1 h).2.2.2

/-- What is scanned at a fast step. -/
theorem Scan.of_fastPath {items : List Item} {e : Ending} (h : fastPath o outEnd s)
    (hscan : Scan o s.inStr items e) :
    ∃ rest, items = s.block.map asciiItem ++ rest ∧ Scan o (fastStep s).inStr rest e := by
  have hsplit : s.inStr = s.block ++ (fastStep s).inStr :=
    (List.take_append_drop In.blockUnits s.inStr).symm
  rw [hsplit] at hscan
  exact hscan.of_ascii (fastPath_block_ascii h)

/-- In the modes without a total, a fast step does what the replay of its block does. -/
theorem fastStep_eq_advance (hmode : o.outMode = .normal ∨ o.outMode = .noneCheckBuffer)
    (h : fastPath o outEnd s) : fastStep s = s.advance o (s.block.map asciiItem) := by
  have hlen := fastPath_block_length h
  rw [LoopState.advance, output_ascii (fastPath_block_ascii h), tally_ascii, unitsRead_ascii,
    Options.stored_eq_self hmode, Options.needed_eq_zero hmode, List.length_map, hlen]
  rfl

/-- The room left behind a block that has been copied. -/
theorem room_fastStep {rest : List Item} (h : fastPath o outEnd s)
    (hfit : o.checksOutput →
      s.outStr + (output Out (s.block.map asciiItem ++ rest)).length ≤ outEnd) :
    o.checksOutput → (fastStep s).outStr + (output Out rest).length ≤ outEnd := by
  intro hc
  have hroom := hfit hc
  rw [output_append, output_ascii (fastPath_block_ascii h), List.length_append, List.length_map,
    fastPath_block_length h] at hroom
  simp only [fastStep]
  omega

end FastStep

/-! ## Runs of the loop along a scan -/

/-- **The rule of the loop.**  A relation between the items still to come, the state at a head
and the final state holds of every run, if every way an iteration can end respects it. -/
theorem strLoop_rule {o : Options} {outEnd : Nat}
    {M : List Item → Ending → LoopState In Out → LoopState In Out → Prop}
    (hdone : ∀ s, ¬ s.hasInput → M [] .done s s)
    (hhalt : ∀ k err s, ¬ fastPath o outEnd s → (∀ u, loopBody o outEnd s ≠ some (.next u)) →
      M [] (.halt k err) s ((s.charge k 0 1).raise .error err))
    (hret : ∀ i items e s t, ¬ fastPath o outEnd s → loopBody o outEnd s = some (.ret t) →
      consume o outEnd i s = .ret t → M (i :: items) e s t)
    (hitem : ∀ i items e s t s', s.hasInput → ¬ fastPath o outEnd s →
      loopBody o outEnd s = some (.next t) → consume o outEnd i s = .next t → M items e t s' →
      M (i :: items) e s s')
    (hfast : ∀ rest e s s', s.hasInput → fastPath o outEnd s → M rest e (fastStep s) s' →
      M (s.block.map asciiItem ++ rest) e s s') :
    ∀ {fuel : Nat} {items : List Item} {e : Ending} {s s' : LoopState In Out},
      strLoop o outEnd fuel s = some s' → Scan o s.inStr items e → M items e s s' := by
  intro fuel
  induction fuel with
  | zero =>
      intro items e s s' hrun hscan
      by_cases hcond : s.hasInput
      · -- A run that is cut off has no final state.
        simp [strLoop, WhileLoop.run, hcond] at hrun
      · rw [strLoop, WhileLoop.run_exit hcond] at hrun
        cases hrun
        rcases hscan.of_exit hcond with ⟨rfl, rfl⟩
        exact hdone s hcond
  | succ fuel ih =>
      intro items e s s' hrun hscan
      by_cases hcond : s.hasInput
      · by_cases hpath : fastPath o outEnd s
        · -- The items of the block are read in one step.
          have hbody : loopBody o outEnd s = some (.next (fastStep s)) := if_pos hpath
          rw [strLoop, WhileLoop.run_next hcond hbody] at hrun
          rcases hscan.of_fastPath hpath with ⟨rest, rfl, hrest⟩
          exact hfast rest e s s' hcond hpath (ih hrun hrest)
        · rcases hscan.slow_cases hcond hpath with
            ⟨i, rest, rfl, hbody, htail, -⟩ | ⟨k, err, rfl, rfl, hbody⟩ | ⟨-, -, hbody⟩
          · cases hc : consume o outEnd i s with
            | next v =>
                have hnext := hbody.trans (congrArg some hc)
                have hin := consume_next_inStr hc
                rw [strLoop, WhileLoop.run_next hcond hnext] at hrun
                exact hitem i rest e s v s' hcond hpath hnext hc (ih hrun (hin ▸ htail))
            | ret v =>
                have hstop := hbody.trans (congrArg some hc)
                rw [strLoop, WhileLoop.run_ret hcond hstop] at hrun
                cases hrun
                exact hret i rest e s _ hpath hstop hc
          · rw [strLoop, WhileLoop.run_ret hcond hbody] at hrun
            cases hrun
            exact hhalt k err s hpath fun v hv => by rw [hbody] at hv; cases hv
          · rw [strLoop, WhileLoop.run_fail hcond hbody] at hrun
            cases hrun
      · rw [strLoop, WhileLoop.run_exit hcond] at hrun
        cases hrun
        rcases hscan.of_exit hcond with ⟨rfl, rfl⟩
        exact hdone s hcond

/-- A call whose text is not read past its end has a result. -/
theorem strToStr_isSome_of_scan {o : Options} {input : List In.Unit} {items : List Item}
    {e : Ending} (hscan : Scan o input items e) (he : e ≠ .fault) (outEnd : Nat) :
    (strToStr o In Out input outEnd).isSome := by
  rw [strToStr, Option.isSome_map]
  refine WhileLoop.run_isSome (fun s => s.inStr.length)
    (fun s => ∃ items e, Scan o s.inStr items e ∧ e ≠ .fault) ?_ ?_ ?_ ⟨items, e, hscan, he⟩
    (le_refl _)
  · intro s hcond
    exact List.length_pos_iff.2 hcond
  · -- No pass leaves the input.
    rintro s ⟨items, e, hscan, he⟩ hcond
    by_cases hpath : fastPath o outEnd s
    · rw [loopBody, if_pos hpath]
      rfl
    · rcases hscan.slow_cases hcond hpath with
        ⟨i, rest, -, hbody, -, -⟩ | ⟨k, err, -, -, hbody⟩ | ⟨-, hfault, -⟩
      · rw [hbody]
        rfl
      · rw [hbody]
        rfl
      · exact absurd hfault he
  · -- Every pass reads something, and leaves the rest of the scan.
    rintro s t ⟨items, e, hscan, he⟩ hcond hbody
    have hin : 0 < s.inStr.length := List.length_pos_iff.2 hcond
    by_cases hpath : fastPath o outEnd s
    · rw [loopBody, if_pos hpath] at hbody
      cases hbody
      rcases hscan.of_fastPath hpath with ⟨rest, -, hrest⟩
      have hpos := In.blockUnits_pos
      refine ⟨⟨rest, e, hrest, he⟩, ?_⟩
      simp only [fastStep, List.length_drop]
      omega
    · rcases hscan.slow_cases hcond hpath with
        ⟨i, rest, -, hitem, htail, hpos⟩ | ⟨k, err, -, -, hhalt⟩ | ⟨-, -, hfault⟩
      · have hdrop := consume_next_inStr (Option.some.inj (hitem.symm.trans hbody))
        refine ⟨⟨rest, e, hdrop ▸ htail, he⟩, ?_⟩
        rw [hdrop, List.length_drop]
        omega
      · cases hhalt.symm.trans hbody
      · cases hfault.symm.trans hbody

/-- With input bounds checked every call has a result. -/
theorem strToStr_isSome {o : Options} (hin : o.inputMode = .normal) (input : List In.Unit)
    (outEnd : Nat) : (strToStr o In Out input outEnd).isSome := by
  rcases Scan.exists o input with ⟨items, e, hscan⟩
  exact strToStr_isSome_of_scan hscan (hscan.ne_fault hin) outEnd

/-! ## What has been written -/

/-- `w` has been written, and it is all that has been. -/
structure LoopState.Holds (s : LoopState In Out) (w : List Out.Unit) : Prop where
  mem : s.mem = Region.filled w
  outStr : s.outStr = w.length
  count : s.result.outputBlockCount = w.length

theorem holds_start (Out : CharType) (input : List In.Unit) :
    (LoopState.start Out input : LoopState In Out).Holds [] :=
  ⟨rfl, rfl, rfl⟩

theorem LoopState.Holds.written {s : LoopState In Out} {w : List Out.Unit} (h : s.Holds w) :
    s.toRun.written = w := by
  rw [← Run.written_of_filled h.count, ← h.mem]
  rfl

theorem LoopState.Holds.accept {s : LoopState In Out} {w : List Out.Unit} (h : s.Holds w)
    (i : Item) : (i.accept s).Holds w :=
  ⟨h.mem, h.outStr, (tally_outputCounts [i] s.result).1.trans h.count⟩

theorem LoopState.Holds.write {s : LoopState In Out} {w : List Out.Unit} (h : s.Holds w)
    (us : List Out.Unit) (need : Nat) : (s.write us need).Holds (w ++ us) := by
  refine ⟨?_, ?_, ?_⟩
  · simp only [LoopState.write, h.mem, h.outStr, Region.storeAll_filled]
  · simp only [LoopState.write, h.outStr, List.length_append]
  · simp only [LoopState.write, StrResult.credit, h.count, List.length_append]

theorem LoopState.Holds.fastStep {o : Options} {outEnd : Nat} {s : LoopState In Out}
    {w : List Out.Unit} (h : s.Holds w) (hpath : fastPath o outEnd s) :
    (Convert.fastStep s).Holds (w ++ s.block.map (BitVec.setWidth Out.bits)) := by
  have hlen : (s.block.map (BitVec.setWidth Out.bits)).length = In.blockUnits := by
    rw [List.length_map, fastPath_block_length hpath]
  refine ⟨?_, ?_, ?_⟩
  · rw [← Region.storeAll_filled, ← h.mem, ← h.outStr]
    rfl
  · rw [List.length_append, hlen, ← h.outStr]
    rfl
  · rw [List.length_append, hlen, ← h.count]
    rfl

/-- **With room for every character the output of the scan is written**, in every mode that
writes and on either path. -/
theorem strLoop_holds {o : Options} {outEnd : Nat} (hmode : o.outMode ≠ .count) {fuel : Nat}
    {items : List Item} {e : Ending} {s s' : LoopState In Out} {w : List Out.Unit}
    (hrun : strLoop o outEnd fuel s = some s') (hscan : Scan o s.inStr items e)
    (hs : s.Holds w) (hfit : w.length + (output Out items).length ≤ outEnd) :
    s'.Holds (w ++ output Out items) := by
  have hstored : ∀ us : List Out.Unit, o.stored us = us := fun us => if_neg hmode
  refine strLoop_rule (M := fun items _ s s' => ∀ w, s.Holds w →
    w.length + (output Out items).length ≤ outEnd → s'.Holds (w ++ output Out items))
    ?_ ?_ ?_ ?_ ?_ hrun hscan w hs hfit
  · intro s _ w hs _
    rwa [output_nil, List.append_nil]
  · intro k err s _ _ w hs _
    rw [output_nil, List.append_nil]
    exact ⟨hs.mem, hs.outStr, hs.count⟩
  · -- A character that fits does not end the call.
    intro i items e s t _ _ hret w hs hfit
    rw [output_cons, List.length_append] at hfit
    rw [consume_of_fits fun _ => by rw [hs.outStr]; omega] at hret
    cases hret
  · -- What is written grows by the item, and the room left is enough for the others.
    intro i items e s t s' _ _ _ hnext ih w hs hfit
    rw [output_cons, List.length_append] at hfit
    rw [consume_of_fits fun _ => by rw [hs.outStr]; omega, hstored] at hnext
    cases hnext
    rw [output_cons, ← List.append_assoc]
    exact ih _ ((hs.accept i).write _ _) (by rw [List.length_append]; omega)
  · intro rest e s s' _ hpath ih w hs hfit
    have hout : output Out (s.block.map asciiItem) = s.block.map (BitVec.setWidth Out.bits) :=
      output_ascii (fastPath_block_ascii hpath)
    rw [output_append, hout, List.length_append] at hfit
    rw [output_append, hout, ← List.append_assoc]
    exact ih _ (hs.fastStep hpath) (by rw [List.length_append]; omega)

/-- A call with room for the whole conversion writes it. -/
theorem exists_written_of_room {o : Options} {outEnd : Nat} (hmode : o.outMode ≠ .count)
    {input : List In.Unit} {items : List Item} {e : Ending} (hscan : Scan o input items e)
    (he : e ≠ .fault) (hfit : (output Out items).length ≤ outEnd) :
    ∃ run, strToStr o In Out input outEnd = some run ∧ run.written = output Out items := by
  have hsome : (strToStr o In Out input outEnd).isSome := strToStr_isSome_of_scan hscan he outEnd
  rcases Option.isSome_iff_exists.1 hsome with ⟨run, hrun⟩
  rcases exists_loop_of_strToStr hrun with ⟨s', hloop, rfl⟩
  have hholds := strLoop_holds hmode hloop hscan (holds_start Out input) (by simpa using hfit)
  rw [List.nil_append] at hholds
  exact ⟨_, hrun, hholds.written⟩

/-! ## Both paths -/

/-- The loop of either performance mode, with room for the output of its items. -/
theorem strLoop_eq_replay_of_fits {o : Options} {outEnd : Nat}
    (hmode : o.outMode = .normal ∨ o.outMode = .noneCheckBuffer) {fuel : Nat}
    {items : List Item} {e : Ending} {s : LoopState In Out} (hscan : Scan o s.inStr items e)
    (hfit : o.checksOutput → s.outStr + (output Out items).length ≤ outEnd)
    (hfuel : s.inStr.length ≤ fuel) :
    strLoop o outEnd fuel s = replay o outEnd items e s := by
  refine strLoop_eq_replay (P := fun items s =>
    o.checksOutput → s.outStr + (output Out items).length ≤ outEnd) ?_ ?_ hfit hscan hfuel
  · intro i items s t hP hc
    rw [consume_of_fits (room_head hP)] at hc
    cases hc
    exact room_tail hP
  · -- A fast step uses up the room that the items of its block have.
    intro items e s hP hscan hpath
    rcases hscan.of_fastPath hpath with ⟨rest, rfl, hrest⟩
    refine ⟨rest, hrest, room_fastStep hpath hP, ?_⟩
    rw [fastStep_eq_advance hmode hpath]
    refine replay_append_of_fits rest e fun hcheck => ?_
    have hle := hP hcheck
    rw [output_append, List.length_append] at hle
    omega

/-- A call of either performance mode with room for the whole conversion. -/
theorem strToStr_of_room {o : Options} {outEnd : Nat}
    (hmode : o.outMode = .normal ∨ o.outMode = .noneCheckBuffer) {input : List In.Unit}
    {items : List Item} {e : Ending} (hscan : Scan o input items e)
    (hfit : (output Out items).length ≤ outEnd) :
    strToStr o In Out input outEnd =
      (e.close (tally items {})).map fun r =>
        { result := r.credit (output Out items).length 0
          mem := Region.filled (output Out items) } := by
  have hroom : o.checksOutput → (LoopState.start Out input : LoopState In Out).outStr +
      (output Out items).length ≤ outEnd := by
    intro _
    simpa [LoopState.start] using hfit
  have hloop : strLoop o outEnd input.length (LoopState.start Out input) =
      replay o outEnd items e (LoopState.start Out input) :=
    strLoop_eq_replay_of_fits hmode hscan hroom (le_refl _)
  rw [strToStr, hloop, replay_of_fits e hroom, Options.stored_eq_self hmode,
    Options.needed_eq_zero hmode]
  simp only [LoopState.start, storeAll_untouched]

/-- What such a call leaves in the buffer. -/
theorem exists_run_of_room {o : Options} {outEnd : Nat}
    (hmode : o.outMode = .normal ∨ o.outMode = .noneCheckBuffer) {input : List In.Unit}
    {items : List Item} {e : Ending} (hscan : Scan o input items e) (he : e ≠ .fault)
    (hfit : (output Out items).length ≤ outEnd) :
    ∃ run r, e.close (tally items {}) = some r ∧ strToStr o In Out input outEnd = some run ∧
      run.result = r.credit (output Out items).length 0 ∧
      run.mem = Region.filled (output Out items) ∧ run.written = output Out items := by
  rcases Ending.close_isSome he (tally items {}) with ⟨r, hr⟩
  have hrun := strToStr_of_room hmode hscan hfit
  rw [hr, Option.map_some] at hrun
  refine ⟨_, r, hr, hrun, rfl, rfl, Run.written_of_filled ?_⟩
  simp [StrResult.credit, (Ending.close_tally_outputCounts hr).1]

/-- **Both performance modes agree** on every call with room for the complete conversion. -/
theorem strToStr_simd_eq_normal (o : Options)
    (hmode : o.outMode = .normal ∨ o.outMode = .noneCheckBuffer) (In Out : CharType)
    (input : List In.Unit) (outputLen : Nat)
    (hroom : ∃ w, completeConversion o In Out input = some w ∧ w.length ≤ outputLen) :
    ∃ run, strToStr { o with perfMode := .simd } In Out input outputLen = some run ∧
      strToStr { o with perfMode := .normal } In Out input outputLen = some run := by
  rcases hroom with ⟨w, hw, hlen⟩
  rcases exists_scan_of_completeConversion hw with ⟨items, e, hscan, he, rfl⟩
  have hfast : Scan { o with perfMode := .simd } input items e := hscan.congr _ rfl rfl rfl rfl
  have hslow : Scan { o with perfMode := .normal } input items e := hscan.congr _ rfl rfl rfl rfl
  rcases Ending.close_isSome he (tally items {}) with ⟨r, hr⟩
  have hsimd := strToStr_of_room (o := { o with perfMode := .simd }) hmode hfast hlen
  have hnormal := strToStr_of_room (o := { o with perfMode := .normal }) hmode hslow hlen
  rw [hr, Option.map_some] at hsimd hnormal
  exact ⟨_, hsimd, hnormal⟩

/-- One block of ASCII and a two-byte character, UTF-8 to UTF-16. -/
theorem strToStr_simd_eq_normal_mixed :
    ∃ run, strToStr { defaultOpt with perfMode := .simd } (.ofForm .utf8) (.ofForm .utf16)
        [0x63#8, 0x68#8, 0x65#8, 0x6E#8, 0x63#8, 0x3A#8, 0x3A#8, 0x75#8, 0xC3#8, 0xA9#8] 9 =
          some run ∧
      strToStr { defaultOpt with perfMode := .normal } (.ofForm .utf8) (.ofForm .utf16)
        [0x63#8, 0x68#8, 0x65#8, 0x6E#8, 0x63#8, 0x3A#8, 0x3A#8, 0x75#8, 0xC3#8, 0xA9#8] 9 =
          some run :=
  strToStr_simd_eq_normal defaultOpt (.inl rfl) (.ofForm .utf8) (.ofForm .utf16) _ 9
    ⟨[0x63#16, 0x68#16, 0x65#16, 0x6E#16, 0x63#16, 0x3A#16, 0x3A#16, 0x75#16, 0xE9#16],
      by decide, by decide⟩

end Convert
end Chenc
