import Chenc.Convert.FastPath
import Chenc.Convert.StrictDecoding

/-!
# Bounds — where the output buffer ends

In the modes `normal` and `full` every character of the slow path is checked against the end of
the buffer.  The eight-byte path checks for `8 / sizeof(Out)` units of space and stores
`8 / sizeof(In)`.

* `Overruns` : a run of ASCII characters leaves, once as many blocks as fit have been taken, room
  enough for the check and not for the block;
* `strLoop_inBounds_iff` : the buffer is respected exactly when the text meets no such run;
* `strToStr_inBounds_of_blockUnits` : so it is whenever the conversion does not widen the units.
-/

namespace Chenc
namespace Convert

open WhileLoop (Flow)

variable {In Out : CharType}

/-! ## Runs of ASCII characters -/

/-- A character below `0x80`, read from one unit. -/
def Item.IsAscii (i : Item) : Prop :=
  i.units = 1 ∧ i.error = .none ∧ ∃ c, i.code = some c ∧ c.toNat < 0x80

theorem asciiItem_isAscii {u : In.Unit} (hu : u.toNat < 0x80) : (asciiItem u).IsAscii :=
  ⟨rfl, rfl, _, rfl, (In.toNat_toU32_ascii hu).symm ▸ hu⟩

theorem asciiItems_isAscii {us : List In.Unit} (hus : ∀ u ∈ us, u.toNat < 0x80) :
    ∀ i ∈ us.map asciiItem, i.IsAscii := by
  intro i hi
  rcases List.mem_map.1 hi with ⟨u, hu, rfl⟩
  exact asciiItem_isAscii (hus u hu)

theorem Item.IsAscii.output_length {i : Item} (h : i.IsAscii) (Out : CharType) :
    (i.output Out).length = 1 := by
  rcases h with ⟨-, -, c, hcode, hc⟩
  have hsame : (CharType.ofForm .utf32).toU32 c = c := BitVec.setWidth_eq c
  have hunits : utf32Units Out ((CharType.ofForm .utf32).toU32 c) = [c.setWidth Out.bits] :=
    utf32Units_ascii hc
  rw [hsame] at hunits
  rw [Item.output_of_some hcode, hunits, List.length_singleton]

/-- Widening loses no bits. -/
theorem CharType.toNat_le_toU32 (In : CharType) (u : In.Unit) : u.toNat ≤ (In.toU32 u).toNat := by
  have hlt : u.toNat < 2 ^ 32 :=
    Nat.lt_of_lt_of_le u.isLt (Nat.pow_le_pow_right (by norm_num) In.bits_le)
  have hset : (u.setWidth 32).toNat = u.toNat := by
    rw [BitVec.toNat_setWidth, Nat.mod_eq_of_lt hlt]
  unfold CharType.toU32
  split_ifs
  · rw [BitVec.toNat_signExtend, hset]
    exact Nat.le_add_right _ _
  · exact hset.ge

/-- Only an ASCII unit is decoded to an ASCII character on its own. -/
theorem charToUtf32_isAscii {o : Options} {u : In.Unit} {s : List In.Unit} {cr : CharResult}
    (h : charToUtf32 o In (u :: s) {} = some (.none, cr)) (hone : cr.inputBlock = 1)
    (hc : cr.unicode.toNat < 0x80) : u.toNat < 0x80 := by
  have hle := In.toNat_le_toU32 u
  have hlen : ¬ o.truncates 0 (u :: s).length := by simp [Options.truncates]
  rw [charToUtf32, if_neg hlen] at h
  cases hf : In.form with
  | utf8 =>
      simp only [hf, utf8ToUtf32, List.getElem?_cons_zero, Option.bind_eq_bind,
        Option.bind_some] at h
      split_ifs at h with h1
      · cases h
        exact Nat.lt_of_le_of_lt hle hc
      · exact absurd ((utf8TwoBytes_reads h).input.symm.trans hone) (by norm_num)
      · exact absurd ((utf8ThreeBytes_reads h).input.symm.trans hone) (by norm_num)
      · exact absurd ((utf8FourBytes_reads h).input.symm.trans hone) (by norm_num)
      · cases h
  | utf16 =>
      simp only [hf, utf16ToUtf32, List.getElem?_cons_zero, Option.bind_eq_bind,
        Option.bind_some] at h
      split_ifs at h with h1 h2 h3
      · rcases deliver_eq_none (Option.some.inj h) with ⟨-, rfl⟩
        exact Nat.lt_of_le_of_lt hle hc
      · cases h
      · -- A pair is read from two units.
        rcases Option.bind_eq_some_iff.1 h with ⟨u1, -, h⟩
        split_ifs at h
        · cases h
        · rcases deliver_eq_none (Option.some.inj h) with ⟨-, rfl⟩
          cases hone
      · cases h
  | utf32 =>
      simp only [hf, utf32ToUtf32, List.getElem?_cons_zero, Option.bind_eq_bind,
        Option.bind_some] at h
      rcases deliver_eq_none (Option.some.inj h) with ⟨-, rfl⟩
      exact Nat.lt_of_le_of_lt hle hc

/-- A run of ASCII characters is a run of ASCII units. -/
theorem Scan.ascii_front {o : Options} {s : List In.Unit} {run rest : List Item} {e : Ending}
    (h : Scan o s (run ++ rest) e) (hrun : ∀ i ∈ run, i.IsAscii) :
    ∃ us t, s = us ++ t ∧ us.length = run.length ∧ ∀ u ∈ us, u.toNat < 0x80 := by
  induction run generalizing s with
  | nil => exact ⟨[], s, rfl, rfl, by simp⟩
  | cons i run ih =>
      rcases List.forall_mem_cons.1 hrun with ⟨⟨hone, herr, c, hcode, hc⟩, hall⟩
      cases h with
      | @item u t r _ _ _ hr hv htail =>
          rcases r with ⟨err, cr⟩
          have hnone : err = .none := (verdict_item_error hv).symm.trans herr
          subst hnone
          cases hv
          cases hcode
          have hu := charToUtf32_isAscii hr hone hc
          rw [show cr.inputBlock = 1 from hone, List.drop_one, List.tail_cons] at htail
          rcases ih htail hall with ⟨us, t', rfl, hlen, hus⟩
          exact ⟨u :: us, t', rfl, congrArg Nat.succ hlen, List.forall_mem_cons.2 ⟨hu, hus⟩⟩

/-- Where a block of ASCII characters is next and the check finds room, the fast path is taken. -/
theorem fastPath_of_ascii {o : Options} {n : Nat} {s : LoopState In Out} {run rest : List Item}
    {e : Ending} (hperf : o.perfMode = .simd) (hscan : Scan o s.inStr (run ++ rest) e)
    (hrun : ∀ i ∈ run, i.IsAscii) (hlen : In.blockUnits ≤ run.length)
    (hroom : s.outStr + Out.blockUnits ≤ n) : fastPath o n s := by
  rcases hscan.ascii_front hrun with ⟨us, t, hs, hus, hascii⟩
  refine (fastPath_iff o n s).2 ⟨hperf, ?_, hroom, ?_⟩
  · rw [hs, List.length_append]
    omega
  · intro u hu
    rw [LoopState.block, hs, List.take_append_of_le_length (by omega)] at hu
    exact hascii u (List.mem_of_mem_take hu)

/-! ## Runs that overrun the buffer -/

/-- A run of ASCII characters met with `room` units left.  Blocks are taken off it while they fit;
what they leave passes the check of one more, which the run is long enough for. -/
structure Overruns (In Out : CharType) (room : Nat) (run : List Item) : Prop where
  ascii : ∀ i ∈ run, i.IsAscii
  long : (room / In.blockUnits + 1) * In.blockUnits ≤ run.length
  passes : Out.blockUnits ≤ room % In.blockUnits

/-- The room behind the items, if they are reached: a character that fits takes its units, one that
does not ends the call in the mode `normal` and is passed over in the mode `full`. -/
def Options.roomBehind (o : Options) (Out : CharType) : Nat → List Item → Option Nat
  | room, [] => some room
  | room, i :: items =>
      if (i.output Out).length ≤ room then
        o.roomBehind Out (room - (i.output Out).length) items
      else if o.outMode = .normal then
        none
      else
        o.roomBehind Out room items

/-- Among the items is such a run, from its first character on. -/
def Options.MeetsOverrun (o : Options) (In Out : CharType) (outputLen : Nat)
    (items : List Item) : Prop :=
  o.perfMode = .simd ∧ ∃ xs run rest room, items = xs ++ (run ++ rest) ∧
    (∀ i ∈ xs.getLast?, ¬ i.IsAscii) ∧ o.roomBehind Out outputLen xs = some room ∧
    Overruns In Out room run

section Overruns

variable {o : Options} {room : Nat} {run block rest items : List Item}

theorem Overruns.blockUnits_le (h : Overruns In Out room run) : In.blockUnits ≤ run.length :=
  (Nat.le_mul_of_pos_left _ (Nat.succ_pos _)).trans h.long

theorem Overruns.room_le (h : Overruns In Out room run) : Out.blockUnits ≤ room :=
  h.passes.trans (Nat.mod_le _ _)

/-- Only a conversion that widens the units overruns the buffer. -/
theorem Overruns.widens (h : Overruns In Out room run) : Out.blockUnits < In.blockUnits :=
  Nat.lt_of_le_of_lt h.passes (Nat.mod_lt _ In.blockUnits_pos)

/-- A block that does not fit. -/
theorem overruns_of_lt (hascii : ∀ i ∈ run, i.IsAscii) (hlen : In.blockUnits ≤ run.length)
    (hout : Out.blockUnits ≤ room) (hroom : room < In.blockUnits) : Overruns In Out room run := by
  refine ⟨hascii, ?_, ?_⟩
  · rw [Nat.div_eq_of_lt hroom, Nat.zero_add, Nat.one_mul]
    exact hlen
  · rw [Nat.mod_eq_of_lt hroom]
    exact hout

/-- A block that fits. -/
theorem overruns_append_iff (hascii : ∀ i ∈ block, i.IsAscii)
    (hlen : block.length = In.blockUnits) (hroom : In.blockUnits ≤ room) :
    Overruns In Out room (block ++ run) ↔ Overruns In Out (room - In.blockUnits) run := by
  have hdiv : room / In.blockUnits = (room - In.blockUnits) / In.blockUnits + 1 :=
    Nat.div_eq_sub_div In.blockUnits_pos hroom
  have hmod : room % In.blockUnits = (room - In.blockUnits) % In.blockUnits :=
    Nat.mod_eq_sub_mod hroom
  have hlong : (room / In.blockUnits + 1) * In.blockUnits ≤ (block ++ run).length ↔
      ((room - In.blockUnits) / In.blockUnits + 1) * In.blockUnits ≤ run.length := by
    rw [hdiv, List.length_append, hlen, Nat.add_mul _ 1, Nat.one_mul]
    omega
  constructor
  · intro h
    exact ⟨fun i hi => h.ascii i (List.mem_append_right _ hi), hlong.1 h.long, hmod ▸ h.passes⟩
  · intro h
    refine ⟨fun i hi => ?_, hlong.2 h.long, hmod ▸ h.passes⟩
    exact (List.mem_append.1 hi).elim (hascii i) (h.ascii i)

theorem roomBehind_cons (o : Options) (Out : CharType) (room : Nat) (i : Item)
    (items : List Item) :
    o.roomBehind Out room (i :: items) =
      (o.roomBehind Out room [i]).bind fun r => o.roomBehind Out r items := by
  simp only [Options.roomBehind]
  split_ifs <;> rfl

theorem roomBehind_append_ascii (hascii : ∀ i ∈ block, i.IsAscii) (hroom : block.length ≤ room) :
    o.roomBehind Out room (block ++ items) = o.roomBehind Out (room - block.length) items := by
  induction block generalizing room with
  | nil => rfl
  | cons i block ih =>
      rcases List.forall_mem_cons.1 hascii with ⟨hi, hblock⟩
      rw [List.length_cons] at hroom
      rw [List.cons_append, Options.roomBehind, hi.output_length, if_pos (by omega),
        ih hblock (by omega), List.length_cons, Nat.sub_sub, Nat.add_comm 1]

theorem roomBehind_le {r : Nat} (h : o.roomBehind Out room items = some r) : r ≤ room := by
  induction items generalizing room with
  | nil =>
      cases h
      exact le_refl _
  | cons i items ih =>
      rw [Options.roomBehind] at h
      split_ifs at h
      · exact (ih h).trans (Nat.sub_le _ _)
      · exact ih h

/-- A block that fits leaves the runs behind it as they are. -/
theorem meetsOverrun_append_iff (hascii : ∀ i ∈ block, i.IsAscii)
    (hlen : block.length = In.blockUnits) (hroom : In.blockUnits ≤ room) :
    o.MeetsOverrun In Out room (block ++ items) ↔
      o.MeetsOverrun In Out (room - In.blockUnits) items := by
  have hbehind : ∀ xs, o.roomBehind Out room (block ++ xs) =
      o.roomBehind Out (room - In.blockUnits) xs := fun xs => by
    rw [roomBehind_append_ascii hascii (hlen.trans_le hroom), hlen]
  constructor
  · rintro ⟨hperf, xs, run, rest, r, heq, hlast, hr, h⟩
    refine ⟨hperf, ?_⟩
    rcases xs with _ | ⟨x, xs⟩
    · -- The run starts with the block.
      cases hr
      have hle := h.blockUnits_le
      have hpre : block <+: run :=
        List.prefix_of_prefix_length_le ⟨items, heq⟩ ⟨rest, rfl⟩ (hlen.trans_le hle)
      rcases hpre with ⟨run', rfl⟩
      rw [List.nil_append, List.append_assoc] at heq
      exact ⟨[], run', rest, _, List.append_cancel_left heq, by simp, rfl,
        (overruns_append_iff hascii hlen hroom).1 h⟩
    · -- What is in front of the run does not end inside the block.
      have hpre : block <+: x :: xs := by
        by_contra hno
        have hxs : x :: xs <+: block := by
          refine List.prefix_of_prefix_length_le ⟨_, heq.symm⟩ ⟨items, rfl⟩ ?_
          by_contra hlt
          exact hno (List.prefix_of_prefix_length_le ⟨items, rfl⟩ ⟨_, heq.symm⟩
            (Nat.le_of_not_le hlt))
        have hmem := List.getLast_mem (List.cons_ne_nil x xs)
        exact hlast _ (List.getLast?_eq_some_getLast _) (hascii _ (hxs.subset hmem))
      rcases hpre with ⟨xs', hxs'⟩
      rw [← hxs'] at heq hlast hr
      rw [List.append_assoc] at heq
      refine ⟨xs', run, rest, r, List.append_cancel_left heq, fun i hi => hlast i ?_,
        (hbehind xs').symm.trans hr, h⟩
      rw [List.getLast?_append, hi]
      rfl
  · rintro ⟨hperf, xs, run, rest, r, rfl, hlast, hr, h⟩
    refine ⟨hperf, ?_⟩
    rcases xs with _ | ⟨x, xs⟩
    · cases hr
      exact ⟨[], block ++ run, rest, room, by simp, by simp, rfl,
        (overruns_append_iff hascii hlen hroom).2 h⟩
    · refine ⟨block ++ x :: xs, run, rest, r, by simp, fun i hi => hlast i ?_,
        (hbehind _).trans hr, h⟩
      rwa [List.getLast?_append_of_ne_nil _ (List.cons_ne_nil x xs)] at hi

theorem not_meetsOverrun_nil : ¬ o.MeetsOverrun In Out room [] := by
  rintro ⟨-, xs, run, rest, r, heq, -, -, h⟩
  have hnil : run = [] := by simp_all
  have hle := h.blockUnits_le
  have hpos := In.blockUnits_pos
  rw [hnil, List.length_nil] at hle
  omega

/-- A run of ASCII characters and nothing else. -/
theorem meetsOverrun_ascii_iff (hascii : ∀ i ∈ run, i.IsAscii) :
    o.MeetsOverrun In Out room run ↔ o.perfMode = .simd ∧ Overruns In Out room run := by
  constructor
  · rintro ⟨hperf, xs, ys, rest, r, rfl, hlast, hr, h⟩
    refine ⟨hperf, ?_⟩
    have hnil : xs = [] := by
      by_contra hne
      have hmem := List.getLast_mem hne
      exact hlast _ (List.getLast?_eq_some_getLast hne) (hascii _ (List.mem_append_left _ hmem))
    subst hnil
    cases hr
    refine ⟨hascii, h.long.trans ?_, h.passes⟩
    rw [List.nil_append, List.length_append]
    omega
  · rintro ⟨hperf, h⟩
    exact ⟨hperf, [], run, [], room, by simp, by simp, rfl, h⟩

end Overruns

/-! ## The invariant -/

/-- No store at or past `n`, and at most `n` units counted. -/
def Run.InBounds {Out : CharType} (run : Run Out) (n : Nat) : Prop :=
  run.mem.Within n ∧ run.result.outputBlockCount ≤ n

/-- The invariant of the loop while the buffer is respected. -/
structure LoopState.InBounds (s : LoopState In Out) (n : Nat) : Prop where
  within : s.mem.Within n
  le : s.outStr ≤ n
  count : s.result.outputBlockCount = s.outStr

theorem LoopState.InBounds.toRun {s : LoopState In Out} {n : Nat} (h : s.InBounds n) :
    s.toRun.InBounds n := by
  refine ⟨h.within, ?_⟩
  change s.result.outputBlockCount ≤ n
  rw [h.count]
  exact h.le

theorem inBounds_start (input : List In.Unit) (n : Nat) :
    (LoopState.start Out input).InBounds n :=
  ⟨Region.within_untouched n, Nat.zero_le n, rfl⟩

theorem LoopState.InBounds.accept {s : LoopState In Out} {n : Nat} (h : s.InBounds n)
    (i : Item) : (i.accept s).InBounds n :=
  ⟨h.within, h.le, (tally_outputCounts [i] s.result).1.trans h.count⟩

theorem LoopState.InBounds.write {s : LoopState In Out} {n : Nat} (h : s.InBounds n)
    {us : List Out.Unit} (hfit : s.outStr + us.length ≤ n) (need : Nat) :
    (s.write us need).InBounds n := by
  refine ⟨h.within.storeAll hfit, hfit, ?_⟩
  simp only [LoopState.write, StrResult.credit, h.count]

section Steps

variable {o : Options} {n : Nat} (hmode : o.outMode = .normal ∨ o.outMode = .full)

include hmode

/-- The state an iteration leaves behind, whether it continues or returns. -/
theorem emit_inBounds {us : List Out.Unit} {s t : LoopState In Out} (h : s.InBounds n)
    (ht : emit o n us s = .next t ∨ emit o n us s = .ret t) : t.InBounds n := by
  unfold emit at ht
  have hchecks : o.checksOutput := hmode
  have hstored : o.stored us = us := by
    rcases hmode with hm | hm <;> simp [Options.stored, hm]
  rw [hstored] at ht
  split_ifs at ht with hover hnormal
  · -- No room in the mode `normal`: the call returns.
    rcases ht with ht | ht
    · cases ht
    · cases ht
      exact ⟨h.within, h.le, h.count⟩
  · -- No room in the mode `full`: the character is only counted.
    rcases ht with ht | ht
    · cases ht
      have hsame : (s.write [] us.length).InBounds n := h.write (by simpa using h.le) us.length
      exact ⟨hsame.within, hsame.le, hsame.count⟩
    · cases ht
  · have hfit : s.outStr + us.length ≤ n := Nat.le_of_not_lt fun hlt => hover ⟨hchecks, hlt⟩
    rcases ht with ht | ht
    · cases ht
      exact h.write hfit _
    · cases ht

theorem consume_inBounds {i : Item} {s t : LoopState In Out} (h : s.InBounds n)
    (ht : consume o n i s = .next t ∨ consume o n i s = .ret t) : t.InBounds n := by
  unfold consume at ht
  cases hcode : i.code with
  | none =>
      simp only [hcode] at ht
      rcases ht with ht | ht
      · cases ht
        exact h.accept i
      · cases ht
  | some c =>
      simp only [hcode] at ht
      exact emit_inBounds hmode (h.accept i) ht

omit hmode in
/-- The count of stored units never goes down. -/
theorem consume_outputBlockCount_le {i : Item} {s t : LoopState In Out}
    (ht : consume o n i s = .next t ∨ consume o n i s = .ret t) :
    s.result.outputBlockCount ≤ t.result.outputBlockCount := by
  have haccept : (i.accept s).result.outputBlockCount = s.result.outputBlockCount :=
    (tally_outputCounts [i] s.result).1
  unfold consume emit at ht
  cases hcode : i.code with
  | none =>
      simp only [hcode] at ht
      rcases ht with ht | ht
      · cases ht
        exact haccept.ge
      · cases ht
  | some c =>
      simp only [hcode] at ht
      split_ifs at ht
      all_goals
        rcases ht with ht | ht <;> cases ht
        rw [← haccept]
        simp [LoopState.write, LoopState.raise, StrResult.credit, StrResult.raise]

/-- The room behind an item that does not end the call is what the next state has. -/
theorem roomBehind_of_next {i : Item} {s t : LoopState In Out}
    (ht : consume o n i s = .next t) :
    o.roomBehind Out (n - s.outStr) [i] = some (n - t.outStr) := by
  have hchecks : o.checksOutput := hmode
  have hstored : ∀ us : List Out.Unit, o.stored us = us := by
    rcases hmode with hm | hm <;> simp [Options.stored, hm]
  have hout : (i.accept s).outStr = s.outStr := rfl
  unfold consume at ht
  cases hcode : i.code with
  | none =>
      have hnil : i.output Out = [] := Item.output_of_none hcode
      simp only [hcode] at ht
      cases ht
      simp [Options.roomBehind, hnil, hout]
  | some c =>
      have hunits : i.output Out = utf32Units Out c := Item.output_of_some hcode
      have hpos := utf32Units_length_pos Out c
      simp only [Options.roomBehind, hunits]
      simp only [hcode, emit, hstored, hout] at ht
      split_ifs at ht with hover hnormal
      · -- Passed over in the mode `full`.
        cases ht
        rw [if_neg (by omega), if_neg hnormal]
        rfl
      · have hfit : s.outStr + (utf32Units Out c).length ≤ n :=
          Nat.le_of_not_lt fun hlt => hover ⟨hchecks, hlt⟩
        cases ht
        rw [if_pos (by omega)]
        simp only [LoopState.write, hout, Nat.sub_sub]

omit hmode in
/-- Where an item ends the call nothing behind it is reached. -/
theorem roomBehind_of_ret {i : Item} {s t : LoopState In Out}
    (ht : consume o n i s = .ret t) : o.roomBehind Out (n - s.outStr) [i] = none := by
  have hout : (i.accept s).outStr = s.outStr := rfl
  unfold consume at ht
  cases hcode : i.code with
  | none =>
      simp only [hcode] at ht
      cases ht
  | some c =>
      have hunits : i.output Out = utf32Units Out c := Item.output_of_some hcode
      have hpos := utf32Units_length_pos Out c
      simp only [Options.roomBehind, hunits]
      simp only [hcode, emit, hout] at ht
      split_ifs at ht with hover hnormal
      rw [if_neg (by omega), if_pos hnormal]

omit hmode in
/-- No run that overruns the buffer starts where the slow path is taken. -/
theorem not_overruns_of_slow {s : LoopState In Out} {run rest : List Item} {e : Ending}
    (hperf : o.perfMode = .simd) (hslow : ¬ fastPath o n s)
    (hscan : Scan o s.inStr (run ++ rest) e) : ¬ Overruns In Out (n - s.outStr) run := by
  intro h
  have hpos := Out.blockUnits_pos
  have hroom := h.room_le
  exact hslow (fastPath_of_ascii hperf hscan h.ascii h.blockUnits_le (by omega))

/-- A slow step leaves the runs behind it as they are. -/
theorem meetsOverrun_cons_iff {i : Item} {items : List Item} {e : Ending} {s t : LoopState In Out}
    (hslow : ¬ fastPath o n s) (hscan : Scan o s.inStr (i :: items) e)
    (ht : consume o n i s = .next t) :
    o.MeetsOverrun In Out (n - s.outStr) (i :: items) ↔
      o.MeetsOverrun In Out (n - t.outStr) items := by
  have hroom := roomBehind_of_next hmode ht
  have hbehind : ∀ xs, o.roomBehind Out (n - s.outStr) (i :: xs) =
      o.roomBehind Out (n - t.outStr) xs := fun xs => by
    rw [roomBehind_cons, hroom, Option.bind_some]
  constructor
  · rintro ⟨hperf, xs, run, rest, r, heq, hlast, hr, h⟩
    refine ⟨hperf, ?_⟩
    rcases xs with _ | ⟨x, xs⟩
    · -- The run does not start here: its first block would have been taken.
      cases hr
      rw [List.nil_append] at heq
      exact absurd h (not_overruns_of_slow hperf hslow (heq ▸ hscan))
    · rcases List.cons.inj heq with ⟨rfl, rfl⟩
      refine ⟨xs, run, rest, r, rfl, fun j hj => hlast j ?_, (hbehind xs).symm.trans hr, h⟩
      rw [List.getLast?_cons, hj]
      rfl
  · rintro ⟨hperf, xs, run, rest, r, rfl, hlast, hr, h⟩
    refine ⟨hperf, i :: xs, run, rest, r, rfl, ?_, (hbehind xs).trans hr, h⟩
    rcases xs with _ | ⟨x, xs⟩
    · -- With an ASCII character in front of the run the fast path would have been taken.
      cases hr
      intro j hj hascii
      cases hj
      have hpos := Out.blockUnits_pos
      have hle := roomBehind_le hroom
      have hout := h.room_le
      have hin := h.blockUnits_le
      have hall : ∀ j ∈ i :: run, j.IsAscii := List.forall_mem_cons.2 ⟨hascii, h.ascii⟩
      exact hslow (fastPath_of_ascii hperf hscan hall (by rw [List.length_cons]; omega) (by omega))
    · intro j hj
      rw [List.getLast?_cons_cons] at hj
      exact hlast j hj

omit hmode in
/-- Where the slow path ends the call, no run is met any more. -/
theorem not_meetsOverrun_of_ret {i : Item} {items : List Item} {e : Ending} {s t : LoopState In Out}
    (hslow : ¬ fastPath o n s) (hscan : Scan o s.inStr (i :: items) e)
    (ht : consume o n i s = .ret t) : ¬ o.MeetsOverrun In Out (n - s.outStr) (i :: items) := by
  rintro ⟨hperf, xs, run, rest, r, heq, -, hr, h⟩
  rcases xs with _ | ⟨x, xs⟩
  · cases hr
    rw [List.nil_append] at heq
    exact not_overruns_of_slow hperf hslow (heq ▸ hscan) h
  · rcases List.cons.inj heq with ⟨rfl, -⟩
    rw [roomBehind_cons, roomBehind_of_ret ht] at hr
    cases hr

omit hmode in
/-- The items behind one are a scan of what is read next. -/
theorem Scan.of_next {i : Item} {items : List Item} {e : Ending} {s t : LoopState In Out}
    (hscan : Scan o s.inStr (i :: items) e) (ht : consume o n i s = .next t) :
    Scan o t.inStr items e := by
  rw [consume_next_inStr ht]
  generalize s.inStr = input at hscan
  cases hscan with
  | item _ _ htail => exact htail

omit hmode in
/-- A block with room for all its units. -/
theorem fastStep_inBounds {s : LoopState In Out} (hs : s.InBounds n) (hpath : fastPath o n s)
    (hroom : s.outStr + In.blockUnits ≤ n) : (fastStep s).InBounds n := by
  have hblock : (s.block.map (BitVec.setWidth Out.bits)).length = In.blockUnits := by
    rw [List.length_map, fastPath_block_length hpath]
  refine ⟨hs.within.storeAll ?_, hroom, ?_⟩
  · change s.outStr + (s.block.map (BitVec.setWidth Out.bits)).length ≤ n
    rwa [hblock]
  · change s.result.outputBlockCount + In.blockUnits = _
    rw [hs.count]
    rfl

/-- **Bounds.**  The buffer is respected exactly when the text meets no run of ASCII characters
that overruns it. -/
theorem strLoop_inBounds_iff {fuel : Nat} {items : List Item} {e : Ending}
    {s s' : LoopState In Out} (hs : s.InBounds n) (hrun : strLoop o n fuel s = some s')
    (hscan : Scan o s.inStr items e) :
    s'.toRun.InBounds n ↔ ¬ o.MeetsOverrun In Out (n - s.outStr) items := by
  -- That the count never goes down is carried along: a fast step past the end is not undone.
  refine (strLoop_rule (M := fun items e s s' =>
    s.result.outputBlockCount ≤ s'.result.outputBlockCount ∧
      (s.InBounds n → Scan o s.inStr items e →
        (s'.toRun.InBounds n ↔ ¬ o.MeetsOverrun In Out (n - s.outStr) items)))
    ?_ ?_ ?_ ?_ ?_ hrun hscan).2 hs hscan
  · intro s _
    exact ⟨le_refl _, fun hs _ => ⟨fun _ => not_meetsOverrun_nil, fun _ => hs.toRun⟩⟩
  · intro k err s _ _
    exact ⟨le_refl _, fun hs _ => ⟨fun _ => not_meetsOverrun_nil, fun _ => hs.toRun⟩⟩
  · -- A character that ends the call.
    intro i items e s t hslow _ hret
    refine ⟨consume_outputBlockCount_le (.inr hret), fun hs hscan => ?_⟩
    exact ⟨fun _ => not_meetsOverrun_of_ret hslow hscan hret,
      fun _ => (consume_inBounds hmode hs (.inr hret)).toRun⟩
  · -- A character of the slow path, which leaves the runs behind it as they are.
    intro i items e s t s' _ hslow _ hnext ih
    refine ⟨(consume_outputBlockCount_le (.inl hnext)).trans ih.1, fun hs hscan => ?_⟩
    rw [meetsOverrun_cons_iff hmode hslow hscan hnext]
    exact ih.2 (consume_inBounds hmode hs (.inl hnext)) (hscan.of_next hnext)
  · -- A block.
    intro rest e s s' _ hpath ih
    have hascii : ∀ i ∈ s.block.map asciiItem, i.IsAscii :=
      asciiItems_isAscii (fastPath_block_ascii hpath)
    have hitems : (s.block.map (asciiItem (T := In))).length = In.blockUnits := by
      rw [List.length_map, fastPath_block_length hpath]
    have hcount : (fastStep s).result.outputBlockCount =
        s.result.outputBlockCount + In.blockUnits := rfl
    refine ⟨by omega, fun hs hscan => ?_⟩
    by_cases hroom : s.outStr + In.blockUnits ≤ n
    · have htail : Scan o (fastStep s).inStr rest e := by
        rcases hscan.of_fastPath hpath with ⟨rest', hrest, htail⟩
        exact List.append_cancel_left hrest ▸ htail
      have hnextOut : n - (fastStep s).outStr = n - s.outStr - In.blockUnits :=
        (Nat.sub_sub _ _ _).symm
      rw [meetsOverrun_append_iff hascii hitems (by omega), ← hnextOut]
      exact ih.2 (fastStep_inBounds hs hpath hroom) htail
    · -- The block alone takes the count past the end, and it never comes back.
      rcases (fastPath_iff o n s).1 hpath with ⟨hperf, -, hout, -⟩
      refine iff_of_false ?_ (not_not.2 ?_)
      · intro hrun
        have hle : s'.result.outputBlockCount ≤ n := hrun.2
        have hmono := ih.1
        have hstart := hs.count
        omega
      · exact ⟨hperf, [], _, rest, _, rfl, by simp, rfl,
          overruns_of_lt hascii hitems.ge (by omega) (by omega)⟩

end Steps

/-! ## Calls -/

/-- **When the buffer is respected.**  In the modes `normal` and `full` no unit is stored at or
past `outputLen`, and no more than `outputLen` units are counted, exactly when the eight-byte path
is off or the text meets no run of ASCII characters that holds a block more than fit and leaves
space enough for the check. -/
theorem strToStr_inBounds_iff (o : Options) (In Out : CharType) (input : List In.Unit)
    (outputLen : Nat) (run : Run Out) (items : List Item) (e : Ending)
    (hmode : o.outMode = .normal ∨ o.outMode = .full)
    (hrun : strToStr o In Out input outputLen = some run) (hscan : Scan o input items e) :
    run.InBounds outputLen ↔ ¬ o.MeetsOverrun In Out outputLen items := by
  rcases exists_loop_of_strToStr hrun with ⟨s', hloop, rfl⟩
  exact strLoop_inBounds_iff hmode (inBounds_start input outputLen) hloop hscan

/-- One block is taken and leaves four units, which the text is too short to try. -/
theorem strToStr_inBounds_iff_block :
    ∃ run, strToStr { defaultOpt with perfMode := .simd } (.ofForm .utf8) (.ofForm .utf16)
        [0x61#8, 0x62#8, 0x63#8, 0x64#8, 0x65#8, 0x66#8, 0x67#8, 0x68#8] 12 = some run ∧
      run.mem 7 = some 0x68#16 ∧ run.InBounds 12 := by
  have hout : (strToStr { defaultOpt with perfMode := .simd } (.ofForm .utf8) (.ofForm .utf16)
      [0x61#8, 0x62#8, 0x63#8, 0x64#8, 0x65#8, 0x66#8, 0x67#8, 0x68#8] 12).map
        (fun run => (run.mem 7 : Option (BitVec 16))) = some (some 0x68#16) := by
    decide
  rcases Option.map_eq_some_iff.1 hout with ⟨run, hrun, hmem⟩
  have hus : ∀ u ∈ ([0x61#8, 0x62#8, 0x63#8, 0x64#8, 0x65#8, 0x66#8, 0x67#8, 0x68#8] :
      List (CharType.ofForm .utf8).Unit), u.toNat < 0x80 := by decide
  have hscan := Scan.ascii (o := { defaultOpt with perfMode := .simd }) hus .nil
  rw [List.append_nil, List.append_nil] at hscan
  refine ⟨run, hrun, hmem, ?_⟩
  refine (strToStr_inBounds_iff _ _ _ _ _ run _ .done (.inl rfl) hrun hscan).2 fun hmeets => ?_
  have hlong := ((meetsOverrun_ascii_iff (asciiItems_isAscii hus)).1 hmeets).2.long
  exact absurd hlong (by decide)

/-- Eight ASCII bytes become eight UTF-16 units in a buffer for four. -/
theorem strToStr_not_inBounds :
    ∃ run, strToStr { defaultOpt with perfMode := .simd } (.ofForm .utf8) (.ofForm .utf16)
        [0x61#8, 0x62#8, 0x63#8, 0x64#8, 0x65#8, 0x66#8, 0x67#8, 0x68#8] 4 = some run ∧
      run.mem 7 = some 0x68#16 ∧ ¬ run.InBounds 4 := by
  have hout : (strToStr { defaultOpt with perfMode := .simd } (.ofForm .utf8) (.ofForm .utf16)
      [0x61#8, 0x62#8, 0x63#8, 0x64#8, 0x65#8, 0x66#8, 0x67#8, 0x68#8] 4).map
        (fun run => ((run.mem 7 : Option (BitVec 16)), run.result.outputBlockCount)) =
          some (some 0x68#16, 8) := by
    decide
  rcases Option.map_eq_some_iff.1 hout with ⟨run, hrun, hval⟩
  rcases Prod.mk.inj hval with ⟨hmem, hcount⟩
  refine ⟨run, hrun, hmem, fun hbounds => ?_⟩
  have hle := hbounds.2
  omega

/-- Conversions that do not widen the units respect the buffer, as does the slow path. -/
theorem strToStr_inBounds_of_blockUnits {o : Options} {input : List In.Unit} {outputLen : Nat}
    {run : Run Out} (hmode : o.outMode = .normal ∨ o.outMode = .full)
    (hpath : o.perfMode = .normal ∨ In.blockUnits ≤ Out.blockUnits)
    (hrun : strToStr o In Out input outputLen = some run) : run.InBounds outputLen := by
  rcases exists_loop_of_strToStr hrun with ⟨s', hloop, rfl⟩
  rcases Scan.exists o input with ⟨items, e, hscan⟩
  refine (strLoop_inBounds_iff hmode (inBounds_start input outputLen) hloop hscan).2 ?_
  rintro ⟨hperf, xs, ys, rest, r, -, -, -, h⟩
  rcases hpath with hnormal | hle
  · rw [hnormal] at hperf
    cases hperf
  · exact absurd h.widens (Nat.not_lt.2 hle)

end Convert
end Chenc
