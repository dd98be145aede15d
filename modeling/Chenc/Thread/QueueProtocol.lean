import Chenc.Thread.QueueSafety

/-!
# QueueProtocol — the ring between two migrations, and the quiet of a migration

* `Pc.window` : the slot a thread works on, between its reservation and its sequence store;
* `headsReserved`, `tailsReserved` : the reservations of a run, in their order;
* `RingProtocol` : who may touch which slot, and which pop obtains which value;
* `ring_protocol` : it is kept until some push asks for a larger array;
* `Pc.accesses` : the arrays of which the next operation reads or writes a slot;
* `Quiescent`, `growth_quiescent` : a migration has the queue to itself, and no thread goes into
  an array that has been deleted.
-/

namespace Chenc
namespace Thread
namespace AtomicQueue

open Interleaving (Config Reachable Trace runSchedule)
open NumberedRing (Board)

variable {α : Type} {s s' : Shared α} {l l' : Pc α}

/-! ## The ring -/

instance (l : Pc α) : Decidable l.migrating := by
  rcases l <;> first | exact isTrue trivial | exact isFalse id

instance (l : Pc α) : Decidable l.resizing := by
  rcases l <;> first | exact isTrue trivial | exact isFalse id

/-- The step is not one of `reset_capa`. -/
def BeforeGrowth (_ : Shared α) : Pc α → Prop
  | .closeGate _ _ => False
  | l => ¬ l.resizing

instance (s : Shared α) (l : Pc α) : Decidable (BeforeGrowth s l) := by
  rcases l <;> first | exact isTrue id | exact isFalse id | exact isFalse fun h => h trivial

/-- The window between a successful CAS on a position and the store of the sequence number. -/
def Pc.window : Pc α → Option Window
  | .construct _ w | .publish w | .moveOut w | .destroy w _ | .release w _ => some w
  | _ => none

/-- The position a step reserves for a pop. -/
def headReserved : Pc α × Pc α → Option Nat
  | (.reserve .pop w, .moveOut _) => some w.pos
  | _ => none

/-- The value for which a step reserves a position. -/
def tailReserved : Pc α × Pc α → Option α
  | (.reserve (.push value) _, .construct _ _) => some value
  | _ => none

/-- The successful head reservations of a run, in their order. -/
def headsReserved (tr : List (Pc α × Pc α)) : List Nat :=
  tr.filterMap headReserved

/-- The successful tail reservations of a run, in their order. -/
def tailsReserved (tr : List (Pc α × Pc α)) : List α :=
  tr.filterMap tailReserved

/-- What a pop has moved out of its slot in a step. -/
def obtained : Pc α × Pc α → Option (Nat × Option α)
  | (.moveOut w, .destroy _ res) => some (w.pos, res)
  | _ => none

theorem Moves.heads (h : Moves s l s' l') :
    (headReserved (l, l') = none ∧ s'.head = s.head) ∨
      (headReserved (l, l') = some s.head ∧ s'.head = s.head + 1) := by
  cases h with
  | reserveHead w hcas =>
      refine .inr ⟨?_, ?_⟩
      · rw [hcas]
        rfl
      · rw [hcas]
  | leave e => cases e <;> exact .inl ⟨rfl, rfl⟩
  | reserveFailed op w => cases op <;> exact .inl ⟨rfl, rfl⟩
  | _ => exact .inl ⟨rfl, rfl⟩

theorem Moves.tails (h : Moves s l s' l') :
    (tailReserved (l, l') = none ∧ s'.pushes = s.pushes) ∨
      ∃ v, tailReserved (l, l') = some v ∧ s'.pushes = s.pushes ++ [v] := by
  cases h with
  | reserveTail v w hcas => exact .inr ⟨v, rfl, rfl⟩
  | leave e => cases e <;> exact .inl ⟨rfl, rfl⟩
  | reserveFailed op w => cases op <;> exact .inl ⟨rfl, rfl⟩
  | _ => exact .inl ⟨rfl, rfl⟩

variable {ι : Type} [DecidableEq ι] {held : Nat → Option Stage}
  {c : Config ι (Shared α) (Pc α)} {t u : ι}

structure RingProtocol (tr : List (Pc α × Pc α)) (c : Config ι (Shared α) (Pc α)) : Prop where
  /-- No two threads are inside their windows for one slot. -/
  exclusive {t u : ι} {w w' : Window} : (c.pc t).window = some w → (c.pc u).window = some w' →
    w.slot = w'.slot → t = u
  /-- A pop moves out of a slot that holds a value. -/
  takes {t : ι} {w : Window} : c.pc t = .moveOut w → ∃ v, (c.shared.node w).data = some v
  /-- A push constructs into a slot that holds none. -/
  constructs {t : ι} {v : α} {w : Window} : c.pc t = .construct v w →
    (c.shared.node w).data = none
  /-- No position is reserved by two pops. -/
  reserved : (headsReserved tr).Nodup
  /-- What the `k`-th head reservation obtains is the value of the `k`-th tail reservation. -/
  order {k p : Nat} {res : Option α} {x : Pc α × Pc α} : (headsReserved tr)[k]? = some p →
    x ∈ tr → obtained x = some (p, res) →
    ∃ v, res = some v ∧ (tailsReserved tr)[k]? = some v

namespace Inv

omit [DecidableEq ι]

/-- A thread inside its window has the position in hand, and its slot is wanted. -/
theorem wanted_of_window (h : Inv held c) (hs : Sound c) {w : Window}
    (ht : (c.pc t).window = some w) :
    w.Current c.shared ∧ ∃ x y, (c.pc t).claim = some (w.pos, x) ∧
      wanted c.shared held w.pos = some y := by
  have hview := hs.views.view t
  have hhold : ∀ x y, (c.pc t).claim = some (w.pos, x) → wantedAt c.shared w.pos (some x) =
      some y → ∃ x y, (c.pc t).claim = some (w.pos, x) ∧
        wanted c.shared held w.pos = some y := by
    intro x y hclaim hy
    refine ⟨x, y, hclaim, ?_⟩
    rw [wanted, h.holding.held_of_claim hclaim, hy]
  cases hl : c.pc t with
  | construct v w' | publish w' | moveOut w' | destroy w' res | release w' res =>
      rw [hl] at ht hview hhold
      cases ht
      exact ⟨hview, hhold _ _ rfl rfl⟩
  | _ =>
      rw [hl] at ht
      cases ht

theorem window_exclusive (h : Inv held c) (hs : Sound c) {w w' : Window}
    (ht : (c.pc t).window = some w) (hu : (c.pc u).window = some w')
    (hslot : w.slot = w'.slot) : t = u := by
  rcases h.wanted_of_window hs ht with ⟨hw, x, y, hx, hy⟩
  rcases h.wanted_of_window hs hu with ⟨hw', x', y', hx', hy'⟩
  have hin : (c.pc t).inside := Pc.inside_of_claim hx
  have hB := h.board_of_inside hs.gate hin
  -- Two wanted positions in one slot are one position, which one thread has in hand.
  rw [Window.slot, Window.slot, hw.1, hw'.1, slotOf_eq_mod hs.size, slotOf_eq_mod hs.size] at hslot
  have hpos : w.pos = w'.pos := hB.inj hy hy' hslot
  rw [← hpos] at hx'
  exact h.holding.unique hx hx'

end Inv

/-- What the history of a run has to do with its reservations. -/
structure Reserved (tr : List (Pc α × Pc α)) (s : Shared α) : Prop where
  heads : headsReserved tr = List.range s.head
  tails : tailsReserved tr = s.pushes
  obtained {x : Pc α × Pc α} {p : Nat} {res : Option α} : x ∈ tr →
    AtomicQueue.obtained x = some (p, res) → Carries s p res

/-- A step that fits keeps it. -/
theorem Reserved.step {tr : List (Pc α × Pc α)} (h : Reserved tr s) (hm : Moves s l s' l')
    (htakes : ∀ w, l = .moveOut w → Carries s w.pos (s.node w).data) :
    Reserved (tr ++ [(l, l')]) s' where
  heads := by
    rw [headsReserved, List.filterMap_append, ← headsReserved, h.heads]
    rcases hm.heads with ⟨hnone, hhead⟩ | ⟨hsome, hhead⟩
    · rw [List.filterMap_cons_none hnone, hhead, List.filterMap_nil, List.append_nil]
    · rw [List.filterMap_cons_some hsome, hhead, List.filterMap_nil, List.range_succ]
  tails := by
    rw [tailsReserved, List.filterMap_append, ← tailsReserved, h.tails]
    rcases hm.tails with ⟨hnone, hpush⟩ | ⟨v, hsome, hpush⟩
    · rw [List.filterMap_cons_none hnone, hpush, List.filterMap_nil, List.append_nil]
    · rw [List.filterMap_cons_some hsome, hpush, List.filterMap_nil]
  obtained {x p res} hx hobt := by
    have hpre : s.pushes <+: s'.pushes := by
      rcases hm.tails with ⟨-, hpush⟩ | ⟨v, -, hpush⟩
      · exact hpush ▸ List.prefix_rfl
      · exact hpush ▸ List.prefix_append _ _
    rcases List.mem_append.1 hx with hx | hx
    · exact (h.obtained hx hobt).mono hpre
    · cases List.mem_singleton.1 hx
      cases hm with
      | moveOut w =>
          cases hobt
          exact htakes w rfl
      | _ => cases hobt

/-- Before the first growth every step fits. -/
theorem BeforeGrowth.fits (h : BeforeGrowth s l) : Fits s l := by
  cases l <;> first | exact trivial | exact absurd trivial h

/-- What the run has reserved, in every run whose migrations fit. -/
theorem reserved_of_trace {ok : Shared α → Pc α → Prop} (hok : ∀ s l, ok s l → Fits s l)
    {initial : Nat} (h : 2 ≤ initial) {tr : List (Pc α × Pc α)}
    (hc : Trace step ok (start ι initial) tr c) : Reserved tr c.shared := by
  induction hc with
  | start => exact ⟨rfl, rfl, fun hx => absurd hx List.not_mem_nil⟩
  | next t a hprev hcond hstep ih =>
      refine ih.step (Moves.of_step hstep) fun w hl => ?_
      rcases exists_inv h (hprev.reachable.mono hok) with ⟨hs, held, hi⟩
      rcases (hi.safe hs).takes hl with ⟨v, hdata, hpush⟩
      exact ⟨v, hdata, hpush⟩

/-- **The ring.**  In every run of a queue with at least two slots, up to the first call of
`reset_capa`, for any number of threads and any order of their operations: a thread between its
reservation and its sequence store has the slot to itself, a pop moves out of a slot that holds a
value, a push constructs into one that holds none, and the `k`-th pop to reserve a position
obtains the value of the `k`-th push to reserve one. -/
theorem ring_protocol {initial : Nat} (h : 2 ≤ initial) {tr : List (Pc α × Pc α)}
    (hc : Trace step BeforeGrowth (start ι initial) tr c) : RingProtocol tr c := by
  have hfits := hc.reachable.mono fun _ _ => BeforeGrowth.fits
  have hres := reserved_of_trace (fun _ _ => BeforeGrowth.fits) h hc
  rcases exists_inv h hfits with ⟨hs, held, hi⟩
  have hsafe := hi.safe hs
  refine ⟨hi.window_exclusive hs, ?_, ?_, ?_, ?_⟩
  · intro t w hl
    rcases hsafe.takes hl with ⟨v, hdata, -⟩
    exact ⟨v, hdata⟩
  · intro t v w hl
    exact (hsafe.constructs hl).1
  · rw [hres.heads]
    exact List.nodup_range
  · intro k p res x hk hx hobt
    have hkp : k = p := by
      rw [hres.heads] at hk
      rcases List.getElem?_eq_some_iff.1 hk with ⟨hlt, hp⟩
      rw [← hp, List.getElem_range]
    rw [hres.tails, hkp]
    exact hres.obtained hx hobt

/-- Two threads push into two slots at the same time, and a third pops while one of them is still
inside. -/
def overlapping : List (Fin 3 × Act Nat) :=
  call 0 (.push 10) 8 ++ call 1 (.push 11) 9 ++ call 2 .pop 4 ++ [(0, .go), (0, .go)] ++
    List.replicate 6 (2, .go)

theorem ring_protocol_overlapping :
    ∃ (tr : List (Pc Nat × Pc Nat)) (c : Config (Fin 3) (Shared Nat) (Pc Nat)),
      runSchedule step BeforeGrowth overlapping (start (Fin 3) 2) = some c ∧
      tailsReserved tr = [10, 11] ∧ (c.pc 2).carried = some (0, 10) ∧ RingProtocol tr c := by
  have hrun : (runSchedule step BeforeGrowth overlapping (start (Fin 3) 2)).map
      (fun c => (c.shared.pushes, (c.pc 2).carried)) = some ([10, 11], some (0, 10)) := by
    decide +kernel
  rcases Option.map_eq_some_iff.1 hrun with ⟨c, hc, hpair⟩
  rcases Prod.mk.inj hpair with ⟨hpushes, hcarried⟩
  rcases (Reachable.start.runSchedule hc).exists_trace with ⟨tr, htr⟩
  have hres := reserved_of_trace (fun _ _ => BeforeGrowth.fits) (le_refl 2) htr
  exact ⟨tr, c, hc, hres.tails.trans hpushes, hcarried, ring_protocol (le_refl 2) htr⟩

/-! ## The migration -/

/-- The arrays of which the next operation reads or writes a slot. -/
def Pc.accesses : Pc α → List Nat
  | .loadSeq _ w | .construct _ w | .publish w | .moveOut w | .destroy w _ | .release w _ =>
      [w.map]
  | .initSeq _ g _ | .mark _ g _ _ => [g.newMap]
  | .transfer _ g _ _ => [g.oldMap, g.newMap]
  | .destroyOld _ g _ _ => [g.oldMap]
  | _ => []

/-- The slots of array `m` are as `f` says. -/
def Shared.withMap (s : Shared α) (m : Nat) (f : Nat → Node α) : Shared α :=
  { s with maps := Function.update s.maps m f }

section Frame

variable {k m : Nat} {f : Nat → Node α}

theorem Shared.withMap_maps_of_ne (h : k ≠ m) : (s.withMap m f).maps k = s.maps k :=
  Function.update_of_ne h ..

theorem Shared.withMap_setNode (h : k ≠ m) (i : Nat) (x : Node α) :
    (s.withMap m f).setNode k i x = (s.setNode k i x).withMap m f := by
  simp only [setNode, withMap, Function.update_of_ne h]
  rw [Function.update_comm h]

/-- An operation neither reads nor writes the slots of any array that it does not access. -/
theorem step_withMap (hm : m ∉ l.accesses) (hnew : m ≠ s.nextMap) (a : Act α) :
    step (s.withMap m f) l a = (step s l a).map fun x => (x.1.withMap m f, x.2) := by
  cases a with
  | begin op => cases l <;> rfl
  | spurious => cases l <;> rfl
  | go =>
      show advance (s.withMap m f) l = (advance s l).map fun x => (x.1.withMap m f, x.2)
      cases l with
      | loadSeq op w =>
          have hw : w.map ≠ m := fun h => hm (List.mem_singleton.2 h.symm)
          simp [advance, Shared.node, Shared.withMap_maps_of_ne hw]
      | construct v w | publish w | moveOut w | destroy w res | release w res =>
          have hw : w.map ≠ m := fun h => hm (List.mem_singleton.2 h.symm)
          simp [advance, Shared.node, Shared.setData, Shared.setSequence,
            Shared.withMap_maps_of_ne hw, Shared.withMap_setNode hw]
      | mark v g i n | destroyOld v g i n =>
          rw [Pc.accesses, List.mem_singleton] at hm
          simp [advance, Shared.node, Shared.setData, Shared.setSequence,
            Shared.withMap_maps_of_ne (Ne.symm hm), Shared.withMap_setNode (Ne.symm hm)]
      | initSeq v g i =>
          rw [Pc.accesses, List.mem_singleton] at hm
          simp only [advance, Shared.withMap_maps_of_ne (Ne.symm hm),
            Shared.withMap_setNode (Ne.symm hm)]
          split_ifs <;> rfl
      | transfer v g i n =>
          rw [Pc.accesses, List.mem_pair, not_or] at hm
          simp only [advance, Shared.node, Shared.setData,
            Shared.withMap_maps_of_ne (Ne.symm hm.1), Shared.withMap_maps_of_ne (Ne.symm hm.2),
            Shared.withMap_setNode (Ne.symm hm.2)]
          split_ifs <;> rfl
      | alloc v n oc om =>
          -- The new array is not array `m`, whatever the slots of `m` hold.
          have hcomm := Function.update_comm hnew f (fun _ => (⟨0, none⟩ : Node α)) s.maps
          simp [advance, Shared.allocate, Shared.withMap, hcomm]
      | reserve op w =>
          cases op with
          | push v => by_cases hcas : s.tail = w.pos <;> simp [advance, Shared.withMap, hcas]
          | pop => by_cases hcas : s.head = w.pos <;> simp [advance, Shared.withMap, hcas]
      | leave e => cases e <;> rfl
      | loadPos op capa => cases op <;> rfl
      | waitStat op =>
          by_cases hstat : s.stat = .resizing <;> simp [advance, Shared.withMap, hstat]
      | closeGate v n =>
          by_cases hstat : s.stat = .normal <;> simp [advance, Shared.withMap, hstat]
      | _ => rfl

end Frame

structure Quiescent (c : Config ι (Shared α) (Pc α)) : Prop where
  /-- A thread that migrates is alone. -/
  alone {t u : ι} : (c.pc t).migrating → u ≠ t → ¬ (c.pc u).inside ∧ ¬ (c.pc u).resizing
  /-- No operation goes into an array that has been deleted. -/
  live {t : ι} {m : Nat} : m ∈ (c.pc t).accesses → m ∉ c.shared.freed

omit [DecidableEq ι] in
/-- Arrays in use are not among those deleted. -/
theorem Views.live (h : Views c) {m : Nat} (hm : m ∈ (c.pc t).accesses) :
    m ∉ c.shared.freed := by
  have hle : c.shared.kmap ≤ m → m ∉ c.shared.freed := by
    intro hle hfreed
    exact absurd (h.freed_lt m hfreed) (not_lt.2 hle)
  have hview := h.view t
  cases hl : c.pc t with
  | loadSeq op w | construct v w | publish w | moveOut w | destroy w res | release w res =>
      rw [hl] at hm hview
      cases List.mem_singleton.1 hm
      exact hle hview.2.ge
  | initSeq v g i | mark v g i n =>
      rw [hl] at hm hview
      cases List.mem_singleton.1 hm
      exact hle hview.2.2.1.le
  | destroyOld v g i n =>
      rw [hl] at hm hview
      cases List.mem_singleton.1 hm
      exact hle hview.2.1.ge
  | transfer v g i n =>
      rw [hl] at hm hview
      rcases List.mem_cons.1 hm with rfl | hm
      · exact hle hview.2.1.ge
      · cases List.mem_singleton.1 hm
        exact hle hview.2.2.1.le
  | _ =>
      rw [hl] at hm
      cases hm

/-- **The migration.**  In every run, for any number of threads and any order of their
operations, a thread that migrates the array is alone in the queue: nobody is inside the active
region and nobody else has passed the CAS on the status.  No thread ever reads or writes a slot
of an array that has been deleted. -/
theorem growth_quiescent {initial : Nat}
    (hc : Reachable step (fun _ _ => True) (start ι initial) c) : Quiescent c := by
  rcases gate_and_views hc with ⟨hg, hv⟩
  refine ⟨fun {t u} ht hut => ⟨hg.quiet t u ht, fun hu => ?_⟩, fun {t m} hm => hv.live hm⟩
  exact hut (hg.unique hu (Pc.resizing_of_migrating ht))

/-- Thread `false` has read the status before thread `true` closes the gate, and counts itself in
while `true` moves the values. -/
def midway : List (Bool × Act Nat) :=
  call true (.push 10) 11 ++ call true (.push 11) 11 ++ call false .pop 1 ++
    call true (.push 12) 23 ++ [(false, .go)]

theorem growth_quiescent_midway :
    ∃ c : Config Bool (Shared Nat) (Pc Nat),
      runSchedule step (fun _ _ => True) midway (start Bool 2) = some c ∧
      (c.pc true).migrating ∧ c.shared.active = 1 ∧ Quiescent c := by
  have hrun : (runSchedule step (fun _ _ => True) midway (start Bool 2)).map
      (fun c => (decide (c.pc true).migrating, c.shared.active)) = some (true, 1) := by
    decide +kernel
  rcases Option.map_eq_some_iff.1 hrun with ⟨c, hc, hpair⟩
  rcases Prod.mk.inj hpair with ⟨hmig, hactive⟩
  exact ⟨c, hc, of_decide_eq_true hmig, hactive,
    growth_quiescent (Reachable.start.runSchedule hc)⟩

end AtomicQueue
end Thread
end Chenc
