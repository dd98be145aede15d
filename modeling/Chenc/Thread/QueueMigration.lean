import Chenc.Thread.QueueRing

/-!
# QueueMigration — the steps of the thread that grows the queue

One lemma for each step of `reset_capa` that writes an array or exchanges the one in use.

* `Inv.alloc`, `.initSeq`, `.initDone` : the new array;
* `Inv.loadTail`, `.transfer`, `.destroyOld`, `.mark` : the loop that moves the values, by the
  invariant `Copied`;
* `Inv.storeMap`, `.storeCapa` : the new array becomes the array of the queue.
-/

namespace Chenc
namespace Thread
namespace AtomicQueue

open Interleaving (Config)
open NumberedRing (Board)

variable {α : Type} {s : Shared α} {g : Growth}

theorem span_head (s : Shared α) : span s s.head = fun _ => none := by
  funext p
  exact if_neg (by omega)

theorem span_succ {i : Nat} (hi : s.head ≤ i) :
    span s (i + 1) = Function.update (span s i) i (some ⟨i + 1, s.pushes[i]?⟩) := by
  funext p
  by_cases hp : p = i
  · subst hp
    rw [Function.update_self]
    exact if_pos ⟨hi, Nat.lt_succ_self p⟩
  · have hrange : (s.head ≤ p ∧ p < i + 1) ↔ (s.head ≤ p ∧ p < i) := by omega
    rw [Function.update_of_ne hp]
    simp only [span, hrange]

theorem span_eq_some {i p : Nat} {x : Node α} (h : span s i p = some x) :
    s.head ≤ p ∧ p < i := by
  by_contra hp
  rw [span, if_neg hp] at h
  cases h

/-- Positions that wait in the old array have slots of their own. -/
theorem Left.slot_ne {i p q : Nat} (h : Left s g i) (hp : i ≤ p) (hpt : p < s.tail) (hq : i ≤ q)
    (hqt : q < s.tail) (hpq : p ≠ q) : p % g.oldCapa ≠ q % g.oldCapa := by
  intro hslot
  have hnode := h p hp hpt
  rw [hslot, h q hq hqt] at hnode
  have hseq := congrArg NumberedRing.Slot.sequence hnode
  exact hpq (Nat.succ.inj hseq).symm

/-- Nothing that has been moved is in the slot of the next position. -/
theorem span_slot_ne {i p : Nat} {x : Node α} (hfits : s.tail - s.head ≤ g.newCapa)
    (hi : i < s.tail) (hp : span s i p = some x) : p % g.newCapa ≠ i % g.newCapa := by
  rcases span_eq_some hp with ⟨hhead, hlt⟩
  exact NumberedRing.mod_ne_of_lt hlt (by omega)

/-- A value on its way is already constructed in the new array, as those before it are. -/
theorem Copying.node_eq {i p : Nat} (h : Copying s g i) (hhead : s.head ≤ p) (hp : p ≤ i) :
    ∃ n, s.maps g.newMap (p % g.newCapa) = ⟨n, s.pushes[p]?⟩ := by
  rcases h.board with ⟨slots, x, hB, hmaps⟩
  rcases hp.eq_or_lt with rfl | hlt
  · exact ⟨x, by rw [hmaps, Function.update_self]⟩
  · have hspan : span s i p = some ⟨p + 1, s.pushes[p]?⟩ := if_pos ⟨hhead, hlt⟩
    refine ⟨p + 1, ?_⟩
    rw [hmaps, Function.update_of_ne (span_slot_ne h.fits h.lt_tail hspan)]
    exact hB.holds hspan

namespace Inv

variable {ι : Type} [DecidableEq ι] {held : Nat → Option Stage}
  {c : Config ι (Shared α) (Pc α)} {t : ι} {v : α}

omit [DecidableEq ι] in
/-- Until the first transfer the old array is in use. -/
theorem board_of_migrating (h : Inv held c) (hg : Gate c) (ht : (c.pc t).migrating)
    (hnot : ¬ (c.pc t).moving) :
    Board c.shared.capacity (c.shared.maps c.shared.kmap) (wanted c.shared held) := by
  refine h.board fun u hu => ?_
  have hut := hg.unique (Pc.resizing_of_migrating (Pc.migrating_of_moving hu))
    (Pc.resizing_of_migrating ht)
  exact hnot (hut ▸ hu)

theorem alloc (h : Inv held c) (hs : Sound c) {n oc om : Nat}
    (hl : c.pc t = .alloc v n oc om) :
    Inv held (c.set t c.shared.allocate
      (.initSeq v ⟨bitCeil n, oc, om, c.shared.nextMap⟩ 0)) := by
  have hfits : c.shared.tail - c.shared.head ≤ bitCeil n := by
    simpa [hl, Progress] using h.progress t
  refine h.migrate hs hl trivial rfl rfl rfl rfl rfl (fun _ => ?_) trivial ⟨hfits, ?_, ?_⟩
  · have hkeep := c.shared.allocate_maps_of_ne hs.views.kmap_lt.ne
    have hB := h.board_of_migrating hs.gate (t := t) (hl ▸ trivial) (hl ▸ id)
    exact hkeep.symm ▸ hB
  · intro j hj
    exact absurd hj (Nat.not_lt_zero j)
  · intro j
    rw [Shared.allocate_maps_new]

theorem initSeq (h : Inv held c) (hs : Sound c) {i : Nat} (hl : c.pc t = .initSeq v g i) :
    Inv held (c.set t
      (c.shared.setNode g.newMap i { c.shared.maps g.newMap i with sequence := i })
      (.initSeq v g (i + 1))) := by
  have hview : View c.shared (.initSeq v g i) := hl ▸ hs.views.view t
  have hprog : Progress c.shared (.initSeq v g i) := hl ▸ h.progress t
  rcases hprog with ⟨hfits, hdone, hdata⟩
  refine h.migrate hs hl trivial rfl rfl rfl rfl rfl (fun _ => ?_) trivial ⟨hfits, ?_, ?_⟩
  · have hne : c.shared.kmap ≠ g.newMap := hview.2.2.1.ne
    have hB := h.board_of_migrating hs.gate (t := t) (hl ▸ trivial) (hl ▸ id)
    exact (c.shared.setNode_maps_of_ne hne i _).symm ▸ hB
  · intro j hj
    rw [Shared.setNode_maps_self]
    by_cases hji : j = i
    · rw [hji, Function.update_self]
      show (⟨i, (c.shared.maps g.newMap i).data⟩ : Node α) = ⟨i, none⟩
      rw [hdata i]
    · rw [Function.update_of_ne hji]
      exact hdone j (by omega)
  · intro j
    rw [Shared.setNode_maps_self]
    by_cases hji : j = i
    · rw [hji, Function.update_self]
      exact hdata i
    · rw [Function.update_of_ne hji]
      exact hdata j

theorem initDone (h : Inv held c) {i : Nat} (hl : c.pc t = .initSeq v g i)
    (hi : g.newCapa ≤ i) : Inv held (c.set t c.shared (.loadHead v g)) := by
  have hprog : Progress c.shared (.initSeq v g i) := hl ▸ h.progress t
  exact h.still hl rfl id trivial ⟨hprog.1, fun j hj => hprog.2.1 j (hj.trans_le hi)⟩

theorem loadTail (h : Inv held c) (hs : Sound c) {hd : Nat} (hl : c.pc t = .loadTail v g hd) :
    Inv held (c.set t c.shared (.transfer v g hd c.shared.tail)) := by
  have hview : View c.shared (.loadTail v g hd) := hl ▸ hs.views.view t
  have hsize : RingSize g.newCapa := by simpa [hl, Sized] using hs.sized t
  have hprog : Progress c.shared (.loadTail v g hd) := hl ▸ h.progress t
  rcases hprog with ⟨⟨hfits, hfresh⟩, rfl⟩
  have hB := h.board_of_migrating hs.gate (t := t) (hl ▸ trivial) (hl ▸ id)
  -- Nobody has a position in hand, so the old array holds exactly the positions stored.
  rw [h.wanted_of_outside fun u => hs.gate.quiet t u (hl ▸ trivial), ← hview.1, ← hview.2.1] at hB
  refine h.still hl rfl (fun hmov => absurd hmov id) trivial ⟨?_, ?_, rfl⟩
  · constructor
    · exact hfits
    · exact le_rfl
    · exact h.ledger.head_le
    · rw [span_head]
      exact Board.fresh hsize.two_le hfresh
  · intro p hp hpt
    exact hB.holds (if_pos ⟨hp, hpt⟩)

theorem transfer (h : Inv held c) (hs : Sound c) {i tl : Nat} (hl : c.pc t = .transfer v g i tl)
    (hi : i < tl) :
    Inv held (c.set t
      (c.shared.setData ⟨g.newCapa, i, g.newMap⟩ (c.shared.node ⟨g.oldCapa, i, g.oldMap⟩).data)
      (.destroyOld v g i tl)) := by
  have hview : View c.shared (.transfer v g i tl) := hl ▸ hs.views.view t
  have hsize : RingSize g.newCapa := by simpa [hl, Sized] using hs.sized t
  have hprog : Progress c.shared (.transfer v g i tl) := hl ▸ h.progress t
  rcases hprog with ⟨hcopied, hleft, rfl⟩
  have hold : RingSize g.oldCapa := hview.1 ▸ hs.size
  have hnode : c.shared.node ⟨g.oldCapa, i, g.oldMap⟩ = ⟨i + 1, c.shared.pushes[i]?⟩ := by
    rw [Shared.node, Window.slot, slotOf_eq_mod hold]
    exact hleft i le_rfl hi
  have hne : g.oldMap ≠ g.newMap := by
    rw [hview.2.1]
    exact hview.2.2.1.ne
  refine h.migrate hs hl trivial rfl rfl rfl rfl rfl (fun hmov => absurd trivial hmov) trivial
    ⟨?_, ?_, rfl⟩
  · constructor
    · exact hcopied.fits
    · exact hcopied.head_le
    · exact hi
    · refine ⟨c.shared.maps g.newMap, (c.shared.node ⟨g.newCapa, i, g.newMap⟩).sequence,
        hcopied.board, ?_⟩
      rw [Shared.setData, Shared.setNode_maps_self, hnode, Window.slot, slotOf_eq_mod hsize]
      rfl
  · intro p hp hpt
    rw [Shared.setData, Shared.setNode_maps_of_ne _ hne]
    exact hleft p hp hpt

theorem destroyOld (h : Inv held c) (hs : Sound c) {i tl : Nat}
    (hl : c.pc t = .destroyOld v g i tl) :
    Inv held (c.set t (c.shared.setData ⟨g.oldCapa, i, g.oldMap⟩ none) (.mark v g i tl)) := by
  have hview : View c.shared (.destroyOld v g i tl) := hl ▸ hs.views.view t
  have hprog : Progress c.shared (.destroyOld v g i tl) := hl ▸ h.progress t
  rcases hprog with ⟨hcopying, hleft, rfl⟩
  have hold : RingSize g.oldCapa := hview.1 ▸ hs.size
  have hne : g.newMap ≠ g.oldMap := by
    rw [hview.2.1]
    exact hview.2.2.1.ne'
  refine h.migrate hs hl trivial rfl rfl rfl rfl rfl (fun hmov => absurd trivial hmov) trivial
    ⟨?_, ?_, rfl⟩
  · constructor
    · exact hcopying.fits
    · exact hcopying.head_le
    · exact hcopying.lt_tail
    · rcases hcopying.board with ⟨slots, x, hB, hmaps⟩
      refine ⟨slots, x, hB, ?_⟩
      rw [Shared.setData, Shared.setNode_maps_of_ne _ hne]
      exact hmaps
  · -- The positions behind `i` are in other slots than the one just emptied.
    intro p hp hpt
    have hslot := hleft.slot_ne (Nat.le_of_succ_le hp) hpt le_rfl hcopying.lt_tail
      (Nat.ne_of_gt hp)
    rw [Shared.setData, Shared.setNode_maps_self, Window.slot, slotOf_eq_mod hold,
      Function.update_of_ne hslot]
    exact hleft p (Nat.le_of_succ_le hp) hpt

theorem mark (h : Inv held c) (hs : Sound c) {i tl : Nat} (hl : c.pc t = .mark v g i tl) :
    Inv held (c.set t (c.shared.setSequence ⟨g.newCapa, i, g.newMap⟩ (i + 1))
      (.transfer v g (i + 1) tl)) := by
  have hview : View c.shared (.mark v g i tl) := hl ▸ hs.views.view t
  have hsize : RingSize g.newCapa := by simpa [hl, Sized] using hs.sized t
  have hprog : Progress c.shared (.mark v g i tl) := hl ▸ h.progress t
  rcases hprog with ⟨hcopying, hleft, rfl⟩
  have hne : g.oldMap ≠ g.newMap := by
    rw [hview.2.1]
    exact hview.2.2.1.ne
  refine h.migrate hs hl trivial rfl rfl rfl rfl rfl (fun hmov => absurd trivial hmov) trivial
    ⟨?_, ?_, rfl⟩
  · constructor
    · exact hcopying.fits
    · exact hcopying.head_le.trans (Nat.le_succ i)
    · exact hcopying.lt_tail
    · rcases hcopying.board with ⟨slots, x, hB, hmaps⟩
      have hnode : c.shared.node ⟨g.newCapa, i, g.newMap⟩ = ⟨x, c.shared.pushes[i]?⟩ := by
        rw [Shared.node, Window.slot, slotOf_eq_mod hsize]
        show c.shared.maps g.newMap (i % g.newCapa) = _
        rw [hmaps, Function.update_self]
      have hspan : span (c.shared.setSequence ⟨g.newCapa, i, g.newMap⟩ (i + 1)) (i + 1) =
          Function.update (span c.shared i) i (some ⟨i + 1, c.shared.pushes[i]?⟩) :=
        span_succ hcopying.head_le
      rw [hspan, Shared.setSequence, Shared.setNode_maps_self, hnode, Window.slot,
        slotOf_eq_mod hsize]
      show Board _ (Function.update (c.shared.maps g.newMap) (i % g.newCapa) _) _
      -- The slot is written twice, value first; what counts is the board before both writes.
      rw [hmaps, Function.update_idem]
      refine hB.put (fun q y hq _ => ?_) (.inr rfl)
      exact span_slot_ne hcopying.fits hcopying.lt_tail hq
  · intro p hp hpt
    rw [Shared.setSequence, Shared.setNode_maps_of_ne _ hne]
    exact hleft p hp hpt

theorem transferDone (h : Inv held c) {i tl : Nat} (hl : c.pc t = .transfer v g i tl)
    (hi : tl ≤ i) : Inv held (c.set t c.shared (.storeMap v g)) := by
  have hprog : Progress c.shared (.transfer v g i tl) := hl ▸ h.progress t
  rcases hprog with ⟨hcopied, -, rfl⟩
  have hlast : i = c.shared.tail := le_antisymm hcopied.le_tail hi
  have hboard := hcopied.board
  rw [hlast] at hboard
  exact h.still hl rfl id trivial hboard

theorem storeMap (h : Inv held c) (hs : Sound c) (hl : c.pc t = .storeMap v g) :
    Inv held (c.set t { c.shared with kmap := g.newMap } (.storeCapa v g)) := by
  have hprog : Progress c.shared (.storeMap v g) := hl ▸ h.progress t
  exact h.migrate hs hl trivial rfl rfl rfl rfl rfl (fun hmov => absurd trivial hmov) trivial
    hprog

theorem storeCapa (h : Inv held c) (hs : Sound c) (hl : c.pc t = .storeCapa v g) :
    Inv held (c.set t { c.shared with capacity := g.newCapa } (.deleteOld v g)) := by
  have hview : View c.shared (.storeCapa v g) := hl ▸ hs.views.view t
  have hprog : Progress c.shared (.storeCapa v g) := hl ▸ h.progress t
  refine h.migrate hs hl trivial rfl rfl rfl rfl rfl (fun _ => ?_) trivial trivial
  have hwant : wanted { c.shared with capacity := g.newCapa } held =
      span c.shared c.shared.tail :=
    h.wanted_of_outside fun u => hs.gate.quiet t u (hl ▸ trivial)
  rw [hwant]
  exact hview.1 ▸ hprog

end Inv

end AtomicQueue
end Thread
end Chenc
