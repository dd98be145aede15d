import Chenc.Thread.QueueRing

/-!
# QueuePositions — the steps that move a position on

One lemma for each step of `push` and `pop` that changes a counter, a slot or the history.

* `Ledger.advance`, `.publish`, `.record`, `.reserveTail`, `.reserveHead` : the counters;
* `board_write`, `rely_write` : a slot written by the thread that has its position in hand;
* `Inv.reserveTail`, `.construct`, `.publish`, `.reserveHead`, `.moveOut`, `.destroy`, `.release`,
  `.record` : the steps.
-/

namespace Chenc
namespace Thread
namespace AtomicQueue

open Interleaving (Config Holding)
open NumberedRing (Board update_cases)

variable {α : Type} {s : Shared α} {held : Nat → Option Stage} {p : Nat} {x y : Stage}

/-! ## The counters -/

namespace Ledger

/-- The position in hand goes on, and stays on its side of the head. -/
theorem advance (h : Ledger s held) (hp : held p = some x) (hxy : y.pushing ↔ x.pushing) :
    Ledger s (Function.update held p (some y)) where
  length := h.length
  head_le := h.head_le
  pushing {q z} hq hz := by
    rcases update_cases hq with ⟨rfl, hnew⟩ | ⟨-, hold⟩
    · cases hnew
      exact h.pushing hp (hxy.1 hz)
    · exact h.pushing hold hz
  popping {q z} hq hz := by
    rcases update_cases hq with ⟨rfl, hnew⟩ | ⟨-, hold⟩
    · cases hnew
      exact h.popping hp fun hx => hz (hxy.2 hx)
    · exact h.popping hold hz
  returned {q} hlt hq := by
    rcases update_cases hq with ⟨-, hnew⟩ | ⟨-, hold⟩
    · cases hnew
    · exact h.returned hlt hold
  returns {q res} hmem := by
    rcases h.returns hmem with ⟨hlt, hq, hv⟩
    refine ⟨hlt, ?_, hv⟩
    rw [Function.update_of_ne]
    · exact hq
    · rintro rfl
      rw [hp] at hq
      cases hq
  nodup := h.nodup

/-- A position given up by the thread that had it in hand, on either side of the head. -/
theorem giveUp (h : Ledger s held) {rs : List (Nat × Option α)}
    (hreturned : ∀ q, q < s.head → Function.update held p none q = none → q ∈ rs.map Prod.fst)
    (hreturns : ∀ q res, (q, res) ∈ rs →
      q < s.head ∧ (held q = none ∨ q = p) ∧ ∃ v, res = some v ∧ s.pushes[q]? = some v)
    (hnodup : (rs.map Prod.fst).Nodup) (n : Nat) :
    Ledger { s with returns := rs, active := n } (Function.update held p none) where
  length := h.length
  head_le := h.head_le
  pushing {q z} hq hz := by
    rcases update_cases hq with ⟨-, hnew⟩ | ⟨-, hold⟩
    · cases hnew
    · exact h.pushing hold hz
  popping {q z} hq hz := by
    rcases update_cases hq with ⟨-, hnew⟩ | ⟨-, hold⟩
    · cases hnew
    · exact h.popping hold hz
  returned {q} hlt hq := hreturned q hlt hq
  returns {q res} hmem := by
    rcases hreturns q res hmem with ⟨hlt, hq, hv⟩
    refine ⟨hlt, ?_, hv⟩
    by_cases hqp : q = p
    · rw [hqp, Function.update_self]
    · rw [Function.update_of_ne hqp]
      exact hq.resolve_right hqp
  nodup := hnodup

/-- A published position is in nobody's hand. -/
theorem publish (h : Ledger s held) (hp : held p = some x) (hx : x.pushing) :
    Ledger s (Function.update held p none) := by
  refine h.giveUp (fun q hlt hq => ?_) (fun q res hmem => ?_) h.nodup s.active
  · rcases update_cases hq with ⟨rfl, -⟩ | ⟨-, hold⟩
    · exact absurd (h.pushing hp hx).1 (not_le_of_gt hlt)
    · exact h.returned hlt hold
  · rcases h.returns hmem with ⟨hlt, hq, hv⟩
    exact ⟨hlt, .inl hq, hv⟩

/-- A pop returns, and its position is recorded. -/
theorem record (h : Ledger s held) (hp : held p = some .leaving) {res : Option α}
    (hres : Carries s p res) (n : Nat) :
    Ledger { s.record (.popped p res) with active := n } (Function.update held p none) := by
  have hmap : (s.record (.popped p res)).returns.map Prod.fst = s.returns.map Prod.fst ++ [p] :=
    List.map_append
  refine h.giveUp (fun q hlt hq => ?_) (fun q res' hmem => ?_) ?_ n
  · rw [hmap, List.mem_append]
    rcases update_cases hq with ⟨rfl, -⟩ | ⟨-, hold⟩
    · exact .inr (List.mem_singleton_self q)
    · exact .inl (h.returned hlt hold)
  · rcases List.mem_append.1 hmem with hmem | hmem
    · rcases h.returns hmem with ⟨hlt, hq, hv⟩
      exact ⟨hlt, .inl hq, hv⟩
    · cases List.mem_singleton.1 hmem
      exact ⟨h.popping hp id, .inr rfl, hres⟩
  · -- The position is new among those returned, as it was still in hand.
    rw [hmap]
    refine List.Nodup.append h.nodup (List.nodup_singleton p) fun q hq hqp => ?_
    rcases List.mem_map.1 hq with ⟨⟨q', res'⟩, hmem, rfl⟩
    cases List.mem_singleton.1 hqp
    rw [(h.returns hmem).2.1] at hp
    cases hp

/-- A push wins the next tail position. -/
theorem reserveTail (h : Ledger s held) (v : α) :
    Ledger { s with tail := s.tail + 1, pushes := s.pushes ++ [v] }
      (Function.update held s.tail (some .reserved)) where
  length := by
    show (s.pushes ++ [v]).length = s.tail + 1
    rw [List.length_append, h.length, List.length_singleton]
  head_le := h.head_le.trans (Nat.le_succ _)
  pushing {q z} hq hz := by
    rcases update_cases hq with ⟨rfl, -⟩ | ⟨-, hold⟩
    · exact ⟨h.head_le, Nat.lt_succ_self _⟩
    · exact ⟨(h.pushing hold hz).1, (h.pushing hold hz).2.trans (Nat.lt_succ_self _)⟩
  popping {q z} hq hz := by
    rcases update_cases hq with ⟨-, hnew⟩ | ⟨-, hold⟩
    · cases hnew
      exact absurd trivial hz
    · exact h.popping hold hz
  returned {q} hlt hq := by
    rcases update_cases hq with ⟨-, hnew⟩ | ⟨-, hold⟩
    · cases hnew
    · exact h.returned hlt hold
  returns {q res} hmem := by
    rcases h.returns hmem with ⟨hlt, hq, v', hres, hv'⟩
    have hqt : q ≠ s.tail := (lt_of_lt_of_le hlt h.head_le).ne
    refine ⟨hlt, ?_, v', hres, getElem?_of_prefix (List.prefix_append _ _) hv'⟩
    rw [Function.update_of_ne hqt]
    exact hq
  nodup := h.nodup

/-- A pop wins the position at the head. -/
theorem reserveHead (h : Ledger s held) (hlt : s.head < s.tail) :
    Ledger { s with head := s.head + 1 } (Function.update held s.head (some .taking)) where
  length := h.length
  head_le := hlt
  pushing {q z} hq hz := by
    rcases update_cases hq with ⟨-, hnew⟩ | ⟨hqp, hold⟩
    · cases hnew
      exact absurd hz id
    · exact ⟨lt_of_le_of_ne (h.pushing hold hz).1 (Ne.symm hqp), (h.pushing hold hz).2⟩
  popping {q z} hq hz := by
    rcases update_cases hq with ⟨rfl, -⟩ | ⟨-, hold⟩
    · exact Nat.lt_succ_self _
    · exact (h.popping hold hz).trans (Nat.lt_succ_self _)
  returned {q} hlt' hq := by
    rcases update_cases hq with ⟨-, hnew⟩ | ⟨hqp, hold⟩
    · cases hnew
    · exact h.returned (lt_of_le_of_ne (Nat.le_of_lt_succ hlt') hqp) hold
  returns {q res} hmem := by
    rcases h.returns hmem with ⟨hlt', hq, hv⟩
    refine ⟨hlt'.trans (Nat.lt_succ_self _), ?_, hv⟩
    rw [Function.update_of_ne hlt'.ne]
    exact hq
  nodup := h.nodup

end Ledger

/-! ## The slots -/

variable {w : Window}

theorem maps_setNode (hw : w.Current s) (hN : RingSize s.capacity) (y : Node α) :
    (s.setNode w.map w.slot y).maps s.kmap =
      Function.update (s.maps s.kmap) (w.pos % s.capacity) y := by
  rw [hw.2, Shared.setNode_maps_self, Window.slot, hw.1, slotOf_eq_mod hN]

/-- The slot of a position in hand is written. -/
theorem board_write (hB : Board s.capacity (s.maps s.kmap) (wanted s held)) (hw : w.Current s)
    (hN : RingSize s.capacity) {a b : Node α} {v : Option Stage}
    (ha : wanted s held w.pos = some a) (hb : wantedAt s w.pos v = some b)
    (hnum : b.sequence = w.pos ∨ b.sequence = w.pos + 1) :
    Board s.capacity ((s.setNode w.map w.slot b).maps s.kmap)
      (wanted (s.setNode w.map w.slot b) (Function.update held w.pos v)) := by
  have hwant : wanted (s.setNode w.map w.slot b) (Function.update held w.pos v) =
      wanted s (Function.update held w.pos v) := rfl
  rw [hwant, maps_setNode hw hN, wanted_update, hb]
  exact hB.write ha hnum

/-- Writing the slot of a position in hand disturbs nobody. -/
theorem rely_write (hB : Board s.capacity (s.maps s.kmap) (wanted s held)) (hw : w.Current s)
    (hN : RingSize s.capacity) (hl : Ledger s held) {a b : Node α} {x : Stage} {v : Option Stage}
    (ha : wanted s held w.pos = some a) (hx : held w.pos = some x) :
    Rely s held (s.setNode w.map w.slot b) (Function.update held w.pos v) where
  head_le := le_rfl
  tail_le := le_rfl
  pushes := List.prefix_rfl
  tail_slot {w'} hw' hpos _ hseq := by
    -- The slot that waits for the tail is not the one written: that one is wanted.
    rw [node_eq hw' hN, hpos] at hseq
    have hslot := hB.free_of_sequence hl.wanted_tail hseq ha
    have hkeep : (s.setNode w.map w.slot b).node w' = s.node w' := by
      have hmap := maps_setNode hw hN b
      rw [node_eq (s := s.setNode w.map w.slot b) hw' hN]
      show (s.setNode w.map w.slot b).maps s.kmap (w'.pos % s.capacity) = s.node w'
      rw [hmap, hpos, Function.update_of_ne (Ne.symm hslot), node_eq hw' hN, hpos]
    rw [hkeep, node_eq hw' hN, hpos]
    exact hseq
  head_free _ _ hfree := by
    rw [Function.update_of_ne]
    · exact hfree
    · intro heq
      rw [← heq, hfree] at hx
      cases hx

/-! ## The steps -/

namespace Inv

variable {ι : Type} [DecidableEq ι] {c : Config ι (Shared α) (Pc α)} {t : ι}

theorem reserveTail (h : Inv held c) (hs : Sound c) {v : α}
    (hl : c.pc t = .reserve (.push v) w) (hcas : c.shared.tail = w.pos) :
    Inv (Function.update held w.pos (some .reserved))
      (c.set t { c.shared with tail := w.pos + 1, pushes := c.shared.pushes ++ [v] }
        (.construct v w)) := by
  have hview : w.Current c.shared := by simpa [hl, View] using hs.views.view t
  have hknown : Known c.shared held (.reserve (.push v) w) := hl ▸ h.known t
  have hB := h.board_of_inside hs.gate (t := t) (hl ▸ trivial)
  have hfree : held w.pos = none := hcas ▸ h.ledger.held_tail
  have hseq : (c.shared.maps c.shared.kmap (w.pos % c.shared.capacity)).sequence = w.pos := by
    rw [← node_eq hview hs.size]
    exact hknown.2 hcas.symm
  have hlen : c.shared.pushes.length = w.pos := h.ledger.length.trans hcas
  refine h.inside hs hl trivial id ?_ ?_ ?_ ?_ ?_
  · exact h.holding.take (by rw [hl]; rfl) hfree rfl
  · rw [← hcas]
    exact h.ledger.reserveTail v
  · -- Nothing but the new position changes what is wanted.
    have hwant : wanted { c.shared with tail := w.pos + 1, pushes := c.shared.pushes ++ [v] }
        (Function.update held w.pos (some .reserved)) =
          Function.update (wanted c.shared held) w.pos (some ⟨w.pos, none⟩) := by
      funext q
      by_cases hq : q = w.pos
      · subst hq
        simp [wanted, wantedAt]
      · have hget : (c.shared.pushes ++ [v])[q]? = c.shared.pushes[q]? := by
          rcases lt_or_gt_of_ne hq with hlt | hgt
          · exact List.getElem?_append_left (hlen ▸ hlt)
          · rw [List.getElem?_eq_none (by simp; omega), List.getElem?_eq_none (by omega)]
        have hrange : (c.shared.head ≤ q ∧ q < w.pos + 1) ↔
            (c.shared.head ≤ q ∧ q < c.shared.tail) := by omega
        rw [wanted, Function.update_of_ne hq, Function.update_of_ne hq, wanted]
        rcases held q with _ | x
        · simp only [wantedAt, hget, hrange]
        · cases x <;> simp only [wantedAt, hget]
    rw [hwant]
    exact hB.claim (hcas ▸ h.ledger.wanted_tail) hseq
  · show (c.shared.pushes ++ [v])[w.pos]? = some v
    rw [← hlen]
    exact List.getElem?_concat_length
  · constructor
    · exact le_rfl
    · exact hcas.le.trans (Nat.le_succ _)
    · exact List.prefix_append _ _
    · -- The tail has moved, so nobody can still win the old one.
      intro w' _ _ htail
      exact absurd htail (by simp [hcas])
    · intro _ hlt hnone
      rw [Function.update_of_ne (by omega)]
      exact hnone

omit [DecidableEq ι] in
/-- What the slot of the position in hand is, by the stage. -/
theorem hand (h : Inv held c) (hs : Sound c) (hview : w.Current c.shared)
    (hclaim : (c.pc t).claim = some (w.pos, x)) {a : Node α}
    (ha : wantedAt c.shared w.pos (some x) = some a) :
    held w.pos = some x ∧ wanted c.shared held w.pos = some a ∧ c.shared.node w = a := by
  have hB := h.board_of_inside hs.gate (Pc.inside_of_claim hclaim)
  have hheld := h.holding.held_of_claim hclaim
  have hwant : wanted c.shared held w.pos = some a := by rw [wanted, hheld, ha]
  refine ⟨hheld, hwant, ?_⟩
  rw [node_eq hview hs.size]
  exact hB.holds hwant

/-- A thread writes the slot of the position it has in hand, and goes on to stage `v`. -/
theorem write (h : Inv held c) (hs : Sound c) (hview : w.Current c.shared) {l' : Pc α}
    {v : Option Stage} {a b : Node α} (hclaim : (c.pc t).claim = some (w.pos, x))
    (ha : wantedAt c.shared w.pos (some x) = some a) (hb : wantedAt c.shared w.pos v = some b)
    (hnum : b.sequence = w.pos ∨ b.sequence = w.pos + 1)
    (hledger : Ledger c.shared (Function.update held w.pos v))
    (hclaim' : l'.claim = v.map fun y => (w.pos, y)) (hout : ¬ l'.migrating)
    (hknown : Known (c.shared.setNode w.map w.slot b) (Function.update held w.pos v) l') :
    Inv (Function.update held w.pos v) (c.set t (c.shared.setNode w.map w.slot b) l') := by
  have hin := Pc.inside_of_claim hclaim
  have hB := h.board_of_inside hs.gate hin
  rcases h.hand hs hview hclaim ha with ⟨hheld, hwant, -⟩
  refine h.inside hs rfl hin hout ?_ ?_ ?_ hknown ?_
  · exact h.holding.change hclaim hclaim'
  · exact hledger.congr rfl rfl rfl rfl
  · exact board_write hB hview hs.size hwant hb hnum
  · exact rely_write hB hview hs.size h.ledger hwant hheld

theorem construct (h : Inv held c) (hs : Sound c) {v : α} (hl : c.pc t = .construct v w) :
    Inv (Function.update held w.pos (some .built))
      (c.set t (c.shared.setData w (some v)) (.publish w)) := by
  have hview : w.Current c.shared := by simpa [hl, View] using hs.views.view t
  have hv : c.shared.pushes[w.pos]? = some v := by simpa [hl, Known] using h.known t
  have hclaim : (c.pc t).claim = some (w.pos, .reserved) := by rw [hl]; rfl
  rcases h.hand hs hview hclaim rfl with ⟨hheld, -, hnode⟩
  have hset : c.shared.setData w (some v) = c.shared.setNode w.map w.slot ⟨w.pos, some v⟩ := by
    rw [Shared.setData, hnode]
  rw [hset]
  exact h.write hs hview hclaim rfl (by rw [wantedAt, hv]) (.inl rfl)
    (h.ledger.advance (y := .built) hheld Iff.rfl) rfl id trivial

theorem publish (h : Inv held c) (hs : Sound c) (hl : c.pc t = .publish w) :
    Inv (Function.update held w.pos none)
      (c.set t (c.shared.setSequence w (w.pos + 1)) (.leave .pushed)) := by
  have hview : w.Current c.shared := by simpa [hl, View] using hs.views.view t
  have hclaim : (c.pc t).claim = some (w.pos, .built) := by rw [hl]; rfl
  rcases h.hand hs hview hclaim rfl with ⟨hheld, -, hnode⟩
  have hset : c.shared.setSequence w (w.pos + 1) =
      c.shared.setNode w.map w.slot ⟨w.pos + 1, c.shared.pushes[w.pos]?⟩ := by
    rw [Shared.setSequence, hnode]
  rw [hset]
  exact h.write hs hview hclaim rfl (h.ledger.wantedAt_none hheld trivial) (.inr rfl)
    (h.ledger.publish hheld trivial) rfl id trivial

theorem reserveHead (h : Inv held c) (hs : Sound c) (hl : c.pc t = .reserve .pop w)
    (hcas : c.shared.head = w.pos) :
    Inv (Function.update held w.pos (some .taking))
      (c.set t { c.shared with head := w.pos + 1 } (.moveOut w)) := by
  have hknown : Known c.shared held (.reserve .pop w) := hl ▸ h.known t
  have hB := h.board_of_inside hs.gate (t := t) (hl ▸ trivial)
  rcases hknown.2 hcas.symm with ⟨hlt, hfree⟩
  refine h.inside hs hl trivial id ?_ ?_ ?_ trivial ?_
  · exact h.holding.take (by rw [hl]; rfl) hfree rfl
  · rw [← hcas] at hlt ⊢
    exact h.ledger.reserveHead hlt
  · -- The slot at the head is to hold what it held before.
    have hwant : wanted { c.shared with head := w.pos + 1 }
        (Function.update held w.pos (some .taking)) = wanted c.shared held := by
      funext q
      by_cases hq : q = w.pos
      · subst hq
        rw [wanted, Function.update_self, wanted, hfree]
        exact (if_pos ⟨hcas.le, hlt⟩).symm
      · have hrange : (w.pos + 1 ≤ q ∧ q < c.shared.tail) ↔
            (c.shared.head ≤ q ∧ q < c.shared.tail) := by omega
        rw [wanted, Function.update_of_ne hq, wanted]
        rcases held q with _ | x
        · simp only [wantedAt, hrange]
        · cases x <;> simp only [wantedAt]
    rw [hwant]
    exact hB
  · constructor
    · exact hcas.le.trans (Nat.le_succ _)
    · exact le_rfl
    · exact List.prefix_rfl
    · intro w' _ _ _ hseq
      exact hseq
    · intro hhead
      exact absurd hhead (by simp [hcas])

theorem moveOut (h : Inv held c) (hs : Sound c) (hl : c.pc t = .moveOut w) :
    Inv held (c.set t c.shared (.destroy w (c.shared.node w).data)) := by
  have hview : w.Current c.shared := by simpa [hl, View] using hs.views.view t
  have hclaim : (c.pc t).claim = some (w.pos, .taking) := by rw [hl]; rfl
  rcases h.hand hs hview hclaim rfl with ⟨hheld, -, hnode⟩
  rcases h.ledger.exists_pushed (h.ledger.lt_tail hheld) with ⟨v, hv⟩
  have hdata : (c.shared.node w).data = some v := by rw [hnode, hv]
  exact h.still hl rfl id ⟨v, hdata, hv⟩ trivial

theorem destroy (h : Inv held c) (hs : Sound c) {res : Option α}
    (hl : c.pc t = .destroy w res) :
    Inv (Function.update held w.pos (some .emptied))
      (c.set t (c.shared.setData w none) (.release w res)) := by
  have hview : w.Current c.shared := by simpa [hl, View] using hs.views.view t
  have hres : Carries c.shared w.pos res := by simpa [hl, Known] using h.known t
  have hclaim : (c.pc t).claim = some (w.pos, .taking) := by rw [hl]; rfl
  rcases h.hand hs hview hclaim rfl with ⟨hheld, -, hnode⟩
  have hset : c.shared.setData w none = c.shared.setNode w.map w.slot ⟨w.pos + 1, none⟩ := by
    rw [Shared.setData, hnode]
  rw [hset]
  exact h.write hs hview hclaim rfl rfl (.inr rfl)
    (h.ledger.advance (y := .emptied) hheld Iff.rfl) rfl id hres

theorem release (h : Inv held c) (hs : Sound c) {res : Option α}
    (hl : c.pc t = .release w res) :
    Inv (Function.update held w.pos (some .leaving))
      (c.set t (c.shared.setSequence w (w.pos + w.capa)) (.leave (.popped w.pos res))) := by
  have hview : w.Current c.shared := by simpa [hl, View] using hs.views.view t
  have hres : Carries c.shared w.pos res := by simpa [hl, Known] using h.known t
  have hB := h.board_of_inside hs.gate (t := t) (hl ▸ trivial)
  have hclaim : (c.pc t).claim = some (w.pos, .emptied) := by rw [hl]; rfl
  rcases h.hand hs hview hclaim rfl with ⟨hheld, hwant, hnode⟩
  have hset : c.shared.setSequence w (w.pos + w.capa) =
      c.shared.setNode w.map w.slot ⟨w.pos + c.shared.capacity, none⟩ := by
    rw [Shared.setSequence, hnode, hview.1]
  rw [hset]
  refine h.inside hs hl trivial id ?_ ?_ ?_ hres ?_
  · exact h.holding.change hclaim rfl
  · exact (h.ledger.advance (y := .leaving) hheld Iff.rfl).congr rfl rfl rfl rfl
  · -- Nothing is wanted of the position any more, and its slot waits for the next lap.
    have hnew : wanted (c.shared.setNode w.map w.slot ⟨w.pos + c.shared.capacity, none⟩)
        (Function.update held w.pos (some .leaving)) =
          Function.update (wanted c.shared held) w.pos none :=
      wanted_update c.shared held w.pos (some .leaving)
    have hmaps := maps_setNode hview hs.size ⟨w.pos + c.shared.capacity, none⟩
    rw [hnew]
    exact hmaps ▸ hB.release hwant
  · exact rely_write hB hview hs.size h.ledger hwant hheld

theorem record (h : Inv held c) (hs : Sound c) {pos n : Nat} {res : Option α}
    (hl : c.pc t = .leave (.popped pos res)) :
    Inv (Function.update held pos none)
      (c.set t { c.shared.record (.popped pos res) with active := n } .idle) := by
  have hres : Carries c.shared pos res := by simpa [hl, Known] using h.known t
  have hB := h.board_of_inside hs.gate (t := t) (hl ▸ trivial)
  have hclaim : (c.pc t).claim = some (pos, .leaving) := by rw [hl]; rfl
  have hheld := h.holding.held_of_claim hclaim
  refine h.inside hs hl trivial id ?_ ?_ ?_ trivial ?_
  · exact h.holding.change hclaim rfl
  · exact h.ledger.record hheld hres n
  · -- The slot has been given up before: forgetting the position changes nothing there.
    have hold : wanted c.shared held pos = none := by rw [wanted, hheld]; rfl
    have hgone : wantedAt c.shared pos none = none := by
      have hlt := h.ledger.popping hheld id
      exact if_neg fun hp => absurd hp.1 (not_le_of_gt hlt)
    have hsame : wanted c.shared (Function.update held pos none) = wanted c.shared held := by
      rw [wanted_update, hgone, ← hold, Function.update_eq_self]
    exact hsame ▸ hB
  · constructor
    · exact le_rfl
    · exact le_rfl
    · exact List.prefix_rfl
    · intro w' _ _ _ hseq
      exact hseq
    · intro _ _ hnone
      by_cases hp : c.shared.head = pos
      · rw [hp, Function.update_self]
      · rw [Function.update_of_ne hp]
        exact hnone

end Inv

end AtomicQueue
end Thread
end Chenc
