import Chenc.Thread.QueueMigration
import Chenc.Thread.QueuePositions

/-!
# QueueSafety — every value reaches the pop of its position

* `Fits` : the condition on a step that starts a migration, that the stored values fit into the
  array it is about to allocate;
* `Inv.step`, `exists_inv` : the invariant of one step and of a run;
* `Safe` : what the queue promises about values;
* `safe_of_fits` : it is kept in every run whose migrations fit;
* `stale_growth_loses` : it is broken by a run in which a thread grows from a capacity that is
  no longer the capacity.
-/

namespace Chenc
namespace Thread
namespace AtomicQueue

open Interleaving (Config Reachable runSchedule)
open NumberedRing (Board)

variable {α : Type} {s s' : Shared α} {l l' : Pc α}

/-- A thread that sees the active region empty has asked for an array that holds the values
stored. -/
def Fits (s : Shared α) : Pc α → Prop
  | .quiesce _ n => s.active = 0 → s.tail - s.head ≤ bitCeil n
  | _ => True

instance (s : Shared α) (l : Pc α) : Decidable (Fits s l) := by
  unfold Fits
  split <;> infer_instance

/-! ## Runs -/

variable {ι : Type} [DecidableEq ι] {held : Nat → Option Stage}
  {c : Config ι (Shared α) (Pc α)} {t : ι}

/-- Every step keeps the invariant. -/
theorem Inv.step (h : Inv held c) (hs : Sound c) (hok : Fits c.shared (c.pc t))
    (hm : Moves c.shared (c.pc t) s' l') : ∃ held', Inv held' (c.set t s' l') := by
  generalize hl : c.pc t = l at hm hok
  cases hm with
  | loadPos op capa => exact ⟨held, h.still hl rfl id (le_refl (c.shared.pos op)) trivial⟩
  | loadMap op capa pos =>
      have hle : pos ≤ c.shared.pos op := by simpa [hl, Known] using h.known t
      exact ⟨held, h.still hl rfl id hle trivial⟩
  | readyPush v w hseq =>
      have hle : w.pos ≤ c.shared.tail := by simpa [hl, Known, Shared.pos] using h.known t
      exact ⟨held, h.still hl rfl id ⟨hle, fun _ => hseq⟩ trivial⟩
  | readyPop w hseq =>
      have hle : w.pos ≤ c.shared.head := by simpa [hl, Known, Shared.pos] using h.known t
      have hview : w.Current c.shared := by simpa [hl, View] using hs.views.view t
      refine ⟨held, h.still hl rfl id ⟨hle, fun hpos => ?_⟩ trivial⟩
      -- The number read says that the slot is filled, and with the position at the head.
      have hB := h.board_of_inside hs.gate (t := t) (hl ▸ trivial)
      rw [node_eq hview hs.size] at hseq
      rcases hB.wanted_of_sequence hseq with ⟨y, hy, hnum⟩
      rw [hpos] at hy hnum ⊢
      exact h.ledger.free_of_wanted hy hnum
  | reserveTail v w hcas => exact ⟨_, h.reserveTail hs hl hcas⟩
  | construct v w => exact ⟨_, h.construct hs hl⟩
  | publish w => exact ⟨_, h.publish hs hl⟩
  | reserveHead w hcas => exact ⟨_, h.reserveHead hs hl hcas⟩
  | moveOut w => exact ⟨_, h.moveOut hs hl⟩
  | destroy w res => exact ⟨_, h.destroy hs hl⟩
  | release w res => exact ⟨_, h.release hs hl⟩
  | leave e =>
      cases e with
      | popped pos res => exact ⟨_, h.record hs hl⟩
      | _ => exact ⟨held, h.still hl rfl id trivial trivial⟩
  -- The only step at which the size of the new array matters.
  | quiet v n hactive => exact ⟨held, h.still hl rfl id trivial (hok hactive)⟩
  | oldCapa v n =>
      have hprog : Progress c.shared (.oldCapa v n) := hl ▸ h.progress t
      exact ⟨held, h.still hl rfl id trivial hprog⟩
  | oldMap v n oc =>
      have hprog : Progress c.shared (.oldMap v n oc) := hl ▸ h.progress t
      exact ⟨held, h.still hl rfl id trivial hprog⟩
  | alloc v n oc om => exact ⟨held, h.alloc hs hl⟩
  | initSeq v g i hi => exact ⟨held, h.initSeq hs hl⟩
  | initDone v g i hi => exact ⟨held, h.initDone hl hi⟩
  | loadHead v g =>
      have hprog : Progress c.shared (.loadHead v g) := hl ▸ h.progress t
      exact ⟨held, h.still hl rfl id trivial ⟨hprog, rfl⟩⟩
  | loadTail v g hd => exact ⟨held, h.loadTail hs hl⟩
  | transfer v g i tl hi => exact ⟨held, h.transfer hs hl hi⟩
  | transferDone v g i tl hi => exact ⟨held, h.transferDone hl hi⟩
  | destroyOld v g i tl => exact ⟨held, h.destroyOld hs hl⟩
  | mark v g i tl => exact ⟨held, h.mark hs hl⟩
  | storeMap v g => exact ⟨held, h.storeMap hs hl⟩
  | storeCapa v g => exact ⟨held, h.storeCapa hs hl⟩
  | _ => exact ⟨held, h.still hl rfl id trivial trivial⟩

/-- In every run whose migrations fit, the invariant holds. -/
theorem exists_inv {initial : Nat} (h : 2 ≤ initial)
    (hc : Reachable step Fits (start ι initial) c) : Sound c ∧ ∃ held, Inv held c := by
  refine hc.rule (I := fun c => Sound c ∧ ∃ held, Inv held c)
    ⟨Sound.start h, _, Inv.start h⟩ ?_
  rintro c t a s l - ⟨hs, held, hi⟩ hok hstep
  have hm := Moves.of_step hstep
  exact ⟨hs.step hm, hi.step hs hok hm⟩

/-! ## What the queue promises -/

/-- The value a thread carries, with its position. -/
def Pc.carried : Pc α → Option (Nat × α)
  | .construct v w => some (w.pos, v)
  | .destroy w (some v) | .release w (some v) => some (w.pos, v)
  | .leave (.popped pos (some v)) => some (pos, v)
  | _ => none

/-- The array a thread is moving the values to. -/
def Pc.target : Pc α → Option Growth
  | .transfer _ g _ _ | .destroyOld _ g _ _ | .mark _ g _ _ | .storeMap _ g | .storeCapa _ g =>
      some g
  | _ => none

/-- Where the value `v` of position `p` can be. -/
inductive Located (c : Config ι (Shared α) (Pc α)) (p : Nat) (v : α) : Prop
  | carried (t : ι) : (c.pc t).carried = some (p, v) → Located c p v
  | stored : (c.shared.node ⟨c.shared.capacity, p, c.shared.kmap⟩).data = some v → Located c p v
  | moved (t : ι) (g : Growth) : (c.pc t).target = some g →
      (c.shared.node ⟨g.newCapa, p, g.newMap⟩).data = some v → Located c p v
  | returned : (p, some v) ∈ c.shared.returns → Located c p v

structure Safe (c : Config ι (Shared α) (Pc α)) : Prop where
  /-- The pushes are listed by the tail positions they won. -/
  positions : c.shared.pushes.length = c.shared.tail
  /-- A pop returns the value of the push that won the same position. -/
  returns {p : Nat} {res : Option α} : (p, res) ∈ c.shared.returns →
    p < c.shared.head ∧ ∃ v, res = some v ∧ c.shared.pushes[p]? = some v
  /-- No position is returned twice. -/
  once : (c.shared.returns.map Prod.fst).Nodup
  /-- Every value that was pushed is somewhere. -/
  kept {p : Nat} {v : α} : c.shared.pushes[p]? = some v → Located c p v
  /-- A push constructs its value in a slot that holds none. -/
  constructs {t : ι} {v : α} {w : Window} : c.pc t = .construct v w →
    (c.shared.node w).data = none ∧ c.shared.pushes[w.pos]? = some v
  /-- A pop moves the value of its position out of the slot. -/
  takes {t : ι} {w : Window} : c.pc t = .moveOut w →
    ∃ v, (c.shared.node w).data = some v ∧ c.shared.pushes[w.pos]? = some v
  /-- A migration moves the value of its position into a slot that holds none. -/
  transfers {t : ι} {v : α} {g : Growth} {i n : Nat} : c.pc t = .transfer v g i n → i < n →
    (c.shared.node ⟨g.newCapa, i, g.newMap⟩).data = none ∧
      ∃ x, (c.shared.node ⟨g.oldCapa, i, g.oldMap⟩).data = some x ∧
        c.shared.pushes[i]? = some x
  /-- With no operation in progress, every position below the head has been returned. -/
  emptied : (∀ t, c.pc t = .idle) → ∀ p, p < c.shared.head → p ∈ c.shared.returns.map Prod.fst
  /-- With no operation in progress, the positions from head to tail are stored. -/
  stored : (∀ t, c.pc t = .idle) → ∀ p, c.shared.head ≤ p → p < c.shared.tail →
    ∃ v, c.shared.node ⟨c.shared.capacity, p, c.shared.kmap⟩ = ⟨p + 1, some v⟩ ∧
      c.shared.pushes[p]? = some v
  /-- With no operation in progress, no other value is stored. -/
  vacant : (∀ t, c.pc t = .idle) → ∀ i, i < c.shared.capacity →
    (c.shared.maps c.shared.kmap i).data ≠ none →
    ∃ p, c.shared.head ≤ p ∧ p < c.shared.tail ∧ slotOf p c.shared.capacity = i

namespace Inv

omit [DecidableEq ι]

theorem node_of_wanted (hs : Sound c)
    (hB : Board c.shared.capacity (c.shared.maps c.shared.kmap) (wanted c.shared held)) {p : Nat}
    {x : Node α} (hp : wanted c.shared held p = some x) :
    c.shared.node ⟨c.shared.capacity, p, c.shared.kmap⟩ = x := by
  rw [node_eq (w := ⟨c.shared.capacity, p, c.shared.kmap⟩) ⟨rfl, rfl⟩ hs.size]
  exact hB.holds hp

/-- A value in a thread's hand is in the slot or carried by the thread. -/
theorem located_of_held (h : Inv held c) (hs : Sound c) {p : Nat} {x : Stage} {v : α}
    (hp : held p = some x) (hv : c.shared.pushes[p]? = some v) : Located c p v := by
  rcases h.holding.held_iff.1 hp with ⟨t, ht⟩
  have hB := h.board_of_inside hs.gate (Pc.inside_of_claim ht)
  have hknown := h.known t
  have hslot : ∀ n, wantedAt c.shared p (some x) = some ⟨n, c.shared.pushes[p]?⟩ →
      Located c p v := by
    intro n hn
    refine .stored ?_
    rw [node_of_wanted hs hB (by rw [wanted, hp, hn]), hv]
  have hcarry : ∀ res, Carries c.shared p res → res = some v := by
    rintro res ⟨v', rfl, hv'⟩
    rw [hv] at hv'
    cases hv'
    rfl
  cases hl : c.pc t with
  | construct v' w =>
      rw [hl] at ht hknown
      cases ht
      have hvv : v' = v := Option.some.inj ((show c.shared.pushes[w.pos]? = some v' from hknown)
        ▸ hv)
      exact .carried t (by rw [hl, hvv]; rfl)
  -- The value is in its slot from the construction to the destruction.
  | publish w | moveOut w | destroy w res =>
      rw [hl] at ht
      cases ht
      exact hslot _ rfl
  -- From then on the thread carries it.
  | release w res =>
      rw [hl] at ht hknown
      cases ht
      have hres := hcarry res hknown
      exact .carried t (by rw [hl, hres]; rfl)
  | leave e =>
      cases e with
      | popped pos res =>
          rw [hl] at ht hknown
          cases ht
          have hres := hcarry res hknown
          exact .carried t (by rw [hl, hres]; rfl)
      | _ =>
          rw [hl] at ht
          cases ht
  | _ =>
      rw [hl] at ht
      cases ht

/-- During the migration a stored value is in the old array or in the new one. -/
theorem located_of_moving (h : Inv held c) (hs : Sound c) (ht : (c.pc t).moving) {p : Nat}
    {v : α} (hhead : c.shared.head ≤ p) (htail : p < c.shared.tail)
    (hv : c.shared.pushes[p]? = some v) : Located c p v := by
  have hview := hs.views.view t
  have hsized := hs.sized t
  have hprog := h.progress t
  -- A value that the new array is known to hold, or the old one.
  have hnew : ∀ {g : Growth} {n : Nat}, (c.pc t).target = some g → RingSize g.newCapa →
      c.shared.maps g.newMap (p % g.newCapa) = ⟨n, c.shared.pushes[p]?⟩ → Located c p v := by
    intro g n hg hN hnode
    refine .moved t g hg ?_
    rw [Shared.node, Window.slot, slotOf_eq_mod hN, hnode, hv]
  have hold : ∀ {g : Growth}, g.oldCapa = c.shared.capacity → g.oldMap = c.shared.kmap →
      c.shared.maps g.oldMap (p % g.oldCapa) = ⟨p + 1, c.shared.pushes[p]?⟩ →
      Located c p v := by
    intro g hcapa hmap hnode
    refine .stored ?_
    rw [node_eq (w := ⟨c.shared.capacity, p, c.shared.kmap⟩) ⟨rfl, rfl⟩ hs.size, ← hmap, ← hcapa,
      hnode, hv]
  cases hl : c.pc t with
  | transfer v' g i n =>
      rw [hl] at hview hsized hprog
      by_cases hpi : p < i
      · exact hnew (by rw [hl]; rfl) hsized (hprog.1.board.holds (if_pos ⟨hhead, hpi⟩))
      · exact hold hview.1 hview.2.1 (hprog.2.1 p (by omega) htail)
  -- The value at position `i` is already in the new array, and not numbered yet.
  | destroyOld v' g i n | mark v' g i n =>
      rw [hl] at hview hsized hprog
      by_cases hpi : p ≤ i
      · rcases hprog.1.node_eq hhead hpi with ⟨n, hn⟩
        exact hnew (by rw [hl]; rfl) hsized hn
      · exact hold hview.1 hview.2.1 (hprog.2.1 p (by omega) htail)
  | storeMap v' g | storeCapa v' g =>
      rw [hl] at hsized hprog
      exact hnew (by rw [hl]; rfl) hsized (hprog.holds (if_pos ⟨hhead, htail⟩))
  | _ =>
      rw [hl] at ht
      exact absurd ht id

end Inv

omit [DecidableEq ι] in
/-- What the invariant says about values. -/
theorem Inv.safe (h : Inv held c) (hs : Sound c) : Safe c where
  positions := h.ledger.length
  returns hmem := by
    rcases h.ledger.returns hmem with ⟨hlt, -, hv⟩
    exact ⟨hlt, hv⟩
  once := h.ledger.nodup
  kept {p v} hv := by
    have htail : p < c.shared.tail := h.ledger.length ▸ (List.getElem?_eq_some_iff.1 hv).1
    rcases hp : held p with _ | x
    · by_cases hhead : p < c.shared.head
      · -- Popped, and nobody has it in hand: returned.
        rcases List.mem_map.1 (h.ledger.returned hhead hp) with ⟨⟨q, res⟩, hmem, rfl⟩
        rcases h.ledger.returns hmem with ⟨-, -, v', rfl, hv'⟩
        rw [hv] at hv'
        cases hv'
        exact .returned hmem
      · by_cases hmov : ∃ t, (c.pc t).moving
        · rcases hmov with ⟨t, ht⟩
          exact h.located_of_moving hs ht (not_lt.1 hhead) htail hv
        · -- Stored, and the array is in use.
          have hB := h.board fun t ht => hmov ⟨t, ht⟩
          have hwant : wanted c.shared held p = some ⟨p + 1, c.shared.pushes[p]?⟩ := by
            rw [wanted, hp]
            exact if_pos ⟨not_lt.1 hhead, htail⟩
          refine .stored ?_
          rw [Inv.node_of_wanted hs hB hwant, hv]
    · exact h.located_of_held hs hp hv
  constructs {t v w} hl := by
    have hview : w.Current c.shared := by simpa [hl, View] using hs.views.view t
    have hclaim : (c.pc t).claim = some (w.pos, .reserved) := by rw [hl]; rfl
    rcases h.hand hs hview hclaim rfl with ⟨-, -, hnode⟩
    refine ⟨by rw [hnode], ?_⟩
    simpa [hl, Known] using h.known t
  takes {t w} hl := by
    have hview : w.Current c.shared := by simpa [hl, View] using hs.views.view t
    have hclaim : (c.pc t).claim = some (w.pos, .taking) := by rw [hl]; rfl
    rcases h.hand hs hview hclaim rfl with ⟨hheld, -, hnode⟩
    rcases h.ledger.exists_pushed (h.ledger.lt_tail hheld) with ⟨v, hv⟩
    exact ⟨v, by rw [hnode, hv], hv⟩
  transfers {t v g i n} hl hi := by
    have hview : View c.shared (.transfer v g i n) := hl ▸ hs.views.view t
    have hsize : RingSize g.newCapa := by simpa [hl, Sized] using hs.sized t
    have hprog : Progress c.shared (.transfer v g i n) := hl ▸ h.progress t
    rcases hprog with ⟨hcopied, hleft, rfl⟩
    rcases h.ledger.exists_pushed hi with ⟨x, hx⟩
    have hold : RingSize g.oldCapa := hview.1 ▸ hs.size
    constructor
    · rw [Shared.node, Window.slot, slotOf_eq_mod hsize]
      have hfree := fun q y hq => span_slot_ne (g := g) (p := q) (x := y) hcopied.fits hi hq
      exact (hcopied.board.vacant (hcopied.board.mod_lt i) hfree).1
    · refine ⟨x, ?_, hx⟩
      rw [Shared.node, Window.slot, slotOf_eq_mod hold, ← hx]
      exact congrArg _ (hleft i le_rfl hi)
  emptied hidle p hp :=
    h.ledger.returned hp (h.held_of_outside (fun t => by rw [hidle t]; exact id) p)
  stored hidle p hhead htail := by
    have hB := h.board fun t => by rw [hidle t]; exact id
    have hwant : wanted c.shared held p = some ⟨p + 1, c.shared.pushes[p]?⟩ := by
      rw [h.wanted_of_outside fun t => by rw [hidle t]; exact id]
      exact if_pos ⟨hhead, htail⟩
    rcases h.ledger.exists_pushed htail with ⟨v, hv⟩
    exact ⟨v, by rw [Inv.node_of_wanted hs hB hwant, hv], hv⟩
  vacant hidle i hi hdata := by
    have hB := h.board fun t => by rw [hidle t]; exact id
    by_contra hnone
    refine hdata (hB.vacant hi fun p x hp hslot => hnone ⟨p, ?_⟩).1
    rw [h.wanted_of_outside fun t => by rw [hidle t]; exact id] at hp
    rcases span_eq_some hp with ⟨hhead, htail⟩
    exact ⟨hhead, htail, by rw [slotOf_eq_mod hs.size, hslot]⟩

/-- **The queue.**  In every run of a queue with at least two slots in which each migration is
into an array that holds the values stored, for any number of threads and any order of their
operations: each pop returns the value of the push that won the same position, no value is
overwritten, duplicated or lost, and with no operation in progress the values stored are those
from the head to the tail. -/
theorem safe_of_fits {initial : Nat} (h : 2 ≤ initial)
    (hc : Reachable step Fits (start ι initial) c) : Safe c := by
  rcases exists_inv h hc with ⟨hs, held, hi⟩
  exact hi.safe hs

/-! ## Schedules -/

/-- Thread `t` is called with `op` and takes `n` steps. -/
def call (t : ι) (op : Op α) (n : Nat) : List (ι × Act α) :=
  (t, .begin op) :: List.replicate n (t, .go)

/-- Both threads run for position zero and `false` goes on to position one.  Then `true` finds two
slots full and closes the gate while `false` is popping position zero, waits for `false` to leave,
and moves the other value into four slots. -/
def contended : List (Bool × Act Nat) :=
  [(true, .begin (.push 10)), (false, .begin (.push 11))] ++
    (List.replicate 11 [(true, .go), (false, .go)]).flatten ++ List.replicate 9 (false, .go) ++
    call false .pop 3 ++ call true (.push 12) 10 ++ List.replicate 9 (false, .go) ++
    List.replicate 30 (true, .go)

theorem safe_of_fits_contended :
    ∃ c : Config Bool (Shared Nat) (Pc Nat),
      runSchedule step Fits contended (start Bool 2) = some c ∧
      c.shared.pushes = [10, 11, 12] ∧ c.shared.returns = [(0, some 10)] ∧
      c.shared.capacity = 4 ∧ Safe c := by
  have hrun : (runSchedule step Fits contended (start Bool 2)).map
      (fun c => (c.shared.pushes, c.shared.returns, c.shared.capacity)) =
        some ([10, 11, 12], [(0, some 10)], 4) := by
    decide +kernel
  rcases Option.map_eq_some_iff.1 hrun with ⟨c, hc, htriple⟩
  rcases Prod.mk.inj htriple with ⟨hpushes, hpair⟩
  rcases Prod.mk.inj hpair with ⟨hreturns, hcapa⟩
  exact ⟨c, hc, hpushes, hreturns, hcapa, safe_of_fits (le_refl 2) (Reachable.start.runSchedule hc)⟩

/-- Thread `false` finds two slots full and is about to grow to four.  Thread `true` meanwhile
grows to four and to eight and stores five values.  Then `false` migrates them into four slots,
and `true` pops position zero. -/
def staleGrowth : List (Bool × Act Nat) :=
  call true (.push 10) 11 ++ call true (.push 11) 11 ++ call false (.push 99) 8 ++
    call true (.push 12) 42 ++ call true (.push 13) 11 ++ call true (.push 14) 52 ++
    List.replicate 87 (false, .go) ++ call true .pop 12

/-- The value of position four is constructed over the value of position zero. -/
theorem stale_growth_loses :
    ¬ ∀ c : Config Bool (Shared Nat) (Pc Nat),
      Reachable step (fun _ _ => True) (start Bool 2) c → Safe c := by
  intro hall
  have hrun : (runSchedule step (fun _ _ => True) staleGrowth (start Bool 2)).map
      (fun c => (c.shared.pushes[0]?, c.shared.returns)) = some (some 10, [(0, some 14)]) := by
    decide +kernel
  rcases Option.map_eq_some_iff.1 hrun with ⟨c, hc, hpair⟩
  rcases Prod.mk.inj hpair with ⟨hpush, hret⟩
  have hsafe := hall c (Reachable.start.runSchedule hc)
  have hmem : (0, some 14) ∈ c.shared.returns := by
    rw [hret]
    exact List.mem_singleton_self _
  rcases hsafe.returns hmem with ⟨-, v, hv, hpushed⟩
  cases hv
  rw [hpush] at hpushed
  cases hpushed

end AtomicQueue
end Thread
end Chenc
