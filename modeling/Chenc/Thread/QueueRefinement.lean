import Chenc.Lib.FifoQueue
import Chenc.Thread.QueueSafety

/-!
# QueueRefinement — the queue seen from outside

The growing queue is a FIFO queue whose calls take effect at one moment: a push at its CAS on
`tail_pos_`, a pop at its CAS on `head_pos_`, and a pop that finds nothing when it loads the
sequence number.

* `visible`, `system` : the calls and the returns of the runs whose migrations fit;
* `Fresh` : what a pop inside knows of a position below the head;
* `pusher_of_unpublished` : a pop returns `std::nullopt` only if the queue is empty or the push of
  the first value is under way;
* `Abstracts` : how the queue shows the abstract one;
* `refines_fifo` : whatever the calls return, the abstract queue could have returned.
-/

namespace Chenc
namespace Thread
namespace AtomicQueue

open FifoQueue (Answer Call Entry Label Phase)
open Interleaving (Config Reachable)
open NumberedRing (Board)
open Refinement (System)

variable {ι α : Type} {s s' : Shared α} {l l' : Pc α}

/-! ## Calls and returns -/

def Op.call : Op α → Call α
  | .push v => .push v
  | .pop => .pop

/-- What the caller gets, if the call returns. -/
def Exit.answer : Exit α → Option (Answer α)
  | .pushed => some .pushed
  | .popped _ res => some (.popped res)
  | .empty => some (.popped none)
  | .full _ _ | .retry _ => none

/-- What is seen of a step of thread `t`. -/
def visible (t : ι) : Pc α × Pc α → Option (Label ι α)
  | (.idle, .loadStat op) => some (.call t op.call)
  | (.leave e, .idle) => e.answer.map (.ret t)
  | _ => none

def system (ι : Type) (initial : Nat) [DecidableEq ι] :
    System (Config ι (Shared α) (Pc α)) (Label ι α) where
  init c := c = start ι initial
  step c x c' := ∃ t a s' l', Fits c.shared (c.pc t) ∧ step c.shared (c.pc t) a = some (s', l') ∧
    c' = c.set t s' l' ∧ x = visible t (c.pc t, l')

/-! ## Positions that a pop has read -/

/-- The number of the slot of position `p`. -/
def Shared.number (s : Shared α) (p : Nat) : Nat :=
  (s.maps s.kmap (p % s.capacity)).sequence

/-- Below the head, the slot of the position has been published. -/
def Fresh (s : Shared α) : Pc α → Prop
  | .loadMap .pop _ pos => pos < s.head → pos < s.number pos
  | .loadSeq .pop w => w.pos < s.head → w.pos < s.number w.pos
  | _ => True

theorem Fresh.of_outside (h : ¬ l.inside) : Fresh s l := by
  cases l with
  | _ => first | exact trivial | exact absurd trivial h

/-- While the numbers grow and the head moves only past published positions. -/
theorem Fresh.mono (h : Fresh s l) (hnumber : ∀ p, s.number p ≤ s'.number p)
    (hhead : ∀ p, p < s'.head → p < s.head ∨ p < s.number p) : Fresh s' l := by
  have hpos : ∀ p, (p < s.head → p < s.number p) → p < s'.head → p < s'.number p := by
    intro p hp hlt
    refine lt_of_lt_of_le ?_ (hnumber p)
    exact (hhead p hlt).elim hp id
  cases l with
  | loadMap op capa pos =>
      cases op with
      | push v => exact trivial
      | pop => exact hpos pos h
  | loadSeq op w =>
      cases op with
      | push v => exact trivial
      | pop => exact hpos w.pos h
  | _ => exact trivial

theorem Moves.fresh (h : Moves s l s' l') (hl : Fresh s l) : Fresh s' l' := by
  cases h with
  | loadPos op capa =>
      cases op with
      | push v => exact trivial
      | pop => exact fun hlt => absurd hlt (lt_irrefl s.head)
  | loadMap op capa pos =>
      cases op with
      | push v => exact trivial
      | pop => exact hl
  | leave e => cases e <;> exact trivial
  | _ => exact trivial

variable [DecidableEq ι] {held : Nat → Option Stage} {c : Config ι (Shared α) (Pc α)} {t : ι}

omit [DecidableEq ι] in
theorem number_setNode {w : Window} (hw : w.Current s) (hN : RingSize s.capacity) {y : Node α}
    (hy : (s.node w).sequence ≤ y.sequence) (p : Nat) :
    s.number p ≤ (s.setNode w.map w.slot y).number p := by
  show s.number p ≤ ((s.setNode w.map w.slot y).maps s.kmap (p % s.capacity)).sequence
  rw [maps_setNode hw hN]
  by_cases hslot : p % s.capacity = w.pos % s.capacity
  · rw [hslot, Function.update_self, Shared.number, hslot, ← node_eq hw hN]
    exact hy
  · rw [Function.update_of_ne hslot]
    exact le_rfl

omit [DecidableEq ι] in
/-- Outside a migration the numbers of the slots only grow. -/
theorem Inv.number_mono (h : Inv held c) (hs : Sound c) (hm : Moves c.shared (c.pc t) s' l')
    (hmig : ¬ (c.pc t).migrating) (p : Nat) : c.shared.number p ≤ s'.number p := by
  have hview := hs.views.view t
  -- The two stores of a sequence number are for the position in hand.
  have hstore : ∀ {w : Window} {x : Stage} {a : Node α} {n : Nat}, w.Current c.shared →
      (c.pc t).claim = some (w.pos, x) → wantedAt c.shared w.pos (some x) = some a →
      a.sequence ≤ n → c.shared.number p ≤ (c.shared.setSequence w n).number p := by
    intro w x a n hw hclaim ha hn
    rcases h.hand hs hw hclaim ha with ⟨-, -, hnode⟩
    exact number_setNode hw hs.size (hnode ▸ hn) p
  generalize c.pc t = l at hm hmig hview hstore
  cases hm with
  | construct v w => exact number_setNode (y := ⟨_, some v⟩) hview hs.size le_rfl p
  | destroy w res => exact number_setNode (y := ⟨_, none⟩) hview hs.size le_rfl p
  | publish w => exact hstore hview rfl rfl (Nat.le_succ _)
  | release w res =>
      have htwo := hs.size.two_le
      have hcapa : w.capa = c.shared.capacity := hview.1
      exact hstore hview rfl rfl (show w.pos + 1 ≤ w.pos + w.capa by omega)
  | leave e => cases e <;> exact le_rfl
  | _ => first | exact le_rfl | exact absurd trivial hmig

omit [DecidableEq ι] in
/-- The head moves past a published position. -/
theorem Inv.head_published (h : Inv held c) (hs : Sound c) (hm : Moves c.shared (c.pc t) s' l')
    {p : Nat} (hp : p < s'.head) : p < c.shared.head ∨ p < c.shared.number p := by
  have hknown := h.known t
  have hboard := fun hin => h.board_of_inside hs.gate (t := t) hin
  generalize c.pc t = l at hm hknown hboard
  cases hm with
  | reserveHead w hcas =>
      rcases hknown.2 hcas.symm with ⟨hlt, hfree⟩
      rcases Nat.lt_succ_iff_lt_or_eq.1 hp with hbelow | rfl
      · exact .inl (hcas ▸ hbelow)
      · have hwant : wanted c.shared held w.pos = some ⟨w.pos + 1, c.shared.pushes[w.pos]?⟩ := by
          rw [wanted, hfree]
          exact if_pos ⟨hcas.le, hlt⟩
        refine .inr ?_
        rw [Shared.number, (hboard trivial).holds hwant]
        exact Nat.lt_succ_self _
  | leave e => cases e <;> exact .inl hp
  | _ => exact .inl hp

/-- What pops have read stays fresh. -/
theorem fresh_step (h : Inv held c) (hs : Sound c) (hfresh : ∀ u, Fresh c.shared (c.pc u))
    (hm : Moves c.shared (c.pc t) s' l') (u : ι) :
    Fresh (c.set t s' l').shared ((c.set t s' l').pc u) := by
  by_cases hut : u = t
  · subst hut
    rw [Config.set_pc_self]
    exact hm.fresh (hfresh u)
  · rw [Config.set_pc_of_ne _ _ _ _ hut]
    by_cases hmig : (c.pc t).migrating
    · exact .of_outside (hs.gate.quiet t u hmig)
    · exact (hfresh u).mono (h.number_mono hs hm hmig) fun p hp => h.head_published hs hm hp

omit [DecidableEq ι] in
/-- When a pop finds its position unpublished, the queue is empty or a push that has the position
at the head is under way. -/
theorem pusher_of_unpublished (h : Inv held c) (hs : Sound c) {w : Window}
    (hl : c.pc t = .loadSeq .pop w) (hfresh : Fresh c.shared (c.pc t))
    (hseq : (c.shared.node w).sequence < w.pos + 1) (hlt : c.shared.head < c.shared.tail) :
    ∃ u x, (c.pc u).claim = some (c.shared.head, x) ∧ x.pushing := by
  have hview : w.Current c.shared := by simpa [hl, View] using hs.views.view t
  have hle : w.pos ≤ c.shared.head := by simpa [hl, Known, Shared.pos] using h.known t
  have hB := h.board_of_inside hs.gate (t := t) (hl ▸ trivial)
  rw [node_eq hview hs.size] at hseq
  have hhead : w.pos = c.shared.head := by
    rcases hle.lt_or_eq with hbelow | heq
    · rw [hl] at hfresh
      exact absurd (hfresh hbelow) (Nat.not_lt.2 (Nat.lt_succ_iff.1 hseq))
    · exact heq
  rw [hhead] at hseq
  rcases hheld : held c.shared.head with _ | x
  · -- Stored and in nobody's hand, it would be published.
    have hwant : wanted c.shared held c.shared.head =
        some ⟨c.shared.head + 1, c.shared.pushes[c.shared.head]?⟩ := by
      rw [wanted, hheld]
      exact if_pos ⟨le_rfl, hlt⟩
    rw [hB.holds hwant] at hseq
    exact absurd hseq (lt_irrefl _)
  · rcases h.holding.held_iff.1 hheld with ⟨u, hu⟩
    refine ⟨u, x, hu, ?_⟩
    by_contra hx
    exact absurd (h.ledger.popping hheld hx) (lt_irrefl _)

/-! ## The abstract queue -/

/-- Where a thread is with its call, by the history of the queue. -/
def Pc.phase (s : Shared α) : Pc α → Phase α
  | .idle => .idle
  | .loadStat op | .waitStat op | .enter op | .recheck op | .backOff op | .loadCapa op
  | .loadPos op _ | .loadMap op _ _ | .loadSeq op _ | .reserve op _ | .leave (.retry op) =>
      .pending op.call
  | .construct _ _ | .publish _ | .leave .pushed => .done .pushed
  | .moveOut w => .done (.popped s.pushes[w.pos]?)
  | .destroy _ res | .release _ res | .leave (.popped _ res) => .done (.popped res)
  | .leave .empty => .done (.popped none)
  | .leave (.full v _) | .closeGate v _ | .quiesce v _ | .oldCapa v _ | .oldMap v _ _
  | .alloc v _ _ _ | .initSeq v _ _ | .loadHead v _ | .loadTail v _ _ | .transfer v _ _ _
  | .destroyOld v _ _ _ | .mark v _ _ _ | .storeMap v _ | .storeCapa v _ | .deleteOld v _
  | .openGate v _ => .pending (.push v)

/-- The queue shows the abstract queue `a`. -/
structure Abstracts (c : Config ι (Shared α) (Pc α)) (a : FifoQueue.State ι α) : Prop where
  values : a.entries.map Entry.value = c.shared.pushes.drop c.shared.head
  phase (t : ι) : a.phase t = (c.pc t).phase c.shared
  /-- A push under way has not returned. -/
  pusher {t : ι} {p : Nat} {x : Stage} : (c.pc t).claim = some (p, x) → x.pushing →
    ∃ e, a.entries[p - c.shared.head]? = some e ∧ e.pusher = some t

/-- The abstract queue, and what has been proved of the queue itself. -/
structure Refines (c : Config ι (Shared α) (Pc α)) (a : FifoQueue.State ι α) : Prop where
  sound : Sound c
  inv : ∃ held, Inv held c
  fresh (t : ι) : Fresh c.shared (c.pc t)
  shows : Abstracts c a

variable {a : FifoQueue.State ι α}

/-- The phase of a thread stays while the history grows. -/
theorem Pc.phase_of_prefix (hpre : s.pushes <+: s'.pushes)
    (hl : ∀ w, l = .moveOut w → ∃ v, s.pushes[w.pos]? = some v) : l.phase s' = l.phase s := by
  cases l with
  | moveOut w =>
      rcases hl w rfl with ⟨v, hv⟩
      rw [Pc.phase, Pc.phase, hv, getElem?_of_prefix hpre hv]
  | leave e => cases e <;> rfl
  | _ => rfl

omit [DecidableEq ι] in
theorem Inv.pushed_of_moveOut (h : Inv held c) {u : ι} {w : Window} (hu : c.pc u = .moveOut w) :
    ∃ v, c.shared.pushes[w.pos]? = some v := by
  have hclaim : (c.pc u).claim = some (w.pos, .taking) := by rw [hu]; rfl
  exact h.ledger.exists_pushed (h.ledger.lt_tail (h.holding.held_of_claim hclaim))

/-- A step of thread `t`, and what becomes of the abstract queue. -/
theorem Abstracts.move (h : Abstracts c a) (hinv : Inv held c) (t : ι) (s' : Shared α)
    (l' : Pc α) (entries : List (Entry ι α)) (hpre : c.shared.pushes <+: s'.pushes)
    (hvalues : entries.map Entry.value = s'.pushes.drop s'.head)
    (hself : ∀ p x, l'.claim = some (p, x) → x.pushing →
      ∃ e, entries[p - s'.head]? = some e ∧ e.pusher = some t)
    (hothers : ∀ u p e, u ≠ t → (∃ x, (c.pc u).claim = some (p, x) ∧ x.pushing) →
      a.entries[p - c.shared.head]? = some e → e.pusher = some u →
      ∃ e, entries[p - s'.head]? = some e ∧ e.pusher = some u) :
    Abstracts (c.set t s' l') (a.set t (l'.phase s') entries) where
  values := hvalues
  phase u := by
    show Function.update a.phase t (l'.phase s') u = _
    by_cases hut : u = t
    · subst hut
      rw [Config.set_pc_self, Function.update_self]
      rfl
    · rw [Config.set_pc_of_ne _ _ _ _ hut, Function.update_of_ne hut, h.phase]
      exact (Pc.phase_of_prefix hpre fun w hw => hinv.pushed_of_moveOut hw).symm
  pusher {u p x} hu hx := by
    show ∃ e, entries[p - s'.head]? = some e ∧ e.pusher = some u
    by_cases hut : u = t
    · subst hut
      rw [Config.set_pc_self] at hu
      exact hself p x hu hx
    · rw [Config.set_pc_of_ne _ _ _ _ hut] at hu
      rcases h.pusher hu hx with ⟨e, he, hpusher⟩
      exact hothers u p e hut ⟨x, hu, hx⟩ he hpusher

/-- A step that takes no effect. -/
theorem Abstracts.still (h : Abstracts c a) (hinv : Inv held c)
    (hpush : s'.pushes = c.shared.pushes) (hhead : s'.head = c.shared.head)
    (hphase : l'.phase s' = (c.pc t).phase c.shared)
    (hclaim : ∀ p x, l'.claim = some (p, x) → x.pushing →
      ∃ y, (c.pc t).claim = some (p, y) ∧ y.pushing) : Abstracts (c.set t s' l') a := by
  have hmove := h.move hinv t s' l' a.entries
    (hpush ▸ List.prefix_rfl) (by rw [hpush, hhead, h.values]) (fun p x hx hpushing => ?_)
    fun u p e _ _ he hpusher => ⟨e, by rwa [hhead], hpusher⟩
  · have hsame : a.set t (l'.phase s') a.entries = a := by
      rw [hphase, ← h.phase, FifoQueue.State.set, Function.update_eq_self]
    rwa [hsame] at hmove
  · rcases hclaim p x hx hpushing with ⟨y, hy, hypushing⟩
    rw [hhead]
    exact h.pusher hy hypushing

omit [DecidableEq ι] in
theorem Abstracts.length (h : Abstracts c a) (hinv : Inv held c) :
    a.entries.length = c.shared.tail - c.shared.head := by
  have hlen := congrArg List.length h.values
  rwa [List.length_map, List.length_drop, hinv.ledger.length] at hlen

/-- The CAS on `tail_pos_` is the moment of the push. -/
theorem Abstracts.reserveTail (h : Abstracts c a) (hinv : Inv held c) {v : α} {w : Window}
    (hcas : c.shared.tail = w.pos) :
    Abstracts (c.set t { c.shared with tail := w.pos + 1, pushes := c.shared.pushes ++ [v] }
      (.construct v w)) (a.set t (.done .pushed) (a.entries ++ [⟨v, some t⟩])) := by
  have hlength := h.length hinv
  refine h.move hinv t _ (.construct v w) _ (List.prefix_append _ _) ?_ ?_ ?_
  · show (a.entries ++ [(⟨v, some t⟩ : Entry ι α)]).map Entry.value =
      (c.shared.pushes ++ [v]).drop c.shared.head
    rw [List.map_append, h.values, List.drop_append_of_le_length]
    · rfl
    · rw [hinv.ledger.length]
      exact hinv.ledger.head_le
  · -- The new entry is behind all others.
    intro p x hclaim _
    cases hclaim
    refine ⟨⟨v, some t⟩, ?_, rfl⟩
    show (a.entries ++ [(⟨v, some t⟩ : Entry ι α)])[w.pos - c.shared.head]? = _
    rw [← hcas, ← hlength]
    exact List.getElem?_concat_length
  · intro u p e _ _ he hpusher
    refine ⟨e, ?_, hpusher⟩
    show (a.entries ++ [(⟨v, some t⟩ : Entry ι α)])[p - c.shared.head]? = _
    rw [List.getElem?_append_left (List.getElem?_eq_some_iff.1 he).1]
    exact he

/-- The CAS on `head_pos_` is the moment of the pop. -/
theorem Abstracts.reserveHead (h : Abstracts c a) (hinv : Inv held c) {w : Window}
    (hcas : c.shared.head = w.pos) (hfree : held c.shared.head = none) {e : Entry ι α}
    {rest : List (Entry ι α)} (hentries : a.entries = e :: rest) :
    Abstracts (c.set t { c.shared with head := w.pos + 1 } (.moveOut w))
      (a.set t (.done (.popped (some e.value))) rest) := by
  have hvalues := h.values
  rw [hentries, List.map_cons] at hvalues
  have hfirst : c.shared.pushes[w.pos]? = some e.value := by
    rw [← hcas, ← List.head?_drop, ← hvalues]
    rfl
  have hphase : (Pc.moveOut w).phase { c.shared with head := w.pos + 1 } =
      .done (.popped (some e.value)) := by
    rw [← hfirst]
    rfl
  rw [← hphase]
  refine h.move hinv t { c.shared with head := w.pos + 1 } (.moveOut w) rest
    List.prefix_rfl ?_ (fun p x hx hpushing => ?_) ?_
  · show rest.map Entry.value = c.shared.pushes.drop (w.pos + 1)
    rw [← hcas, ← List.tail_drop, ← hvalues]
    rfl
  · cases hx
    exact absurd hpushing id
  · -- The other pushes under way are behind the head.
    rintro u p e' _ ⟨x, hx, hpushing⟩ he hpusher
    have hheld := hinv.holding.held_of_claim hx
    have hle := (hinv.ledger.pushing hheld hpushing).1
    have hne : p ≠ c.shared.head := by
      rintro rfl
      rw [hfree] at hheld
      cases hheld
    refine ⟨e', ?_, hpusher⟩
    show rest[p - (w.pos + 1)]? = some e'
    rw [hentries] at he
    have hindex : p - c.shared.head = p - (w.pos + 1) + 1 := by omega
    rwa [hindex, List.getElem?_cons_succ] at he

/-- A return. -/
theorem Abstracts.leave (h : Abstracts c a) (hinv : Inv held c) {e : Exit α} {n : Nat}
    (hl : c.pc t = .leave e) (hnext : e.next = .idle) :
    Abstracts (c.set t { c.shared.record e with active := n } .idle)
      (a.set t .idle (a.entries.map (Entry.settle t))) := by
  have hshared : (c.shared.record e).pushes = c.shared.pushes ∧
      (c.shared.record e).head = c.shared.head := by
    cases e <;> exact ⟨rfl, rfl⟩
  refine h.move hinv t _ .idle _ ?_ ?_ (fun p x hx _ => by cases hx) ?_
  · show c.shared.pushes <+: (c.shared.record e).pushes
    rw [hshared.1]
  · show (a.entries.map (Entry.settle t)).map Entry.value =
      (c.shared.record e).pushes.drop (c.shared.record e).head
    rw [hshared.1, hshared.2, ← h.values, List.map_map]
    exact List.map_congr_left fun e _ => e.settle_value t
  · intro u p e' hut _ he hpusher
    have hne : e'.pusher ≠ some t := by
      rw [hpusher]
      exact fun heq => hut (Option.some.inj heq)
    refine ⟨e', ?_, hpusher⟩
    show (a.entries.map (Entry.settle t))[p - (c.shared.record e).head]? = some e'
    rw [hshared.2, List.getElem?_map, he, Option.map_some, Entry.settle_of_ne hne]

/-- What a step shows, the abstract queue can show. -/
theorem Refines.shows_step (h : Refines c a) (hm : Moves c.shared (c.pc t) s' l') :
    ∃ b, (FifoQueue.system ι α).Runs a (visible t (c.pc t, l')).toList b ∧
      Abstracts (c.set t s' l') b := by
  rcases h.inv with ⟨held, hinv⟩
  have hphase := h.shows.phase t
  have hquiet : visible t (c.pc t, l') = none → Abstracts (c.set t s' l') a →
      ∃ b, (FifoQueue.system ι α).Runs a (visible t (c.pc t, l')).toList b ∧
        Abstracts (c.set t s' l') b := by
    intro hnone hshows
    rw [hnone]
    exact ⟨a, .start, hshows⟩
  generalize hl : c.pc t = l at hm hphase hquiet
  cases hm with
  | call op =>
      refine ⟨_, .single (.call t op.call hphase), ?_⟩
      refine h.shows.move hinv t c.shared (.loadStat op) _ List.prefix_rfl h.shows.values
        (fun p x hx _ => by cases hx) fun u p e _ _ he hpusher => ⟨e, he, hpusher⟩
  | reserveTail v w hcas =>
      exact ⟨_, .single (.push t v hphase), h.shows.reserveTail hinv hcas⟩
  | reserveHead w hcas =>
      have hknown : Known c.shared held (.reserve .pop w) := hl ▸ hinv.known t
      rcases hknown.2 hcas.symm with ⟨hlt, hfree⟩
      rcases hentries : a.entries with _ | ⟨e, rest⟩
      · have hlength := h.shows.length hinv
        rw [hentries, List.length_nil] at hlength
        omega
      · exact ⟨_, .single (.pop t hphase hentries),
          h.shows.reserveHead hinv hcas (hcas ▸ hfree) hentries⟩
  | empty w hseq =>
      refine ⟨_, .single (.empty t hphase fun e he => ?_), ?_⟩
      · -- There is a first value: its push is under way.
        have hlength := h.shows.length hinv
        have hfirst : a.entries[0]? = some e := by rwa [← List.head?_eq_getElem?]
        have hpos := (List.getElem?_eq_some_iff.1 hfirst).1
        rcases pusher_of_unpublished hinv h.sound hl (h.fresh t) hseq (by omega) with
          ⟨u, x, hu, hx⟩
        rcases h.shows.pusher hu hx with ⟨e', he', hpusher⟩
        rw [Nat.sub_self, hfirst] at he'
        cases he'
        rw [hpusher]
        exact Option.some_ne_none u
      · exact h.shows.move hinv t c.shared (.leave .empty) _ List.prefix_rfl h.shows.values
          (fun p x hx _ => by cases hx) fun u p e _ _ he hpusher => ⟨e, he, hpusher⟩
  | leave e =>
      cases e with
      | pushed | popped pos res | empty =>
          exact ⟨_, .single (.ret t hphase), h.shows.leave hinv hl rfl⟩
      | full v capa | retry op =>
          exact hquiet rfl (h.shows.still hinv rfl rfl (hl ▸ rfl) fun p x hx _ => by cases hx)
  | moveOut w =>
      refine hquiet rfl (h.shows.still hinv rfl rfl ?_ fun p x hx hpushing => ?_)
      · have hview : w.Current c.shared := by simpa [hl, View] using h.sound.views.view t
        have hclaim : (c.pc t).claim = some (w.pos, .taking) := by rw [hl]; rfl
        rcases hinv.hand h.sound hview hclaim rfl with ⟨-, -, hnode⟩
        rw [hl, Pc.phase, Pc.phase, hnode]
      · cases hx
        exact absurd hpushing id
  | construct v w =>
      refine hquiet rfl (h.shows.still hinv rfl rfl (hl ▸ rfl) fun p x hx _ => ?_)
      cases hx
      exact ⟨.reserved, by rw [hl]; rfl, trivial⟩
  | destroy w res | release w res =>
      refine hquiet rfl (h.shows.still hinv rfl rfl (hl ▸ rfl) fun p x hx hpushing => ?_)
      cases hx
      exact absurd hpushing id
  | _ => exact hquiet rfl (h.shows.still hinv rfl rfl (hl ▸ rfl) fun p x hx _ => by cases hx)

theorem simulates {initial : Nat} (hi : 2 ≤ initial) :
    (system ι initial).Simulates (Refines (α := α)) (FifoQueue.system ι α) where
  start {c} hc := by
    subst hc
    refine ⟨_, rfl, ?_⟩
    exact
      { sound := .start hi
        inv := ⟨_, .start hi⟩
        fresh := fun _ => trivial
        shows := ⟨rfl, fun _ => rfl, fun hx _ => by cases hx⟩ }
  step {c c' a x} h hstep := by
    rcases hstep with ⟨t, act, s', l', hfits, hstep, rfl, rfl⟩
    have hm := Moves.of_step hstep
    rcases h.shows_step hm with ⟨b, hb, hshows⟩
    rcases h.inv with ⟨held, hinv⟩
    exact ⟨b, hb, h.sound.step hm, hinv.step h.sound hfits hm, fresh_step hinv h.sound h.fresh hm,
      hshows⟩

/-- **The queue refines a FIFO queue.**  For a queue with at least two slots, any number of threads
and any order of their operations, while each migration is into an array that holds the values
stored: the calls and returns of every run are those of a run of the abstract queue, in which every
call takes effect at one moment between its call and its return, and a pop answers that there is
nothing only if there is no value or the push of the first one has not returned. -/
theorem refines_fifo {initial : Nat} (hi : 2 ≤ initial) {ls : List (Label ι α)}
    (h : (system ι initial).Shows ls) : (FifoQueue.system ι α).Shows ls :=
  (simulates hi).shows h

/-! ## A schedule -/

/-- What a schedule shows, and where it ends. -/
def shownBy : List (ι × Act α) → Config ι (Shared α) (Pc α) →
    Option (List (Label ι α) × Config ι (Shared α) (Pc α))
  | [], c => some ([], c)
  | (t, a) :: rest, c =>
      if Fits c.shared (c.pc t) then
        match step c.shared (c.pc t) a with
        | some (s, l) =>
            (shownBy rest (c.set t s l)).map fun r => ((visible t (c.pc t, l)).toList ++ r.1, r.2)
        | none => none
      else none

theorem runs_of_shownBy {initial : Nat} {sched : List (ι × Act α)} {ls : List (Label ι α)}
    {c' : Config ι (Shared α) (Pc α)} (h : shownBy sched c = some (ls, c')) :
    (system ι initial).Runs c ls c' := by
  induction sched generalizing c ls with
  | nil =>
      cases h
      exact .start
  | cons entry rest ih =>
      rcases entry with ⟨t, act⟩
      by_cases hfits : Fits c.shared (c.pc t)
      · rcases hstep : step c.shared (c.pc t) act with _ | ⟨s, l⟩
        · simp [shownBy, hfits, hstep] at h
        · simp only [shownBy, hfits, hstep, if_true] at h
          rcases Option.map_eq_some_iff.1 h with ⟨⟨ms, d⟩, hms, heq⟩
          cases heq
          exact .trans (.single ⟨t, act, s, l, hfits, hstep, rfl, rfl⟩) (ih hms)
      · simp [shownBy, hfits] at h

/-- Thread `true` has won position zero and not yet published it; thread `false` pushes a value
behind it, returns, and finds nothing to pop. -/
def overtaken : List (Bool × Act Nat) :=
  call true (.push 10) 8 ++ call false (.push 11) 11 ++ call false .pop 8

theorem refines_fifo_overtaken :
    (FifoQueue.system Bool Nat).Shows [.call true (.push 10), .call false (.push 11),
      .ret false .pushed, .call false .pop, .ret false (.popped none)] := by
  have hshown : (shownBy overtaken (start Bool 2)).map Prod.fst =
      some [.call true (.push 10), .call false (.push 11), .ret false .pushed, .call false .pop,
        .ret false (.popped none)] := by
    decide +kernel
  rcases Option.map_eq_some_iff.1 hshown with ⟨⟨ls, c'⟩, hrun, rfl⟩
  exact refines_fifo (le_refl 2) ⟨_, c', rfl, runs_of_shownBy hrun⟩

end AtomicQueue
end Thread
end Chenc
