import Mathlib.Data.List.Nodup
import Chenc.Thread.QueueGate

/-!
# QueueRing — the way of a value through the queue

Every position of the queue passes through the same stages: a push reserves it, constructs the
value and publishes it; a pop takes it, destroys the object and releases the slot.

* `Stage`, `Pc.claim` : the stages at which a thread has a position in hand;
* `wanted` : what the slot of each position must hold, given what the threads have in hand;
* `Ledger` : how the counters and the history agree with that;
* `Known` : what a thread may conclude from what it has read, whatever the others do meanwhile
  (`Rely`);
* `Progress` : how far the migration of the array has come;
* `Inv` : all of it, with `Inv.still`, `Inv.inside` and `Inv.migrate` for the three kinds of
  steps.
-/

namespace Chenc
namespace Thread

/-! ## Capacities -/

/-- A power of two with at least two slots. -/
structure RingSize (N : Nat) : Prop where
  two_le : 2 ≤ N
  pow : ∃ k, N = 2 ^ k

theorem le_bitCeil (n : Nat) : n ≤ bitCeil n := by
  unfold bitCeil
  split_ifs with h
  · exact h
  · have hlt : n - 1 < 2 ^ (Nat.log2 (n - 1) + 1) := Nat.lt_log2_self
    omega

theorem bitCeil_two_pow (k : Nat) : bitCeil (2 ^ k) = 2 ^ k := by
  rcases k with _ | k
  · rfl
  · have htwo : 2 ^ (k + 1) = 2 * 2 ^ k := Nat.pow_succ'
    have hpos : 0 < 2 ^ k := Nat.two_pow_pos k
    have hlog : Nat.log2 (2 ^ (k + 1) - 1) = k :=
      (Nat.log2_eq_iff (by omega)).2 ⟨by omega, by omega⟩
    rw [bitCeil, if_neg (by omega), hlog]

theorem ringSize_bitCeil {n : Nat} (h : 2 ≤ n) : RingSize (bitCeil n) where
  two_le := h.trans (le_bitCeil n)
  pow := ⟨Nat.log2 (n - 1) + 1, if_neg (by omega)⟩

theorem RingSize.bitCeil_double {N : Nat} (h : RingSize N) : bitCeil (N * 2) = N * 2 := by
  rcases h.pow with ⟨k, rfl⟩
  rw [← Nat.pow_succ, bitCeil_two_pow]

namespace AtomicQueue

open Interleaving (Config Reachable Holding)
open NumberedRing (Board)

variable {α : Type}

theorem slotOf_eq_mod {N : Nat} (h : RingSize N) (p : Nat) : slotOf p N = p % N := by
  rcases h.pow with ⟨k, rfl⟩
  exact Nat.and_two_pow_sub_one_eq_mod p k

variable {s s' : Shared α} {l l' : Pc α} {w : Window}

theorem node_eq (hw : w.Current s) (hN : RingSize s.capacity) :
    s.node w = s.maps s.kmap (w.pos % s.capacity) := by
  rw [Shared.node, Window.slot, hw.1, hw.2, slotOf_eq_mod hN]

/-- Capacities on the way from the test that finds the ring full to the new array. -/
def Sized : Pc α → Prop
  | .closeGate _ n | .quiesce _ n | .oldCapa _ n | .oldMap _ n _ | .alloc _ n _ _ => 2 ≤ n
  | .initSeq _ g _ | .loadHead _ g | .loadTail _ g _ | .transfer _ g _ _ | .destroyOld _ g _ _
  | .mark _ g _ _ | .storeMap _ g | .storeCapa _ g => RingSize g.newCapa
  | _ => True

theorem Moves.sized (h : Moves s l s' l') (hv : View s l) (hN : RingSize s.capacity)
    (hl : Sized l) : Sized l' := by
  cases h with
  | leave e =>
      cases e with
      | full v capa =>
          have hcapa : capa = s.capacity := hv
          have htwo := hN.two_le
          exact hcapa ▸ (show 2 ≤ s.capacity * 2 by omega)
      | _ => exact trivial
  | alloc v n oc om => exact ringSize_bitCeil hl
  | _ => first | exact trivial | exact hl

theorem Moves.ringSize (h : Moves s l s' l') (hN : RingSize s.capacity) (hl : Sized l) :
    RingSize s'.capacity := by
  cases h with
  | leave e => cases e <;> exact hN
  | storeCapa v g => exact hl
  | _ => exact hN

variable {ι : Type} [DecidableEq ι]

/-- What holds of every run, whatever the growing threads ask for. -/
structure Sound (c : Config ι (Shared α) (Pc α)) : Prop where
  gate : Gate c
  views : Views c
  size : RingSize c.shared.capacity
  sized (t : ι) : Sized (c.pc t)

namespace Sound

variable {c : Config ι (Shared α) (Pc α)} {t u : ι}

omit [DecidableEq ι] in
theorem start {initial : Nat} (h : 2 ≤ initial) :
    Sound (AtomicQueue.start ι initial : Config ι (Shared α) (Pc α)) where
  gate := Gate.start initial
  views := Views.start initial
  size := ringSize_bitCeil h
  sized _ := trivial

theorem step (h : Sound c) (hm : Moves c.shared (c.pc t) s' l') : Sound (c.set t s' l') where
  gate := h.gate.step hm
  views := h.views.step h.gate hm
  size := hm.ringSize h.size (h.sized t)
  sized := (Config.forall_set c t s' l').2
    ⟨hm.sized (h.views.view t) h.size (h.sized t), fun u _ => h.sized u⟩

end Sound

/-! ## Positions in hand -/

/-- How far a thread is with the position it has in hand. -/
inductive Stage
  /-- Reserved by a push, nothing constructed yet. -/
  | reserved
  /-- Constructed, not yet published. -/
  | built
  /-- Reserved by a pop, the object still in the slot. -/
  | taking
  /-- Destroyed, the slot not yet released. -/
  | emptied
  /-- The slot released, `pop` not yet returned. -/
  | leaving
  deriving DecidableEq

/-- The stages of a push. -/
def Stage.pushing : Stage → Prop
  | .reserved | .built => True
  | _ => False

/-- The position a thread has in hand. -/
def Pc.claim : Pc α → Option (Nat × Stage)
  | .construct _ w => some (w.pos, .reserved)
  | .publish w => some (w.pos, .built)
  | .moveOut w | .destroy w _ => some (w.pos, .taking)
  | .release w _ => some (w.pos, .emptied)
  | .leave (.popped pos _) => some (pos, .leaving)
  | _ => none

theorem Pc.inside_of_claim {x : Nat × Stage} (h : l.claim = some x) : l.inside := by
  cases l <;> first | exact trivial | cases h

/-- What the slot of position `p` must hold when it is in hand at `x`, or in nobody's hand. -/
def wantedAt (s : Shared α) (p : Nat) : Option Stage → Option (Node α)
  | some .reserved => some ⟨p, none⟩
  | some .built => some ⟨p, s.pushes[p]?⟩
  | some .taking => some ⟨p + 1, s.pushes[p]?⟩
  | some .emptied => some ⟨p + 1, none⟩
  | some .leaving => none
  | none => if s.head ≤ p ∧ p < s.tail then some ⟨p + 1, s.pushes[p]?⟩ else none

def wanted (s : Shared α) (held : Nat → Option Stage) (p : Nat) : Option (Node α) :=
  wantedAt s p (held p)

theorem wanted_update (s : Shared α) (held : Nat → Option Stage) (p : Nat) (x : Option Stage) :
    wanted s (Function.update held p x) =
      Function.update (wanted s held) p (wantedAt s p x) := by
  funext q
  by_cases hq : q = p
  · subst hq
    simp [wanted]
  · simp [wanted, hq]

/-- The counters, the history and the positions in hand fit together. -/
structure Ledger (s : Shared α) (held : Nat → Option Stage) : Prop where
  length : s.pushes.length = s.tail
  head_le : s.head ≤ s.tail
  pushing {p : Nat} {x : Stage} : held p = some x → x.pushing → s.head ≤ p ∧ p < s.tail
  popping {p : Nat} {x : Stage} : held p = some x → ¬ x.pushing → p < s.head
  returned {p : Nat} : p < s.head → held p = none → p ∈ s.returns.map Prod.fst
  returns {p : Nat} {res : Option α} : (p, res) ∈ s.returns →
    p < s.head ∧ held p = none ∧ ∃ v, res = some v ∧ s.pushes[p]? = some v
  nodup : (s.returns.map Prod.fst).Nodup

namespace Ledger

variable {held : Nat → Option Stage} {p : Nat} {x : Stage}

theorem lt_tail (h : Ledger s held) (hp : held p = some x) : p < s.tail := by
  by_cases hx : x.pushing
  · exact (h.pushing hp hx).2
  · exact (h.popping hp hx).trans_le h.head_le

theorem held_tail (h : Ledger s held) : held s.tail = none := by
  rcases hp : held s.tail with _ | x
  · rfl
  · exact absurd (h.lt_tail hp) (lt_irrefl _)

theorem exists_pushed (h : Ledger s held) (hp : p < s.tail) : ∃ v, s.pushes[p]? = some v :=
  ⟨_, List.getElem?_eq_getElem (h.length ▸ hp)⟩

/-- Nothing is wanted of the position that comes next. -/
theorem wanted_tail (h : Ledger s held) : wanted s held s.tail = none := by
  rw [wanted, h.held_tail]
  exact if_neg fun hlt => lt_irrefl _ hlt.2

theorem wantedAt_none (h : Ledger s held) (hp : held p = some x) (hx : x.pushing) :
    wantedAt s p none = some ⟨p + 1, s.pushes[p]?⟩ :=
  if_pos (h.pushing hp hx)

/-- A filled slot at the head is in nobody's hand. -/
theorem free_of_wanted (h : Ledger s held) {y : Node α} (hy : wanted s held s.head = some y)
    (hseq : y.sequence = s.head + 1) : s.head < s.tail ∧ held s.head = none := by
  rcases hp : held s.head with _ | x
  · rw [wanted, hp] at hy
    simp only [wantedAt, ite_eq_iff] at hy
    rcases hy with ⟨hrange, -⟩ | ⟨-, habs⟩
    · exact ⟨hrange.2, rfl⟩
    · cases habs
  · rw [wanted, hp] at hy
    have hpop : x.pushing := by
      by_contra hx
      exact absurd (h.popping hp hx) (lt_irrefl _)
    cases x with
    | reserved =>
        cases hy
        exact absurd hseq (by simp)
    | built =>
        cases hy
        exact absurd hseq (by simp)
    | _ => exact absurd hpop id

end Ledger

/-! ## What a thread knows -/

/-- A pop carries the value of the push with the same position. -/
def Carries (s : Shared α) (pos : Nat) (res : Option α) : Prop :=
  ∃ v, res = some v ∧ s.pushes[pos]? = some v

def Known (s : Shared α) (held : Nat → Option Stage) : Pc α → Prop
  | .loadMap op _ pos => pos ≤ s.pos op
  | .loadSeq op w => w.pos ≤ s.pos op
  | .reserve (.push _) w => w.pos ≤ s.tail ∧ (w.pos = s.tail → (s.node w).sequence = w.pos)
  | .reserve .pop w => w.pos ≤ s.head ∧ (w.pos = s.head → w.pos < s.tail ∧ held w.pos = none)
  | .construct v w => s.pushes[w.pos]? = some v
  | .destroy w res | .release w res => Carries s w.pos res
  | .leave (.popped pos res) => Carries s pos res
  | _ => True

/-- What a thread may rely on while another takes a step inside. -/
structure Rely (s : Shared α) (held : Nat → Option Stage) (s' : Shared α)
    (held' : Nat → Option Stage) : Prop where
  head_le : s.head ≤ s'.head
  tail_le : s.tail ≤ s'.tail
  pushes : s.pushes <+: s'.pushes
  /-- The slot that waits for the next push goes on waiting. -/
  tail_slot {w : Window} : w.Current s → w.pos = s.tail → s'.tail = s.tail →
    (s.node w).sequence = w.pos → (s'.node w).sequence = w.pos
  /-- Nobody but a pop takes the value at the head. -/
  head_free : s'.head = s.head → s.head < s.tail → held s.head = none → held' s.head = none

theorem getElem?_of_prefix {xs ys : List α} (h : xs <+: ys) {p : Nat} {v : α}
    (hp : xs[p]? = some v) : ys[p]? = some v := by
  rcases h with ⟨zs, rfl⟩
  rw [List.getElem?_append_left (List.getElem?_eq_some_iff.1 hp).1]
  exact hp

theorem Carries.mono {pos : Nat} {res : Option α} (h : Carries s pos res)
    (hpre : s.pushes <+: s'.pushes) : Carries s' pos res := by
  rcases h with ⟨v, hv, hp⟩
  exact ⟨v, hv, getElem?_of_prefix hpre hp⟩

theorem Known.mono {held held' : Nat → Option Stage} (hr : Rely s held s' held')
    (hv : View s l) (h : Known s held l) : Known s' held' l := by
  cases l with
  | loadMap op capa pos =>
      cases op with
      | push v => exact le_trans h hr.tail_le
      | pop => exact le_trans h hr.head_le
  | loadSeq op w =>
      cases op with
      | push v => exact le_trans h hr.tail_le
      | pop => exact le_trans h hr.head_le
  | reserve op w =>
      cases op with
      | push v =>
          -- If the tail is still where it was read, no push has won it meanwhile.
          refine ⟨h.1.trans hr.tail_le, fun hpos => ?_⟩
          have htail : s'.tail = s.tail := le_antisymm (hpos ▸ h.1) hr.tail_le
          have hold : w.pos = s.tail := hpos.trans htail
          exact hr.tail_slot hv hold htail (h.2 hold)
      | pop =>
          -- If the head is still where it was read, no pop has taken its value meanwhile.
          refine ⟨h.1.trans hr.head_le, fun hpos => ?_⟩
          have hhead : s'.head = s.head := le_antisymm (hpos ▸ h.1) hr.head_le
          have hold : w.pos = s.head := hpos.trans hhead
          rcases h.2 hold with ⟨hlt, hfree⟩
          rw [hold] at hlt hfree ⊢
          exact ⟨hlt.trans_le hr.tail_le, hr.head_free hhead hlt hfree⟩
  | construct v w => exact getElem?_of_prefix hr.pushes h
  | destroy w res => exact Carries.mono h hr.pushes
  | release w res => exact Carries.mono h hr.pushes
  | leave e =>
      cases e with
      | popped pos res => exact Carries.mono h hr.pushes
      | _ => exact trivial
  | _ => exact trivial

theorem Known.of_outside {held : Nat → Option Stage} (h : ¬ l.inside) : Known s held l := by
  cases l with
  | _ => first | exact trivial | exact absurd trivial h

/-! ## The migration -/

/-- Between the first transfer and the store of the new capacity. -/
def Pc.moving : Pc α → Prop
  | .transfer _ _ _ _ | .destroyOld _ _ _ _ | .mark _ _ _ _ | .storeMap _ _ | .storeCapa _ _ =>
      True
  | _ => False

theorem Pc.migrating_of_moving (h : l.moving) : l.migrating := by
  cases l <;> first | exact trivial | exact absurd h id

/-- The positions below `i` that are stored, and what their slots hold. -/
def span (s : Shared α) (i p : Nat) : Option (Node α) :=
  if s.head ≤ p ∧ p < i then some ⟨p + 1, s.pushes[p]?⟩ else none

/-- The stored positions from `i` on are still in the old array. -/
def Left (s : Shared α) (g : Growth) (i : Nat) : Prop :=
  ∀ p, i ≤ p → p < s.tail → s.maps g.oldMap (p % g.oldCapa) = ⟨p + 1, s.pushes[p]?⟩

/-- The stored positions fit, and every slot of the new array has its first sequence number. -/
def Prepared (s : Shared α) (g : Growth) : Prop :=
  s.tail - s.head ≤ g.newCapa ∧ ∀ j, j < g.newCapa → s.maps g.newMap j = ⟨j, none⟩

/-- The value of position `i` is on its way into the new array: constructed, not yet marked. -/
structure Copying (s : Shared α) (g : Growth) (i : Nat) : Prop where
  fits : s.tail - s.head ≤ g.newCapa
  head_le : s.head ≤ i
  lt_tail : i < s.tail
  board : ∃ slots x, Board g.newCapa slots (span s i) ∧
    s.maps g.newMap = Function.update slots (i % g.newCapa) ⟨x, s.pushes[i]?⟩

/-- The stored positions below `i` are in the new array. -/
structure Copied (s : Shared α) (g : Growth) (i : Nat) : Prop where
  fits : s.tail - s.head ≤ g.newCapa
  head_le : s.head ≤ i
  le_tail : i ≤ s.tail
  board : Board g.newCapa (s.maps g.newMap) (span s i)

def Progress (s : Shared α) : Pc α → Prop
  | .oldCapa _ n | .oldMap _ n _ | .alloc _ n _ _ => s.tail - s.head ≤ bitCeil n
  | .initSeq _ g i => s.tail - s.head ≤ g.newCapa ∧
      (∀ j, j < i → s.maps g.newMap j = ⟨j, none⟩) ∧ ∀ j, (s.maps g.newMap j).data = none
  | .loadHead _ g => Prepared s g
  | .loadTail _ g h => Prepared s g ∧ h = s.head
  | .transfer _ g i t => Copied s g i ∧ Left s g i ∧ t = s.tail
  | .destroyOld _ g i t => Copying s g i ∧ Left s g i ∧ t = s.tail
  | .mark _ g i t => Copying s g i ∧ Left s g (i + 1) ∧ t = s.tail
  | .storeMap _ g | .storeCapa _ g => Board g.newCapa (s.maps g.newMap) (span s s.tail)
  | _ => True

theorem span_congr (hhead : s'.head = s.head) (hpush : s'.pushes = s.pushes) :
    span s' = span s := by
  funext i p
  rw [span, span, hhead, hpush]

theorem Copied.congr {g : Growth} {i : Nat} (h : Copied s g i) (hhead : s'.head = s.head)
    (htail : s'.tail = s.tail) (hpush : s'.pushes = s.pushes) (hmaps : s'.maps = s.maps) :
    Copied s' g i where
  fits := by rw [htail, hhead]; exact h.fits
  head_le := by rw [hhead]; exact h.head_le
  le_tail := by rw [htail]; exact h.le_tail
  board := by rw [hmaps, span_congr hhead hpush]; exact h.board

theorem Copying.congr {g : Growth} {i : Nat} (h : Copying s g i) (hhead : s'.head = s.head)
    (htail : s'.tail = s.tail) (hpush : s'.pushes = s.pushes) (hmaps : s'.maps = s.maps) :
    Copying s' g i where
  fits := by rw [htail, hhead]; exact h.fits
  head_le := by rw [hhead]; exact h.head_le
  lt_tail := by rw [htail]; exact h.lt_tail
  board := by rw [hmaps, hpush, span_congr hhead hpush]; exact h.board

theorem Progress.congr (h : Progress s l) (hhead : s'.head = s.head) (htail : s'.tail = s.tail)
    (hpush : s'.pushes = s.pushes) (hmaps : s'.maps = s.maps) : Progress s' l := by
  have hspan : span s' = span s := span_congr hhead hpush
  have hleft : ∀ g i, Left s g i → Left s' g i := by
    intro g i hl
    rw [Left, htail, hmaps, hpush]
    exact hl
  cases l with
  | transfer v g i t => exact ⟨h.1.congr hhead htail hpush hmaps, hleft g i h.2.1, htail ▸ h.2.2⟩
  | destroyOld v g i t =>
      exact ⟨h.1.congr hhead htail hpush hmaps, hleft g i h.2.1, htail ▸ h.2.2⟩
  | mark v g i t =>
      exact ⟨h.1.congr hhead htail hpush hmaps, hleft g (i + 1) h.2.1, htail ▸ h.2.2⟩
  | _ =>
      first
        | exact trivial
        | simpa only [Progress, Prepared, hhead, htail, hmaps, hspan] using h

theorem Progress.of_not_migrating (h : ¬ l.migrating) : Progress s l := by
  cases l with
  | _ => first | exact trivial | exact absurd trivial h

/-! ## The invariant -/

structure Inv (held : Nat → Option Stage) (c : Config ι (Shared α) (Pc α)) : Prop where
  holding : Holding Pc.claim held c
  ledger : Ledger c.shared held
  board : (∀ t, ¬ (c.pc t).moving) →
    Board c.shared.capacity (c.shared.maps c.shared.kmap) (wanted c.shared held)
  known (t : ι) : Known c.shared held (c.pc t)
  progress (t : ι) : Progress c.shared (c.pc t)

theorem Ledger.congr {held : Nat → Option Stage} (h : Ledger s held) (hhead : s'.head = s.head)
    (htail : s'.tail = s.tail) (hpush : s'.pushes = s.pushes) (hret : s'.returns = s.returns) :
    Ledger s' held where
  length := by rw [hpush, htail, h.length]
  head_le := by rw [hhead, htail]; exact h.head_le
  pushing := by rw [hhead, htail]; exact h.pushing
  popping := by rw [hhead]; exact h.popping
  returned := by rw [hhead, hret]; exact h.returned
  returns := by rw [hhead, hret, hpush]; exact h.returns
  nodup := by rw [hret]; exact h.nodup

namespace Inv

variable {held held' : Nat → Option Stage} {c : Config ι (Shared α) (Pc α)} {t u : ι}

omit [DecidableEq ι] in
theorem start {initial : Nat} (h : 2 ≤ initial) :
    Inv (fun _ => none) (AtomicQueue.start ι initial : Config ι (Shared α) (Pc α)) where
  holding := .start fun _ => rfl
  ledger :=
    { length := rfl
      head_le := le_rfl
      pushing := by simp
      popping := by simp
      returned := fun hp => absurd hp (Nat.not_lt_zero _)
      returns := fun hp => absurd hp List.not_mem_nil
      nodup := List.nodup_nil }
  board _ := by
    have hempty : wanted (AtomicQueue.start ι initial : Config ι (Shared α) (Pc α)).shared
        (fun _ => none) = fun _ => none := by
      funext p
      simp [wanted, wantedAt, AtomicQueue.start, create]
    rw [hempty]
    refine Board.fresh (ringSize_bitCeil h).two_le fun i hi => ?_
    exact congrArg (fun n => (⟨n, none⟩ : Node α)) (if_pos hi)
  known _ := trivial
  progress _ := trivial

/-- A step that leaves the positions and the arrays as they are. -/
theorem still (h : Inv held c) {l l' : Pc α} {n : Nat} {x : Status} {f : List Nat}
    (hl : c.pc t = l) (hclaim : l'.claim = l.claim) (hmoving : l.moving → l'.moving)
    (hknown : Known c.shared held l') (hprog : Progress c.shared l') :
    Inv held (c.set t { c.shared with active := n, stat := x, freed := f } l') where
  holding := h.holding.keep (by rw [hl, hclaim])
  ledger := h.ledger.congr rfl rfl rfl rfl
  board hnone := by
    refine h.board fun u hu => ?_
    by_cases hut : u = t
    · subst hut
      rw [hl] at hu
      exact hnone u (by rw [Config.set_pc_self]; exact hmoving hu)
    · exact hnone u (by rwa [Config.set_pc_of_ne _ _ _ _ hut])
  known := (Config.forall_set c t _ l').2 ⟨hknown, fun u _ => h.known u⟩
  progress := (Config.forall_set c t _ l').2
    ⟨hprog.congr rfl rfl rfl rfl, fun u _ => (h.progress u).congr rfl rfl rfl rfl⟩

omit [DecidableEq ι] in
/-- While somebody is inside, nobody migrates and the array is as wanted. -/
theorem board_of_inside (h : Inv held c) (hg : Gate c) (ht : (c.pc t).inside) :
    Board c.shared.capacity (c.shared.maps c.shared.kmap) (wanted c.shared held) :=
  h.board fun u hu => hg.quiet u t (Pc.migrating_of_moving hu) ht

/-- A step inside that changes the positions or their slots. -/
theorem inside (h : Inv held c) (hs : Sound c) {s' : Shared α} {l l' : Pc α} (hl : c.pc t = l)
    (hin : l.inside) (hout : ¬ l'.migrating) (hholding : Holding Pc.claim held' (c.set t s' l'))
    (hledger : Ledger s' held')
    (hboard : Board s'.capacity (s'.maps s'.kmap) (wanted s' held'))
    (hknown : Known s' held' l') (hrely : Rely c.shared held s' held') :
    Inv held' (c.set t s' l') where
  holding := hholding
  ledger := hledger
  board _ := hboard
  known := (Config.forall_set c t s' l').2
    ⟨hknown, fun u _ => (h.known u).mono hrely (hs.views.view u)⟩
  progress := by
    refine (Config.forall_set c t s' l').2 ⟨.of_not_migrating hout, fun u _ => ?_⟩
    exact .of_not_migrating fun hu => hs.gate.quiet u t hu (hl ▸ hin)

omit [DecidableEq ι] in
/-- While nobody is inside, nobody has a position in hand. -/
theorem held_of_outside (h : Inv held c) (hout : ∀ t, ¬ (c.pc t).inside) (p : Nat) :
    held p = none := by
  rcases hp : held p with _ | x
  · rfl
  · rcases h.holding.held_iff.1 hp with ⟨t, ht⟩
    exact absurd (Pc.inside_of_claim ht) (hout t)

omit [DecidableEq ι] in
theorem wanted_of_outside (h : Inv held c) (hout : ∀ t, ¬ (c.pc t).inside) :
    wanted c.shared held = span c.shared c.shared.tail := by
  funext p
  rw [wanted, h.held_of_outside hout p]
  rfl

/-- A step of the migration. -/
theorem migrate (h : Inv held c) (hs : Sound c) {s' : Shared α} {l l' : Pc α} (hl : c.pc t = l)
    (hmig : l.migrating) (hclaim : l'.claim = none) (hhead : s'.head = c.shared.head)
    (htail : s'.tail = c.shared.tail) (hpush : s'.pushes = c.shared.pushes)
    (hret : s'.returns = c.shared.returns)
    (hboard : ¬ l'.moving → Board s'.capacity (s'.maps s'.kmap) (wanted s' held))
    (hknown : Known s' held l') (hprog : Progress s' l') : Inv held (c.set t s' l') where
  holding := by
    refine h.holding.keep ?_
    rcases hold : (c.pc t).claim with _ | x
    · exact hclaim
    · exact absurd (Pc.inside_of_claim hold) (hs.gate.quiet t t (hl ▸ hmig))
  ledger := h.ledger.congr hhead htail hpush hret
  board hnone := hboard (by simpa using hnone t)
  known := (Config.forall_set c t s' l').2
    ⟨hknown, fun u _ => .of_outside (hs.gate.quiet t u (hl ▸ hmig))⟩
  progress := by
    refine (Config.forall_set c t s' l').2 ⟨hprog, fun u hu => .of_not_migrating fun hmig' => ?_⟩
    exact hu (hs.gate.unique (Pc.resizing_of_migrating hmig')
      (Pc.resizing_of_migrating (hl ▸ hmig)))

end Inv

end AtomicQueue
end Thread
end Chenc
