import Chenc.Lib.Interleaving
import Chenc.Lib.NumberedRing

/-!
# AtomicQueue — the growing queue, one atomic operation at a time

Model of `atomic_queue` (`thread/atomic_queue.hpp`).

* `Shared` is the object with the heap its `kmap_` points into, and two records of its history
  that the code does not keep: the values whose push won a tail position, in the order of the
  positions, and the results of the finished pops with the head positions they won;
* `Pc` is the operation a thread is about to do, with its local variables;
* `step` does that operation: one access to an atomic variable, or one access to the storage of
  a slot.  Memory is sequentially consistent;
* `Moves` lists what a step can be, with the guard it was taken under.

Positions and capacities are natural numbers, for the `u64` of the source while they stay below
`2^63`; there `(i64)(seq - pos) < 0` is `seq < pos`.  Arrays are numbered in the order of their
allocation, and `maps m` gives the slots of array `m`.
-/

namespace Chenc
namespace Thread

/-- `std::bit_ceil`. -/
def bitCeil (x : Nat) : Nat :=
  if x ≤ 1 then 1 else 2 ^ (Nat.log2 (x - 1) + 1)

namespace AtomicQueue

open NumberedRing (Slot)
open Interleaving (Config)

/-- `Node`: `sequence_`, and the object in `data_` if one is constructed there. -/
abbrev Node (α : Type) := Slot α

/-- `status`. -/
inductive Status
  | normal
  | resizing
  deriving DecidableEq

/-- What a thread is called to do. -/
inductive Op (α : Type)
  | push (value : α)
  | pop

structure Shared (α : Type) where
  kmap : Nat
  stat : Status
  head : Nat
  tail : Nat
  capacity : Nat
  active : Nat
  /-- The slots of every array allocated so far. -/
  maps : Nat → Nat → Node α
  nextMap : Nat
  freed : List Nat
  /-- The values pushed, by tail position. -/
  pushes : List α
  /-- The results of the finished pops, with their head positions. -/
  returns : List (Nat × Option α)

/-- `pos & (capa - 1)`. -/
def slotOf (pos capa : Nat) : Nat :=
  pos &&& (capa - 1)

/-- The locals `capa`, `pos` and `map` of `push` and `pop`. -/
structure Window where
  capa : Nat
  pos : Nat
  map : Nat

/-- The index of `node`. -/
def Window.slot (w : Window) : Nat :=
  slotOf w.pos w.capa

/-- The locals of `reset_capa` once the new array is there. -/
structure Growth where
  newCapa : Nat
  oldCapa : Nat
  oldMap : Nat
  newMap : Nat

/-- Why `push` or `pop` leaves the active region. -/
inductive Exit (α : Type)
  | pushed
  | popped (pos : Nat) (res : Option α)
  /-- `pop` returns `std::nullopt`. -/
  | empty
  /-- `push` goes on to grow from capacity `capa`. -/
  | full (value : α) (capa : Nat)
  /-- The reservation failed, or the slot is not ready. -/
  | retry (op : Op α)

/-- The next operation of a thread. -/
inductive Pc (α : Type)
  | idle
  | loadStat (op : Op α)
  | waitStat (op : Op α)
  | enter (op : Op α)
  | recheck (op : Op α)
  | backOff (op : Op α)
  | loadCapa (op : Op α)
  | loadPos (op : Op α) (capa : Nat)
  | loadMap (op : Op α) (capa pos : Nat)
  | loadSeq (op : Op α) (w : Window)
  | reserve (op : Op α) (w : Window)
  | construct (value : α) (w : Window)
  | publish (w : Window)
  | moveOut (w : Window)
  | destroy (w : Window) (res : Option α)
  | release (w : Window) (res : Option α)
  | leave (e : Exit α)
  -- `reset_capa`, on behalf of a push of `value`
  | closeGate (value : α) (newCapacity : Nat)
  | quiesce (value : α) (newCapacity : Nat)
  | oldCapa (value : α) (newCapacity : Nat)
  | oldMap (value : α) (newCapacity oldCapa : Nat)
  | alloc (value : α) (newCapacity oldCapa oldMap : Nat)
  | initSeq (value : α) (g : Growth) (i : Nat)
  | loadHead (value : α) (g : Growth)
  | loadTail (value : α) (g : Growth) (h : Nat)
  | transfer (value : α) (g : Growth) (i t : Nat)
  | destroyOld (value : α) (g : Growth) (i t : Nat)
  | mark (value : α) (g : Growth) (i t : Nat)
  | storeMap (value : α) (g : Growth)
  | storeCapa (value : α) (g : Growth)
  | deleteOld (value : α) (g : Growth)
  | openGate (value : α) (g : Growth)

variable {α : Type}

namespace Shared

/-- Slot `i` of array `m` becomes `x`. -/
def setNode (s : Shared α) (m i : Nat) (x : Node α) : Shared α :=
  { s with maps := Function.update s.maps m (Function.update (s.maps m) i x) }

theorem setNode_maps_self (s : Shared α) (m i : Nat) (x : Node α) :
    (s.setNode m i x).maps m = Function.update (s.maps m) i x :=
  Function.update_self ..

theorem setNode_maps_of_ne (s : Shared α) {m m' : Nat} (h : m' ≠ m) (i : Nat) (x : Node α) :
    (s.setNode m i x).maps m' = s.maps m' :=
  Function.update_of_ne h ..

/-- `*node`. -/
def node (s : Shared α) (w : Window) : Node α :=
  s.maps w.map w.slot

/-- Constructing or destroying the object in `node->data_`. -/
def setData (s : Shared α) (w : Window) (data : Option α) : Shared α :=
  s.setNode w.map w.slot { s.node w with data }

/-- `node->sequence_.store`. -/
def setSequence (s : Shared α) (w : Window) (sequence : Nat) : Shared α :=
  s.setNode w.map w.slot { s.node w with sequence }

/-- The position counter of an operation: `tail_pos_` for `push`, `head_pos_` for `pop`. -/
def pos (s : Shared α) : Op α → Nat
  | .push _ => s.tail
  | .pop => s.head

/-- `new Node[..]`: sequence numbers zero, nothing constructed. -/
def allocate (s : Shared α) : Shared α :=
  { s with maps := Function.update s.maps s.nextMap fun _ => ⟨0, none⟩, nextMap := s.nextMap + 1 }

theorem allocate_maps_new (s : Shared α) (i : Nat) :
    s.allocate.maps s.nextMap i = ⟨0, none⟩ := by
  simp [allocate]

theorem allocate_maps_of_ne (s : Shared α) {m : Nat} (h : m ≠ s.nextMap) :
    s.allocate.maps m = s.maps m :=
  Function.update_of_ne h ..

/-- The history after leaving with `e`. -/
def record (s : Shared α) : Exit α → Shared α
  | .popped pos res => { s with returns := s.returns ++ [(pos, res)] }
  | _ => s

end Shared

/-- What the sequence number of the slot tells the operation. -/
def judge (w : Window) (seq : Nat) : Op α → Pc α
  | .push value =>
      -- A number below the position is taken to mean that the ring is full.
      if seq = w.pos then .reserve (.push value) w
      else if seq < w.pos then .leave (.full value w.capa)
      else .leave (.retry (.push value))
  | .pop =>
      -- A number below `pos + 1`: the position has not been published.
      if seq = w.pos + 1 then .reserve .pop w
      else if seq < w.pos + 1 then .leave .empty
      else .leave (.retry .pop)

/-- Where a thread goes after the last decrement of `active_threads_`. -/
def Exit.next : Exit α → Pc α
  | .pushed => .idle
  | .popped _ _ => .idle
  | .empty => .idle
  | .full value capa => .closeGate value (capa * 2)
  | .retry op => .loadStat op

/-- The next operation of a thread; `none` while it has to wait. -/
def advance (s : Shared α) : Pc α → Option (Shared α × Pc α)
  | .idle => none
  -- Entering the active region, with the second look at `stat_`.
  | .loadStat op => some (s, if s.stat = .resizing then .waitStat op else .enter op)
  | .waitStat op => if s.stat = .resizing then none else some (s, .loadStat op)
  | .enter op => some ({ s with active := s.active + 1 }, .recheck op)
  | .recheck op => some (s, if s.stat = .resizing then .backOff op else .loadCapa op)
  | .backOff op => some ({ s with active := s.active - 1 }, .loadStat op)
  -- Three loads that others may come between, then the test of the slot.
  | .loadCapa op => some (s, .loadPos op s.capacity)
  | .loadPos op capa => some (s, .loadMap op capa (s.pos op))
  | .loadMap op capa pos => some (s, .loadSeq op ⟨capa, pos, s.kmap⟩)
  | .loadSeq op w => some (s, judge w (s.node w).sequence op)
  -- The CAS on the position counter.
  | .reserve (.push value) w =>
      if s.tail = w.pos then
        some ({ s with tail := w.pos + 1, pushes := s.pushes ++ [value] }, .construct value w)
      else some (s, .leave (.retry (.push value)))
  | .reserve .pop w =>
      if s.head = w.pos then some ({ s with head := w.pos + 1 }, .moveOut w)
      else some (s, .leave (.retry .pop))
  -- The winner has the slot to itself until it stores the new sequence number.
  | .construct value w => some (s.setData w (some value), .publish w)
  | .publish w => some (s.setSequence w (w.pos + 1), .leave .pushed)
  | .moveOut w => some (s, .destroy w (s.node w).data)
  | .destroy w res => some (s.setData w none, .release w res)
  | .release w res => some (s.setSequence w (w.pos + w.capa), .leave (.popped w.pos res))
  | .leave e => some ({ s.record e with active := s.active - 1 }, e.next)
  -- `reset_capa`, for a capacity that the caller has computed beforehand.
  | .closeGate value n =>
      if s.stat = .normal then some ({ s with stat := .resizing }, .quiesce value n)
      else some (s, .loadStat (.push value))
  | .quiesce value n => some (s, if 0 < s.active then .quiesce value n else .oldCapa value n)
  | .oldCapa value n => some (s, .oldMap value n s.capacity)
  | .oldMap value n oldCapa => some (s, .alloc value n oldCapa s.kmap)
  | .alloc value n oldCapa oldMap =>
      some (s.allocate, .initSeq value ⟨bitCeil n, oldCapa, oldMap, s.nextMap⟩ 0)
  | .initSeq value g i =>
      if i < g.newCapa then
        some (s.setNode g.newMap i { s.maps g.newMap i with sequence := i },
          .initSeq value g (i + 1))
      else some (s, .loadHead value g)
  | .loadHead value g => some (s, .loadTail value g s.head)
  | .loadTail value g h => some (s, .transfer value g h s.tail)
  -- One pass of the loop that moves the values: construct, destroy, mark.
  | .transfer value g i t =>
      if i < t then
        some (s.setData ⟨g.newCapa, i, g.newMap⟩ (s.node ⟨g.oldCapa, i, g.oldMap⟩).data,
          .destroyOld value g i t)
      else some (s, .storeMap value g)
  | .destroyOld value g i t =>
      some (s.setData ⟨g.oldCapa, i, g.oldMap⟩ none, .mark value g i t)
  | .mark value g i t =>
      some (s.setSequence ⟨g.newCapa, i, g.newMap⟩ (i + 1), .transfer value g (i + 1) t)
  -- The new array becomes the array of the queue.
  | .storeMap value g => some ({ s with kmap := g.newMap }, .storeCapa value g)
  | .storeCapa value g => some ({ s with capacity := g.newCapa }, .deleteOld value g)
  | .deleteOld value g => some ({ s with freed := g.oldMap :: s.freed }, .openGate value g)
  | .openGate value _ => some ({ s with stat := .normal }, .loadStat (.push value))

/-- What a thread does not decide itself. -/
inductive Act (α : Type)
  /-- The next operation. -/
  | go
  /-- `compare_exchange_weak` fails without a reason. -/
  | spurious
  /-- The caller starts `push` or `pop`. -/
  | begin (op : Op α)

def step (s : Shared α) (l : Pc α) : Act α → Option (Shared α × Pc α)
  | .go => advance s l
  | .spurious =>
      match l with
      | .reserve op _ => some (s, .leave (.retry op))
      | _ => none
  | .begin op =>
      match l with
      | .idle => some (s, .loadStat op)
      | _ => none

/-- `atomic_queue(initial_capa)`. -/
def create (initial : Nat) : Shared α where
  kmap := 0
  stat := .normal
  head := 0
  tail := 0
  capacity := bitCeil initial
  active := 0
  maps _ i := ⟨if i < bitCeil initial then i else 0, none⟩
  nextMap := 1
  freed := []
  pushes := []
  returns := []

/-- The new queue, before any thread has called an operation. -/
def start (ι : Type) (initial : Nat) : Config ι (Shared α) (Pc α) :=
  ⟨create initial, fun _ => .idle⟩

/-! ## The cases of a step -/

/-- One constructor for each way a thread can go on. -/
inductive Moves (s : Shared α) : Pc α → Shared α → Pc α → Prop
  | call (op : Op α) : Moves s .idle s (.loadStat op)
  | wait (op : Op α) : s.stat = .resizing → Moves s (.loadStat op) s (.waitStat op)
  | pass (op : Op α) : s.stat = .normal → Moves s (.loadStat op) s (.enter op)
  | woken (op : Op α) : s.stat = .normal → Moves s (.waitStat op) s (.loadStat op)
  | enter (op : Op α) : Moves s (.enter op) { s with active := s.active + 1 } (.recheck op)
  | refused (op : Op α) : s.stat = .resizing → Moves s (.recheck op) s (.backOff op)
  | admitted (op : Op α) : s.stat = .normal → Moves s (.recheck op) s (.loadCapa op)
  | backOff (op : Op α) : Moves s (.backOff op) { s with active := s.active - 1 } (.loadStat op)
  | loadCapa (op : Op α) : Moves s (.loadCapa op) s (.loadPos op s.capacity)
  | loadPos (op : Op α) (capa : Nat) : Moves s (.loadPos op capa) s (.loadMap op capa (s.pos op))
  | loadMap (op : Op α) (capa pos : Nat) :
      Moves s (.loadMap op capa pos) s (.loadSeq op ⟨capa, pos, s.kmap⟩)
  | readyPush (v : α) (w : Window) : (s.node w).sequence = w.pos →
      Moves s (.loadSeq (.push v) w) s (.reserve (.push v) w)
  | full (v : α) (w : Window) : (s.node w).sequence < w.pos →
      Moves s (.loadSeq (.push v) w) s (.leave (.full v w.capa))
  | readyPop (w : Window) : (s.node w).sequence = w.pos + 1 →
      Moves s (.loadSeq .pop w) s (.reserve .pop w)
  | empty (w : Window) : (s.node w).sequence < w.pos + 1 →
      Moves s (.loadSeq .pop w) s (.leave .empty)
  | notReady (op : Op α) (w : Window) : Moves s (.loadSeq op w) s (.leave (.retry op))
  | reserveTail (v : α) (w : Window) : s.tail = w.pos →
      Moves s (.reserve (.push v) w) { s with tail := w.pos + 1, pushes := s.pushes ++ [v] }
        (.construct v w)
  | reserveHead (w : Window) : s.head = w.pos →
      Moves s (.reserve .pop w) { s with head := w.pos + 1 } (.moveOut w)
  | reserveFailed (op : Op α) (w : Window) : Moves s (.reserve op w) s (.leave (.retry op))
  | construct (v : α) (w : Window) : Moves s (.construct v w) (s.setData w (some v)) (.publish w)
  | publish (w : Window) :
      Moves s (.publish w) (s.setSequence w (w.pos + 1)) (.leave .pushed)
  | moveOut (w : Window) : Moves s (.moveOut w) s (.destroy w (s.node w).data)
  | destroy (w : Window) (res : Option α) :
      Moves s (.destroy w res) (s.setData w none) (.release w res)
  | release (w : Window) (res : Option α) :
      Moves s (.release w res) (s.setSequence w (w.pos + w.capa)) (.leave (.popped w.pos res))
  | leave (e : Exit α) : Moves s (.leave e) { s.record e with active := s.active - 1 } e.next
  | closeGate (v : α) (n : Nat) : s.stat = .normal →
      Moves s (.closeGate v n) { s with stat := .resizing } (.quiesce v n)
  | closeFailed (v : α) (n : Nat) : Moves s (.closeGate v n) s (.loadStat (.push v))
  | stillActive (v : α) (n : Nat) : Moves s (.quiesce v n) s (.quiesce v n)
  | quiet (v : α) (n : Nat) : s.active = 0 → Moves s (.quiesce v n) s (.oldCapa v n)
  | oldCapa (v : α) (n : Nat) : Moves s (.oldCapa v n) s (.oldMap v n s.capacity)
  | oldMap (v : α) (n oc : Nat) : Moves s (.oldMap v n oc) s (.alloc v n oc s.kmap)
  | alloc (v : α) (n oc om : Nat) :
      Moves s (.alloc v n oc om) s.allocate (.initSeq v ⟨bitCeil n, oc, om, s.nextMap⟩ 0)
  | initSeq (v : α) (g : Growth) (i : Nat) : i < g.newCapa →
      Moves s (.initSeq v g i) (s.setNode g.newMap i { s.maps g.newMap i with sequence := i })
        (.initSeq v g (i + 1))
  | initDone (v : α) (g : Growth) (i : Nat) : g.newCapa ≤ i →
      Moves s (.initSeq v g i) s (.loadHead v g)
  | loadHead (v : α) (g : Growth) : Moves s (.loadHead v g) s (.loadTail v g s.head)
  | loadTail (v : α) (g : Growth) (h : Nat) :
      Moves s (.loadTail v g h) s (.transfer v g h s.tail)
  | transfer (v : α) (g : Growth) (i t : Nat) : i < t →
      Moves s (.transfer v g i t)
        (s.setData ⟨g.newCapa, i, g.newMap⟩ (s.node ⟨g.oldCapa, i, g.oldMap⟩).data)
        (.destroyOld v g i t)
  | transferDone (v : α) (g : Growth) (i t : Nat) : t ≤ i →
      Moves s (.transfer v g i t) s (.storeMap v g)
  | destroyOld (v : α) (g : Growth) (i t : Nat) :
      Moves s (.destroyOld v g i t) (s.setData ⟨g.oldCapa, i, g.oldMap⟩ none) (.mark v g i t)
  | mark (v : α) (g : Growth) (i t : Nat) :
      Moves s (.mark v g i t) (s.setSequence ⟨g.newCapa, i, g.newMap⟩ (i + 1))
        (.transfer v g (i + 1) t)
  | storeMap (v : α) (g : Growth) :
      Moves s (.storeMap v g) { s with kmap := g.newMap } (.storeCapa v g)
  | storeCapa (v : α) (g : Growth) :
      Moves s (.storeCapa v g) { s with capacity := g.newCapa } (.deleteOld v g)
  | deleteOld (v : α) (g : Growth) :
      Moves s (.deleteOld v g) { s with freed := g.oldMap :: s.freed } (.openGate v g)
  | openGate (v : α) (g : Growth) :
      Moves s (.openGate v g) { s with stat := .normal } (.loadStat (.push v))

theorem Status.normal_of_ne {x : Status} (h : x ≠ .resizing) : x = .normal := by
  cases x
  · rfl
  · exact absurd rfl h

theorem Moves.judge (s : Shared α) (w : Window) (op : Op α) :
    Moves s (.loadSeq op w) s (AtomicQueue.judge w (s.node w).sequence op) := by
  cases op with
  | push v =>
      simp only [AtomicQueue.judge]
      split_ifs with heq hlt
      · exact .readyPush v w heq
      · exact .full v w hlt
      · exact .notReady (.push v) w
  | pop =>
      simp only [AtomicQueue.judge]
      split_ifs with heq hlt
      · exact .readyPop w heq
      · exact .empty w hlt
      · exact .notReady .pop w

theorem Moves.of_advance {s s' : Shared α} {l l' : Pc α} (h : advance s l = some (s', l')) :
    Moves s l s' l' := by
  cases l with
  | idle => cases h
  | loadStat op =>
      cases h
      split_ifs with hstat
      · exact .wait op hstat
      · exact .pass op (Status.normal_of_ne hstat)
  | waitStat op =>
      simp only [advance] at h
      split_ifs at h with hstat
      cases h
      exact .woken op (Status.normal_of_ne hstat)
  | recheck op =>
      cases h
      split_ifs with hstat
      · exact .refused op hstat
      · exact .admitted op (Status.normal_of_ne hstat)
  | loadSeq op w =>
      cases h
      exact .judge s w op
  | reserve op w =>
      cases op with
      | push v =>
          simp only [advance] at h
          split_ifs at h with hcas <;> cases h
          · exact .reserveTail v w hcas
          · exact .reserveFailed (.push v) w
      | pop =>
          simp only [advance] at h
          split_ifs at h with hcas <;> cases h
          · exact .reserveHead w hcas
          · exact .reserveFailed .pop w
  | closeGate v n =>
      simp only [advance] at h
      split_ifs at h with hcas <;> cases h
      · exact .closeGate v n hcas
      · exact .closeFailed v n
  | quiesce v n =>
      cases h
      split_ifs with hactive
      · exact .stillActive v n
      · exact .quiet v n (by omega)
  | initSeq v g i =>
      simp only [advance] at h
      split_ifs at h with hi <;> cases h
      · exact .initSeq v g i hi
      · exact .initDone v g i (by omega)
  | transfer v g i t =>
      simp only [advance] at h
      split_ifs at h with hi <;> cases h
      · exact .transfer v g i t hi
      · exact .transferDone v g i t (by omega)
  | _ =>
      cases h
      constructor

/-- What a step can be. -/
theorem Moves.of_step {s s' : Shared α} {l l' : Pc α} {a : Act α}
    (h : step s l a = some (s', l')) : Moves s l s' l' := by
  cases a with
  | go => exact .of_advance h
  | spurious =>
      cases l <;> simp only [step, reduceCtorEq] at h
      cases h
      exact .reserveFailed _ _
  | begin op =>
      cases l <;> simp only [step, reduceCtorEq] at h
      cases h
      exact .call op

end AtomicQueue
end Thread
end Chenc
