import Chenc.Thread.QueueGrowth

/-!
# QueueFifo — the queue of one thread is a list

* `Op.apply`, `Op.Answer` : what an operation does to a FIFO list, and what it returns;
* `Behaves` : every operation of a single thread returns, with the answer of the list, and `size`
  is its length all along;
* `Rest` : the queue between two operations, on a ring of at least two slots;
* `Single` : the same on a ring of one slot, where the number for a filled slot is also the number
  of the next free one;
* `behaves_iff`, `one_slot_overwrites` : the queue behaves as the list exactly when the ring has
  two slots, or no pop is called while two values are stored.
-/

namespace Chenc
namespace Thread
namespace AtomicQueue

open StateTransition (Reaches)
open NumberedRing (Board)

variable {α : Type} {s s' : Shared α} {xs : List α} {v : α} {n : Nat}

/-! ## The list -/

def Op.apply : Op α → List α → List α
  | .push v, xs => xs ++ [v]
  | .pop, xs => xs.tail

def Op.Answer : Op α → List α → Exit α → Prop
  | .push _, _, e => e = .pushed
  | .pop, [], e => e = .empty
  | .pop, v :: _, e => ∃ pos, e = .popped pos (some v)

/-- The operations of a single thread, each with the number of times `compare_exchange_weak` fails
in it without a reason, are answered one after another as the list `xs` answers them. -/
def Behaves : Shared α → List α → List (Op α × Nat) → Prop
  | s, xs, [] => s.size = xs.length
  | s, xs, (op, fails) :: rest =>
      s.size = xs.length ∧
        ∃ s' e, Returns fails s op s' e ∧ op.Answer xs e ∧ Behaves s' (op.apply xs) rest

/-- A call returns in one way only, so it is enough to know one. -/
theorem behaves_cons {op : Op α} {e : Exit α} {rest : List (Op α × Nat)}
    (hsize : s.size = xs.length) (hret : Returns n s op s' e) (hanswer : op.Answer xs e) :
    Behaves s xs ((op, n) :: rest) ↔ Behaves s' (op.apply xs) rest := by
  constructor
  · rintro ⟨-, s₁, e₁, hret₁, -, hrest⟩
    rcases hret.unique hret₁ with ⟨rfl, rfl⟩
    exact hrest
  · intro hrest
    exact ⟨hsize, s', e, hret, hanswer, hrest⟩

/-- No pop is called while two values are stored. -/
def Shallow : List α → List (Op α × Nat) → Prop
  | _, [] => True
  | xs, (.push v, _) :: rest => Shallow (xs ++ [v]) rest
  | xs, (.pop, _) :: rest => xs.length ≤ 1 ∧ Shallow xs.tail rest

/-- The history and the counters, between two operations. -/
structure Stored (s : Shared α) (xs : List α) : Prop where
  length : s.pushes.length = s.tail
  head_le : s.head ≤ s.tail
  contents : s.pushes.drop s.head = xs

namespace Stored

theorem length_eq (h : Stored s xs) : xs.length = s.tail - s.head := by
  rw [← h.contents, List.length_drop, h.length]

theorem size (h : Stored s xs) : s.size = xs.length := by
  rw [h.length_eq, Shared.size]
  split_ifs with hlt
  · rfl
  · omega

theorem push (h : Stored s xs) (v : α) : Stored (s.pushed v) (xs ++ [v]) where
  length := by
    show (s.pushes ++ [v]).length = s.tail + 1
    rw [List.length_append, h.length]
    rfl
  head_le := Nat.le_succ_of_le h.head_le
  contents := by
    have hle : s.head ≤ s.pushes.length := h.length ▸ h.head_le
    show (s.pushes ++ [v]).drop s.head = xs ++ [v]
    rw [List.drop_append_of_le_length hle, h.contents]

theorem head_lt (h : Stored s (v :: xs)) : s.head < s.tail := by
  have hlen := h.length_eq
  rw [List.length_cons] at hlen
  omega

theorem first (h : Stored s (v :: xs)) : s.pushes[s.head]? = some v := by
  rw [← List.head?_drop, h.contents, List.head?_cons]

theorem pop (h : Stored s (v :: xs)) (res : Option α) : Stored (s.popped res) xs where
  length := h.length
  head_le := h.head_lt
  contents := by
    show s.pushes.drop (s.head + 1) = xs
    rw [← List.tail_drop, h.contents, List.tail_cons]

end Stored

/-! ## At least two slots -/

/-- The queue between two operations of a single thread. -/
structure Rest (s : Shared α) (xs : List α) : Prop where
  stat : s.stat = .normal
  active : s.active = 0
  stored : Stored s xs
  size : RingSize s.capacity
  map : s.kmap < s.nextMap
  board : Board s.capacity (s.maps s.kmap) (span s s.tail)
  /-- No slot is numbered for a position more than a lap ahead. -/
  low {i : Nat} : i < s.capacity → (s.maps s.kmap i).sequence < s.tail + s.capacity

theorem span_pushed (hlen : s.pushes.length = s.tail) (hhead : s.head ≤ s.tail) (v : α) :
    span (s.pushed v) (s.tail + 1) =
      Function.update (span s s.tail) s.tail (some ⟨s.tail + 1, some v⟩) := by
  have hlast : (s.pushes ++ [v])[s.tail]? = some v := by
    rw [← hlen, List.getElem?_concat_length]
  have hbefore : span (s.pushed v) s.tail = span s s.tail := by
    funext p
    by_cases hp : s.head ≤ p ∧ p < s.tail
    · have hget : (s.pushes ++ [v])[p]? = s.pushes[p]? :=
        List.getElem?_append_left (hlen ▸ hp.2)
      calc
        span (s.pushed v) s.tail p = some ⟨p + 1, (s.pushes ++ [v])[p]?⟩ := if_pos hp
        _ = some ⟨p + 1, s.pushes[p]?⟩ := by rw [hget]
        _ = span s s.tail p := (if_pos hp).symm
    · exact (if_neg hp).trans (if_neg hp).symm
  have hsucc : span (s.pushed v) (s.tail + 1) = Function.update (span (s.pushed v) s.tail) s.tail
      (some ⟨s.tail + 1, (s.pushes ++ [v])[s.tail]?⟩) := span_succ hhead
  rw [hsucc, hbefore, hlast]

theorem span_popped (s : Shared α) (res : Option α) :
    span (s.popped res) s.tail = Function.update (span s s.tail) s.head none := by
  funext p
  by_cases hp : p = s.head
  · subst hp
    rw [Function.update_self]
    exact if_neg fun h => absurd h.1 (Nat.not_succ_le_self _)
  · have hrange : (s.head + 1 ≤ p ∧ p < s.tail) ↔ (s.head ≤ p ∧ p < s.tail) := by omega
    rw [Function.update_of_ne hp]
    exact if_congr hrange rfl rfl

namespace Rest

theorem node_eq (h : Rest s xs) (op : Op α) :
    s.node (s.window op) = s.maps s.kmap (s.pos op % s.capacity) :=
  AtomicQueue.node_eq ⟨rfl, rfl⟩ h.size

theorem mod_lt (h : Rest s xs) (p : Nat) : p % s.capacity < s.capacity :=
  h.board.mod_lt p

/-- What the slot of the next push says: it is free, or it is still numbered for an earlier
position. -/
theorem sequence_le (h : Rest s xs) : (s.maps s.kmap (s.tail % s.capacity)).sequence ≤ s.tail := by
  by_cases hfree : ∀ q y, span s s.tail q = some y → q % s.capacity ≠ s.tail % s.capacity
  · -- A free slot is numbered for a position of its own, and not for one a lap ahead.
    have hmod := (h.board.vacant (h.mod_lt s.tail) hfree).2
    have hlow := h.low (h.mod_lt s.tail)
    by_contra hgt
    exact NumberedRing.mod_ne_of_lt (not_le.1 hgt) hlow hmod.symm
  · -- A slot in use is numbered behind its position, which is below the tail.
    push Not at hfree
    rcases hfree with ⟨q, y, hq, hslot⟩
    have hlt := (span_eq_some hq).2
    rw [← hslot, h.board.holds hq]
    rw [span, if_pos (span_eq_some hq)] at hq
    cases hq
    exact hlt

/-- The ring is full only if the positions have gone round it once. -/
theorem capacity_le (h : Rest s xs)
    (hseq : (s.maps s.kmap (s.tail % s.capacity)).sequence < s.tail) : s.capacity ≤ s.tail := by
  -- In the first lap the slot of the tail is free and numbered for it.
  by_contra hlt
  rw [not_le] at hlt
  have hself : s.tail % s.capacity = s.tail := Nat.mod_eq_of_lt hlt
  have hmod := (h.board.vacant (h.mod_lt s.tail) fun q y hq => ?_).2
  · rw [hself] at hmod hseq
    rw [Nat.mod_eq_of_lt (hseq.trans hlt)] at hmod
    exact hseq.ne hmod
  · have hq' := (span_eq_some hq).2
    rw [hself, Nat.mod_eq_of_lt (hq'.trans hlt)]
    exact hq'.ne

/-- The values stored have a slot each. -/
theorem fits (h : Rest s xs) : s.tail - s.head ≤ s.capacity := by
  -- Otherwise the position of the head and the one a lap further would share a slot.
  by_contra hlt
  have hwant : ∀ p, s.head ≤ p → p < s.tail → span s s.tail p = some ⟨p + 1, s.pushes[p]?⟩ :=
    fun p hp hpt => if_pos ⟨hp, hpt⟩
  have hlap := h.board.inj (hwant s.head le_rfl (by omega))
    (hwant (s.head + s.capacity) (by omega) (by omega)) (Nat.add_mod_right ..).symm
  have := h.size.two_le
  omega

theorem pushed (h : Rest s xs) (v : α)
    (hseq : (s.maps s.kmap (s.tail % s.capacity)).sequence = s.tail) :
    Rest (s.pushed v) (xs ++ [v]) := by
  have hnone : span s s.tail s.tail = none := if_neg fun hp => lt_irrefl _ hp.2
  have hmaps : (s.pushed v).maps s.kmap = Function.update (s.maps s.kmap) (s.tail % s.capacity)
      ⟨s.tail + 1, some v⟩ := by
    rw [Shared.pushed, Shared.setNode_maps_self, slotOf_eq_mod h.size]
  constructor
  · exact h.stat
  · exact h.active
  · exact h.stored.push v
  · exact h.size
  · exact h.map
  · show Board s.capacity ((s.pushed v).maps s.kmap) (span (s.pushed v) (s.tail + 1))
    rw [hmaps, span_pushed h.stored.length h.stored.head_le]
    exact h.board.put (fun q y hq _ => h.board.free_of_sequence hnone hseq hq) (.inr rfl)
  · intro i hi
    show ((s.pushed v).maps s.kmap i).sequence < s.tail + 1 + s.capacity
    rw [hmaps]
    by_cases hslot : i = s.tail % s.capacity
    · subst hslot
      rw [Function.update_self]
      exact Nat.lt_add_of_pos_right (Nat.zero_lt_of_lt hi)
    · rw [Function.update_of_ne hslot, Nat.add_right_comm]
      exact Nat.lt_succ_of_lt (h.low hi)

theorem popped (h : Rest s (v :: xs)) (res : Option α) : Rest (s.popped res) xs := by
  have hlt := h.stored.head_lt
  have hwant : span s s.tail s.head = some ⟨s.head + 1, s.pushes[s.head]?⟩ :=
    if_pos ⟨le_rfl, hlt⟩
  have hmaps : (s.popped res).maps s.kmap = Function.update (s.maps s.kmap)
      (s.head % s.capacity) ⟨s.head + s.capacity, none⟩ := by
    rw [Shared.popped, Shared.setNode_maps_self, slotOf_eq_mod h.size]
  constructor
  · exact h.stat
  · exact h.active
  · exact h.stored.pop res
  · exact h.size
  · exact h.map
  · show Board s.capacity ((s.popped res).maps s.kmap) (span (s.popped res) s.tail)
    rw [hmaps, span_popped]
    exact h.board.release hwant
  · intro i hi
    show ((s.popped res).maps s.kmap i).sequence < s.tail + s.capacity
    rw [hmaps]
    by_cases hslot : i = s.head % s.capacity
    · subst hslot
      rw [Function.update_self]
      exact Nat.add_lt_add_right hlt s.capacity
    · rw [Function.update_of_ne hslot]
      exact h.low hi

/-- The slots of the values stored. -/
theorem slots (h : Rest s xs) {p : Nat} (hp : s.head ≤ p) (hpt : p < s.tail) :
    s.maps s.kmap (slotOf p s.capacity) = ⟨p + 1, s.pushes[p]?⟩ := by
  rw [slotOf_eq_mod h.size]
  exact h.board.holds (if_pos ⟨hp, hpt⟩)

/-- A push that finds the ring full makes its next attempt on a ring of at least twice the size. -/
theorem grown {P : Alone α → Prop} (h : Rest s xs) (v : α) (n : Nat)
    (hP : ∀ a, Alone.Calm s.capacity a → P a)
    (hP' : ∀ a, Alone.Calm (bitCeil (s.capacity * 2)) a → P a)
    (hclose : P ⟨n, s, .closeGate v (s.capacity * 2)⟩)
    (hseq : (s.node (s.window (.push v))).sequence < s.tail) :
    ∃ m moved, Goes P ⟨n, s, .loadStat (.push v)⟩ moved
        ⟨n, s.grown (s.capacity * 2) m, .loadStat (.push v)⟩ ∧
      Rest (s.grown (s.capacity * 2) m) xs ∧
      Relaid (fun p => s.pushes[p]?) s.head s.tail (bitCeil (s.capacity * 2)) (m s.nextMap) := by
  have htwo : 2 ≤ s.capacity * 2 := by
    have := h.size.two_le
    omega
  have hsize := ringSize_bitCeil htwo
  have hfits : s.tail - s.head ≤ bitCeil (s.capacity * 2) :=
    (h.fits.trans (Nat.le_mul_of_pos_right _ (by decide))).trans (le_bitCeil _)
  rcases goes_grown (v := v) hP hP' hclose h.stat h.active h.map h.stored.head_le htwo hfits
    fun p => h.slots with ⟨m, hgoes, hrelaid⟩
  refine ⟨m, _, goes_full hP h.stat hseq hgoes, ?_, hrelaid⟩
  constructor
  · rfl
  · exact h.active
  · exact ⟨h.stored.length, h.stored.head_le, h.stored.contents⟩
  · exact hsize
  · exact Nat.lt_succ_self _
  · exact hrelaid.board hsize.two_le
  · intro i hi
    exact hrelaid.low hi

/-- A push returns, and adds its value at the end. -/
theorem push (h : Rest s xs) (v : α) (n : Nat) :
    ∃ s', Finishes (fun _ => True) n s (.push v) s' .pushed ∧ Rest s' (xs ++ [v]) := by
  -- The ring grows until it has more slots than positions have been used.
  induction hmeasure : s.tail + 1 - s.capacity using Nat.strong_induction_on generalizing s with
  | _ k ih =>
      have hnode := h.node_eq (.push v)
      rcases h.sequence_le.lt_or_eq with hlt | heq
      · -- The ring is full: the next attempt finds it at least twice as large.
        have hcapa := h.capacity_le hlt
        rcases h.grown (P := fun _ => True) v n (fun _ _ => trivial) (fun _ _ => trivial) trivial
          (hnode ▸ hlt) with ⟨m, moved, hgoes, hrest, -⟩
        have hless : (s.grown (s.capacity * 2) m).tail + 1 -
            (s.grown (s.capacity * 2) m).capacity < k := by
          have htwo := h.size.two_le
          have hdouble := le_bitCeil (s.capacity * 2)
          show s.tail + 1 - bitCeil (s.capacity * 2) < k
          omega
        rcases ih _ hless hrest rfl with ⟨s', hfin, hrest'⟩
        exact ⟨s', hfin.of_goes hgoes, hrest'⟩
      · exact ⟨s.pushed v, finishes_push (fun _ _ => trivial) h.stat (hnode ▸ heq),
          h.pushed v heq⟩

/-- A pop of a list that is not empty returns its first value. -/
theorem pop {P : Alone α → Prop} (h : Rest s (v :: xs)) (n : Nat)
    (hP : ∀ a, Alone.Calm s.capacity a → P a) :
    Finishes P n s .pop (s.popped (some v)) (.popped s.head (some v)) ∧
      Rest (s.popped (some v)) xs := by
  have hwant : span s s.tail s.head = some ⟨s.head + 1, s.pushes[s.head]?⟩ :=
    if_pos ⟨le_rfl, h.stored.head_lt⟩
  have hnode : s.node (s.window .pop) = ⟨s.head + 1, some v⟩ := by
    rw [h.node_eq, ← h.stored.first]
    exact h.board.holds hwant
  have hfin := finishes_pop (n := n) hP h.stat (by rw [hnode])
  rw [hnode] at hfin
  exact ⟨hfin, h.popped (some v)⟩

/-- A pop of the empty list returns nothing. -/
theorem pop_nil {P : Alone α → Prop} (h : Rest s ([] : List α)) (n : Nat)
    (hP : ∀ a, Alone.Calm s.capacity a → P a) : Finishes P n s .pop s .empty := by
  have hlen := h.stored.length_eq
  rw [List.length_nil] at hlen
  have hhead : s.head = s.tail := le_antisymm h.stored.head_le (by omega)
  refine finishes_empty hP h.stat ?_
  rw [h.node_eq]
  show (s.maps s.kmap (s.head % s.capacity)).sequence < s.head + 1
  rw [hhead]
  exact Nat.lt_succ_of_le h.sequence_le

theorem create {initial : Nat} (hi : 2 ≤ initial) : Rest (create initial : Shared α) [] := by
  have hsize := ringSize_bitCeil hi
  constructor
  · rfl
  · rfl
  · exact ⟨rfl, le_rfl, rfl⟩
  · exact hsize
  · exact Nat.one_pos
  · have hspan : span (AtomicQueue.create initial : Shared α) 0 = fun _ => none := span_head _
    show Board (bitCeil initial) _ (span (AtomicQueue.create initial) 0)
    rw [hspan]
    refine Board.fresh hsize.two_le fun i hlt => ?_
    show (⟨if i < bitCeil initial then i else 0, none⟩ : Node α) = _
    rw [if_pos hlt]
  · intro i hlt
    show (if i < bitCeil initial then i else 0) < 0 + bitCeil initial
    have hlt' : i < bitCeil initial := hlt
    rw [if_pos hlt', Nat.zero_add]
    exact hlt'

theorem behaves {ops : List (Op α × Nat)} (h : Rest s xs) : Behaves s xs ops := by
  induction ops generalizing s xs with
  | nil => exact h.stored.size
  | cons entry rest ih =>
      rcases entry with ⟨op, n⟩
      cases op with
      | push v =>
          rcases h.push v n with ⟨s', hfin, hrest⟩
          exact (behaves_cons h.stored.size hfin.returns rfl).2 (ih hrest)
      | pop =>
          cases xs with
          | nil =>
              have hfin := h.pop_nil (P := fun _ => True) n fun _ _ => trivial
              exact (behaves_cons h.stored.size hfin.returns rfl).2 (ih h)
          | cons v xs =>
              rcases h.pop (P := fun _ => True) n fun _ _ => trivial with ⟨hfin, hrest⟩
              exact (behaves_cons h.stored.size hfin.returns ⟨s.head, rfl⟩).2 (ih hrest)

end Rest

/-! ## One slot -/

/-- The queue between two operations of a single thread, on a ring of one slot: the slot always
waits for the next push, and holds the value of the last one. -/
structure Single (s : Shared α) (xs : List α) : Prop where
  stat : s.stat = .normal
  stored : Stored s xs
  capacity : s.capacity = 1
  sequence : (s.maps s.kmap 0).sequence = s.tail
  data {v : α} : xs = [v] → (s.maps s.kmap 0).data = some v

namespace Single

theorem slot (h : Single s xs) (p : Nat) : slotOf p s.capacity = 0 := by
  rw [h.capacity]
  exact Nat.and_zero p

theorem node_eq (h : Single s xs) (op : Op α) : s.node (s.window op) = s.maps s.kmap 0 :=
  congrArg (s.maps s.kmap) (h.slot (s.pos op))

theorem push {P : Alone α → Prop} (h : Single s xs) (v : α) (n : Nat)
    (hP : ∀ a, Alone.Calm s.capacity a → P a) :
    Finishes P n s (.push v) (s.pushed v) .pushed ∧ Single (s.pushed v) (xs ++ [v]) := by
  have hmaps : (s.pushed v).maps s.kmap =
      Function.update (s.maps s.kmap) 0 ⟨s.tail + 1, some v⟩ := by
    rw [Shared.pushed, Shared.setNode_maps_self, h.slot]
  have hslot : (s.pushed v).maps s.kmap 0 = ⟨s.tail + 1, some v⟩ := by
    rw [hmaps, Function.update_self]
  refine ⟨finishes_push hP h.stat (by rw [h.node_eq, h.sequence]), ?_⟩
  constructor
  · exact h.stat
  · exact h.stored.push v
  · exact h.capacity
  · exact congrArg NumberedRing.Slot.sequence hslot
  · intro u hu
    have hlast := congrArg List.getLast? hu
    rw [List.getLast?_concat, List.getLast?_singleton] at hlast
    exact (congrArg NumberedRing.Slot.data hslot).trans hlast

theorem pop {P : Alone α → Prop} (h : Single s [v]) (n : Nat)
    (hP : ∀ a, Alone.Calm s.capacity a → P a) :
    Finishes P n s .pop (s.popped (some v)) (.popped s.head (some v)) ∧
      Single (s.popped (some v)) [] := by
  -- The number for the next push is also the number of the filled slot.
  have hone : s.tail = s.head + 1 := by
    have hlen := h.stored.length_eq
    have hle := h.stored.head_le
    rw [List.length_singleton] at hlen
    omega
  have hfin := finishes_pop (n := n) hP h.stat (by rw [h.node_eq, h.sequence, hone])
  rw [h.node_eq, h.data rfl] at hfin
  refine ⟨hfin, ?_⟩
  have hslot : (s.popped (some v)).maps s.kmap 0 = ⟨s.head + s.capacity, none⟩ := by
    rw [Shared.popped, Shared.setNode_maps_self, h.slot, Function.update_self]
  constructor
  · exact h.stat
  · exact h.stored.pop _
  · exact h.capacity
  · refine (congrArg NumberedRing.Slot.sequence hslot).trans ?_
    rw [h.capacity]
    exact hone.symm
  · intro u hu
    cases hu

theorem pop_nil {P : Alone α → Prop} (h : Single s ([] : List α)) (n : Nat)
    (hP : ∀ a, Alone.Calm s.capacity a → P a) : Finishes P n s .pop s .empty := by
  have hlen := h.stored.length_eq
  rw [List.length_nil] at hlen
  refine finishes_empty hP h.stat ?_
  rw [h.node_eq, h.sequence]
  omega

/-- The slot is numbered past the first of two values, whose pop never returns. -/
theorem not_returns (h : Single s xs) (hlen : 1 < xs.length) {e : Exit α} :
    ¬ Returns n s .pop s' e := by
  refine not_returns_of_ahead h.stat ?_
  have hlength := h.stored.length_eq
  rw [h.node_eq, h.sequence]
  omega

theorem create {initial : Nat} (hi : initial < 2) : Single (create initial : Shared α) [] := by
  have hone : bitCeil initial = 1 := if_pos (Nat.lt_succ_iff.1 hi)
  constructor
  · rfl
  · exact ⟨rfl, le_rfl, rfl⟩
  · exact hone
  · show (if 0 < bitCeil initial then 0 else 0) = 0
    exact ite_self 0
  · intro v hv
    cases hv

theorem behaves_iff_shallow {ops : List (Op α × Nat)} (h : Single s xs) :
    Behaves s xs ops ↔ Shallow xs ops := by
  induction ops generalizing s xs with
  | nil => exact iff_of_true h.stored.size trivial
  | cons entry rest ih =>
      rcases entry with ⟨op, n⟩
      cases op with
      | push v =>
          rcases h.push (P := fun _ => True) v n fun _ _ => trivial with ⟨hfin, hsingle⟩
          exact (behaves_cons h.stored.size hfin.returns rfl).trans (ih hsingle)
      | pop =>
          match xs, h with
          | [], h =>
              have hfin := h.pop_nil (P := fun _ => True) n fun _ _ => trivial
              refine (behaves_cons h.stored.size hfin.returns rfl).trans ((ih h).trans ?_)
              exact (and_iff_right (Nat.zero_le 1)).symm
          | [v], h =>
              rcases h.pop (P := fun _ => True) n fun _ _ => trivial with ⟨hfin, hsingle⟩
              refine (behaves_cons h.stored.size hfin.returns ⟨s.head, rfl⟩).trans
                ((ih hsingle).trans ?_)
              exact (and_iff_right (le_refl 1)).symm
          | u :: v :: xs, h =>
              -- Two values are stored: the pop never returns.
              have hlen : 1 < (u :: v :: xs).length := Nat.succ_lt_succ (Nat.succ_pos _)
              refine iff_of_false ?_ fun hshallow => absurd hshallow.1 hlen.not_ge
              rintro ⟨-, s', e, hret, -⟩
              exact h.not_returns hlen hret

end Single

/-! ## Runs of calls -/

/-- **One thread.**  For every initial capacity and every finite sequence of pushes and pops by a
single thread: each call returns, with the answer of the FIFO list, and `size` is the length of the
list all along, exactly when the initial capacity is at least two or no pop is called while two or
more values are stored. -/
theorem behaves_iff (initial : Nat) (ops : List (Op α × Nat)) :
    Behaves (create initial) [] ops ↔ 2 ≤ initial ∨ Shallow [] ops := by
  rcases Nat.lt_or_ge initial 2 with hlt | hge
  · rw [(Single.create hlt).behaves_iff_shallow]
    exact (or_iff_right hlt.not_ge).symm
  · exact iff_of_true (Rest.create hge).behaves (.inl hge)

/-- Two pushes and a pop on a ring of one slot: the second push overwrites the first value, and the
pop never returns. -/
theorem one_slot_overwrites :
    ¬ ∀ (initial : Nat) (ops : List (Op Nat × Nat)), Behaves (create initial) [] ops := by
  intro hall
  have hbehaves := hall 1 [(.push 10, 0), (.push 11, 0), (.pop, 0)]
  rw [(Single.create (by decide)).behaves_iff_shallow] at hbehaves
  exact absurd hbehaves.1 (by decide)

end AtomicQueue
end Thread
end Chenc
