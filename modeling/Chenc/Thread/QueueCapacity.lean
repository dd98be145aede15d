import Chenc.Thread.QueueFifo

/-!
# QueueCapacity — when a single thread lets the queue grow

* `GrowsWhenFull` : in a run of a single thread, `reset_capa` is called only with as many values
  stored as there are slots, and the capacity stays within twice the largest number stored;
* `Counters` : the positions and the capacity in a run that grows when it is full, with the head at
  the last growth, from which on the slots are numbered for a later lap;
* `Numbered` : the numbers of the free slots, which a growth resets to the first lap;
* `growsWhenFull_iff` : a run grows only when it is full exactly if each push is called while the
  slot of its position is in the first lap, or has been used since the last growth.
-/

namespace Chenc
namespace Thread
namespace AtomicQueue

open StateTransition (Reaches)

variable {α : Type} {s s' : Shared α} {xs : List α} {v : α} {n initial most : Nat}

/-! ## Growing only when full -/

/-- If `reset_capa` is called, all slots are in use, and the capacity is that of the new queue, or
at most twice the largest number of values stored so far. -/
def Alone.Tight (initial most : Nat) (a : Alone α) : Prop :=
  (a.pc.callsReset → a.shared.size = a.shared.capacity) ∧
    a.shared.capacity ≤ max (bitCeil initial) (2 * most)

/-- Every state of a run of operations, each with the number of times `compare_exchange_weak` fails
in it without a reason; `most` is the largest number of values stored so far. -/
def GrowsWhenFull (initial : Nat) : Nat → Shared α → List (Op α × Nat) → Prop
  | most, s, [] => s.capacity ≤ max (bitCeil initial) (2 * most)
  | most, s, (op, fails) :: rest =>
      (∀ a, Reaches Alone.next ⟨fails, s, .loadStat op⟩ a → a.Tight initial most) ∧
        ∀ s' e, Returns fails s op s' e → GrowsWhenFull initial (max most s'.size) s' rest

theorem Alone.Calm.tight {C : Nat} (hC : C ≤ max (bitCeil initial) (2 * most)) (a : Alone α)
    (ha : a.Calm C) : a.Tight initial most :=
  ⟨fun hcall => absurd hcall ha.2, ha.1.symm ▸ hC⟩

/-- A call that returns, by a way that is known. -/
theorem growsWhenFull_cons {op : Op α} {e : Exit α} {rest : List (Op α × Nat)}
    (hfin : Finishes (Alone.Tight initial most) n s op s' e)
    (hbound : s'.capacity ≤ max (bitCeil initial) (2 * most)) :
    GrowsWhenFull initial most s ((op, n) :: rest) ↔
      GrowsWhenFull initial (max most s'.size) s' rest := by
  constructor
  · rintro ⟨-, hrest⟩
    exact hrest s' e hfin.returns
  · intro hrest
    refine ⟨fun a ha => hfin.forall_reaches (Alone.Calm.tight hbound) ha, ?_⟩
    intro s₁ e₁ hret
    rcases hfin.returns.unique hret with ⟨rfl, rfl⟩
    exact hrest

/-! ## Pops -/

/-- A call of `pop`. -/
def Pc.popping : Pc α → Prop
  | .idle | .moveOut _ | .destroy _ _ | .release _ _ => True
  | .loadStat .pop | .waitStat .pop | .enter .pop | .recheck .pop | .backOff .pop => True
  | .loadCapa .pop | .loadPos .pop _ | .loadMap .pop _ _ | .loadSeq .pop _ => True
  | .reserve .pop _ => True
  | .leave (.popped _ _) | .leave .empty | .leave (.retry .pop) => True
  | _ => False

/-- What the thread does alone is one of the cases of a step, other than a new call. -/
theorem Alone.moves_of_next {a b : Alone α} (h : Alone.next a = some b) :
    Moves a.shared a.pc b.shared b.pc ∧ a.pc ≠ .idle := by
  rcases Alone.exists_step h with ⟨act, hact⟩
  refine ⟨.of_step hact, ?_⟩
  rintro hidle
  rcases a with ⟨_ | m, s, l⟩ <;> cases hidle <;> cases h

theorem Moves.popping {l l' : Pc α} (h : Moves s l s' l') (hidle : l ≠ .idle) (hl : l.popping) :
    l'.popping ∧ s'.capacity = s.capacity := by
  cases h with
  | call op => exact absurd rfl hidle
  | leave e =>
      cases e with
      | retry op => cases op <;> first | exact ⟨trivial, rfl⟩ | exact absurd hl id
      | _ => first | exact ⟨trivial, rfl⟩ | exact absurd hl id
  | wait op _ | pass op _ | woken op _ | enter op | refused op _ | admitted op _ | backOff op
  | loadCapa op | loadPos op _ | loadMap op _ _ | notReady op _ | reserveFailed op _ =>
      cases op <;> first | exact ⟨trivial, rfl⟩ | exact absurd hl id
  | _ => first | exact ⟨trivial, rfl⟩ | exact absurd hl id

/-- A pop never calls `reset_capa`, whether it returns or not. -/
theorem calm_of_pop {a : Alone α} (ha : Reaches Alone.next ⟨n, s, .loadStat .pop⟩ a) :
    a.Calm s.capacity := by
  have hpopping : a.pc.popping ∧ a.shared.capacity = s.capacity := by
    induction ha with
    | refl => exact ⟨trivial, rfl⟩
    | tail _ hstep ih =>
        rcases Alone.moves_of_next hstep with ⟨hmoves, hidle⟩
        rcases hmoves.popping hidle ih.1 with ⟨hpop, hcapa⟩
        exact ⟨hpop, hcapa.trans ih.2⟩
  refine ⟨hpopping.2, fun hcall => ?_⟩
  have hpop := hpopping.1
  revert hcall hpop
  cases a.pc <;> first | exact fun hcall _ => hcall | exact fun _ hpop => hpop

/-! ## The numbers of the free slots -/

/-- The free slots: one of a position in the first lap, or of a position whose slot has been used
since the head was at `base`, is numbered for it; any other still has the number of the first
lap. -/
structure Numbered (s : Shared α) (base : Nat) : Prop where
  base_le : base ≤ s.head
  number : ∀ q, s.tail ≤ q → q < s.head + s.capacity →
    (s.maps s.kmap (q % s.capacity)).sequence =
      if q < s.capacity ∨ base + s.capacity ≤ q then q else q % s.capacity

namespace Numbered

variable {base : Nat}

theorem create {initial : Nat} : Numbered (create initial : Shared α) 0 where
  base_le := le_rfl
  number q _ hq := by
    have hq' : q < bitCeil initial := by
      have hlt : q < 0 + bitCeil initial := hq
      omega
    have hfirst : q < bitCeil initial ∨ 0 + bitCeil initial ≤ q := .inl hq'
    have hmod : q % bitCeil initial < bitCeil initial := Nat.mod_lt q (by omega)
    show (if q % bitCeil initial < bitCeil initial then q % bitCeil initial else 0) =
      if q < bitCeil initial ∨ 0 + bitCeil initial ≤ q then q else q % bitCeil initial
    rw [if_pos hmod, if_pos hfirst, Nat.mod_eq_of_lt hq']

theorem pushed (hn : Numbered s base) (h : Rest s xs) (v : α) : Numbered (s.pushed v) base where
  base_le := hn.base_le
  number q hq hlap := by
    have htail : s.tail < q := hq
    have hlap' : q < s.head + s.capacity := hlap
    have hslot := NumberedRing.mod_ne_of_lt (N := s.capacity) htail (by
      have := h.stored.head_le
      omega)
    have hmaps : (s.pushed v).maps s.kmap = Function.update (s.maps s.kmap)
        (s.tail % s.capacity) ⟨s.tail + 1, some v⟩ := by
      rw [Shared.pushed, Shared.setNode_maps_self, slotOf_eq_mod h.size]
    show ((s.pushed v).maps s.kmap (q % s.capacity)).sequence = _
    rw [hmaps, Function.update_of_ne hslot.symm]
    exact hn.number q htail.le hlap'

theorem popped (hn : Numbered s base) (h : Rest s (v :: xs)) (res : Option α) :
    Numbered (s.popped res) base where
  base_le := Nat.le_succ_of_le hn.base_le
  number q hq hlap := by
    have htail : s.tail ≤ q := hq
    have hlap' : q < s.head + 1 + s.capacity := hlap
    have hhead := h.stored.head_lt
    have hbase := hn.base_le
    have hmaps : (s.popped res).maps s.kmap = Function.update (s.maps s.kmap)
        (s.head % s.capacity) ⟨s.head + s.capacity, none⟩ := by
      rw [Shared.popped, Shared.setNode_maps_self, slotOf_eq_mod h.size]
    show ((s.popped res).maps s.kmap (q % s.capacity)).sequence = _
    rw [hmaps]
    by_cases hlast : q = s.head + s.capacity
    · -- The slot just released is numbered for the position one lap later.
      have hused : q < s.capacity ∨ base + s.capacity ≤ q := .inr (by omega)
      have hmod : q % s.capacity = s.head % s.capacity := by rw [hlast, Nat.add_mod_right]
      rw [hmod, Function.update_self]
      exact hlast.symm.trans (if_pos hused).symm
    · have hslot := NumberedRing.mod_ne_of_lt (N := s.capacity) (hhead.trans_le htail) (by omega)
      rw [Function.update_of_ne hslot.symm]
      exact hn.number q htail (by omega)

/-- A growth numbers every free slot for the first lap. -/
theorem grown {values : Nat → Option α} {capa : Nat} {m : Nat → Nat → Node α}
    (hr : Relaid values s.head s.tail (bitCeil capa) (m s.nextMap)) (hpos : 0 < bitCeil capa) :
    Numbered (s.grown capa m) s.head where
  base_le := le_rfl
  number q hq hlap := by
    have htail : s.tail ≤ q := hq
    have hlap' : q < s.head + bitCeil capa := hlap
    have hslot : m s.nextMap (q % bitCeil capa) = ⟨q % bitCeil capa, none⟩ := by
      refine hr.fresh _ (Nat.mod_lt q hpos) fun p hp hpt => ?_
      exact NumberedRing.mod_ne_of_lt (hpt.trans_le htail) (by omega)
    show (m s.nextMap (q % bitCeil capa)).sequence =
      if q < bitCeil capa ∨ s.head + bitCeil capa ≤ q then q else q % bitCeil capa
    rw [hslot]
    split_ifs with hused
    · exact Nat.mod_eq_of_lt (hused.resolve_right (by omega))
    · rfl

/-- The number of the slot of the next push, while not all slots are in use. -/
theorem sequence_tail (hn : Numbered s base) (h : Rest s xs)
    (hroom : s.tail - s.head ≠ s.capacity) :
    (s.node (s.window (.push v))).sequence =
      if s.tail < s.capacity ∨ base + s.capacity ≤ s.tail then s.tail
      else s.tail % s.capacity := by
  have hfits := h.fits
  rw [h.node_eq]
  exact hn.number s.tail le_rfl (by omega)

end Numbered

/-- The slot of the next push, while all slots are in use: it is the one of the head. -/
theorem Rest.sequence_full (h : Rest s xs) (hfull : s.tail - s.head = s.capacity) :
    (s.node (s.window (.push v))).sequence < s.tail := by
  have htwo := h.size.two_le
  have hmod : s.tail % s.capacity = s.head % s.capacity := by
    have htail : s.tail = s.head + s.capacity := by omega
    rw [htail, Nat.add_mod_right]
  have hhead : s.maps s.kmap (s.head % s.capacity) = ⟨s.head + 1, s.pushes[s.head]?⟩ :=
    h.board.holds (if_pos ⟨le_rfl, by omega⟩)
  rw [h.node_eq]
  show (s.maps s.kmap (s.tail % s.capacity)).sequence < s.tail
  rw [hmod, hhead]
  show s.head + 1 < s.tail
  omega

/-! ## Runs that grow when they are full -/

/-- The counters of a queue that grows when it is full. -/
structure Counters where
  head : Nat
  tail : Nat
  capacity : Nat
  /-- The head at the last growth. -/
  base : Nat
  deriving DecidableEq, Repr

namespace Counters

def start (initial : Nat) : Counters :=
  ⟨0, 0, bitCeil initial, 0⟩

def push (c : Counters) : Counters :=
  if c.tail - c.head = c.capacity then
    { c with tail := c.tail + 1, capacity := c.capacity * 2, base := c.head }
  else { c with tail := c.tail + 1 }

def pop (c : Counters) : Counters :=
  if c.head < c.tail then { c with head := c.head + 1 } else c

/-- The slot of the next push is numbered for it, on the ring it is stored in: its position is in
the first lap, or one lap behind it is a position that was stored at the last growth or later.  A
ring that is full is doubled, with all positions stored at that growth. -/
def Ready (c : Counters) : Prop :=
  (c.tail - c.head = c.capacity → c.tail < c.capacity * 2) ∧
    (c.tail - c.head ≠ c.capacity → c.tail < c.capacity ∨ c.base + c.capacity ≤ c.tail)

instance (c : Counters) : Decidable c.Ready :=
  inferInstanceAs (Decidable (_ ∧ _))

/-- Each push of a run is called with its slot ready. -/
def Regular : Counters → List (Op α × Nat) → Prop
  | _, [] => True
  | c, (.push _, _) :: rest => c.Ready ∧ c.push.Regular rest
  | c, (.pop, _) :: rest => c.pop.Regular rest

instance decidableRegular : (c : Counters) → (ops : List (Op α × Nat)) → Decidable (c.Regular ops)
  | _, [] => isTrue trivial
  | c, (.push _, _) :: rest =>
      have := decidableRegular c.push rest
      inferInstanceAs (Decidable (c.Ready ∧ c.push.Regular rest))
  | c, (.pop, _) :: rest => decidableRegular c.pop rest

end Counters

/-- The bound on the capacity still holds when the sizes seen later are taken into account. -/
theorem bound_later {capacity size : Nat}
    (h : capacity ≤ max (bitCeil initial) (2 * most)) :
    capacity ≤ max (bitCeil initial) (2 * max most size) :=
  h.trans (max_le_max_left _ (Nat.mul_le_mul_left 2 (Nat.le_max_left most size)))

/-- A push with room, whose slot is numbered for it. -/
theorem Numbered.push {P : Alone α → Prop} {base : Nat} (hn : Numbered s base) (h : Rest s xs)
    (v : α) (n : Nat) (hroom : s.tail - s.head ≠ s.capacity)
    (hused : s.tail < s.capacity ∨ base + s.capacity ≤ s.tail)
    (hP : ∀ a, Alone.Calm s.capacity a → P a) :
    Finishes P n s (.push v) (s.pushed v) .pushed ∧ Rest (s.pushed v) (xs ++ [v]) ∧
      Numbered (s.pushed v) base := by
  have hseq : (s.node (s.window (.push v))).sequence = s.tail := by
    rw [hn.sequence_tail h hroom, if_pos hused]
  exact ⟨finishes_push hP h.stat hseq, h.pushed v (h.node_eq (.push v) ▸ hseq), hn.pushed h v⟩

/-- The queue between two operations of a run that has grown when it was full. -/
structure Tracks (s : Shared α) (xs : List α) (c : Counters) : Prop where
  rest : Rest s xs
  head : c.head = s.head
  tail : c.tail = s.tail
  capacity : c.capacity = s.capacity
  numbered : Numbered s c.base

namespace Tracks

variable {c : Counters}

theorem create {initial : Nat} (hi : 2 ≤ initial) :
    Tracks (create initial : Shared α) [] (Counters.start initial) :=
  ⟨Rest.create hi, rfl, rfl, rfl, Numbered.create⟩

theorem size_eq (h : Tracks s xs c) : s.size = s.tail - s.head := by
  rw [h.rest.stored.size, h.rest.stored.length_eq]

/-- The way of a push that finds all slots in use, up to its attempt on the doubled ring. -/
theorem grown {P : Alone α → Prop} (h : Tracks s xs c) (v : α) (n : Nat)
    (hfull : s.tail - s.head = s.capacity) (hP : ∀ a, Alone.Calm s.capacity a → P a)
    (hP' : ∀ a, Alone.Calm (s.capacity * 2) a → P a)
    (hclose : P ⟨n, s, .closeGate v (s.capacity * 2)⟩) :
    ∃ s₁ moved, Goes P ⟨n, s, .loadStat (.push v)⟩ moved ⟨n, s₁, .loadStat (.push v)⟩ ∧
      Rest s₁ xs ∧ Numbered s₁ s.head ∧ s₁.head = s.head ∧ s₁.tail = s.tail ∧
      s₁.capacity = s.capacity * 2 := by
  have htwo := h.rest.size.two_le
  have hceil := h.rest.size.bitCeil_double
  rcases h.rest.grown v n hP (hceil.symm ▸ hP') hclose (h.rest.sequence_full hfull) with
    ⟨m, moved, hgoes, hrest, hrelaid⟩
  exact ⟨s.grown (s.capacity * 2) m, moved, hgoes, hrest, .grown hrelaid (by omega), rfl, rfl,
    hceil⟩

/-- A push whose slot is ready. -/
theorem push (h : Tracks s xs c) (v : α) (n : Nat) (hready : c.Ready) (hmost : s.size ≤ most)
    (hbound : s.capacity ≤ max (bitCeil initial) (2 * most)) :
    ∃ s', Finishes (Alone.Tight initial most) n s (.push v) s' .pushed ∧
      Tracks s' (xs ++ [v]) c.push ∧ s'.capacity ≤ max (bitCeil initial) (2 * most) := by
  have hsize := h.size_eq
  rcases hready with ⟨hgrow, hstay⟩
  rw [h.head, h.tail, h.capacity] at hgrow hstay
  by_cases hfull : s.tail - s.head = s.capacity
  · -- The ring is doubled once, and the slot is in the first lap of the new one.
    have hdouble : s.capacity * 2 ≤ max (bitCeil initial) (2 * most) := by omega
    rcases h.grown v n hfull (Alone.Calm.tight hbound) (Alone.Calm.tight hdouble)
      ⟨fun _ => hsize.trans hfull, hbound⟩ with
      ⟨s₁, moved, hgoes, hrest, hnumbered, hhead, htail, hcapa⟩
    have htwo := h.rest.size.two_le
    have hlap := hgrow hfull
    rcases hnumbered.push (P := Alone.Tight initial most) hrest v n (by omega) (.inl (by omega))
      (by rw [hcapa]; exact Alone.Calm.tight hdouble) with ⟨hfin, hrest', hnumbered'⟩
    refine ⟨s₁.pushed v, hfin.of_goes hgoes, ?_, hcapa.trans_le hdouble⟩
    have hpush : c.push = ⟨c.head, c.tail + 1, c.capacity * 2, c.head⟩ :=
      if_pos (by rwa [h.head, h.tail, h.capacity])
    rw [hpush]
    refine ⟨hrest', h.head.trans hhead.symm, ?_, ?_, ?_⟩
    · exact congrArg (· + 1) (h.tail.trans htail.symm)
    · exact (congrArg (· * 2) h.capacity).trans hcapa.symm
    · exact h.head.symm ▸ hnumbered'
  · rcases h.numbered.push h.rest v n hfull (hstay hfull) (Alone.Calm.tight hbound) with
      ⟨hfin, hrest', hnumbered'⟩
    refine ⟨s.pushed v, hfin, ?_, hbound⟩
    have hpush : c.push = { c with tail := c.tail + 1 } :=
      if_neg (by rwa [h.head, h.tail, h.capacity])
    rw [hpush]
    exact ⟨hrest', h.head, congrArg (· + 1) h.tail, h.capacity, hnumbered'⟩

/-- A free slot that still has the number of its first lap is taken for a full ring. -/
theorem reaches_closeGate {base : Nat} (h : Rest s xs) (hn : Numbered s base) (v : α) (n : Nat)
    (hroom : s.tail - s.head ≠ s.capacity)
    (hused : ¬ (s.tail < s.capacity ∨ base + s.capacity ≤ s.tail)) :
    Reaches Alone.next ⟨n, s, .loadStat (.push v)⟩ ⟨n, s, .closeGate v (s.capacity * 2)⟩ := by
  have hmod : s.tail % s.capacity < s.capacity := h.mod_lt s.tail
  have hseq : (s.node (s.window (.push v))).sequence < s.tail := by
    rw [hn.sequence_tail h hroom, if_neg hused]
    omega
  exact (goes_full (P := fun _ => True) (fun _ _ => trivial) h.stat hseq (.refl _)).reaches

variable (initial most) in
/-- A push whose slot is not ready calls `reset_capa` with slots to spare. -/
theorem not_tight (h : Tracks s xs c) (v : α) (n : Nat) (hready : ¬ c.Ready) :
    ∃ a, Reaches Alone.next ⟨n, s, .loadStat (.push v)⟩ a ∧ ¬ a.Tight initial most := by
  have hsize := h.size_eq
  rw [Counters.Ready, h.head, h.tail, h.capacity] at hready
  by_cases hfull : s.tail - s.head = s.capacity
  · -- The doubled ring is taken for full as well.
    rcases h.grown (P := fun _ => True) v n hfull (fun _ _ => trivial) (fun _ _ => trivial)
      trivial with ⟨s₁, moved, hgoes, hrest, hnumbered, hhead, htail, hcapa⟩
    have htwo := h.rest.size.two_le
    refine ⟨_, hgoes.reaches.trans (reaches_closeGate hrest hnumbered v n (by omega) (by omega)),
      fun htight => ?_⟩
    have hall := htight.1 trivial
    rw [hrest.stored.size, hrest.stored.length_eq] at hall
    have hall' : s₁.tail - s₁.head = s₁.capacity := hall
    omega
  · refine ⟨_, reaches_closeGate h.rest h.numbered v n hfull (by tauto), fun htight => ?_⟩
    exact hfull (hsize.symm.trans (htight.1 trivial))

/-- A pop that finds a value. -/
theorem pop (h : Tracks s (v :: xs) c) (n : Nat)
    (hbound : s.capacity ≤ max (bitCeil initial) (2 * most)) :
    ∃ s' e, Finishes (Alone.Tight initial most) n s .pop s' e ∧ Tracks s' xs c.pop ∧
      s'.capacity ≤ max (bitCeil initial) (2 * most) := by
  rcases h.rest.pop (P := Alone.Tight initial most) n (Alone.Calm.tight hbound) with ⟨hfin, hrest⟩
  have hpop : c.pop = { c with head := c.head + 1 } :=
    if_pos (by rw [h.head, h.tail]; exact h.rest.stored.head_lt)
  refine ⟨_, _, hfin, ?_, hbound⟩
  rw [hpop]
  exact ⟨hrest, congrArg (· + 1) h.head, h.tail, h.capacity, h.numbered.popped h.rest _⟩

/-- A pop that finds nothing. -/
theorem pop_nil (h : Tracks s ([] : List α) c) (n : Nat)
    (hbound : s.capacity ≤ max (bitCeil initial) (2 * most)) :
    Finishes (Alone.Tight initial most) n s .pop s .empty ∧ c.pop = c := by
  have hlen := h.rest.stored.length_eq
  rw [List.length_nil] at hlen
  exact ⟨h.rest.pop_nil n (Alone.Calm.tight hbound), if_neg (by rw [h.head, h.tail]; omega)⟩

theorem growsWhenFull_iff_regular {ops : List (Op α × Nat)} (h : Tracks s xs c)
    (hmost : s.size ≤ most) (hbound : s.capacity ≤ max (bitCeil initial) (2 * most)) :
    GrowsWhenFull initial most s ops ↔ c.Regular ops := by
  induction ops generalizing s xs c most with
  | nil => exact iff_of_true hbound trivial
  | cons entry rest ih =>
      rcases entry with ⟨op, n⟩
      cases op with
      | push v =>
          by_cases hready : c.Ready
          · rcases h.push v n hready hmost hbound with ⟨s', hfin, htracks, hbound'⟩
            rw [growsWhenFull_cons hfin hbound', ih htracks (le_max_right ..) (bound_later hbound')]
            exact (and_iff_right hready).symm
          · rcases h.not_tight initial most v n hready with ⟨a, ha, hnot⟩
            exact iff_of_false (fun hgrows => hnot (hgrows.1 a ha)) fun hreg => hready hreg.1
      | pop =>
          cases xs with
          | nil =>
              rcases h.pop_nil n hbound with ⟨hfin, hpop⟩
              rw [growsWhenFull_cons hfin hbound, ih h (le_max_right ..) (bound_later hbound)]
              show c.Regular rest ↔ c.pop.Regular rest
              rw [hpop]
          | cons v xs =>
              rcases h.pop n hbound with ⟨s', e, hfin, htracks, hbound'⟩
              rw [growsWhenFull_cons hfin hbound',
                ih htracks (le_max_right ..) (bound_later hbound')]
              exact Iff.rfl

end Tracks

/-- A ring of one slot never grows. -/
theorem Single.growsWhenFull {ops : List (Op α × Nat)} (h : Single s xs)
    (hbound : s.capacity ≤ max (bitCeil initial) (2 * most)) :
    GrowsWhenFull initial most s ops := by
  induction ops generalizing s xs most with
  | nil => exact hbound
  | cons entry rest ih =>
      rcases entry with ⟨op, n⟩
      have htight := Alone.Calm.tight (α := α) hbound
      cases op with
      | push v =>
          rcases h.push v n htight with ⟨hfin, hsingle⟩
          exact (growsWhenFull_cons hfin hbound).2 (ih hsingle (bound_later hbound))
      | pop =>
          refine ⟨fun a ha => htight a (calm_of_pop ha), fun s' e hret => ?_⟩
          match xs, h with
          | [], h =>
              rcases (h.pop_nil n htight).returns.unique hret with ⟨rfl, -⟩
              exact ih h (bound_later hbound)
          | [v], h =>
              rcases h.pop n htight with ⟨hfin, hsingle⟩
              rcases hfin.returns.unique hret with ⟨rfl, -⟩
              exact ih hsingle (bound_later hbound)
          | u :: v :: xs, h =>
              -- Two values are stored: the pop never returns.
              exact absurd hret (h.not_returns (Nat.succ_lt_succ (Nat.succ_pos _)))

/-- **When a single thread lets the queue grow.**  In a run of pushes and pops by a single thread,
`reset_capa` is called only with all slots in use, and the capacity stays within twice the largest
number of values stored, if and only if the ring has one slot, which never grows, or each push is
called with its slot ready: the numbers of free slots are reset to the first lap by each growth. -/
theorem growsWhenFull_iff (initial : Nat) (ops : List (Op α × Nat)) :
    GrowsWhenFull initial 0 (create initial) ops ↔
      initial < 2 ∨ (Counters.start initial).Regular ops := by
  rcases Nat.lt_or_ge initial 2 with hlt | hge
  · exact iff_of_true ((Single.create hlt).growsWhenFull (le_max_left ..)) (.inl hlt)
  · rw [(Tracks.create hge).growsWhenFull_iff_regular (Nat.le_refl 0) (le_max_left ..)]
    exact (or_iff_right hge.not_gt).symm

/-- Three values pass through a ring of two slots before it is full for the first time. -/
def lateGrowth : List (Op Nat × Nat) :=
  [(.push 10, 0), (.pop, 0), (.push 11, 0), (.pop, 0), (.push 12, 0), (.push 13, 0), (.push 14, 0)]

theorem not_growsWhenFull_lateGrowth :
    ¬ ∀ (initial : Nat) (ops : List (Op Nat × Nat)),
      GrowsWhenFull initial 0 (create initial) ops := by
  intro hall
  have hgrows := hall 2 lateGrowth
  have htracks : Tracks (create 2 : Shared Nat) [] (Counters.start 2) := .create le_rfl
  rw [htracks.growsWhenFull_iff_regular (Nat.le_refl 0) (le_max_left ..)] at hgrows
  revert hgrows
  decide

end AtomicQueue
end Thread
end Chenc
