import Chenc.Thread.QueueSolo

/-!
# QueueGrowth — the way through `reset_capa`

* `goes_initSeq` : the loop that numbers the slots of the new array;
* `Moving`, `Moving.pass`, `goes_transfer` : the loop that moves the values, position by position;
* `goes_grown` : the whole of `reset_capa`, for a capacity that the values stored fit into;
* `Laid`, `resetCapa_relays` : every state in which each stored position has its slot is brought to
  the double capacity with the same values, each moved once, and with no other slot that an
  operation could take for one of its own.
-/

namespace Chenc
namespace Thread
namespace AtomicQueue

open NumberedRing (Board)

variable {α : Type} {P : Alone α → Prop} {n : Nat} {s : Shared α} {v : α} {g : Growth}
  {values : Nat → Option α}

/-- The queue with other arrays. -/
def Shared.withMaps (s : Shared α) (m : Nat → Nat → Node α) : Shared α :=
  { s with maps := m }

/-! ## Numbering the slots -/

/-- The loop that numbers the slots of the new array. -/
theorem goes_initSeq (hP : ∀ a, Alone.Calm s.capacity a → P a) (v : α) (g : Growth) (n : Nat) :
    ∀ k i m, i + k = g.newCapa → (∀ j, j < i → m g.newMap j = ⟨j, none⟩) →
      (∀ j, (m g.newMap j).data = none) →
      ∃ m', Goes P ⟨n, s.withMaps m, .initSeq v g i⟩ [] ⟨n, s.withMaps m', .loadHead v g⟩ ∧
        (∀ j, j < g.newCapa → m' g.newMap j = ⟨j, none⟩) ∧ ∀ a, a ≠ g.newMap → m' a = m a := by
  intro k
  induction k with
  | zero =>
      intro i m hi hnumbered _
      have hover : ¬ i < g.newCapa := by omega
      refine ⟨m, goes_step hP trivial (if_neg hover) (.refl _), ?_, fun _ _ => rfl⟩
      intro j hj
      exact hnumbered j (by omega)
  | succ k ih =>
      intro i m hi hnumbered hdata
      have hlt : i < g.newCapa := by omega
      have hnode : ({ m g.newMap i with sequence := i } : Node α) = ⟨i, none⟩ :=
        congrArg (NumberedRing.Slot.mk i) (hdata i)
      have hself : ((s.withMaps m).setNode g.newMap i ⟨i, none⟩).maps g.newMap =
          Function.update (m g.newMap) i ⟨i, none⟩ := Shared.setNode_maps_self ..
      have hnumbered' : ∀ j, j < i + 1 →
          Function.update (m g.newMap) i ⟨i, none⟩ j = ⟨j, none⟩ := by
        intro j hj
        rcases (Nat.lt_succ_iff.1 hj).eq_or_lt with rfl | hji
        · exact Function.update_self ..
        · rw [Function.update_of_ne hji.ne]
          exact hnumbered j hji
      have hdata' : ∀ j, (Function.update (m g.newMap) i ⟨i, none⟩ j).data = none := by
        intro j
        by_cases hji : j = i
        · subst hji
          rw [Function.update_self]
        · rw [Function.update_of_ne hji]
          exact hdata j
      rcases ih (i + 1) ((s.withMaps m).setNode g.newMap i ⟨i, none⟩).maps (by omega)
        (hself ▸ hnumbered') (hself ▸ hdata') with ⟨m', hgoes, hnew, hother⟩
      refine ⟨m', goes_step hP trivial (if_pos hlt) (hnode.symm ▸ hgoes), hnew, fun a ha => ?_⟩
      exact (hother a ha).trans (Shared.setNode_maps_of_ne (s.withMaps m) ha i ⟨i, none⟩)

/-! ## Moving the values -/

/-- The values below position `i` are in the new array, in which the other slots are as they were
numbered, and those from `i` on are in the old one. -/
structure Moving (values : Nat → Option α) (s : Shared α) (g : Growth) (i : Nat) : Prop where
  fits : s.tail - s.head ≤ g.newCapa
  head_le : s.head ≤ i
  le_tail : i ≤ s.tail
  moved : ∀ p, s.head ≤ p → p < i → s.maps g.newMap (p % g.newCapa) = ⟨p + 1, values p⟩
  fresh : ∀ j, j < g.newCapa → (∀ p, s.head ≤ p → p < i → p % g.newCapa ≠ j) →
    s.maps g.newMap j = ⟨j, none⟩
  left : ∀ p, i ≤ p → p < s.tail → s.maps g.oldMap (slotOf p g.oldCapa) = ⟨p + 1, values p⟩

/-- The arrays after one pass of the loop that moves the values. -/
def Shared.passed (s : Shared α) (g : Growth) (i : Nat) : Shared α :=
  ((s.setData ⟨g.newCapa, i, g.newMap⟩ (s.node ⟨g.oldCapa, i, g.oldMap⟩).data).setData
    ⟨g.oldCapa, i, g.oldMap⟩ none).setSequence ⟨g.newCapa, i, g.newMap⟩ (i + 1)

theorem passed_new (hne : g.newMap ≠ g.oldMap) (i : Nat) :
    (s.passed g i).maps g.newMap = Function.update (s.maps g.newMap) (slotOf i g.newCapa)
      ⟨i + 1, (s.node ⟨g.oldCapa, i, g.oldMap⟩).data⟩ := by
  simp [Shared.passed, Shared.setSequence, Shared.setData, Shared.setNode, Shared.node,
    Window.slot, hne]

theorem passed_old (hne : g.oldMap ≠ g.newMap) {i j : Nat} (hj : j ≠ slotOf i g.oldCapa) :
    (s.passed g i).maps g.oldMap j = s.maps g.oldMap j := by
  simp [Shared.passed, Shared.setSequence, Shared.setData, Shared.setNode, Shared.node,
    Window.slot, hne, hj]

/-- One pass of the loop that moves the values. -/
theorem Moving.pass (hnew : RingSize g.newCapa) (hne : g.oldMap ≠ g.newMap) {i : Nat}
    (h : Moving values s g i) (hi : i < s.tail) : Moving values (s.passed g i) g (i + 1) := by
  have hfits := h.fits
  have hhead := h.head_le
  have hdata : (s.node ⟨g.oldCapa, i, g.oldMap⟩).data = values i :=
    congrArg NumberedRing.Slot.data (h.left i le_rfl hi)
  have hmaps := passed_new (s := s) hne.symm i
  rw [hdata, slotOf_eq_mod hnew] at hmaps
  constructor
  · exact hfits
  · exact Nat.le_succ_of_le hhead
  · exact hi
  · intro p hp hpi
    rw [hmaps]
    rcases (Nat.lt_succ_iff.1 hpi).eq_or_lt with rfl | hlt
    · exact Function.update_self ..
    · -- Positions of values stored at once are in different slots of the new array.
      have hgap : i < p + g.newCapa := by
        have hp' : s.head ≤ p := hp
        omega
      rw [Function.update_of_ne (NumberedRing.mod_ne_of_lt hlt hgap)]
      exact h.moved p hp hlt
  · intro j hj hfree
    have hslot : j ≠ i % g.newCapa := (hfree i hhead (Nat.lt_succ_self i)).symm
    rw [hmaps, Function.update_of_ne hslot]
    exact h.fresh j hj fun p hp hpi => hfree p hp (Nat.lt_succ_of_lt hpi)
  · intro p hp hpt
    have hleft := h.left p (Nat.le_of_succ_le hp) hpt
    -- Two slots with different numbers are different slots of the old array.
    have hslot : slotOf p g.oldCapa ≠ slotOf i g.oldCapa := by
      intro heq
      rw [heq, h.left i le_rfl hi] at hleft
      have hnumber : i + 1 = p + 1 := congrArg NumberedRing.Slot.sequence hleft
      omega
    rw [passed_old hne hslot]
    exact hleft

/-- The loop that moves the values. -/
theorem goes_transfer (hP : ∀ a, Alone.Calm s.capacity a → P a) (hnew : RingSize g.newCapa)
    (hne : g.oldMap ≠ g.newMap) :
    ∀ k i m, i + k = s.tail → Moving values (s.withMaps m) g i →
      ∃ m', Goes P ⟨n, s.withMaps m, .transfer v g i s.tail⟩ (List.range' i k)
          ⟨n, s.withMaps m', .storeMap v g⟩ ∧
        Moving values (s.withMaps m') g s.tail := by
  intro k
  induction k with
  | zero =>
      intro i m hi h
      have hover : ¬ i < s.tail := by omega
      have hlast : i = s.tail := hi
      refine ⟨m, ?_, hlast ▸ h⟩
      exact .silent (hP _ ⟨rfl, id⟩) (next_of_advance (by simp) (if_neg hover)) (if_neg hover)
        (.refl _)
  | succ k ih =>
      intro i m hi h
      have hlt : i < s.tail := by omega
      rcases ih (i + 1) ((s.withMaps m).passed g i).maps (by omega) (h.pass hnew hne hlt) with
        ⟨m', hgoes, hmoving⟩
      refine ⟨m', ?_, hmoving⟩
      -- Construct in the new array, destroy in the old one, mark.
      refine .noted (hP _ ⟨rfl, id⟩) (next_of_advance (by simp) (if_pos hlt)) (if_pos hlt) ?_
      refine goes_step hP trivial rfl ?_
      exact goes_step hP trivial rfl hgoes

/-! ## The whole of `reset_capa` -/

/-- The queue after it has grown to a capacity of at least `capa`, with the arrays `m`. -/
def Shared.grown (s : Shared α) (capa : Nat) (m : Nat → Nat → Node α) : Shared α :=
  { s with
    kmap := s.nextMap
    stat := .normal
    capacity := bitCeil capa
    maps := m
    nextMap := s.nextMap + 1
    freed := s.kmap :: s.freed }

/-- The slots of an array hold `values` at the positions from `h` below `t`, and are numbered for
their first positions elsewhere. -/
structure Relaid (values : Nat → Option α) (h t N : Nat) (slots : Nat → Node α) : Prop where
  moved : ∀ p, h ≤ p → p < t → slots (p % N) = ⟨p + 1, values p⟩
  fresh : ∀ j, j < N → (∀ p, h ≤ p → p < t → p % N ≠ j) → slots j = ⟨j, none⟩

namespace Relaid

variable {h t N : Nat} {slots : Nat → Node α}

theorem low (hr : Relaid values h t N slots) {j : Nat} (hj : j < N) :
    (slots j).sequence < t + N := by
  by_cases hfree : ∀ p, h ≤ p → p < t → p % N ≠ j
  · rw [hr.fresh j hj hfree]
    exact Nat.lt_add_left t hj
  · push Not at hfree
    rcases hfree with ⟨p, hp, hpt, rfl⟩
    rw [hr.moved p hp hpt]
    show p + 1 < t + N
    omega

theorem board (hr : Relaid (fun p => s.pushes[p]?) s.head t N slots) (hN : 2 ≤ N) :
    Board N slots (span s t) where
  two_le := hN
  numbered hp := by
    rcases ite_eq_iff.1 hp with ⟨-, hx⟩ | ⟨-, habs⟩
    · cases hx
      exact .inr rfl
    · cases habs
  holds hp := by
    rcases ite_eq_iff.1 hp with ⟨hrange, hx⟩ | ⟨-, habs⟩
    · cases hx
      exact hr.moved _ hrange.1 hrange.2
    · cases habs
  vacant hj hfree := by
    rw [hr.fresh _ hj fun p hp hpt => hfree p _ (if_pos ⟨hp, hpt⟩)]
    exact ⟨rfl, Nat.mod_eq_of_lt hj⟩

end Relaid

/-- The way through `reset_capa`, for a capacity that the values stored fit into. -/
theorem goes_grown {capa : Nat} (hP : ∀ a, Alone.Calm s.capacity a → P a)
    (hP' : ∀ a, Alone.Calm (bitCeil capa) a → P a) (hclose : P ⟨n, s, .closeGate v capa⟩)
    (hstat : s.stat = .normal) (hactive : s.active = 0) (hmap : s.kmap < s.nextMap)
    (hhead : s.head ≤ s.tail) (htwo : 2 ≤ capa) (hfits : s.tail - s.head ≤ bitCeil capa)
    (hslots : ∀ p, s.head ≤ p → p < s.tail →
      s.maps s.kmap (slotOf p s.capacity) = ⟨p + 1, values p⟩) :
    ∃ m, Goes P ⟨n, s, .closeGate v capa⟩ (List.range' s.head (s.tail - s.head))
        ⟨n, s.grown capa m, .loadStat (.push v)⟩ ∧
      Relaid values s.head s.tail (bitCeil capa) (m s.nextMap) := by
  have hnew := ringSize_bitCeil htwo
  let g : Growth := ⟨bitCeil capa, s.capacity, s.kmap, s.nextMap⟩
  let s₀ : Shared α := { s with stat := .resizing, nextMap := s.nextMap + 1 }
  -- The new array.
  rcases goes_initSeq (s := s₀) hP v g n (bitCeil capa) 0 s.allocate.maps (Nat.zero_add _)
    (fun _ hj => absurd hj (Nat.not_lt_zero _))
    (fun j => by rw [Shared.allocate_maps_new]) with ⟨m₁, hinit, hfresh, hother⟩
  have hold : m₁ s.kmap = s.maps s.kmap := by
    rw [hother s.kmap hmap.ne, Shared.allocate_maps_of_ne s hmap.ne]
  -- The values.
  have hmoving : Moving values (s₀.withMaps m₁) g s.head := by
    constructor
    · exact hfits
    · exact le_rfl
    · exact hhead
    · intro p hp hph
      exact absurd hph hp.not_gt
    · intro j hj _
      exact hfresh j hj
    · intro p hp hpt
      show m₁ s.kmap (slotOf p s.capacity) = _
      rw [hold]
      exact hslots p hp hpt
  rcases goes_transfer (s := s₀) (n := n) (v := v) hP hnew hmap.ne (s.tail - s.head) s.head m₁
    (Nat.add_sub_cancel' hhead) hmoving with ⟨m₂, htransfer, hmoved⟩
  have hquiet : advance { s with stat := .resizing } (.quiesce v capa) =
      some ({ s with stat := .resizing }, .oldCapa v capa) := by
    simp [advance, hactive]
  have hlog : List.range' s.head (s.tail - s.head) =
      [] ++ (List.range' s.head (s.tail - s.head) ++ []) := by simp
  refine ⟨m₂, ?_, hmoved.moved, hmoved.fresh⟩
  -- The gate is closed, nobody is inside, and the new array is numbered.
  refine .silent hclose (next_of_advance (by simp) (if_pos hstat)) rfl ?_
  refine goes_step hP trivial hquiet ?_
  refine goes_step hP trivial rfl ?_
  refine goes_step hP trivial rfl ?_
  refine goes_step hP trivial rfl ?_
  rw [hlog]
  refine hinit.trans ?_
  refine goes_step hP trivial rfl ?_
  refine goes_step hP trivial rfl ?_
  refine htransfer.trans ?_
  -- The new array is published, the old one freed, and the gate opened.
  refine goes_step hP trivial rfl ?_
  refine goes_step hP trivial rfl ?_
  refine goes_step hP' trivial rfl ?_
  exact goes_step hP' trivial rfl (.refl _)

/-! ## Growing to the double capacity -/

/-- A queue with no operation in progress. -/
structure Quiet (s : Shared α) : Prop where
  stat : s.stat = .normal
  active : s.active = 0
  order : s.head ≤ s.tail
  pow : ∃ k, s.capacity = 2 ^ k
  /-- The array has been allocated. -/
  map : s.kmap < s.nextMap

/-- Each stored position has its slot, which holds its value, and all of them fit. -/
structure Laid (values : Nat → α) (s : Shared α) : Prop where
  slots : ∀ p, s.head ≤ p → p < s.tail →
    s.maps s.kmap (slotOf p s.capacity) = ⟨p + 1, some (values p)⟩
  fits : s.tail - s.head ≤ s.capacity

/-- No operation takes slot `j` for one of its own: no pop finds it filled, and a push finds it free
only for a position that belongs there. -/
structure Untaken (s : Shared α) (j : Nat) : Prop where
  empty : (s.maps s.kmap j).data = none
  pop : ∀ p, slotOf p s.capacity = j → (s.maps s.kmap j).sequence ≠ p + 1
  push : ∀ p, (s.maps s.kmap j).sequence = p → slotOf p s.capacity = j

/-- **Growing keeps the layout.**  From every state in which no operation is in progress and each
stored position has its slot, `reset_capa` comes back with head and tail as they were, the double
capacity, the same value at every position, each value moved once, in order, and no other slot that
an operation could take for one of its own. -/
theorem resetCapa_relays {values : Nat → α} (hquiet : Quiet s) (hlaid : Laid values s) (v : α)
    (n : Nat) :
    ∃ s' : Shared α,
      Goes (fun _ => True) ⟨n, s, .closeGate v (s.capacity * 2)⟩
        (List.range' s.head (s.tail - s.head)) ⟨n, s', .loadStat (.push v)⟩ ∧
      s'.head = s.head ∧ s'.tail = s.tail ∧ s'.capacity = s.capacity * 2 ∧
      Quiet s' ∧ Laid values s' ∧
      ∀ j, j < s'.capacity → (∀ p, s.head ≤ p → p < s.tail → slotOf p s'.capacity ≠ j) →
        Untaken s' j := by
  rcases hquiet.pow with ⟨k, hk⟩
  have hdouble : s.capacity * 2 = 2 ^ (k + 1) := by rw [hk, Nat.pow_succ]
  have hceil : bitCeil (s.capacity * 2) = s.capacity * 2 := by rw [hdouble, bitCeil_two_pow]
  have htwo : 2 ≤ s.capacity * 2 := by
    rw [hdouble, Nat.pow_succ]
    exact Nat.le_mul_of_pos_left 2 (Nat.two_pow_pos k)
  have hsize : RingSize (s.capacity * 2) := ⟨htwo, k + 1, hdouble⟩
  have hfits : s.tail - s.head ≤ s.capacity * 2 :=
    hlaid.fits.trans (Nat.le_mul_of_pos_right _ (by decide))
  rcases goes_grown (n := n) (v := v) (P := fun _ => True) (fun _ _ => trivial)
    (fun _ _ => trivial) trivial hquiet.stat hquiet.active hquiet.map hquiet.order htwo
    (hceil.symm ▸ hfits) hlaid.slots with ⟨m, hgoes, hrelaid⟩
  rw [hceil] at hrelaid
  refine ⟨s.grown (s.capacity * 2) m, hgoes, rfl, rfl, hceil, ?_, ?_, ?_⟩
  · exact ⟨rfl, hquiet.active, hquiet.order, ⟨k + 1, hceil.trans hdouble⟩, Nat.lt_succ_self _⟩
  · constructor
    · intro p hp hpt
      show m s.nextMap (slotOf p (bitCeil (s.capacity * 2))) = _
      rw [hceil, slotOf_eq_mod hsize]
      exact hrelaid.moved p hp hpt
    · show s.tail - s.head ≤ bitCeil (s.capacity * 2)
      rwa [hceil]
  · intro j hj hfree
    have hj' : j < s.capacity * 2 := hceil ▸ hj
    have hslot : m s.nextMap j = ⟨j, none⟩ := by
      refine hrelaid.fresh j hj' fun p hp hpt => ?_
      rw [← slotOf_eq_mod hsize, ← hceil]
      exact hfree p hp hpt
    have hown : ∀ p, slotOf p (bitCeil (s.capacity * 2)) = p % (s.capacity * 2) := by
      intro p
      rw [hceil, slotOf_eq_mod hsize]
    constructor
    · exact congrArg NumberedRing.Slot.data hslot
    · intro p hp hseq
      have hnumber : j = p + 1 := (congrArg NumberedRing.Slot.sequence hslot).symm.trans hseq
      have hmod : p % (s.capacity * 2) = j := (hown p).symm.trans hp
      rw [hnumber] at hmod
      exact absurd hmod (Nat.mod_le p _ |>.trans_lt p.lt_succ_self).ne
    · intro p hseq
      have hnumber : j = p := (congrArg NumberedRing.Slot.sequence hslot).symm.trans hseq
      exact (hown p).trans (hnumber ▸ Nat.mod_eq_of_lt hj')

/-- A full ring of two slots whose values wrap around: positions 3 and 4. -/
def wrapped : Shared Nat where
  kmap := 0
  stat := .normal
  head := 3
  tail := 5
  capacity := 2
  active := 0
  maps _ i := if i = 0 then ⟨5, some 40⟩ else ⟨4, some 30⟩
  nextMap := 1
  freed := []
  pushes := []
  returns := []

theorem resetCapa_relays_wrapped :
    ∃ s' : Shared Nat,
      Goes (fun _ => True) ⟨0, wrapped, .closeGate 50 4⟩ [3, 4] ⟨0, s', .loadStat (.push 50)⟩ ∧
      s'.capacity = 4 ∧ Laid (fun p => 10 * p) s' := by
  have hlaid : Laid (fun p => 10 * p) wrapped := by
    refine ⟨fun p hp hpt => ?_, by decide⟩
    rcases (Nat.lt_succ_iff.1 hpt).eq_or_lt with rfl | hlt
    · rfl
    · obtain rfl : p = 3 := le_antisymm (Nat.lt_succ_iff.1 hlt) hp
      rfl
  rcases resetCapa_relays ⟨rfl, rfl, by decide, ⟨1, rfl⟩, by decide⟩ hlaid 50 0 with
    ⟨s', hgoes, -, -, hcapa, -, hlaid', -⟩
  exact ⟨s', hgoes, hcapa, hlaid'⟩

end AtomicQueue
end Thread
end Chenc
