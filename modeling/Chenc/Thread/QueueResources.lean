import Chenc.Thread.QueueSafety

/-!
# QueueResources — every object is destroyed and every array deleted, once

* `destructor` : `~atomic_queue`, with what it finds in the slots it destroys;
* `Arrays` : the arrays deleted so far are all that came before the one in use;
* `Occupied`, `Objects` : an object is in the array in use, or in the one it is being moved to;
* `Emptying` : what a migration leaves behind it in the old array;
* `destructor_leaves_nothing` : with no operation in progress, the destructor destroys the values
  that are left, each once, and nothing else is left.
-/

namespace Chenc
namespace Thread
namespace AtomicQueue

open Interleaving (Config Reachable runSchedule)
open NumberedRing (Board)

variable {α : Type} {s s' : Shared α} {l l' : Pc α}

/-- The loop of the destructor, with what each pass destroys. -/
def destroyAll (s : Shared α) : List Nat → Shared α × List (Option α)
  | [] => (s, [])
  | i :: is =>
      let w : Window := ⟨s.capacity, i, s.kmap⟩
      let rest := destroyAll (s.setData w none) is
      (rest.1, (s.node w).data :: rest.2)

/-- `~atomic_queue`. -/
def destructor (s : Shared α) : Shared α × List (Option α) :=
  let r := destroyAll s (List.range' s.head (s.tail - s.head))
  ({ r.1 with freed := r.1.kmap :: r.1.freed }, r.2)

/-! ## Arrays -/

/-- Arrays that are allocated and not in use yet. -/
def Pc.ahead : Pc α → Nat
  | .initSeq _ _ _ | .loadHead _ _ | .loadTail _ _ _ | .transfer _ _ _ _ | .destroyOld _ _ _ _
  | .mark _ _ _ _ | .storeMap _ _ => 1
  | _ => 0

/-- Arrays that are no longer in use and not deleted yet. -/
def Pc.behind : Pc α → Nat
  | .storeCapa _ _ | .deleteOld _ _ => 1
  | _ => 0

/-- The array that has been replaced. -/
def Pc.replaced : Pc α → Option Nat
  | .storeCapa _ g | .deleteOld _ g => some g.oldMap
  | _ => none

/-- The arrays are numbered in the order in which they are used. -/
structure Ordered (s : Shared α) (l : Pc α) : Prop where
  next : s.nextMap = s.kmap + 1 + l.ahead
  freed : s.freed = (List.range (s.kmap - l.behind)).reverse
  replaced {m : Nat} : l.replaced = some m → m + 1 = s.kmap

theorem Moves.ordered (h : Moves s l s' l') (hv : View s l) (ho : Ordered s l) :
    Ordered s' l' := by
  rcases ho with ⟨hnext, hfreed, hreplaced⟩
  cases h with
  | alloc v n oc om => exact ⟨congrArg (· + 1) hnext, hfreed, fun hm => by cases hm⟩
  | storeMap v g =>
      have hold : g.oldMap = s.kmap := hv.2.1
      have hlt : s.kmap < g.newMap ∧ g.newMap < s.nextMap := hv.2.2
      have hnext' : s.nextMap = s.kmap + 1 + 1 := hnext
      have hnew : g.newMap = s.kmap + 1 := by omega
      constructor
      · show s.nextMap = g.newMap + 1 + 0
        omega
      · show s.freed = (List.range (g.newMap - 1)).reverse
        rw [hnew]
        exact hfreed
      · intro m hm
        cases hm
        show g.oldMap + 1 = g.newMap
        omega
  | storeCapa v g => exact ⟨hnext, hfreed, hreplaced⟩
  | deleteOld v g =>
      have hold : g.oldMap + 1 = s.kmap := hreplaced rfl
      refine ⟨hnext, ?_, fun hm => by cases hm⟩
      show g.oldMap :: s.freed = (List.range (s.kmap - 0)).reverse
      have hfreed' : s.freed = (List.range (s.kmap - 1)).reverse := hfreed
      rw [hfreed', ← hold, Nat.add_sub_cancel, Nat.sub_zero, List.range_succ, List.reverse_append]
      rfl
  | leave e => cases e <;> exact ⟨hnext, hfreed, fun hm => by cases hm⟩
  | _ => exact ⟨hnext, hfreed, fun hm => by cases hm⟩

theorem Ordered.of_outside (h : Ordered s l) (hl : ¬ l.migrating) (hl' : ¬ l'.migrating) :
    Ordered s l' := by
  have hzero : ∀ k : Pc α, ¬ k.migrating → k.ahead = 0 ∧ k.behind = 0 ∧ k.replaced = none := by
    intro k hk
    cases k with
    | _ => first | exact ⟨rfl, rfl, rfl⟩ | exact absurd trivial hk
  rcases hzero l hl with ⟨hahead, hbehind, -⟩
  rcases hzero l' hl' with ⟨hahead', hbehind', hreplaced'⟩
  constructor
  · rw [h.next, hahead, hahead']
  · rw [h.freed, hbehind, hbehind']
  · intro m hm
    rw [hreplaced'] at hm
    cases hm

variable {ι : Type} [DecidableEq ι] {held : Nat → Option Stage}
  {c : Config ι (Shared α) (Pc α)} {t : ι}

/-- Each array but the one in use, and those that a migration has in hand, has been deleted. -/
structure Arrays (c : Config ι (Shared α) (Pc α)) : Prop where
  migrating {t : ι} : (c.pc t).migrating → Ordered c.shared (c.pc t)
  quiet : (∀ t, ¬ (c.pc t).migrating) → Ordered c.shared .idle

namespace Arrays

omit [DecidableEq ι] in
theorem start (initial : Nat) :
    Arrays (AtomicQueue.start ι initial : Config ι (Shared α) (Pc α)) where
  migrating h := absurd h id
  quiet _ := ⟨rfl, rfl, fun hm => by cases hm⟩

omit [DecidableEq ι] in
/-- What the only thread that may be migrating finds. -/
theorem ordered (h : Arrays c) (hothers : ∀ u, u ≠ t → ¬ (c.pc u).migrating) :
    Ordered c.shared (c.pc t) := by
  by_cases ht : (c.pc t).migrating
  · exact h.migrating ht
  · refine (h.quiet fun u => ?_).of_outside id ht
    by_cases hut : u = t
    · exact hut ▸ ht
    · exact hothers u hut

theorem step (h : Arrays c) (hs : Sound c) (hm : Moves c.shared (c.pc t) s' l') :
    Arrays (c.set t s' l') := by
  by_cases hothers : ∀ u, u ≠ t → ¬ (c.pc u).migrating
  · have hordered := hm.ordered (hs.views.view t) (h.ordered hothers)
    constructor
    · intro u hu
      by_cases hut : u = t
      · subst hut
        rw [Config.set_pc_self]
        exact hordered
      · rw [Config.set_pc_of_ne _ _ _ _ hut] at hu
        exact absurd hu (hothers u hut)
    · intro hnone
      have ht := hnone t
      rw [Config.set_pc_self] at ht
      exact hordered.of_outside ht id
  · -- Somebody else is migrating: the mover touches no array, and does not begin to migrate.
    push Not at hothers
    rcases hothers with ⟨v, hvt, hv⟩
    have hmig : ¬ (c.pc t).migrating := fun ht =>
      hvt (hs.gate.unique (Pc.resizing_of_migrating hv) (Pc.resizing_of_migrating ht))
    rcases hm.array hmig with ⟨hkmap, -, hnext, hfreed⟩
    have hkeep : ∀ u, Ordered c.shared (c.pc u) → Ordered s' (c.pc u) := by
      intro u hu
      constructor
      · rw [hnext, hkmap]
        exact hu.next
      · rw [hfreed, hkmap]
        exact hu.freed
      · rw [hkmap]
        exact hu.replaced
    constructor
    · intro u hu
      by_cases hut : u = t
      · subst hut
        rw [Config.set_pc_self] at hu
        rcases hm.migrating hu with hmig' | ⟨hres, -⟩
        · exact absurd hmig' hmig
        · exact absurd (hs.gate.unique (Pc.resizing_of_migrating hv) hres) hvt
      · rw [Config.set_pc_of_ne _ _ _ _ hut] at hu ⊢
        exact hkeep u (h.migrating hu)
    · intro hnone
      refine absurd hv ?_
      have hstill := hnone v
      rwa [Config.set_pc_of_ne _ _ _ _ hvt] at hstill

end Arrays

/-! ## Objects -/

/-- Between the store of the new array and the store of its capacity. -/
def Pc.swapped : Pc α → Prop
  | .storeCapa _ _ => True
  | _ => False

/-- Where an object may be. -/
inductive Occupied (c : Config ι (Shared α) (Pc α)) (m j : Nat) : Prop
  | inUse : (∀ t, ¬ (c.pc t).swapped) → m = c.shared.kmap → j < c.shared.capacity →
      Occupied c m j
  | moving (t : ι) (g : Growth) : (c.pc t).target = some g → m = g.newMap → j < g.newCapa →
      Occupied c m j

def Objects (c : Config ι (Shared α) (Pc α)) : Prop :=
  ∀ m j, (c.shared.maps m j).data ≠ none → Occupied c m j

/-- What a migration has not yet moved, or destroyed, in the old array. -/
def Emptying (s : Shared α) : Pc α → Prop
  | .transfer _ g i t | .destroyOld _ g i t =>
      ∀ j, (s.maps g.oldMap j).data ≠ none → ∃ p, i ≤ p ∧ p < t ∧ p % g.oldCapa = j
  | .mark _ g i t =>
      ∀ j, (s.maps g.oldMap j).data ≠ none → ∃ p, i < p ∧ p < t ∧ p % g.oldCapa = j
  | .storeMap _ g => ∀ j, (s.maps g.oldMap j).data = none
  | _ => True

theorem data_setNode {m i m' j : Nat} {x : Node α}
    (h : ((s.setNode m i x).maps m' j).data ≠ none) :
    (m' = m ∧ j = i ∧ x.data ≠ none) ∨ (¬ (m' = m ∧ j = i) ∧ (s.maps m' j).data ≠ none) := by
  by_cases hm : m' = m
  · subst hm
    rw [Shared.setNode_maps_self] at h
    by_cases hj : j = i
    · subst hj
      rw [Function.update_self] at h
      exact .inl ⟨rfl, rfl, h⟩
    · rw [Function.update_of_ne hj] at h
      exact .inr ⟨fun heq => hj heq.2, h⟩
  · rw [Shared.setNode_maps_of_ne _ hm] at h
    exact .inr ⟨fun heq => hm heq.1, h⟩

/-- A store of a sequence number constructs nothing. -/
theorem data_setSequence {w : Window} {n m j : Nat}
    (h : ((s.setSequence w n).maps m j).data ≠ none) : (s.maps m j).data ≠ none := by
  rcases data_setNode h with ⟨rfl, rfl, hdata⟩ | ⟨-, hdata⟩
  · exact hdata
  · exact hdata

theorem data_setData_none {w : Window} {m j : Nat}
    (h : ((s.setData w none).maps m j).data ≠ none) :
    ¬ (m = w.map ∧ j = w.slot) ∧ (s.maps m j).data ≠ none := by
  rcases data_setNode h with ⟨-, -, hdata⟩ | hrest
  · exact absurd rfl hdata
  · exact hrest

theorem Window.slot_lt {w : Window} (hN : RingSize w.capa) : w.slot < w.capa := by
  have htwo := hN.two_le
  rw [Window.slot, slotOf_eq_mod hN]
  exact Nat.mod_lt _ (by omega)

/-- The objects that a step constructs. -/
theorem Moves.constructs (h : Moves s l s' l') (hv : View s l) (hN : RingSize s.capacity)
    (hl : Sized l) {m j : Nat} (hdata : (s'.maps m j).data ≠ none) :
    (s.maps m j).data ≠ none ∨ (l.inside ∧ m = s.kmap ∧ j < s.capacity) ∨
      ∃ g, l'.target = some g ∧ m = g.newMap ∧ j < g.newCapa := by
  cases h with
  | construct v w =>
      rcases data_setNode hdata with ⟨rfl, rfl, -⟩ | ⟨-, hold⟩
      · have hcapa : w.capa = s.capacity := hv.1
        exact .inr (.inl ⟨trivial, hv.2, hcapa ▸ Window.slot_lt (hcapa ▸ hN)⟩)
      · exact .inl hold
  | publish w | release w res => exact .inl (data_setSequence hdata)
  | destroy w res => exact .inl (data_setData_none hdata).2
  | alloc v n oc om =>
      by_cases hm : m = s.nextMap
      · subst hm
        rw [Shared.allocate_maps_new] at hdata
        exact absurd rfl hdata
      · rw [Shared.allocate_maps_of_ne s hm] at hdata
        exact .inl hdata
  | initSeq v g i hi =>
      rcases data_setNode hdata with ⟨rfl, rfl, hold⟩ | ⟨-, hold⟩
      · exact .inl hold
      · exact .inl hold
  | transfer v g i t hi =>
      rcases data_setNode hdata with ⟨rfl, rfl, -⟩ | ⟨-, hold⟩
      · exact .inr (.inr ⟨g, rfl, rfl, Window.slot_lt hl⟩)
      · exact .inl hold
  | destroyOld v g i t => exact .inl (data_setData_none hdata).2
  | mark v g i t => exact .inl (data_setSequence hdata)
  | leave e => cases e <;> exact .inl hdata
  | _ => exact .inl hdata

/-- The migration goes on to move the objects to the same array. -/
theorem Moves.target (h : Moves s l s' l') (hl : ¬ l.swapped) {g : Growth}
    (ht : l.target = some g) : l'.target = some g := by
  cases h with
  | storeCapa v g' => exact absurd trivial hl
  | leave e => cases e <;> cases ht
  | _ => first | exact ht | cases ht

/-- The array in use is exchanged in two steps. -/
theorem Moves.swapped (h : Moves s l s' l') :
    (s'.kmap = s.kmap ∧ s'.capacity = s.capacity ∧ ¬ l.swapped ∧ ¬ l'.swapped) ∨
      (∃ v g, l = .storeMap v g ∧ l' = .storeCapa v g ∧ s' = { s with kmap := g.newMap }) ∨
      ∃ v g, l = .storeCapa v g ∧ l' = .deleteOld v g ∧ s' = { s with capacity := g.newCapa } := by
  cases h with
  | storeMap v g => exact .inr (.inl ⟨v, g, rfl, rfl, rfl⟩)
  | storeCapa v g => exact .inr (.inr ⟨v, g, rfl, rfl, rfl⟩)
  | leave e => cases e <;> exact .inl ⟨rfl, rfl, id, id⟩
  | _ => exact .inl ⟨rfl, rfl, id, id⟩

theorem Pc.migrating_of_swapped (h : l.swapped) : l.migrating := by
  cases l <;> first | exact trivial | exact absurd h id

theorem Pc.migrating_of_target {g : Growth} (h : l.target = some g) : l.migrating := by
  cases l <;> first | exact trivial | cases h

namespace Objects

omit [DecidableEq ι] in
theorem start (initial : Nat) :
    Objects (AtomicQueue.start ι initial : Config ι (Shared α) (Pc α)) :=
  fun _ _ hdata => absurd rfl hdata

theorem step (h : Objects c) (hs : Sound c) (hempty : Emptying c.shared (c.pc t))
    (hm : Moves c.shared (c.pc t) s' l') : Objects (c.set t s' l') := by
  intro m j hdata
  have hview := hs.views.view t
  -- At most one thread is migrating.
  have honly : ∀ u, (c.pc t).migrating → (c.pc u).migrating → u = t := fun u ht hu =>
    hs.gate.unique (Pc.resizing_of_migrating hu) (Pc.resizing_of_migrating ht)
  rcases hm.swapped with ⟨hkmap, hcapa, hl, hl'⟩ | ⟨v, g, hl, rfl, rfl⟩ | ⟨v, g, hl, rfl, rfl⟩
  · have hstay : (∀ u, u ≠ t → ¬ (c.pc u).swapped) → m = c.shared.kmap →
        j < c.shared.capacity → Occupied (c.set t s' l') m j := by
      intro hnone hmap hj
      refine .inUse ?_ (hmap.trans hkmap.symm) (hj.trans_eq hcapa.symm)
      exact (Config.forall_set (P := fun l => ¬ l.swapped) c t s' l').2 ⟨hl', hnone⟩
    rcases hm.constructs hview hs.size (hs.sized t) hdata with
      hold | ⟨hin, hmap, hj⟩ | ⟨g, htarget, hmap, hj⟩
    · rcases h m j hold with ⟨hnone, hmap, hj⟩ | ⟨u, g, htarget, hmap, hj⟩
      · exact hstay (fun u _ => hnone u) hmap hj
      · refine .moving u g ?_ hmap hj
        by_cases hut : u = t
        · subst hut
          rw [Config.set_pc_self]
          exact hm.target hl htarget
        · rwa [Config.set_pc_of_ne _ _ _ _ hut]
    · refine hstay (fun u _ hu => ?_) hmap hj
      exact hs.gate.quiet u t (Pc.migrating_of_swapped hu) hin
    · exact .moving t g (by rwa [Config.set_pc_self]) hmap hj
  · -- Nothing is left in the old array.
    rw [hl] at hempty hview honly
    rcases h m j hdata with ⟨-, hmap, -⟩ | ⟨u, g', htarget, hmap, hj⟩
    · have hold : g.oldMap = c.shared.kmap := hview.2.1
      rw [hmap, ← hold] at hdata
      exact absurd (hempty j) hdata
    · have hut := honly u trivial (Pc.migrating_of_target htarget)
      rw [hut, hl] at htarget
      cases htarget
      exact .moving t g (by rw [Config.set_pc_self]; rfl) hmap hj
  · -- The objects are in the new array, which is now in use with its own capacity.
    rw [hl] at hview honly
    rcases h m j hdata with ⟨hnone, -, -⟩ | ⟨u, g', htarget, hmap, hj⟩
    · exact absurd (hl ▸ trivial) (hnone t)
    · have hut := honly u trivial (Pc.migrating_of_target htarget)
      rw [hut, hl] at htarget
      cases htarget
      have hnew : g.newMap = c.shared.kmap := hview.1
      refine .inUse ?_ (hmap.trans hnew) hj
      refine (Config.forall_set (P := fun l => ¬ l.swapped) c t _ _).2 ⟨id, fun u hut hu => ?_⟩
      exact hut (honly u trivial (Pc.migrating_of_swapped hu))

end Objects

/-- Outside the active region and the migration no slot is written. -/
theorem Moves.maps_eq (h : Moves s l s' l') (hin : ¬ l.inside) (hmig : ¬ l.migrating) :
    s'.maps = s.maps := by
  cases h with
  | leave e => exact absurd trivial hin
  | _ => first | rfl | exact absurd trivial hin | exact absurd trivial hmig

theorem Emptying.congr (h : Emptying s l) (hmaps : s'.maps = s.maps) : Emptying s' l := by
  cases l with
  | _ => first | exact trivial | simpa only [Emptying, hmaps] using h

theorem Emptying.of_not_moving (h : ¬ l.moving) : Emptying s l := by
  cases l with
  | _ => first | exact trivial | exact absurd trivial h

omit [DecidableEq ι] in
/-- What the migrating thread leaves behind. -/
theorem Objects.emptying_mover (h : Objects c) (hinv : Inv held c) (hs : Sound c)
    (hempty : Emptying c.shared (c.pc t)) (hm : Moves c.shared (c.pc t) s' l') :
    Emptying s' l' := by
  have hview := hs.views.view t
  generalize hl : c.pc t = l at hm hview hempty
  cases hm with
  | loadTail v g hd =>
      -- Before the first transfer the old array is the one in use.
      intro j hdata
      have hold : g.oldMap = c.shared.kmap := hview.2.1
      have hcapa : g.oldCapa = c.shared.capacity := hview.1
      rw [hold] at hdata
      rcases h _ j hdata with ⟨-, -, hj⟩ | ⟨u, g', htarget, -, -⟩
      · have hB := hinv.board_of_migrating hs.gate (t := t) (hl ▸ trivial) (hl ▸ id)
        rw [hinv.wanted_of_outside fun u => hs.gate.quiet t u (hl ▸ trivial)] at hB
        have hprog : Progress c.shared (.loadTail v g hd) := hl ▸ hinv.progress t
        by_contra hnone
        refine hdata (hB.vacant hj fun p x hp hslot => hnone ⟨p, ?_⟩).1
        rcases span_eq_some hp with ⟨hhead, htail⟩
        exact ⟨hprog.2 ▸ hhead, htail, hcapa ▸ hslot⟩
      · have hut : u = t := hs.gate.unique
          (Pc.resizing_of_migrating (Pc.migrating_of_target htarget))
          (Pc.resizing_of_migrating (hl ▸ trivial))
        rw [hut, hl] at htarget
        cases htarget
  | transfer v g i n hi =>
      have hne : g.oldMap ≠ g.newMap := by
        rw [hview.2.1]
        exact hview.2.2.1.ne
      intro j hdata
      rcases data_setNode hdata with ⟨hmap, -, -⟩ | ⟨-, hold⟩
      · exact absurd hmap hne
      · exact hempty j hold
  | transferDone v g i n hi =>
      intro j
      by_contra hdata
      rcases hempty j hdata with ⟨p, hp, hpn, -⟩
      omega
  | destroyOld v g i n =>
      have hold : RingSize g.oldCapa := hview.1 ▸ hs.size
      intro j hdata
      rcases data_setData_none hdata with ⟨hslot, hrest⟩
      rcases hempty j hrest with ⟨p, hp, hpn, hpj⟩
      refine ⟨p, lt_of_le_of_ne hp ?_, hpn, hpj⟩
      rintro rfl
      refine hslot ⟨rfl, ?_⟩
      rw [Window.slot, slotOf_eq_mod hold]
      exact hpj.symm
  | mark v g i n =>
      intro j hdata
      exact hempty j (data_setSequence hdata)
  | leave e => cases e <;> exact trivial
  | _ => exact trivial

/-- What holds of arrays and objects in every run. -/
structure Resources (c : Config ι (Shared α) (Pc α)) : Prop where
  arrays : Arrays c
  objects : Objects c
  emptying (t : ι) : Emptying c.shared (c.pc t)

namespace Resources

omit [DecidableEq ι] in
theorem start (initial : Nat) :
    Resources (AtomicQueue.start ι initial : Config ι (Shared α) (Pc α)) :=
  ⟨.start initial, .start initial, fun _ => trivial⟩

theorem step (h : Resources c) (hinv : Inv held c) (hs : Sound c)
    (hm : Moves c.shared (c.pc t) s' l') : Resources (c.set t s' l') where
  arrays := h.arrays.step hs hm
  objects := h.objects.step hs (h.emptying t) hm
  emptying := by
    refine (Config.forall_set c t s' l').2
      ⟨h.objects.emptying_mover hinv hs (h.emptying t) hm, fun u hut => ?_⟩
    by_cases hmov : (c.pc u).moving
    · -- Somebody else is migrating, so the mover writes no slot.
      have hu := Pc.migrating_of_moving hmov
      refine (h.emptying u).congr (hm.maps_eq (hs.gate.quiet u t hu) fun ht => hut ?_)
      exact hs.gate.unique (Pc.resizing_of_migrating hu) (Pc.resizing_of_migrating ht)
    · exact .of_not_moving hmov

end Resources

theorem resources_of_reachable {initial : Nat} (h : 2 ≤ initial)
    (hc : Reachable step Fits (AtomicQueue.start ι initial) c) :
    (Sound c ∧ ∃ held, Inv held c) ∧ Resources c := by
  refine hc.rule (I := fun c => (Sound c ∧ ∃ held, Inv held c) ∧ Resources c)
    ⟨⟨Sound.start h, _, Inv.start h⟩, .start initial⟩ ?_
  rintro c t a s l - ⟨⟨hs, held, hi⟩, hr⟩ hok hstep
  have hm := Moves.of_step hstep
  exact ⟨⟨hs.step hm, hi.step hs hok hm⟩, hr.step hi hs hm⟩

/-! ## The destructor -/

/-- The positions from `i` on are stored, and nothing else is. -/
structure Remaining (s : Shared α) (i : Nat) : Prop where
  stored {p : Nat} : i ≤ p → p < s.tail → s.maps s.kmap (p % s.capacity) = ⟨p + 1, s.pushes[p]?⟩
  only {m j : Nat} : (s.maps m j).data ≠ none →
    m = s.kmap ∧ ∃ p, i ≤ p ∧ p < s.tail ∧ p % s.capacity = j

namespace Remaining

variable {i : Nat}

/-- One pass of the loop. -/
theorem next (h : Remaining s i) (hN : RingSize s.capacity) (hi : i < s.tail) :
    Remaining (s.setData ⟨s.capacity, i, s.kmap⟩ none) (i + 1) := by
  have hslot : (⟨s.capacity, i, s.kmap⟩ : Window).slot = i % s.capacity := slotOf_eq_mod hN i
  constructor
  · intro p hp hpt
    have hne : p % s.capacity ≠ i % s.capacity := by
      intro heq
      have hnode := h.stored (Nat.le_of_succ_le hp) hpt
      rw [heq, h.stored le_rfl hi] at hnode
      have hseq : i + 1 = p + 1 := congrArg NumberedRing.Slot.sequence hnode
      omega
    show (s.setNode s.kmap _ _).maps s.kmap (p % s.capacity) = _
    rw [Shared.setNode_maps_self, hslot, Function.update_of_ne hne]
    exact h.stored (Nat.le_of_succ_le hp) hpt
  · intro m j hdata
    rcases data_setData_none hdata with ⟨hfree, hold⟩
    rcases h.only hold with ⟨hmap, p, hp, hpt, hpj⟩
    refine ⟨hmap, p, lt_of_le_of_ne hp ?_, hpt, hpj⟩
    rintro rfl
    exact hfree ⟨hmap, hpj.symm.trans hslot.symm⟩

/-- The loop. -/
theorem after_loop (h : Remaining s i) (hN : RingSize s.capacity)
    (hlength : s.pushes.length = s.tail) :
    (∀ m j, ((destroyAll s (List.range' i (s.tail - i))).1.maps m j).data = none) ∧
      (destroyAll s (List.range' i (s.tail - i))).1.freed = s.freed ∧
      (destroyAll s (List.range' i (s.tail - i))).1.kmap = s.kmap ∧
      (destroyAll s (List.range' i (s.tail - i))).2 = (s.pushes.drop i).map some := by
  induction hn : s.tail - i generalizing s i with
  | zero =>
      refine ⟨fun m j => ?_, rfl, rfl, ?_⟩
      · by_contra hdata
        rcases h.only hdata with ⟨-, p, hp, hpt, -⟩
        omega
      · rw [List.drop_of_length_le (by omega)]
        rfl
  | succ n ih =>
      have hi : i < s.tail := by omega
      rcases ih (h.next hN hi) hN hlength (show s.tail - (i + 1) = n by omega) with
        ⟨hnone, hfreed, hkmap, hdestroyed⟩
      refine ⟨hnone, hfreed, hkmap, ?_⟩
      have hfirst : (s.node ⟨s.capacity, i, s.kmap⟩).data = s.pushes[i]? := by
        rw [node_eq (w := ⟨s.capacity, i, s.kmap⟩) ⟨rfl, rfl⟩ hN, h.stored le_rfl hi]
      have hpos : i < s.pushes.length := hlength ▸ hi
      show (s.node ⟨s.capacity, i, s.kmap⟩).data :: _ = _
      rw [hfirst, hdestroyed, List.drop_eq_getElem_cons hpos, List.getElem?_eq_getElem hpos]
      rfl

end Remaining

def Pc.isIdle : Pc α → Bool
  | .idle => true
  | _ => false

theorem Pc.eq_idle (h : l.isIdle) : l = .idle := by
  cases l with
  | idle => rfl
  | _ => exact absurd h Bool.false_ne_true

/-- What the destructor has done in the end. -/
structure LeavesNothing (s : Shared α) : Prop where
  /-- It destroys the values that are left, in their order. -/
  destroyed : (destructor s).2 = (s.pushes.drop s.head).map some
  objects (m j : Nat) : ((destructor s).1.maps m j).data = none
  /-- Each array has been deleted, and none twice. -/
  arrays : (destructor s).1.freed = (List.range s.nextMap).reverse

/-- **No object and no array is left, and none is given up twice.**  After every run of a queue with
at least two slots whose migrations fit, for any number of threads, when no operation is in progress
the destructor destroys exactly the values that were pushed and not popped, each once and in their
order; then no slot of any array ever allocated holds an object, and each of these arrays has been
deleted exactly once. -/
theorem destructor_leaves_nothing {initial : Nat} (h : 2 ≤ initial)
    (hc : Reachable step Fits (AtomicQueue.start ι initial) c) (hidle : ∀ t, c.pc t = .idle) :
    LeavesNothing c.shared := by
  rcases resources_of_reachable h hc with ⟨⟨hs, held, hi⟩, hr⟩
  have hout : ∀ t, ¬ (c.pc t).inside := fun t => hidle t ▸ id
  have hB := hi.board fun t => hidle t ▸ id
  rw [hi.wanted_of_outside hout] at hB
  have hremaining : Remaining c.shared c.shared.head := by
    constructor
    · intro p hp hpt
      exact hB.holds (if_pos ⟨hp, hpt⟩)
    · intro m j hdata
      rcases hr.objects m j hdata with ⟨-, hmap, hj⟩ | ⟨t, g, htarget, -, -⟩
      · refine ⟨hmap, ?_⟩
        rw [hmap] at hdata
        by_contra hnone
        refine hdata (hB.vacant hj fun p x hp hslot => hnone ⟨p, ?_⟩).1
        rcases span_eq_some hp with ⟨hhead, htail⟩
        exact ⟨hhead, htail, hslot⟩
      · rw [hidle t] at htarget
        cases htarget
  rcases hremaining.after_loop hs.size hi.ledger.length with ⟨hnone, hfreed, hkmap, hdestroyed⟩
  have hordered := hr.arrays.quiet fun t => hidle t ▸ id
  have hnext : c.shared.nextMap = c.shared.kmap + 1 := hordered.next
  have hold : c.shared.freed = (List.range c.shared.kmap).reverse := hordered.freed
  refine ⟨hdestroyed, hnone, ?_⟩
  show (destroyAll c.shared _).1.kmap :: (destroyAll c.shared _).1.freed = _
  rw [hfreed, hkmap, hold, hnext, List.range_succ, List.reverse_append]
  rfl

/-- Three pushes of one thread, of which the last grows the queue from two slots to four. -/
def growing : List (Bool × Act Nat) :=
  call true (.push 10) 11 ++ call true (.push 11) 11 ++ call true (.push 12) 42

/-- After the growth from two slots to four. -/
theorem destructor_leaves_nothing_grown :
    ∃ c : Config Bool (Shared Nat) (Pc Nat),
      runSchedule step Fits growing (AtomicQueue.start Bool 2) = some c ∧
      c.shared.freed = [0] ∧ (destructor c.shared).2 = [some 10, some 11, some 12] ∧
      LeavesNothing c.shared := by
  have hrun : (runSchedule step Fits growing (AtomicQueue.start Bool 2)).map
      (fun c => (c.shared.freed, (destructor c.shared).2, (c.pc true).isIdle,
        (c.pc false).isIdle)) =
        some ([0], [some 10, some 11, some 12], true, true) := by
    decide +kernel
  rcases Option.map_eq_some_iff.1 hrun with ⟨c, hc, hquad⟩
  rcases Prod.mk.inj hquad with ⟨hfreed, htriple⟩
  rcases Prod.mk.inj htriple with ⟨hdestroyed, hpair⟩
  rcases Prod.mk.inj hpair with ⟨htrue, hfalse⟩
  refine ⟨c, hc, hfreed, hdestroyed, ?_⟩
  refine destructor_leaves_nothing (le_refl 2) (Reachable.start.runSchedule hc) fun t => ?_
  cases t
  · exact Pc.eq_idle hfalse
  · exact Pc.eq_idle htrue

end AtomicQueue
end Thread
end Chenc
