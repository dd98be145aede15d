import Chenc.Thread.AtomicQueue

/-!
# QueueGate — the active region and the thread that grows the queue

`push` and `pop` count themselves in `active_threads_` and then look at `stat_` once more;
`reset_capa` closes the gate and then waits for the count to fall to zero.

* `Pc.inside`, `Pc.counted`, `Pc.resizing`, `Pc.migrating` : where a thread is in this handshake;
* `Moves.active`, `Moves.stat`, `Moves.inside`, `Moves.migrating` : what one operation does to it;
* `Gate` : the count is right, at most one thread grows the queue, and while it migrates nobody
  is inside;
* `View` : what a thread inside has read of the array and its capacity is still true.
-/

namespace Chenc
namespace Thread
namespace AtomicQueue

open Interleaving (Config Counts Reachable Tally)

variable {α : Type}

namespace Pc

/-- Between the second status check and the last decrement. -/
def inside : Pc α → Prop
  | .loadCapa _ | .loadPos _ _ | .loadMap _ _ _ | .loadSeq _ _ | .reserve _ _ | .construct _ _
  | .publish _ | .moveOut _ | .destroy _ _ | .release _ _ | .leave _ => True
  | _ => False

/-- Counted in `active_threads_`. -/
def counted : Pc α → Prop
  | .recheck _ | .backOff _ => True
  | l => l.inside

/-- In `reset_capa`, past the wait for `active_threads_` and with the gate still closed. -/
def migrating : Pc α → Prop
  | .oldCapa _ _ | .oldMap _ _ _ | .alloc _ _ _ _ | .initSeq _ _ _ | .loadHead _ _
  | .loadTail _ _ _ | .transfer _ _ _ _ | .destroyOld _ _ _ _ | .mark _ _ _ _ | .storeMap _ _
  | .storeCapa _ _ | .deleteOld _ _ | .openGate _ _ => True
  | _ => False

/-- In `reset_capa`, past the status CAS. -/
def resizing : Pc α → Prop
  | .quiesce _ _ => True
  | l => l.migrating

theorem counted_of_inside {l : Pc α} (h : l.inside) : l.counted := by
  cases l <;> first | exact trivial | exact h

theorem resizing_of_migrating {l : Pc α} (h : l.migrating) : l.resizing := by
  cases l <;> first | exact trivial | exact h

theorem not_inside_of_resizing {l : Pc α} (h : l.resizing) : ¬ l.inside := by
  cases l <;> first | exact id | exact fun _ => h

end Pc

/-! ## What one operation does to the gate -/

variable {s s' : Shared α} {l l' : Pc α}

/-- The number of threads past the status CAS, by the status. -/
def Status.growers : Status → Nat
  | .normal => 0
  | .resizing => 1

/-- `active_threads_` follows the threads that are counted. -/
theorem Moves.active (h : Moves s l s' l') :
    Tally l.counted s.active l'.counted s'.active := by
  cases h with
  | enter op => exact .enter id trivial
  | backOff op => exact .leave trivial id
  | leave e => cases e <;> exact .leave trivial id
  | _ => exact .stay Iff.rfl

/-- The status follows the thread that is past its CAS. -/
theorem Moves.stat (h : Moves s l s' l') (hl : l.resizing → s.stat = .resizing) :
    Tally l.resizing s.stat.growers l'.resizing s'.stat.growers := by
  cases h with
  | closeGate v n hnormal =>
      rw [hnormal]
      exact .enter id trivial
  | openGate v g =>
      rw [hl trivial]
      exact .leave trivial id
  | leave e => cases e <;> exact .stay Iff.rfl
  | _ => exact .stay Iff.rfl

/-- The active region is entered through an open gate only. -/
theorem Moves.inside (h : Moves s l s' l') (hl : l'.inside) : l.inside ∨ s.stat = .normal := by
  cases h with
  | admitted op hstat => exact .inr hstat
  | leave e => exact .inl trivial
  | _ => first | exact .inl trivial | exact absurd hl id

/-- Migration starts when the thread that closed the gate has seen nobody active. -/
theorem Moves.migrating (h : Moves s l s' l') (hl : l'.migrating) :
    l.migrating ∨ (l.resizing ∧ s.active = 0) := by
  cases h with
  | quiet v n hactive => exact .inr ⟨trivial, hactive⟩
  | leave e => cases e <;> exact absurd hl id
  | _ => first | exact .inl trivial | exact absurd hl id

/-! ## The invariant of the gate -/

variable {ι : Type} [DecidableEq ι]

structure Gate (c : Config ι (Shared α) (Pc α)) : Prop where
  counted : Counts Pc.counted c.shared.active c
  growers : Counts Pc.resizing c.shared.stat.growers c
  quiet (t u : ι) : (c.pc t).migrating → ¬ (c.pc u).inside

namespace Gate

variable {c : Config ι (Shared α) (Pc α)} {t u : ι}

omit [DecidableEq ι] in
theorem unique (h : Gate c) (ht : (c.pc t).resizing) (hu : (c.pc u).resizing) : t = u := by
  refine h.growers.unique ?_ ht hu
  cases c.shared.stat <;> simp [Status.growers]

omit [DecidableEq ι] in
theorem stat_of_resizing (h : Gate c) (ht : (c.pc t).resizing) : c.shared.stat = .resizing := by
  cases hstat : c.shared.stat with
  | resizing => rfl
  | normal =>
      have hzero := h.growers
      rw [hstat] at hzero
      exact absurd ht (hzero.not_of_zero t)

omit [DecidableEq ι] in
theorem start (initial : Nat) :
    Gate (AtomicQueue.start ι initial : Config ι (Shared α) (Pc α)) where
  counted := .zero fun _ => id
  growers := .zero fun _ => id
  quiet _ _ h := absurd h id

theorem step (h : Gate c) {s' : Shared α} {l' : Pc α} (hm : Moves c.shared (c.pc t) s' l') :
    Gate (c.set t s' l') where
  counted := h.counted.tally hm.active
  growers := h.growers.tally (hm.stat h.stat_of_resizing)
  quiet v u hv hu := by
    -- The step brought `v` into the migration, or `u` inside, or neither.
    by_cases hvt : v = t <;> by_cases hut : u = t
    · subst hvt hut
      rw [Config.set_pc_self] at hv hu
      exact Pc.not_inside_of_resizing (Pc.resizing_of_migrating hv) hu
    · subst hvt
      rw [Config.set_pc_self] at hv
      rw [Config.set_pc_of_ne _ _ _ _ hut] at hu
      rcases hm.migrating hv with hmig | ⟨-, hactive⟩
      · exact h.quiet v u hmig hu
      · -- It saw the count at zero, and whoever is inside is counted.
        have hcount := h.counted
        rw [hactive] at hcount
        exact hcount.not_of_zero u (Pc.counted_of_inside hu)
    · subst hut
      rw [Config.set_pc_self] at hu
      rw [Config.set_pc_of_ne _ _ _ _ hvt] at hv
      rcases hm.inside hu with hin | hstat
      · exact h.quiet v u hv hin
      · -- It saw the gate open, which the migrating thread has closed.
        rw [h.stat_of_resizing (Pc.resizing_of_migrating hv)] at hstat
        cases hstat
    · rw [Config.set_pc_of_ne _ _ _ _ hut] at hu
      rw [Config.set_pc_of_ne _ _ _ _ hvt] at hv
      exact h.quiet v u hv hu

end Gate

/-! ## What a thread has read of the array -/

/-- The window is into the current array, by its current capacity. -/
def Window.Current (w : Window) (s : Shared α) : Prop :=
  w.capa = s.capacity ∧ w.map = s.kmap

/-- Locals that were read from `capacity_` and `kmap_`, compared with them. -/
def View (s : Shared α) : Pc α → Prop
  | .loadPos _ capa | .loadMap _ capa _ | .leave (.full _ capa) | .oldMap _ _ capa =>
      capa = s.capacity
  | .loadSeq _ w | .reserve _ w | .construct _ w | .publish w | .moveOut w | .destroy w _
  | .release w _ => w.Current s
  | .alloc _ _ oldCapa oldMap => oldCapa = s.capacity ∧ oldMap = s.kmap
  | .initSeq _ g _ | .loadHead _ g | .loadTail _ g _ | .transfer _ g _ _ | .destroyOld _ g _ _
  | .mark _ g _ _ | .storeMap _ g =>
      g.oldCapa = s.capacity ∧ g.oldMap = s.kmap ∧ s.kmap < g.newMap ∧ g.newMap < s.nextMap
  | .storeCapa _ g => g.newMap = s.kmap ∧ g.oldMap < s.kmap
  | .deleteOld _ g => g.newMap = s.kmap ∧ g.oldMap < s.kmap ∧ g.newCapa = s.capacity
  | _ => True

/-- Arrays are allocated, used and deleted in the order of their numbers. -/
structure Views (c : Config ι (Shared α) (Pc α)) : Prop where
  kmap_lt : c.shared.kmap < c.shared.nextMap
  freed_lt : ∀ m ∈ c.shared.freed, m < c.shared.kmap
  view (t : ι) : View c.shared (c.pc t)

/-- Only the migrating thread exchanges the array. -/
theorem Moves.array (h : Moves s l s' l') (hl : ¬ l.migrating) :
    s'.kmap = s.kmap ∧ s'.capacity = s.capacity ∧ s'.nextMap = s.nextMap ∧
      s'.freed = s.freed := by
  cases h with
  | leave e => cases e <;> exact ⟨rfl, rfl, rfl, rfl⟩
  | _ => first | exact ⟨rfl, rfl, rfl, rfl⟩ | exact absurd trivial hl

theorem View.frame (hkmap : s'.kmap = s.kmap) (hcapa : s'.capacity = s.capacity)
    (hnext : s'.nextMap = s.nextMap) (h : View s l) : View s' l := by
  cases l with
  | leave e => cases e <;> simp_all [View]
  | _ => simp_all [View, Window.Current]

theorem View.of_outside (hin : ¬ l.inside) (hmig : ¬ l.migrating) : View s l := by
  cases l with
  | _ => first | exact trivial | exact absurd trivial hin | exact absurd trivial hmig

/-- What the mover knows after its step. -/
theorem Moves.view (h : Moves s l s' l') (hv : View s l) (hlt : s.kmap < s.nextMap) :
    View s' l' := by
  cases h with
  | leave e => cases e <;> exact trivial
  | loadMap op capa pos => exact ⟨hv, rfl⟩
  | oldMap v n oc => exact ⟨hv, rfl⟩
  | alloc v n oc om =>
      rcases hv with ⟨rfl, rfl⟩
      exact ⟨rfl, rfl, hlt, Nat.lt_succ_self _⟩
  | storeMap v g =>
      rcases hv with ⟨-, hold, hnew, -⟩
      exact ⟨rfl, hold ▸ hnew⟩
  | storeCapa v g => exact ⟨hv.1, hv.2, rfl⟩
  | full v w hseq => exact hv.1
  | _ => first | exact trivial | exact rfl | exact hv

theorem Moves.kmap_lt (h : Moves s l s' l') (hv : View s l) (hlt : s.kmap < s.nextMap) :
    s'.kmap < s'.nextMap := by
  cases h with
  | leave e => cases e <;> exact hlt
  | alloc v n oc om => exact hlt.trans (Nat.lt_succ_self _)
  | storeMap v g => exact hv.2.2.2
  | _ => exact hlt

theorem Moves.freed_lt (h : Moves s l s' l') (hv : View s l) (hlt : ∀ m ∈ s.freed, m < s.kmap) :
    ∀ m ∈ s'.freed, m < s'.kmap := by
  cases h with
  | leave e => cases e <;> exact hlt
  | storeMap v g =>
      intro m hm
      exact (hlt m hm).trans (hv.2.1 ▸ hv.2.2.1)
  | deleteOld v g =>
      intro m hm
      rcases List.mem_cons.1 hm with rfl | hm
      · exact hv.2.1
      · exact hlt m hm
  | _ => exact hlt

namespace Views

variable {c : Config ι (Shared α) (Pc α)} {t u : ι}

omit [DecidableEq ι] in
theorem start (initial : Nat) :
    Views (AtomicQueue.start ι initial : Config ι (Shared α) (Pc α)) where
  kmap_lt := Nat.one_pos
  freed_lt _ hm := absurd hm List.not_mem_nil
  view _ := trivial

theorem step (h : Views c) (hg : Gate c) {s' : Shared α} {l' : Pc α}
    (hm : Moves c.shared (c.pc t) s' l') : Views (c.set t s' l') where
  kmap_lt := hm.kmap_lt (h.view t) h.kmap_lt
  freed_lt := hm.freed_lt (h.view t) h.freed_lt
  view := by
    refine (Config.forall_set c t s' l').2 ⟨hm.view (h.view t) h.kmap_lt, fun u hu => ?_⟩
    by_cases hmig : (c.pc t).migrating
    · -- Nobody else is inside or migrating, so nobody else has a view to keep.
      refine .of_outside (hg.quiet t u hmig) fun hmig' => ?_
      exact hu (hg.unique (Pc.resizing_of_migrating hmig') (Pc.resizing_of_migrating hmig))
    · rcases hm.array hmig with ⟨hkmap, hcapa, hnext, -⟩
      exact (h.view u).frame hkmap hcapa hnext

end Views

/-! ## Reachable configurations -/

variable {ok : Shared α → Pc α → Prop} {initial : Nat} {c : Config ι (Shared α) (Pc α)}

/-- In every run, of any queue, the gate works and views are current. -/
theorem gate_and_views (h : Reachable step ok (start ι initial) c) : Gate c ∧ Views c := by
  refine h.rule (I := fun c => Gate c ∧ Views c) ⟨Gate.start initial, Views.start initial⟩ ?_
  intro c t a s l _ hc _ hstep
  have hm := Moves.of_step hstep
  exact ⟨hc.1.step hm, hc.2.step hc.1 hm⟩

end AtomicQueue
end Thread
end Chenc
