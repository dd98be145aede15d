import Chenc.Lib.Sleeping
import Chenc.Lock.SharedMutexWaiters

/-!
# SharedMutexWakeup — who wakes the threads that sleep

* `Careful` : the condition that no exclusive release wipes out the pending bit of a writer that is
  still in its loop, and that no counter runs over;
* `discipline`, `lawful` : when the lock is closed, who helps, and who waits with the present
  signal;
* `Wakeful` : the invariant, with one lemma a field, and `Wakeful.keeps` for those who sleep;
* `not_stuck_of_careful`, `pending_wiped_hangs` : the condition is enough, and it is needed.
-/

namespace Chenc
namespace Lock
namespace SharedMutex

open Interleaving (Config Counts)
open Parking (Signal Delivers Reachable runSchedule)
open Sleeping (Discipline)

/-! ## The discipline -/

def discipline : Discipline Shared Pc Kind where
  closed s k := (decode s.lockState).Closed k
  helps s k l := l.helps s k
  waits k l := l.waits k
  current s k l := l.current s k
  notifies k l := l = .notify k

theorem lawful : discipline.Lawful program where
  waits_of_parked := Pc.waits_of_parked
  waits_of_current h := h.1
  awake_of_helps := Pc.parked_of_helps
  awake_of_notifies h := by
    cases h
    rfl
  awake_of_resume h := Pc.parked_resume _ _ h
  current_of_resume := Pc.current_of_resume

/-- An idle thread neither helps nor notifies. -/
theorem idle_at_rest {s : Shared} (k : Kind) :
    ¬ discipline.helps s k .idle ∧ ¬ discipline.notifies k .idle :=
  ⟨by cases k <;> exact id, Pc.noConfusion⟩

/-! ## The invariant -/

variable {ι : Type} [DecidableEq ι] {c c' : Config ι Shared Pc} {t : ι} {k : Kind}
variable {s s' : Shared} {l l' : Pc} {sig : Signal Kind}

/-- The condition on a step: an exclusive release that stores zero finds no writer in its loop; a
count does not run over, nor does a signal come round to a value that a thread still waits for;
and there are fewer than `2^30` readers. -/
structure Careful (c : Config ι Shared Pc) (t : ι) (c' : Config ι Shared Pc) : Prop where
  release {k : Kind} : c.pc t = .release k false → ∀ u, ¬ (c.pc u).slow
  count {k : Kind} : c.pc t = .register k → c.shared.waitCount k ≠ -1
  signal {k : Kind} : c.pc t = .bump k → ∀ u, ¬ (c.pc u).expects k (c.shared.signal k + 1)
  readers : FewReaders c'

/-- Whoever waits for the lock may go on waiting: it is not free, or somebody will see to it. -/
def Attended (k : Kind) (c : Config ι Shared Pc) : Prop :=
  (decode c.shared.lockState).Closed k ∨ ∃ t, (c.pc t).helps c.shared k

structure Wakeful (c : Config ι Shared Pc) : Prop where
  base : Inv c
  count (k : Kind) : Counts (fun l => l.registered = some k) (c.shared.waitCount k).toNat c
  announced (t : ι) : (c.pc t).slow → (decode c.shared.lockState).pending = true
  pending : (decode c.shared.lockState).pending = true →
    (decode c.shared.lockState).locked = true ∨ ∃ t, (c.pc t).slow
  releasing (t : ι) : (c.pc t).releasing → ∃ u, (c.pc u).slow
  current {k : Kind} {t : ι} : (c.pc t).current c.shared k → Attended k c
  parked {k : Kind} {t : ι} :
    (c.pc t).parked = some k → Attended k c ∨ ∃ u, c.pc u = .notify k

omit [DecidableEq ι] in
/-- A signal does not come to have a value that a thread waits for. -/
theorem Careful.signal_ne (hok : Careful c t c') (hm : Moves c.shared (c.pc t) s' l' sig) {u : ι}
    {old : BitVec 32} (hold : (c.pc u).expects k old) (hne : c.shared.signal k ≠ old) :
    s'.signal k ≠ old := by
  rcases hm.signal with hsame | ⟨j, hj, hbump⟩
  · rwa [hsame]
  -- The signal is bumped: `Careful` says that it does not come round to `old`.
  · by_cases hk : k = j
    · subst hk
      rw [hbump, Function.update_self]
      rintro rfl
      exact hok.signal hj u hold
    · rwa [hbump, Function.update_of_ne hk]

omit [DecidableEq ι] in
/-- A thread that helps and stands still goes on helping. -/
theorem Careful.helps_other (hok : Careful c t c') (hm : Moves c.shared (c.pc t) s' l' sig) {u : ι}
    (hhelps : (c.pc u).helps c.shared k) : (c.pc u).helps s' k := by
  -- Only a writer about to compare the signal depends on what is shared.
  have hne : ∀ old, (c.pc u).expects k old → c.shared.signal k ≠ old → s'.signal k ≠ old :=
    fun old => hok.signal_ne hm
  cases hpc : c.pc u with
  | wait j old =>
      rw [hpc] at hhelps hne
      cases k with
      | exclusive => exact ⟨hhelps.1, hne old ⟨hhelps.1, rfl⟩ hhelps.2⟩
      | shared => exact absurd hhelps id
  | _ =>
      rw [hpc] at hhelps
      cases k <;> exact hhelps

omit [DecidableEq ι] in
/-- Whoever waits with a signal that is there after the step has waited with it before. -/
theorem Careful.current_other (hok : Careful c t c') (hm : Moves c.shared (c.pc t) s' l' sig)
    {u : ι} (hu : (c.pc u).current s' k) :
    c.shared.signal k = s'.signal k ∧ (c.pc u).current c.shared k := by
  have hsame : c.shared.signal k = s'.signal k := by
    by_contra hne
    exact hok.signal_ne hm hu.2 hne rfl
  exact ⟨hsame, hu.1, hsame ▸ hu.2⟩

/-- A writer is still in its loop, unless the mover was the one and left it. -/
theorem exists_slow (hdel : Delivers program (c.set t s' l') sig c')
    (hslow : ∃ u, (c.pc u).slow) (hl : (c.pc t).slow → l'.slow) : ∃ u, (c'.pc u).slow := by
  refine hdel.exists_pc Pc.slow_resume ?_
  rcases hslow with ⟨u, hu⟩
  by_cases hut : u = t
  · subst hut
    exact ⟨u, by rw [Config.set_pc_self]; exact hl hu⟩
  · exact ⟨u, by rwa [Config.set_pc_of_ne _ _ _ _ hut]⟩

namespace Wakeful

section Step

variable (h : Wakeful c) (hm : Moves c.shared (c.pc t) s' l' sig)
  (hdel : Delivers program (c.set t s' l') sig c') (hok : Careful c t c')

include h hm hdel hok

theorem announces : Announces (decode c.shared.lockState) (c.pc t) (decode s'.lockState) l' :=
  hm.announces (h.base.ready hdel hok.readers)

theorem count_step (k : Kind) :
    Counts (fun l => l.registered = some k) (c'.shared.waitCount k).toNat c' := by
  rw [hdel.shared]
  exact hdel.counts (Pc.registered_iff_resume k) ((h.count k).tally
    (hm.registered k (fun _ => hok.count) fun ht => (h.count k).pos ht))

theorem announced_step (u : ι) :
    (c'.pc u).slow → (decode c'.shared.lockState).pending = true := by
  rw [hdel.shared]
  have hall : ∀ v, ((c.set t s' l').pc v).slow → (decode s'.lockState).pending = true := by
    refine (Config.forall_set (P := fun l => l.slow → _) c t s' l').2 ?_
    rcases h.announces hm hdel hok with ⟨hslow, -, hsame⟩ | ⟨-, hset⟩ | ⟨-, -, hsame, hnot⟩ |
      ⟨j, -, -, hset⟩ | ⟨j, hj, hnot, -⟩
    · rw [hsame]
      exact ⟨fun hl => h.announced t (hslow.1 hl), fun v _ => h.announced v⟩
    · exact ⟨fun _ => hset, fun _ _ _ => hset⟩
    · rw [hsame]
      exact ⟨fun hl => absurd hl hnot, fun v _ => h.announced v⟩
    · exact ⟨fun _ => hset, fun _ _ _ => hset⟩
    · -- The bit is wiped out, but nobody is in the loop.
      exact ⟨fun hl => absurd hl hnot, fun v _ hv => absurd hv (hok.release hj v)⟩
  exact hdel.forall_pc (Q := fun l => l.slow → _)
    (fun l j hl hQ hslow => hQ (Pc.slow_of_resume l j hl hslow)) hall u

theorem pending_step : (decode c'.shared.lockState).pending = true →
    (decode c'.shared.lockState).locked = true ∨ ∃ u, (c'.pc u).slow := by
  have hexists := exists_slow hdel
  rw [hdel.shared, Config.set_shared]
  intro hpending
  rcases h.announces hm hdel hok with ⟨hslow, hlocked, hsame⟩ | ⟨hl, -⟩ | ⟨-, hlocked, -, -⟩ |
    ⟨j, hj, -, -⟩ | ⟨j, -, -, hzero⟩
  · rw [hlocked]
    exact (h.pending (hsame ▸ hpending)).imp_right fun hbefore => hexists hbefore hslow.2
  · refine .inr (hdel.exists_pc Pc.slow_resume ⟨t, ?_⟩)
    rwa [Config.set_pc_self]
  · exact .inl hlocked
  · -- Whoever leaves the lock to a writer has seen one.
    have hreleasing : (c.pc t).releasing := by
      rw [hj]
      exact rfl
    refine .inr (hexists (h.releasing t hreleasing) fun hslow => ?_)
    rw [hj] at hslow
    exact absurd hslow id
  · rw [hzero] at hpending
    cases hpending

theorem releasing_step (u : ι) : (c'.pc u).releasing → ∃ v, (c'.pc v).slow := by
  have hexists := exists_slow hdel
  have hall : ∀ v, ((c.set t s' l').pc v).releasing → ∃ w, (c'.pc w).slow := by
    refine (Config.forall_set (P := fun l => l.releasing → _) c t s' l').2 ⟨fun hl => ?_, ?_⟩
    · -- The mover has read the count: somebody else is counted.
      rcases hm.releasing hl with ⟨j, hj, hpos⟩
      rcases (h.count .exclusive).exists_of_pos (BitVec.lt_def.1 hpos) with ⟨w, hw⟩
      have hfit := h.base.fit t
      rw [hj] at hfit
      refine hexists ⟨w, (Pc.slow_or_held hw).resolve_right fun hheld => ?_⟩ fun hslow => ?_
      · have hwt : w = t := by
          refine h.base.holders.unique hheld ?_
          rw [hj, show j = .exclusive from hfit]
          rfl
        rw [hwt, hj] at hw
        cases hw
      · rw [hj] at hslow
        exact absurd hslow id
    · intro v hv hreleasing
      have hlocked :=
        h.base.holders.locked_of_held (Pc.held_of_releasing (h.base.fit v) hreleasing)
      refine hexists (h.releasing v hreleasing) fun hslow => ?_
      rcases h.announces hm hdel hok with ⟨hiff, -, -⟩ | ⟨hl, -⟩ | ⟨hopen, -, -, -⟩ |
        ⟨j, hj, -, -⟩ | ⟨j, hj, -, -⟩
      · exact hiff.2 hslow
      · exact hl
      · rw [hlocked] at hopen
        cases hopen
      · rw [hj] at hslow
        exact absurd hslow id
      · rw [hj] at hslow
        exact absurd hslow id
  exact hdel.forall_pc (Q := fun l => l.releasing → _)
    (fun l j hl hQ hr => by cases l <;> first | exact absurd hr id | cases hl) hall u

/-- What the step does for those who sleep. -/
theorem keeps : discipline.Keeps program c t s' l' sig := by
  constructor
  · intro k hk
    rcases hm.helps (h.base.ready hdel hok.readers) hk with hhelps | hbump | hvacant
    · exact .inl hhelps
    · -- The signal is new: nobody waits with it.
      rw [hbump] at hm
      rcases hm.of_bump with ⟨rfl, hnew⟩
      refine .inr (.inl ⟨rfl, fun u hu => ?_⟩)
      by_cases hut : u = t
      · subst hut
        rw [Config.set_pc_self] at hu
        exact hu.1
      · rw [Config.set_pc_of_ne _ _ _ _ hut] at hu
        exact hnew (hok.current_other (hbump.symm ▸ hm) hu).1
    · -- Nobody waits: nobody is counted, or no writer is in its loop.
      refine .inr (.inr fun u hu => ?_)
      rcases hvacant with hzero | ⟨rfl, hpending | ⟨j, hrelease⟩⟩
      · have hcount := h.count k
        rw [hzero] at hcount
        exact hcount.not_of_zero u (Pc.registered_of_waits hu)
      · rw [h.announced u (Pc.slow_of_waits hu)] at hpending
        cases hpending
      · exact hok.release hrelease u (Pc.slow_of_waits hu)
  · intro k u _ hhelps
    exact hok.helps_other hm hhelps
  · intro k hcurrent
    rcases hm.waits hcurrent.1 with ⟨rfl, ⟨-, hclosed⟩ | hbefore⟩
    · -- The mover has just found the lock closed.
      exact .inl hclosed
    · exact .inr hbefore
  · intro k u _ hcurrent
    exact (hok.current_other hm hcurrent).2
  · intro k hparked
    rcases hm.waits (Pc.waits_of_parked hparked) with ⟨-, ⟨hnone, -⟩ | hcurrent⟩
    · cases hnone.symm.trans hparked
    · exact hcurrent
  · intro k hnotifies
    have hpc : c.pc t = .notify k := hnotifies
    rw [hpc] at hm
    rcases hm.of_notify with ⟨rfl, -, rfl⟩
    cases k with
    | shared => exact .inl rfl
    | exclusive =>
        -- The writer that is woken with an old value of the signal goes round its loop.
        refine .inr ⟨rfl, fun {l} hl hstale => ?_⟩
        rcases Pc.eq_blocked hl with ⟨old, rfl⟩
        exact ⟨rfl, fun hsame => hstale ⟨rfl, rfl, hsame.symm⟩⟩

end Step

omit [DecidableEq ι] in
/-- The part of the invariant that concerns those who sleep. -/
theorem sleepers (h : Wakeful c) : discipline.Wakeful program c where
  current := h.current
  parked := h.parked

/-- What a step does, with the threads it wakes. -/
theorem step (h : Wakeful c) (hm : Moves c.shared (c.pc t) s' l' sig)
    (hdel : Delivers program (c.set t s' l') sig c') (hok : Careful c t c') : Wakeful c' where
  base := h.base.step hm hdel hok.readers
  count := h.count_step hm hdel hok
  announced := h.announced_step hm hdel hok
  pending := h.pending_step hm hdel hok
  releasing := h.releasing_step hm hdel hok
  current := (h.sleepers.step lawful (h.keeps hm hdel hok) hdel).current
  parked := (h.sleepers.step lawful (h.keeps hm hdel hok) hdel).parked

end Wakeful

/-! ## Runs -/

/-- The lock is free, everybody is idle or blocked, and somebody is blocked. -/
def Stuck (c : Config ι Shared Pc) : Prop :=
  (c.shared.lockState &&& writeLockedBit = 0 ∧ c.shared.lockState &&& readerMask = 0) ∧
    (∀ t, c.pc t = .idle ∨ (c.pc t).parked ≠ none) ∧ ∃ t, (c.pc t).parked ≠ none

namespace Wakeful

omit [DecidableEq ι] in
theorem start : Wakeful (SharedMutex.start ι) where
  base := .start
  count k := .zero fun t h => by cases h
  announced t h := absurd h id
  pending h := Bool.noConfusion ((congrArg Word.pending decode_zero).symm.trans h)
  releasing t h := absurd h id
  current h := absurd h.1 id
  parked h := by cases h

omit [DecidableEq ι] in
theorem not_stuck (h : Wakeful c) : ¬ Stuck c := by
  rintro ⟨⟨hlocked, hreaders⟩, hrest, t, ht⟩
  have hclosed : ∀ {u k}, (c.pc u).parked = some k → (decode c.shared.lockState).Closed k :=
    h.sleepers.closed_of_rest lawful idle_at_rest hrest
  have hopen : ¬ (decode c.shared.lockState).Closed .exclusive := fun hclosed =>
    hclosed.elim (fun h => (and_writeLockedBit_ne _).2 h hlocked)
      fun h => (and_readerMask_ne _).2 h hreaders
  rcases Option.ne_none_iff_exists'.1 ht with ⟨k, hk⟩
  cases k with
  | exclusive => exact hopen (hclosed hk)
  | shared =>
      -- The lock is closed to readers by a writer in its loop, which cannot be blocked.
      have hpending := (hclosed hk).resolve_left fun h => hopen (.inl h)
      rcases h.pending hpending with hlocked' | ⟨u, hu⟩
      · exact hopen (.inl hlocked')
      · rcases hrest u with hidle | hparked
        · rw [hidle] at hu
          exact hu
        · rcases Option.ne_none_iff_exists'.1 hparked with ⟨j, hj⟩
          have hexclusive : j = .exclusive := Pc.exclusive_of_parked hj hu
          exact hopen (hclosed (hexclusive ▸ hj))

end Wakeful

/-- **Wakeups.**  In every run in which each exclusive release that stores zero finds no writer in
the loop of `lock`, and no counter runs over, for any number of threads and any order of their
operations: no configuration has the lock free, everybody idle or blocked, and somebody blocked. -/
theorem not_stuck_of_careful (h : Reachable program Careful (start ι) c) : ¬ Stuck c := by
  refine Wakeful.not_stuck (h.rule (I := Wakeful) .start ?_)
  intro c t a s l sig c' hc hstep hdel hok
  exact hc.step (Moves.of_step hstep) hdel hok

/-! ## Schedules -/

instance (l : Pc) : Decidable l.slow := by
  unfold Pc.slow
  split <;> infer_instance

instance (k : Kind) (old : BitVec 32) (l : Pc) : Decidable (l.expects k old) := by
  unfold Pc.expects
  split <;> infer_instance

instance [Fintype ι] (c : Config ι Shared Pc) : Decidable (FewReaders c) :=
  inferInstanceAs (Decidable (∀ T : Finset ι, (∀ t ∈ T, (c.pc t).held = some .shared) →
    T.card < 2 ^ 30))

instance [Fintype ι] (c : Config ι Shared Pc) (t : ι) (c' : Config ι Shared Pc) :
    Decidable (Careful c t c') :=
  decidable_of_iff ((∀ k, c.pc t = .release k false → ∀ u, ¬ (c.pc u).slow) ∧
    (∀ k, c.pc t = .register k → c.shared.waitCount k ≠ -1) ∧
    (∀ k, c.pc t = .bump k → ∀ u, ¬ (c.pc u).expects k (c.shared.signal k + 1)) ∧ FewReaders c')
    ⟨fun h => ⟨@(h.1), @(h.2.1), @(h.2.2.1), h.2.2.2⟩,
      fun h => ⟨fun _ => h.release, fun _ => h.count, fun _ => h.signal, h.readers⟩⟩

/-- After `writerAfterReader` the writer gives the lock up. -/
def writerDone : List (Bool × Act × Option Bool) :=
  writerAfterReader ++ [go false false, (false, .unlock, none), go false false, go false false,
    go false false, go false false]

theorem not_stuck_of_careful_handover :
    ∃ c : Config Bool Shared Pc, runSchedule program Careful writerDone (start Bool) = some c ∧
      c.pc false = .idle ∧ c.shared.signal .exclusive = 1 ∧ ¬ Stuck c := by
  have hrun : (runSchedule program Careful writerDone (start Bool)).map
      (fun c => (c.pc false, c.shared.signal .exclusive)) = some (.idle, 1) := by
    decide +kernel
  rcases Option.map_eq_some_iff.1 hrun with ⟨c, hc, hpair⟩
  rcases Prod.mk.inj hpair with ⟨hpc, hsignal⟩
  exact ⟨c, hc, hpc, hsignal, not_stuck_of_careful (Reachable.start.runSchedule hc)⟩

/-- Thread `true` has read the count of the writers as zero when thread `false` registers and
blocks; it stores zero over the pending bit of thread `false`, and wakes nobody. -/
def wipedPending : List (Bool × Act × Option Bool) :=
  [(true, .lock, none), go true false,
    (false, .lock, none), go false false, go false false, go false true,
    (true, .unlock, none), go true false, go true false,
    go false false, go false false, go false false, go false false,
    go true false, go true false]

theorem pending_wiped_hangs :
    ¬ ∀ c : Config Bool Shared Pc,
      Reachable program (fun _ _ c' => FewReaders c') (start Bool) c → ¬ Stuck c := by
  intro hall
  have hrun : (runSchedule program (fun _ _ c' => FewReaders c') wipedPending (start Bool)).map
      (fun c => (c.pc false, c.pc true, c.shared.lockState)) =
        some (.blocked .exclusive 0, .idle, 0) := by
    decide +kernel
  rcases Option.map_eq_some_iff.1 hrun with ⟨c, hc, htriple⟩
  rcases Prod.mk.inj htriple with ⟨hfalse, hpair⟩
  rcases Prod.mk.inj hpair with ⟨htrue, hword⟩
  have hblocked : (c.pc false).parked ≠ none := by
    rw [hfalse]
    exact Option.some_ne_none _
  refine hall c (Reachable.start.runSchedule hc) ⟨?_, fun t => ?_, false, hblocked⟩
  · rw [hword]
    exact ⟨rfl, rfl⟩
  · cases t
    · exact .inr hblocked
    · exact .inl htrue

end SharedMutex
end Lock
end Chenc
