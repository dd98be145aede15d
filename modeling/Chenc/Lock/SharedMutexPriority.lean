import Chenc.Lib.Precedence
import Chenc.Lock.SharedMutexWakeup

/-!
# SharedMutexPriority — what the pending bit does for the writers

The pending bit keeps readers and `try_lock` out, and an `unlock` that finds a writer counted
leaves it set.  An `unlock` that has read the count as zero before the writer registered does not.

* `Pc.wiping` : in `unlock`, about to store zero;
* `Tallied` : the two wait counts are right, in a run in which neither of them runs over;
* `Foremost` : thread `w` is counted, and all threads in the loop of `lock` are in `B`;
* `writers_go_first` : the whole time that `w` is counted.
-/

namespace Chenc
namespace Lock
namespace SharedMutex

open Interleaving (Config Counts)
open Parking (Signal Delivers Reachable runSchedule Admits Party)

/-- In `unlock`, about to store zero. -/
def Pc.wiping : Pc → Prop
  | .release _ hasWriter => hasWriter = false
  | _ => False

instance : DecidablePred Pc.wiping := fun l => by
  unfold Pc.wiping
  split <;> infer_instance

/-! ## One step -/

section Steps

variable {s s' : Shared} {l l' : Pc} {sig : Signal Kind} {k : Kind}

theorem Pc.not_wiping_of_settled (h : l.settled) : ¬ l.wiping := by
  cases l <;> first | exact id | exact absurd h id

theorem Pc.not_wiping_of_resume (l : Pc) (j : Kind) (hl : l.parked = some j) (_ : ¬ l.wiping) :
    ¬ l.resume.wiping := by
  rcases Pc.eq_blocked hl with ⟨old, rfl⟩
  exact id

/-- A thread is about to store zero when it has read the count of the writers as zero. -/
theorem Moves.wiping (h : Moves s l s' l' sig) (hl : l'.wiping) : s.waitCount .exclusive = 0 := by
  have hsettled : ∀ {l : Pc}, l.settled → ¬ l.wiping := fun h => Pc.not_wiping_of_settled h
  cases h with
  | loadWriters k => exact eq_zero_of_not_pos (of_decide_eq_false hl)
  | call _ hl' => exact absurd hl (hsettled (Pc.settled_of_entry hl'))
  | claimed b => exact absurd hl (hsettled settled_won)
  | missed _ b late _ => exact absurd hl (hsettled settled_retry)
  | readClaimed caller => exact absurd hl (hsettled Caller.settled_won)
  | readMissed _ caller late _ => exact absurd hl (hsettled Caller.settled_failed)
  | recheckOpen j old | goOn j old _ => exact absurd hl (hsettled settled_attempt)
  | _ => exact absurd hl id

/-- Nothing else takes the pending bit away. -/
theorem Moves.pending (h : Moves s l s' l' sig) (hready : Ready s l l') (hl : ¬ l.wiping)
    (hpending : (decode s.lockState).pending = true) : (decode s'.lockState).pending = true := by
  rcases h.announces hready with ⟨-, -, hsame⟩ | ⟨-, hset⟩ | ⟨-, -, hsame, -⟩ | ⟨-, -, -, hset⟩ |
    ⟨j, hj, -, -⟩
  · rwa [hsame]
  · exact hset
  · rwa [hsame]
  · exact hset
  · rw [hj] at hl
    exact absurd rfl hl

/-- While the bit is set, whoever comes to hold the lock has been in the loop of `lock`. -/
theorem Moves.held_of_pending (h : Moves s l s' l' sig) (hfit : l.Fit)
    (hpending : (decode s.lockState).pending = true) (hk : l'.held = some k) :
    l.held = some k ∨ k = .exclusive ∧ l.slow := by
  cases h with
  -- `try_lock` wants the whole word to be zero.
  | tryWon b hzero =>
      rw [hzero, decode_zero] at hpending
      cases hpending
  | claimed b =>
      rw [held_won] at hk
      cases hk
      exact .inr ⟨rfl, trivial⟩
  -- A reader has seen the bit clear, and finds the same word again.
  | readClaimed caller => exact absurd (.inr hpending) hfit
  | call _ hl =>
      rw [Pc.held_of_entry hl] at hk
      cases hk
  | missed _ b late hl =>
      rw [held_retry] at hk
      cases hk
  | readMissed _ caller late hl =>
      rw [Caller.held_failed] at hk
      cases hk
  | recheckOpen j old | goOn j old _ =>
      rw [held_attempt] at hk
      cases hk
  | unlock j | deregister j | branchWriter j _ | branchReader j _ | loadWriters j => exact .inl hk
  | _ => cases hk

end Steps

/-! ## The counts -/

variable {ι : Type} [DecidableEq ι] {c c' d : Config ι Shared Pc} {t w : ι} {B : ι → Prop}
variable {s' : Shared} {l' : Pc} {sig : Signal Kind}

/-- The condition on a step: the wait counts do not run over, and there are fewer than `2^30`
readers. -/
structure Roomy (c : Config ι Shared Pc) (t : ι) (c' : Config ι Shared Pc) : Prop where
  count {k : Kind} : c.pc t = .register k → c.shared.waitCount k ≠ -1
  readers : FewReaders c'

structure Tallied (c : Config ι Shared Pc) : Prop where
  base : Inv c
  count (k : Kind) : Counts (fun l => l.registered = some k) (c.shared.waitCount k).toNat c

namespace Tallied

omit [DecidableEq ι] in
theorem start : Tallied (SharedMutex.start ι) where
  base := .start
  count k := .zero fun t h => by cases h

theorem step (h : Tallied c) (hm : Moves c.shared (c.pc t) s' l' sig)
    (hdel : Delivers program (c.set t s' l') sig c') (hok : Roomy c t c') : Tallied c' where
  base := h.base.step hm hdel hok.readers
  count k := by
    rw [hdel.shared]
    exact hdel.counts (Pc.registered_iff_resume k) ((h.count k).tally
      (hm.registered k (fun _ => hok.count) fun ht => (h.count k).pos ht))

theorem of_reachable (h : Reachable program Roomy (SharedMutex.start ι) c) : Tallied c := by
  refine h.rule (I := Tallied) .start ?_
  intro c t a s l sig c' hc hstep hdel hok
  exact hc.step (Moves.of_step hstep) hdel hok

end Tallied

/-! ## The whole time -/

/-- Thread `w` is counted in `write_wait_count_`; all threads in the loop of `lock` are in `B`. -/
structure Foremost (w : ι) (B : ι → Prop) (c : Config ι Shared Pc) : Prop where
  counted : (c.pc w).registered = some .exclusive
  among (u : ι) : (c.pc u).slow → B u

/-- The bit is set, and nobody is about to wipe it out. -/
structure Announced (c : Config ι Shared Pc) : Prop where
  pending : c.shared.lockState &&& writePendingBit ≠ 0
  kept (u : ι) : ¬ (c.pc u).wiping

/-- While a writer is counted, its announcement stays. -/
theorem Announced.step (h : Announced c) (hc : Tallied c) (hw : Foremost w B c)
    (hm : Moves c.shared (c.pc t) s' l' sig) (hdel : Delivers program (c.set t s' l') sig c')
    (hok : Roomy c t c') : Announced c' where
  pending := by
    rw [hdel.shared, and_writePendingBit_ne]
    exact hm.pending (hc.base.ready hdel hok.readers) (h.kept t)
      ((and_writePendingBit_ne _).1 h.pending)
  kept := by
    refine hdel.forall_pc Pc.not_wiping_of_resume
      ((Config.forall_set (P := fun l => ¬ l.wiping) c t s' l').2 ⟨fun hl => ?_, fun u _ =>
        h.kept u⟩)
    -- The mover would have read the count as zero.
    have hpos := (hc.count .exclusive).pos hw.counted
    rw [hm.wiping hl] at hpos
    exact lt_irrefl _ hpos

/-- **Writers first.**  In every run in which no count runs over and with fewer than `2^30`
readers: from the moment that thread `w` is counted as waiting to write, with the pending bit set
and no `unlock` about to store zero, and as long as it is counted, the pending bit stays set, and
nobody comes to hold the lock, for reading or by `try_lock`, but threads in the loop of `lock`. -/
theorem writers_go_first (hc : Reachable program Roomy (start ι) c) (hw : Foremost w B c)
    (hann : Announced c)
    (hrun : Reachable program (fun c t c' => Roomy c t c' ∧ Foremost w B c') c d) (k : Kind) :
    Announced d ∧ Admits (fun l => l.held = some k) (fun u => k = .exclusive ∧ B u) c d := by
  refine (hrun.admits (I := fun d => (Tallied d ∧ Foremost w B d) ∧ Announced d)
    ⟨⟨.of_reachable hc, hw⟩, hann⟩ (fun l j hl hheld => (Pc.held_iff_resume k l j hl).1 hheld)
    ?_).imp_left And.right
  rintro d t a s l sig d' ⟨⟨htally, hfore⟩, hann⟩ hstep hdel ⟨hok, hfore'⟩
  have hm := Moves.of_step hstep
  refine ⟨⟨⟨htally.step hm hdel hok, hfore'⟩, hann.step htally hfore hm hdel hok⟩,
    fun hheld => ?_⟩
  refine (hm.held_of_pending (htally.base.fit t) ((and_writePendingBit_ne _).1 hann.pending)
    hheld).imp_right ?_
  rintro ⟨hk, hslow⟩
  exact ⟨hk, hfore.among t hslow⟩

/-! ## Schedules -/

instance [Fintype ι] (c : Config ι Shared Pc) (t : ι) (c' : Config ι Shared Pc) :
    Decidable (Roomy c t c') :=
  decidable_of_iff ((∀ k, c.pc t = .register k → c.shared.waitCount k ≠ -1) ∧ FewReaders c')
    ⟨fun h => ⟨@(h.1), h.2⟩, fun h => ⟨fun _ => h.count, h.readers⟩⟩

instance [Fintype ι] (w : ι) (B : ι → Prop) [DecidablePred B] (c : Config ι Shared Pc) :
    Decidable (Foremost w B c) :=
  decidable_of_iff ((c.pc w).registered = some .exclusive ∧ ∀ u, (c.pc u).slow → B u)
    ⟨fun h => ⟨h.1, h.2⟩, fun h => ⟨h.counted, h.among⟩⟩

instance [Fintype ι] (c : Config ι Shared Pc) : Decidable (Announced c) :=
  decidable_of_iff (c.shared.lockState &&& writePendingBit ≠ 0 ∧ ∀ u, ¬ (c.pc u).wiping)
    ⟨fun h => ⟨h.1, h.2⟩, fun h => ⟨h.pending, h.kept⟩⟩

/-- Thread `owner` reads when thread `writer` comes for the write lock and registers. -/
def writerCounted : List (Party × Act × Option Party) :=
  [(.owner, .lockShared, none), go .owner false, go .owner false,
    (.writer, .lock, none), go .writer false, go .writer false, go .writer true, go .writer false]

/-- Thread `late` comes to read, and thread `owner` stops reading. -/
def readersTurn : List (Party × Act × Option Party) :=
  [(.late, .lockShared, none), go .late false,
    (.owner, .unlock, none), go .owner false, go .owner false, go .late false]

theorem writers_go_first_reader :
    ∃ c d : Config Party Shared Pc,
      runSchedule program Roomy writerCounted (start Party) = some c ∧
      runSchedule program (fun c t c' => Roomy c t c' ∧ Foremost .writer (· = .writer) c')
        readersTurn c = some d ∧
      d.shared.lockState = writePendingBit ∧ d.pc .late = .readState (.loop false) ∧
      ∀ k, Announced d ∧
        Admits (fun l => l.held = some k) (fun u => k = .exclusive ∧ u = .writer) c d := by
  have hrun : (runSchedule program Roomy writerCounted (start Party)).bind
      (fun c =>
        (runSchedule program (fun c t c' => Roomy c t c' ∧ Foremost .writer (· = .writer) c')
          readersTurn c).map fun d =>
            (decide (Foremost .writer (· = .writer) c ∧ Announced c), d.shared.lockState,
              d.pc .late)) =
        some (true, writePendingBit, .readState (.loop false)) := by
    decide +kernel
  rcases Option.bind_eq_some_iff.1 hrun with ⟨c, hc, hmap⟩
  rcases Option.map_eq_some_iff.1 hmap with ⟨d, hd, htriple⟩
  rcases Prod.mk.inj htriple with ⟨hthen, hpair⟩
  rcases Prod.mk.inj hpair with ⟨hword, hpc⟩
  rcases of_decide_eq_true hthen with ⟨hfore, hann⟩
  exact ⟨c, d, hc, hd, hword, hpc, writers_go_first (Reachable.start.runSchedule hc) hfore hann
    (Reachable.start.runSchedule hd)⟩

/-- Thread `writer` announces itself while thread `owner` writes, which then reads the count as
zero. -/
def writerUncounted : List (Party × Act × Option Party) :=
  [(.owner, .lock, none), go .owner false,
    (.writer, .lock, none), go .writer false, go .writer false,
    (.owner, .unlock, none), go .owner false, go .owner false]

/-- Thread `owner` stores zero, and thread `late` reads. -/
def readerEnters : List (Party × Act × Option Party) :=
  [go .owner false, (.late, .lockShared, none), go .late false, go .late false]

/-- The bit alone is not enough: a reader passes by a writer that is in the loop of `lock`. -/
theorem announcement_wiped :
    ∃ c d : Config Party Shared Pc,
      runSchedule program Roomy writerUncounted (start Party) = some c ∧
      runSchedule program (fun c t c' => Roomy c t c' ∧ (c'.pc .writer).slow) readerEnters c =
        some d ∧
      c.shared.lockState &&& writePendingBit ≠ 0 ∧ (c.pc .writer).slow ∧ (c.pc .late).held = none ∧
      (d.pc .late).held = some .shared := by
  have hrun : (runSchedule program Roomy writerUncounted (start Party)).bind
      (fun c => (runSchedule program (fun c t c' => Roomy c t c' ∧ (c'.pc .writer).slow)
        readerEnters c).map fun d =>
          (decide (c.shared.lockState &&& writePendingBit ≠ 0 ∧ (c.pc .writer).slow ∧
            (c.pc .late).held = none), (d.pc .late).held)) = some (true, some .shared) := by
    decide +kernel
  rcases Option.bind_eq_some_iff.1 hrun with ⟨c, hc, hmap⟩
  rcases Option.map_eq_some_iff.1 hmap with ⟨d, hd, hpair⟩
  rcases Prod.mk.inj hpair with ⟨hthen, hheld⟩
  rcases of_decide_eq_true hthen with ⟨hpending, hslow, hnone⟩
  exact ⟨c, d, hc, hd, hpending, hslow, hnone, hheld⟩

end SharedMutex
end Lock
end Chenc
