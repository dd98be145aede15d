import Chenc.Lock.SharedMutexExclusion

/-!
# SharedMutexWaiters — what a thread on the slow path stands for

* `Pc.registered` : standing in one of the two counts;
* `Pc.slow` : in the loop of `lock`, which the pending bit is to announce;
* `Pc.waits`, `Pc.helps` : about to sleep or asleep, and on the way to a notification;
* `Moves.registered`, `Moves.announces`, `Moves.helps`, … : what one step does to each of them.
-/

namespace Chenc
namespace Lock
namespace SharedMutex

open Interleaving (Tally)
open Parking (Signal)

def Kind.counted (k : Kind) (isAddWait : Bool) : Option Kind :=
  if isAddWait then some k else none

def Caller.registered : Caller → Option Kind
  | .loop isAddWait => Kind.counted .shared isAddWait
  | _ => none

/-- In which of the two counts a thread stands. -/
def Pc.registered : Pc → Option Kind
  | .loadState b | .claim b _ => Kind.counted .exclusive b
  | .readState caller | .readClaim caller _ => caller.registered
  | .loadSignal k | .recheck k _ | .wait k _ | .blocked k _ | .deregister k => some k
  | _ => none

/-- In the loop of `lock`. -/
def Pc.slow : Pc → Prop
  | .loadState _ | .claim _ _ => True
  | .register k | .loadSignal k | .recheck k _ | .wait k _ | .blocked k _ => k = .exclusive
  | _ => False

/-- About to compare `old` with the signal, or asleep since it did. -/
def Pc.expects (k : Kind) (old : BitVec 32) : Pc → Prop
  | .recheck j o | .wait j o | .blocked j o => j = k ∧ o = old
  | _ => False

/-- In `wait`. -/
def Pc.waits (k : Kind) : Pc → Prop
  | .wait j _ | .blocked j _ => j = k
  | _ => False

/-- In `wait` with the value that the signal has. -/
def Pc.current (s : Shared) (k : Kind) (l : Pc) : Prop :=
  l.waits k ∧ l.expects k (s.signal k)

/-- On the way to a notification of `k`; a writer in its loop is as good, since it will take the
lock or find it taken. -/
def Pc.helps (s : Shared) : Kind → Pc → Prop
  | .exclusive, .loadState _ | .exclusive, .claim _ _ | .exclusive, .lastReader => True
  | .exclusive, .register k | .exclusive, .loadSignal k | .exclusive, .recheck k _ => k = .exclusive
  | .exclusive, .wait k old => k = .exclusive ∧ s.signal .exclusive ≠ old
  | .shared, .loadReaders => True
  | k, .bump j => j = k
  | _, _ => False

/-- In `unlock`, about to leave the lock to a writer. -/
def Pc.releasing : Pc → Prop
  | .release _ hasWriter => hasWriter = true
  | _ => False

section Targets

variable {l : Pc} {k : Kind} {caller : Caller} {b late : Bool} {s : Shared}

theorem registered_attempt : (k.attempt b).registered = k.counted b := by
  cases k <;> rfl

theorem registered_retry : (k.retry b late).registered = k.counted b := by
  cases k <;> cases b <;> cases late <;> rfl

theorem registered_won : (k.won b).registered = k.counted b := by
  cases b <;> rfl

theorem Caller.registered_won : caller.won.registered = caller.registered := by
  cases caller with
  | loop b => exact SharedMutex.registered_won
  | _ => rfl

theorem Caller.registered_failed : (caller.failed late).registered = caller.registered := by
  cases caller with
  | loop b => exact registered_retry
  | _ => rfl

theorem Pc.registered_of_entry (h : l.entry) : l.registered = none := by
  cases l with
  | readState caller => cases caller <;> first | rfl | exact absurd h id
  | _ => first | rfl | exact absurd h id

theorem Pc.registered_of_attempting (h : l.attempting b) :
    l.registered = Kind.counted .exclusive b := by
  cases l <;> first | exact absurd h id | (cases h; rfl)

theorem Pc.registered_of_reading (h : l.reading caller) : l.registered = caller.registered := by
  cases l <;> first | exact absurd h id | (cases h; rfl)

theorem slow_attempt : (k.attempt b).slow ↔ k = .exclusive := by
  cases k <;> simp [Kind.attempt, Pc.slow]

theorem slow_retry : (k.retry b late).slow ↔ k = .exclusive := by
  cases k <;> cases b <;> cases late <;> simp [Kind.retry, Kind.attempt, Pc.slow]

theorem not_slow_won : ¬ (k.won b).slow := by
  cases b <;> exact id

theorem Caller.not_slow_won : ¬ caller.won.slow := by
  cases caller with
  | loop b => exact SharedMutex.not_slow_won
  | _ => exact id

theorem Caller.not_slow_failed : ¬ (caller.failed late).slow := by
  cases caller with
  | loop b => exact fun h => Kind.noConfusion (slow_retry.1 h)
  | _ => exact id

theorem Pc.not_slow_of_entry (h : l.entry) : ¬ l.slow := by
  cases l <;> first | exact id | exact absurd h id

theorem Pc.slow_of_attempting (h : l.attempting b) : l.slow := by
  cases l <;> first | exact trivial | exact absurd h id

theorem Pc.not_slow_of_reading (h : l.reading caller) : ¬ l.slow := by
  cases l <;> first | exact id | exact absurd h id

theorem helps_retry : (Kind.retry .exclusive b late).helps s .exclusive := by
  cases b <;> cases late <;> first | exact trivial | exact rfl

theorem Pc.not_helps_of_attempting (h : l.attempting b) : ¬ l.helps s .shared := by
  cases l <;> first | exact id | exact absurd h id

theorem Pc.not_helps_of_reading (h : l.reading caller) : ¬ l.helps s k := by
  cases k <;> cases l <;> first | exact id | exact absurd h id

theorem Pc.not_waits_of_settled (h : l.settled) : ¬ l.waits k := by
  cases l <;> first | exact id | exact absurd h id

theorem Pc.not_releasing_of_settled (h : l.settled) : ¬ l.releasing := by
  cases l <;> first | exact id | exact absurd h id

/-! ### Threads that sleep -/

theorem Pc.registered_iff_resume (k : Kind) (l : Pc) (j : Kind) (_ : l.parked = some j) :
    l.resume.registered = some k ↔ l.registered = some k := by
  cases l <;> exact Iff.rfl

theorem Pc.slow_resume (l : Pc) (j : Kind) (_ : l.parked = some j) (h : l.slow) :
    l.resume.slow := by
  cases l <;> exact h

theorem Pc.slow_of_resume (l : Pc) (j : Kind) (_ : l.parked = some j) (h : l.resume.slow) :
    l.slow := by
  cases l <;> exact h

theorem Pc.current_of_resume {j : Kind} (_ : l.parked = some j)
    (h : l.resume.current s k) : l.current s k := by
  cases l <;> exact h

theorem Pc.parked_resume (l : Pc) (j : Kind) (_ : l.parked = some j) : l.resume.parked = none := by
  cases l <;> rfl

theorem Pc.parked_of_helps (h : l.helps s k) : l.parked = none := by
  cases k <;> cases l <;> first | rfl | exact absurd h id

theorem Pc.eq_blocked (h : l.parked = some k) : ∃ old, l = .blocked k old := by
  cases l with
  | blocked j old =>
      cases h
      exact ⟨old, rfl⟩
  | _ => cases h

theorem Pc.waits_of_parked (h : l.parked = some k) : l.waits k := by
  rcases Pc.eq_blocked h with ⟨old, rfl⟩
  exact rfl

theorem Pc.exclusive_of_parked (h : l.parked = some k) (hslow : l.slow) : k = .exclusive := by
  rcases Pc.eq_blocked h with ⟨old, rfl⟩
  exact hslow

theorem Pc.registered_of_waits (h : l.waits k) : l.registered = some k := by
  cases l <;> first | exact congrArg some h | exact absurd h id

theorem Pc.slow_of_waits (h : l.waits .exclusive) : l.slow := by
  cases l <;> first | exact h | exact absurd h id

theorem Pc.held_of_releasing (hfit : l.Fit) (h : l.releasing) :
    l.held = some .exclusive := by
  cases l with
  | release k hasWriter => exact congrArg some hfit
  | _ => exact absurd h id

theorem Pc.slow_or_held (h : l.registered = some .exclusive) :
    l.slow ∨ l.held = some .exclusive := by
  -- The count of the writers is given up only after the lock is taken.
  cases l with
  | loadState b | claim b state => exact .inl trivial
  | loadSignal k | recheck k old | wait k old | blocked k old => exact .inl (Option.some.inj h)
  | deregister k => exact .inr h
  | readState caller | readClaim caller state =>
      cases caller with
      | loop b => cases b <;> cases h
      | _ => cases h
  | _ => cases h

end Targets

/-! ## The steps of the code -/

variable {s s' : Shared} {l l' : Pc} {sig : Signal Kind}

theorem setCount_self (k : Kind) (n : BitVec 16) : (s.setCount k n).waitCount k = n := by
  simp [Shared.setCount]

theorem setCount_of_ne {j k : Kind} (h : k ≠ j) (n : BitVec 16) :
    (s.setCount j n).waitCount k = s.waitCount k := by
  simp [Shared.setCount, h]

/-- The counts follow the threads that register and deregister. -/
theorem Moves.registered (h : Moves s l s' l' sig) (k : Kind)
    (hcount : ∀ j, l = .register j → s.waitCount j ≠ -1)
    (hpos : l.registered = some k → 0 < (s.waitCount k).toNat) :
    Tally (l.registered = some k) (s.waitCount k).toNat (l'.registered = some k)
      (s'.waitCount k).toNat := by
  have hsame : ∀ {o o' : Option Kind}, o' = o →
      Tally (o = some k) (s.waitCount k).toNat (o' = some k) (s.waitCount k).toNat := by
    rintro o o' rfl
    exact .stay Iff.rfl
  have hnone : ¬ (none : Option Kind) = some k := (Option.some_ne_none k).symm
  cases h with
  | call _ hl => exact hsame (Pc.registered_of_entry hl)
  | claimed b => exact hsame registered_won
  | missed _ b late hl => exact hsame (registered_retry.trans (Pc.registered_of_attempting hl).symm)
  | readClaimed caller => exact hsame Caller.registered_won
  | readMissed _ caller late hl =>
      exact hsame (Caller.registered_failed.trans (Pc.registered_of_reading hl).symm)
  | recheckOpen j old => exact hsame registered_attempt
  | goOn j old _ => exact hsame registered_attempt
  | register j =>
      -- The other count stays what it was.
      by_cases hj : k = j
      · subst hj
        rw [setCount_self, Bits.toNat_add_one (by decide) (hcount k rfl)]
        exact .enter hnone rfl
      · rw [setCount_of_ne hj]
        exact .stay (iff_of_false (fun h => hj (Option.some.inj h).symm) hnone)
  | deregister j =>
      by_cases hj : k = j
      · subst hj
        rw [setCount_self, Bits.toNat_sub_one (by decide) (hpos rfl)]
        exact .leave rfl hnone
      · rw [setCount_of_ne hj]
        exact .stay (iff_of_false hnone fun h => hj (Option.some.inj h).symm)
  | _ => exact hsame rfl

/-- What a step does to the pending bit, and to who stands behind it. -/
inductive Announces (d : Word) (l : Pc) (d' : Word) (l' : Pc) : Prop
  | same : (l'.slow ↔ l.slow) → d'.locked = d.locked → d'.pending = d.pending →
      Announces d l d' l'
  | raise : l'.slow → d'.pending = true → Announces d l d' l'
  | take : d.locked = false → d'.locked = true → d'.pending = d.pending → ¬ l'.slow →
      Announces d l d' l'
  | leave (k : Kind) : l = .release k true → ¬ l'.slow → d'.pending = true → Announces d l d' l'
  | wipe (k : Kind) : l = .release k false → ¬ l'.slow → d'.pending = false → Announces d l d' l'

theorem Moves.announces (h : Moves s l s' l' sig) (hready : Ready s l l') :
    Announces (decode s.lockState) l (decode s'.lockState) l' := by
  cases h with
  | call _ hl => exact .same (iff_of_false (Pc.not_slow_of_entry hl) id) rfl rfl
  | tryWon b hzero =>
      rw [Shared.setState, decode_writeLockedBit, hzero]
      exact .take rfl rfl rfl id
  | setPending =>
      rw [Shared.setState, decode_or_pending]
      exact .raise trivial rfl
  | claimed b =>
      -- The word is the one that was found open.
      have hopen : (decode s.lockState).locked = false :=
        Bool.eq_false_iff.2 fun hlocked => hready.fit (.inl hlocked)
      rw [Shared.setState, decode_claimed]
      exact .take hopen rfl rfl not_slow_won
  | missed _ b late hl =>
      exact .same (iff_of_true (slow_retry.2 rfl) (Pc.slow_of_attempting hl)) rfl rfl
  | readClaimed caller =>
      rw [Shared.setState, decode_add_one _ (hready.room rfl caller.held_won)]
      exact .same (iff_of_false Caller.not_slow_won id) rfl rfl
  | readMissed _ caller late hl =>
      exact .same (iff_of_false Caller.not_slow_failed (Pc.not_slow_of_reading hl)) rfl rfl
  | recheckOpen k old => exact .same slow_attempt rfl rfl
  | goOn k old _ => exact .same slow_attempt rfl rfl
  | releaseToWriter k => exact .leave k rfl id (congrArg Word.pending decode_writePendingBit)
  | releaseToReaders k => exact .wipe k rfl id (congrArg Word.pending decode_zero)
  | subLast k _ _ | subReader k _ =>
      cases show k = .shared from hready.fit
      rw [Shared.setState, decode_sub_one _ (hready.pos rfl)]
      exact .same Iff.rfl rfl rfl
  | _ => exact .same Iff.rfl rfl rfl

theorem Word.closed_of_locked {d : Word} (h : d.locked = true) (k : Kind) : d.Closed k := by
  cases k <;> exact .inl h

/-- What is known when a step may end without a notification: nobody is counted, or, of the
writers, none is announced or the announcement is about to be wiped out. -/
def Vacant (s : Shared) (k : Kind) (l : Pc) : Prop :=
  s.waitCount k = 0 ∨
    k = .exclusive ∧ ((decode s.lockState).pending = false ∨ ∃ j, l = .release j false)

/-- What becomes of a lock that is closed to readers, or of a thread that will wake them. -/
theorem Moves.helps_shared (h : Moves s l s' l' sig) (hready : Ready s l l')
    (hk : (decode s.lockState).Closed .shared ∨ l.helps s .shared) :
    ((decode s'.lockState).Closed .shared ∨ l'.helps s' .shared) ∨ l = .bump .shared ∨
      Vacant s .shared l := by
  cases h with
  | tryWon b _ =>
      rw [Shared.setState, decode_writeLockedBit]
      exact .inl (.inl (Word.closed_of_locked rfl _))
  | setPending =>
      rw [Shared.setState, decode_or_pending]
      exact .inl (.inl (.inr rfl))
  | claimed b =>
      rw [Shared.setState, decode_claimed]
      exact .inl (.inl (Word.closed_of_locked rfl _))
  -- A reader does not get into a closed lock.
  | readClaimed caller => exact absurd (hk.resolve_right id) hready.fit
  | releaseToWriter k =>
      rw [Shared.setState, decode_writePendingBit]
      exact .inl (.inl (.inr rfl))
  | releaseToReaders k => exact .inl (.inr trivial)
  | subLast k _ _ | subReader k _ =>
      cases show k = .shared from hready.fit
      rw [Shared.setState, decode_sub_one _ (hready.pos rfl)]
      exact .inl (.inl (hk.resolve_right id))
  | missed _ b late hl => exact .inl (.inl (hk.resolve_right (Pc.not_helps_of_attempting hl)))
  | readMissed _ caller late hl =>
      exact .inl (.inl (hk.resolve_right (Pc.not_helps_of_reading hl)))
  | wakeReaders => exact .inl (.inr rfl)
  | noReader hzero => exact .inr (.inr (.inl hzero))
  | bump k =>
      cases k with
      | exclusive => exact .inl (.inl (hk.resolve_right Kind.noConfusion))
      | shared => exact .inr (.inl rfl)
  | _ => exact .inl (.inl (hk.resolve_right id))

/-- What becomes of a lock that is closed to writers, or of a thread that will wake one or look
for itself. -/
theorem Moves.helps_exclusive (h : Moves s l s' l' sig) (hready : Ready s l l')
    (hk : (decode s.lockState).Closed .exclusive ∨ l.helps s .exclusive) :
    ((decode s'.lockState).Closed .exclusive ∨ l'.helps s' .exclusive) ∨ l = .bump .exclusive ∨
      Vacant s .exclusive l := by
  cases h with
  | tryWon b _ =>
      rw [Shared.setState, decode_writeLockedBit]
      exact .inl (.inl (Word.closed_of_locked rfl _))
  | setPending | loadOpen b _ => exact .inl (.inr trivial)
  | claimed b =>
      rw [Shared.setState, decode_claimed]
      exact .inl (.inl (Word.closed_of_locked rfl _))
  | missed _ b late _ => exact .inl (.inr helps_retry)
  | readClaimed caller =>
      rw [Shared.setState, decode_add_one _ (hready.room rfl caller.held_won)]
      exact .inl (.inl (.inr (Nat.succ_pos _)))
  | readMissed _ caller late hl =>
      exact .inl (.inl (hk.resolve_right (Pc.not_helps_of_reading hl)))
  | register k | loadSignal k | recheckOpen k old | goOn k old _ =>
      cases k with
      | exclusive => exact .inl (.inr (by first | exact rfl | exact trivial))
      | shared => exact .inl (.inl (hk.resolve_right fun h => by cases h <;> contradiction))
  | recheckClosed k old hclosed =>
      cases k with
      | exclusive => exact .inl (.inl hclosed)
      | shared => exact .inl (.inl (hk.resolve_right Kind.noConfusion))
  | block k => exact .inl (.inl (hk.resolve_right fun h => h.2 (h.1 ▸ rfl)))
  | releaseToWriter k => exact .inl (.inr rfl)
  -- The store of zero: no writer is notified, whether announced or not.
  | releaseToReaders k => exact .inr (.inr (.inr ⟨rfl, .inr ⟨k, rfl⟩⟩))
  | subLast k _ _ => exact .inl (.inr trivial)
  | subReader k hlast =>
      cases show k = .shared from hready.fit
      rcases hpending : (decode s.lockState).pending with _ | _
      · exact .inr (.inr (.inr ⟨rfl, .inl hpending⟩))
      · -- The pending bit is set, so this was not the last reader.
        have hone : (decode s.lockState).readers ≠ 1 := fun hone => hlast ⟨hone, hpending⟩
        have hpos := hready.pos rfl
        rw [Shared.setState, decode_sub_one _ hpos]
        exact .inl (.inl (.inr (by simp only; omega)))
  | wakeWriter => exact .inl (.inr rfl)
  | noWriter hzero => exact .inr (.inr (.inl hzero))
  | bump k =>
      cases k with
      | exclusive => exact .inr (.inl rfl)
      | shared => exact .inl (.inl (hk.resolve_right Kind.noConfusion))
  | _ => exact .inl (.inl (hk.resolve_right id))

theorem Moves.helps (h : Moves s l s' l' sig) (hready : Ready s l l') {k : Kind}
    (hk : (decode s.lockState).Closed k ∨ l.helps s k) :
    ((decode s'.lockState).Closed k ∨ l'.helps s' k) ∨ l = .bump k ∨ Vacant s k l := by
  cases k with
  | exclusive => exact h.helps_exclusive hready hk
  | shared => exact h.helps_shared hready hk

/-- The signals change at `bump` only. -/
theorem Moves.signal (h : Moves s l s' l' sig) :
    s'.signal = s.signal ∨
      ∃ k, l = .bump k ∧ s'.signal = Function.update s.signal k (s.signal k + 1) := by
  cases h with
  | bump k => exact .inr ⟨k, rfl, rfl⟩
  | _ => exact .inl rfl

theorem Moves.of_bump {k : Kind} (h : Moves s (.bump k) s' l' sig) :
    l' = .notify k ∧ s.signal k ≠ s'.signal k := by
  cases h with
  | bump k =>
      exact ⟨rfl, by simp [Shared.bump]⟩
  | missed _ b late hl => exact absurd hl id
  | readMissed _ caller late hl => exact absurd hl id

theorem Moves.of_notify {k : Kind} (h : Moves s (.notify k) s' l' sig) :
    s' = s ∧ l' = .idle ∧ sig = k.notification := by
  cases h with
  | notify => exact ⟨rfl, rfl, rfl⟩
  | missed _ b late hl => exact absurd hl id
  | readMissed _ caller late hl => exact absurd hl id

/-- A thread comes to `wait` when it finds the lock closed, and blocks there while the signal is
what it was. -/
theorem Moves.waits (h : Moves s l s' l' sig) {k : Kind} (hl : l'.waits k) :
    s' = s ∧ ((l'.parked = none ∧ (decode s.lockState).Closed k) ∨ l.current s k) := by
  have hsettled : ∀ {l : Pc}, l.settled → l.waits k → False := fun h => Pc.not_waits_of_settled h
  cases h with
  | recheckClosed j old hclosed =>
      cases show j = k from hl
      exact ⟨rfl, .inl ⟨rfl, hclosed⟩⟩
  | block j =>
      cases show j = k from hl
      exact ⟨rfl, .inr ⟨rfl, rfl, rfl⟩⟩
  | call _ hl' => exact absurd hl (hsettled (Pc.settled_of_entry hl'))
  | claimed b => exact absurd hl (hsettled settled_won)
  | missed _ b late _ => exact absurd hl (hsettled settled_retry)
  | readClaimed caller => exact absurd hl (hsettled Caller.settled_won)
  | readMissed _ caller late _ => exact absurd hl (hsettled Caller.settled_failed)
  | recheckOpen j old | goOn j old _ => exact absurd hl (hsettled settled_attempt)
  | _ => exact absurd hl id

/-- A thread leaves the lock to a writer when it has seen one counted. -/
theorem Moves.releasing (h : Moves s l s' l' sig) (hl : l'.releasing) :
    ∃ k, l = .loadWriters k ∧ s.waitCount .exclusive > 0 := by
  have hsettled : ∀ {l : Pc}, l.settled → l.releasing → False := fun h =>
    Pc.not_releasing_of_settled h
  cases h with
  | loadWriters k => exact ⟨k, rfl, of_decide_eq_true hl⟩
  | call _ hl' => exact absurd hl (hsettled (Pc.settled_of_entry hl'))
  | claimed b => exact absurd hl (hsettled settled_won)
  | missed _ b late _ => exact absurd hl (hsettled settled_retry)
  | readClaimed caller => exact absurd hl (hsettled Caller.settled_won)
  | readMissed _ caller late _ => exact absurd hl (hsettled Caller.settled_failed)
  | recheckOpen j old | goOn j old _ => exact absurd hl (hsettled settled_attempt)
  | _ => exact absurd hl id

end SharedMutex
end Lock
end Chenc
