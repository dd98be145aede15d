import Chenc.Lib.Bits
import Chenc.Lib.Parking

/-!
# SharedMutex — one word for readers and writers, and two signals to sleep on

Model of `shared_mutex` (`thread/lock.hpp`), one atomic operation at a time.

* `Shared`, `Pc`, `step` : the five atomic variables, where a thread is, and what it does next;
* `Word`, `decode` : what `lock_state_` says, and what each operation on it does to that;
* `Moves` : what a step can be, with the guard it was taken under.

The clock is not modelled: each test of it may turn out either way.  Memory is sequentially
consistent.  `write_signal_` and `write_wait_count_` are `signal .exclusive` and
`waitCount .exclusive`, and those of the readers the same at `.shared`.
-/

namespace Chenc
namespace Lock
namespace SharedMutex

open Interleaving (Config)
open Parking (Signal Program)

/-- The two ways to hold the lock. -/
inductive Kind
  | exclusive
  | shared
  deriving DecidableEq

instance : Fintype Kind :=
  ⟨{.exclusive, .shared}, fun k => by cases k <;> decide⟩

def writeLockedBit : BitVec 32 := 1 <<< 31
def writePendingBit : BitVec 32 := 1 <<< 30
def readerMask : BitVec 32 := 0x3FFFFFFF

structure Shared where
  lockState : BitVec 32
  signal : Kind → BitVec 32
  waitCount : Kind → BitVec 16

/-- Where `try_lock_shared` is called from: by itself, at the top of `lock_shared`, or in its loop
with a given `is_add_wait`. -/
inductive Caller
  | itself
  | first
  | loop (isAddWait : Bool)
  deriving DecidableEq

/-- The next operation of a thread. -/
inductive Pc
  | idle
  -- `try_lock`, or the top of `lock`
  | tryLock (blocking : Bool)
  | setPending
  -- the loop of `lock`
  | loadState (isAddWait : Bool)
  | claim (isAddWait : Bool) (state : BitVec 32)
  -- `try_lock_shared`
  | readState (caller : Caller)
  | readClaim (caller : Caller) (state : BitVec 32)
  -- the slow path, the same in `lock` and `lock_shared`; `is_add_wait` is set after `register`
  | register (k : Kind)
  | loadSignal (k : Kind)
  | recheck (k : Kind) (old : BitVec 32)
  | wait (k : Kind) (old : BitVec 32)
  | blocked (k : Kind) (old : BitVec 32)
  | deregister (k : Kind)
  | holding (k : Kind)
  -- `unlock`; up to the write that gives the lock up, `k` is what the caller holds, which the code
  -- does not know
  | branch (k : Kind)
  | loadWriters (k : Kind)
  | release (k : Kind) (hasWriter : Bool)
  | loadReaders
  | subReader (k : Kind)
  | lastReader
  | bump (k : Kind)
  | notify (k : Kind)
  deriving DecidableEq

/-- What a thread does not decide itself. -/
inductive Act
  /-- The next operation; `late` is the outcome of a test of the clock that may follow it. -/
  | go (late : Bool)
  /-- `compare_exchange_weak` fails, whatever the word is. -/
  | spurious (late : Bool)
  | tryLock
  | lock
  | tryLockShared
  | lockShared
  /-- `unlock`, or `unlock_shared`, which calls it. -/
  | unlock

/-- The top of the loop of `lock` or `lock_shared`. -/
def Kind.attempt : Kind → Bool → Pc
  | .exclusive, isAddWait => .loadState isAddWait
  | .shared, isAddWait => .readState (.loop isAddWait)

/-- What follows an attempt that failed, when the clock says `late`. -/
def Kind.retry (k : Kind) (isAddWait late : Bool) : Pc :=
  if late then (if isAddWait then .loadSignal k else .register k) else k.attempt isAddWait

/-- What follows the loop. -/
def Kind.won (k : Kind) (isAddWait : Bool) : Pc :=
  if isAddWait then .deregister k else .holding k

def Caller.won : Caller → Pc
  | .itself | .first => .holding .shared
  | .loop isAddWait => Kind.won .shared isAddWait

def Caller.failed (late : Bool) : Caller → Pc
  | .itself => .idle
  | .first => .readState (.loop false)
  | .loop isAddWait => Kind.retry .shared isAddWait late

/-- The bits that keep a writer, or a reader, out. -/
def Kind.obstacles : Kind → BitVec 32
  | .exclusive => writeLockedBit ||| readerMask
  | .shared => writeLockedBit ||| writePendingBit

/-- `notify_one` for the writers, `notify_all` for the readers. -/
def Kind.notification : Kind → Signal Kind
  | .exclusive => .one .exclusive
  | .shared => .all .shared

namespace Shared

def setState (s : Shared) (w : BitVec 32) : Shared :=
  { s with lockState := w }

def setCount (s : Shared) (k : Kind) (n : BitVec 16) : Shared :=
  { s with waitCount := Function.update s.waitCount k n }

def bump (s : Shared) (k : Kind) : Shared :=
  { s with signal := Function.update s.signal k (s.signal k + 1) }

end Shared

/-- The next operation. -/
def advance (s : Shared) (late : Bool) : Pc → Option (Shared × Pc × Signal Kind)
  | .idle => none
  | .tryLock blocking =>
      if s.lockState = 0 then some (s.setState writeLockedBit, .holding .exclusive, .silent)
      else some (s, if blocking then .setPending else .idle, .silent)
  | .setPending =>
      some (s.setState (s.lockState ||| writePendingBit), .loadState false, .silent)
  | .loadState b =>
      if s.lockState &&& Kind.obstacles .exclusive = 0 then
        some (s, .claim b s.lockState, .silent)
      else some (s, Kind.retry .exclusive b late, .silent)
  | .claim b state =>
      if s.lockState = state then
        some (s.setState (writeLockedBit ||| (state &&& writePendingBit)), Kind.won .exclusive b,
          .silent)
      else some (s, Kind.retry .exclusive b late, .silent)
  | .readState caller =>
      if s.lockState &&& Kind.obstacles .shared = 0 then
        some (s, .readClaim caller s.lockState, .silent)
      else some (s, caller.failed late, .silent)
  | .readClaim caller state =>
      if s.lockState = state then some (s.setState (state + 1), caller.won, .silent)
      else some (s, caller.failed late, .silent)
  | .register k => some (s.setCount k (s.waitCount k + 1), .loadSignal k, .silent)
  | .loadSignal k => some (s, .recheck k (s.signal k), .silent)
  | .recheck k old =>
      if s.lockState &&& k.obstacles ≠ 0 then some (s, .wait k old, .silent)
      else some (s, k.attempt true, .silent)
  | .wait k old =>
      if s.signal k = old then some (s, .blocked k old, .silent)
      else some (s, k.attempt true, .silent)
  | .blocked _ _ => none
  | .deregister k => some (s.setCount k (s.waitCount k - 1), .holding k, .silent)
  | .holding _ => none
  | .branch k =>
      if s.lockState &&& writeLockedBit ≠ 0 then some (s, .loadWriters k, .silent)
      else some (s, .subReader k, .silent)
  | .loadWriters k => some (s, .release k (decide (s.waitCount .exclusive > 0)), .silent)
  | .release _ hasWriter =>
      some (s.setState (if hasWriter then writePendingBit else 0),
        if hasWriter then .bump .exclusive else .loadReaders, .silent)
  | .loadReaders =>
      some (s, if s.waitCount .shared > 0 then .bump .shared else .idle, .silent)
  | .subReader _ =>
      some (s.setState (s.lockState - 1),
        if s.lockState &&& readerMask = 1 ∧ s.lockState &&& writePendingBit ≠ 0 then .lastReader
        else .idle, .silent)
  | .lastReader =>
      some (s, if s.waitCount .exclusive > 0 then .bump .exclusive else .idle, .silent)
  | .bump k => some (s.bump k, .notify k, .silent)
  | .notify k => some (s, .idle, k.notification)

def step (s : Shared) (l : Pc) : Act → Option (Shared × Pc × Signal Kind)
  | .go late => advance s late l
  | .spurious late =>
      match l with
      | .readClaim caller _ => some (s, caller.failed late, .silent)
      | _ => none
  | .tryLock => if l = .idle then some (s, .tryLock false, .silent) else none
  | .lock => if l = .idle then some (s, .tryLock true, .silent) else none
  | .tryLockShared => if l = .idle then some (s, .readState .itself, .silent) else none
  | .lockShared => if l = .idle then some (s, .readState .first, .silent) else none
  | .unlock =>
      match l with
      | .holding k => some (s, .branch k, .silent)
      | _ => none

/-- Blocked in `write_signal_.wait` or `read_signal_.wait`. -/
def Pc.parked : Pc → Option Kind
  | .blocked k _ => some k
  | _ => none

/-- A thread that is woken tests the signal again. -/
def Pc.resume : Pc → Pc
  | .blocked k old => .wait k old
  | l => l

def program : Program Shared Pc Act Kind :=
  ⟨step, Pc.parked, Pc.resume⟩

def start (ι : Type) : Config ι Shared Pc :=
  ⟨⟨0, fun _ => 0, fun _ => 0⟩, fun _ => .idle⟩

/-! ## What the word says -/

structure Word where
  locked : Bool
  pending : Bool
  readers : Nat

def decode (w : BitVec 32) : Word :=
  ⟨w.getLsbD 31, w.getLsbD 30, (w &&& readerMask).toNat⟩

/-- There is an obstacle for a thread that wants the lock in this way. -/
def Word.Closed (d : Word) : Kind → Prop
  | .exclusive => d.locked = true ∨ 0 < d.readers
  | .shared => d.locked = true ∨ d.pending = true

section Words

variable (w : BitVec 32)

theorem readers_eq_mod : (decode w).readers = w.toNat % 2 ^ 30 :=
  Bits.toNat_and_low 30 rfl

theorem and_writeLockedBit_ne : w &&& writeLockedBit ≠ 0 ↔ (decode w).locked = true :=
  Bits.and_twoPow_ne_zero w (by decide)

theorem and_writePendingBit_ne : w &&& writePendingBit ≠ 0 ↔ (decode w).pending = true :=
  Bits.and_twoPow_ne_zero w (by decide)

theorem and_readerMask_ne : w &&& readerMask ≠ 0 ↔ 0 < (decode w).readers := by
  rw [Nat.pos_iff_ne_zero, ne_eq, ne_eq, ← BitVec.toNat_inj]
  rfl

theorem and_readerMask_eq_one : w &&& readerMask = 1 ↔ (decode w).readers = 1 := by
  rw [← BitVec.toNat_inj]
  rfl

theorem and_or_ne (a b : BitVec 32) : w &&& (a ||| b) ≠ 0 ↔ w &&& a ≠ 0 ∨ w &&& b ≠ 0 := by
  rw [BitVec.and_or_distrib_left, ← not_and_or]
  exact not_congr BitVec.or_eq_zero_iff

theorem and_obstacles_ne (k : Kind) : w &&& k.obstacles ≠ 0 ↔ (decode w).Closed k := by
  cases k with
  | exclusive =>
      rw [Kind.obstacles, and_or_ne, and_writeLockedBit_ne, and_readerMask_ne]
      rfl
  | shared =>
      rw [Kind.obstacles, and_or_ne, and_writeLockedBit_ne, and_writePendingBit_ne]
      rfl

theorem decode_zero : decode 0 = ⟨false, false, 0⟩ := by
  rfl

theorem decode_writeLockedBit : decode writeLockedBit = ⟨true, false, 0⟩ := by
  rfl

theorem decode_writePendingBit : decode writePendingBit = ⟨false, true, 0⟩ := by
  rfl

/-- `fetch_or(write_pending_bit)`. -/
theorem decode_or_pending : decode (w ||| writePendingBit) = { decode w with pending := true } := by
  have hlocked : writePendingBit.getLsbD 31 = false := by
    decide
  have hpending : writePendingBit.getLsbD 30 = true := by
    decide
  have hmask : writePendingBit &&& readerMask = 0#32 := by
    decide
  simp only [decode, BitVec.getLsbD_or, hlocked, hpending, Bool.or_false, Bool.or_true,
    BitVec.and_or_distrib_right, hmask, BitVec.or_zero]

/-- The word a writer puts in the place of `w`. -/
theorem decode_claimed : decode (writeLockedBit ||| (w &&& writePendingBit)) =
    ⟨true, (decode w).pending, 0⟩ := by
  have hbit : writePendingBit.getLsbD 30 = true := by
    decide
  have hbit' : writeLockedBit.getLsbD 30 = false := by
    decide
  have htop : writeLockedBit.getLsbD 31 = true := by
    decide
  have hmask : writeLockedBit &&& readerMask = 0#32 := by
    decide
  have hmask' : writePendingBit &&& readerMask = 0#32 := by
    decide
  simp only [decode, BitVec.getLsbD_or, BitVec.getLsbD_and, hbit, hbit', htop, Bool.true_or,
    Bool.false_or, Bool.and_true, BitVec.and_or_distrib_right, hmask, BitVec.and_assoc, hmask',
    BitVec.and_zero, BitVec.or_zero, BitVec.toNat_zero]

/-- A change below bit 30 is a change of the number of readers. -/
theorem decode_of_div_eq {w v : BitVec 32} (h : v.toNat / 2 ^ 30 = w.toNat / 2 ^ 30) {n : Nat}
    (hn : v.toNat % 2 ^ 30 = n) : decode v = { decode w with readers := n } := by
  have hlocked : v.getLsbD 31 = w.getLsbD 31 := Bits.getLsbD_of_div_eq (by decide) h
  have hpending : v.getLsbD 30 = w.getLsbD 30 := Bits.getLsbD_of_div_eq (by decide) h
  rw [← hn, ← readers_eq_mod]
  simp only [decode, hlocked, hpending]

/-- A reader enters. -/
theorem decode_add_one (h : (decode w).readers + 1 < 2 ^ 30) :
    decode (w + 1) = { decode w with readers := (decode w).readers + 1 } := by
  have hlt := w.isLt
  have hone : (1 : BitVec 32).toNat = 1 := rfl
  rw [readers_eq_mod] at h
  have hnat : (w + 1).toNat = w.toNat + 1 := by
    rw [BitVec.toNat_add, hone]
    omega
  rw [readers_eq_mod]
  exact decode_of_div_eq (by omega) (by omega)

/-- A reader leaves. -/
theorem decode_sub_one (h : 0 < (decode w).readers) :
    decode (w - 1) = { decode w with readers := (decode w).readers - 1 } := by
  have hlt := w.isLt
  have hone : (1 : BitVec 32).toNat = 1 := rfl
  rw [readers_eq_mod] at h
  have hnat : (w - 1).toNat = w.toNat - 1 := by
    rw [BitVec.toNat_sub, hone]
    omega
  rw [readers_eq_mod]
  exact decode_of_div_eq (by omega) (by omega)

end Words

/-! ## The cases of a step -/

/-- Where a call starts. -/
def Pc.entry : Pc → Prop
  | .tryLock _ | .readState .itself | .readState .first => True
  | _ => False

/-- In an attempt on the write lock. -/
def Pc.attempting (isAddWait : Bool) : Pc → Prop
  | .loadState b | .claim b _ => b = isAddWait
  | _ => False

/-- In an attempt on the read lock. -/
def Pc.reading (caller : Caller) : Pc → Prop
  | .readState c | .readClaim c _ => c = caller
  | _ => False

/-- Neither about to act on what it has read, nor in `wait`, nor in `unlock`. -/
def Pc.settled : Pc → Prop
  | .idle | .tryLock _ | .loadState _ | .readState _ | .register _ | .loadSignal _ | .deregister _
  | .holding _ => True
  | _ => False

section Settled

variable {k : Kind} {caller : Caller} {b late : Bool} {l : Pc}

theorem settled_attempt : (k.attempt b).settled := by
  cases k <;> exact trivial

theorem settled_retry : (k.retry b late).settled := by
  cases k <;> cases b <;> cases late <;> exact trivial

theorem settled_won : (k.won b).settled := by
  cases b <;> exact trivial

theorem Caller.settled_won : caller.won.settled := by
  cases caller with
  | loop b => exact SharedMutex.settled_won
  | _ => exact trivial

theorem Caller.settled_failed : (caller.failed late).settled := by
  cases caller with
  | loop b => exact settled_retry
  | _ => exact trivial

theorem Pc.settled_of_entry (h : l.entry) : l.settled := by
  cases l <;> first | exact trivial | exact absurd h id

end Settled

/-- One constructor for each way a thread can go on. -/
inductive Moves (s : Shared) : Pc → Shared → Pc → Signal Kind → Prop
  | call (l : Pc) : l.entry → Moves s .idle s l .silent
  | unlock (k : Kind) : Moves s (.holding k) s (.branch k) .silent
  -- `lock` and `try_lock`
  | tryWon (b : Bool) : s.lockState = 0 →
      Moves s (.tryLock b) (s.setState writeLockedBit) (.holding .exclusive) .silent
  | tryFailed : Moves s (.tryLock false) s .idle .silent
  | tryBlocked : Moves s (.tryLock true) s .setPending .silent
  | setPending :
      Moves s .setPending (s.setState (s.lockState ||| writePendingBit)) (.loadState false) .silent
  | loadOpen (b : Bool) : ¬ (decode s.lockState).Closed .exclusive →
      Moves s (.loadState b) s (.claim b s.lockState) .silent
  | claimed (b : Bool) : Moves s (.claim b s.lockState)
      (s.setState (writeLockedBit ||| (s.lockState &&& writePendingBit)))
      (Kind.won .exclusive b) .silent
  | missed (l : Pc) (b late : Bool) : l.attempting b →
      Moves s l s (Kind.retry .exclusive b late) .silent
  -- `lock_shared` and `try_lock_shared`
  | readOpen (caller : Caller) : ¬ (decode s.lockState).Closed .shared →
      Moves s (.readState caller) s (.readClaim caller s.lockState) .silent
  | readClaimed (caller : Caller) : Moves s (.readClaim caller s.lockState)
      (s.setState (s.lockState + 1)) caller.won .silent
  | readMissed (l : Pc) (caller : Caller) (late : Bool) : l.reading caller →
      Moves s l s (caller.failed late) .silent
  -- the slow path
  | register (k : Kind) :
      Moves s (.register k) (s.setCount k (s.waitCount k + 1)) (.loadSignal k) .silent
  | loadSignal (k : Kind) : Moves s (.loadSignal k) s (.recheck k (s.signal k)) .silent
  | recheckClosed (k : Kind) (old : BitVec 32) : (decode s.lockState).Closed k →
      Moves s (.recheck k old) s (.wait k old) .silent
  | recheckOpen (k : Kind) (old : BitVec 32) :
      Moves s (.recheck k old) s (k.attempt true) .silent
  | block (k : Kind) : Moves s (.wait k (s.signal k)) s (.blocked k (s.signal k)) .silent
  | goOn (k : Kind) (old : BitVec 32) : s.signal k ≠ old →
      Moves s (.wait k old) s (k.attempt true) .silent
  | deregister (k : Kind) :
      Moves s (.deregister k) (s.setCount k (s.waitCount k - 1)) (.holding k) .silent
  -- `unlock`
  | branchWriter (k : Kind) : (decode s.lockState).locked = true →
      Moves s (.branch k) s (.loadWriters k) .silent
  | branchReader (k : Kind) : (decode s.lockState).locked = false →
      Moves s (.branch k) s (.subReader k) .silent
  | loadWriters (k : Kind) :
      Moves s (.loadWriters k) s (.release k (decide (s.waitCount .exclusive > 0))) .silent
  | releaseToWriter (k : Kind) :
      Moves s (.release k true) (s.setState writePendingBit) (.bump .exclusive) .silent
  | releaseToReaders (k : Kind) :
      Moves s (.release k false) (s.setState 0) .loadReaders .silent
  | subLast (k : Kind) : (decode s.lockState).readers = 1 → (decode s.lockState).pending = true →
      Moves s (.subReader k) (s.setState (s.lockState - 1)) .lastReader .silent
  | subReader (k : Kind) :
      ¬ ((decode s.lockState).readers = 1 ∧ (decode s.lockState).pending = true) →
      Moves s (.subReader k) (s.setState (s.lockState - 1)) .idle .silent
  | wakeWriter : Moves s .lastReader s (.bump .exclusive) .silent
  | noWriter : s.waitCount .exclusive = 0 → Moves s .lastReader s .idle .silent
  | wakeReaders : Moves s .loadReaders s (.bump .shared) .silent
  | noReader : s.waitCount .shared = 0 → Moves s .loadReaders s .idle .silent
  | bump (k : Kind) : Moves s (.bump k) (s.bump k) (.notify k) .silent
  | notify (k : Kind) : Moves s (.notify k) s .idle k.notification

variable {s s' : Shared} {l l' : Pc} {sig : Signal Kind}

theorem eq_zero_of_not_pos {w : Nat} {n : BitVec w} (h : ¬ n > 0) : n = 0 :=
  BitVec.le_zero_iff.1 (BitVec.not_lt.1 h)

theorem Moves.of_advance {late : Bool} (h : advance s late l = some (s', l', sig)) :
    Moves s l s' l' sig := by
  -- Each test of the code, in terms of what the word says.
  cases l with
  | idle | blocked k old | holding k => cases h
  | tryLock b =>
      simp only [advance] at h
      split_ifs at h with hzero hb
      · cases h
        exact .tryWon b hzero
      · cases h
        rw [hb]
        exact .tryBlocked
      · cases h
        rw [Bool.not_eq_true] at hb
        rw [hb]
        exact .tryFailed
  | loadState b =>
      simp only [advance] at h
      split_ifs at h with hopen <;> cases h
      · exact .loadOpen b fun hclosed => (and_obstacles_ne _ _).2 hclosed hopen
      · exact .missed _ b late rfl
  | claim b state =>
      simp only [advance] at h
      split_ifs at h with hstate <;> cases h
      · subst hstate
        exact .claimed b
      · exact .missed _ b late rfl
  | readState caller =>
      simp only [advance] at h
      split_ifs at h with hopen <;> cases h
      · exact .readOpen caller fun hclosed => (and_obstacles_ne _ _).2 hclosed hopen
      · exact .readMissed _ caller late rfl
  | readClaim caller state =>
      simp only [advance] at h
      split_ifs at h with hstate <;> cases h
      · subst hstate
        exact .readClaimed caller
      · exact .readMissed _ caller late rfl
  | recheck k old =>
      simp only [advance] at h
      split_ifs at h with hclosed <;> cases h
      · exact .recheckClosed k old ((and_obstacles_ne _ k).1 hclosed)
      · exact .recheckOpen k old
  | wait k old =>
      simp only [advance] at h
      split_ifs at h with hold <;> cases h
      · subst hold
        exact .block k
      · exact .goOn k old hold
  | branch k =>
      simp only [advance] at h
      split_ifs at h with hlocked <;> cases h
      · exact .branchWriter k ((and_writeLockedBit_ne _).1 hlocked)
      · rw [and_writeLockedBit_ne, Bool.not_eq_true] at hlocked
        exact .branchReader k hlocked
  | release k hasWriter =>
      cases hasWriter <;> cases h
      · exact .releaseToReaders k
      · exact .releaseToWriter k
  | subReader k =>
      cases h
      split_ifs with hlast
      · rw [and_readerMask_eq_one, and_writePendingBit_ne] at hlast
        exact .subLast k hlast.1 hlast.2
      · rw [and_readerMask_eq_one, and_writePendingBit_ne] at hlast
        exact .subReader k hlast
  | lastReader =>
      cases h
      split_ifs with hcount
      · exact .wakeWriter
      · exact .noWriter (eq_zero_of_not_pos hcount)
  | loadReaders =>
      cases h
      split_ifs with hcount
      · exact .wakeReaders
      · exact .noReader (eq_zero_of_not_pos hcount)
  | setPending | register k | loadSignal k | deregister k | loadWriters k | bump k | notify k =>
      cases h
      constructor

/-- What a step can be. -/
theorem Moves.of_step {a : Act} (h : step s l a = some (s', l', sig)) : Moves s l s' l' sig := by
  cases a with
  | go late => exact .of_advance h
  | spurious late =>
      cases l with
      | readClaim caller state =>
          cases h
          exact .readMissed _ caller late rfl
      | _ => cases h
  | unlock =>
      cases l with
      | holding k =>
          cases h
          exact .unlock k
      | _ => cases h
  | tryLock | lock | tryLockShared | lockShared =>
      simp only [step] at h
      split_ifs at h with hl
      subst hl
      cases h
      exact .call _ trivial

end SharedMutex
end Lock
end Chenc
