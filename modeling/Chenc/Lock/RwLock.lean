import Chenc.Lib.Bits
import Chenc.Lib.Parking

/-!
# RwLock — four counts in one word, and two more to sleep on

Model of `rw_lock` (`thread/olock.hpp`), one atomic operation at a time.

* `State` : the four fields of `state_t`, which are compared and exchanged as one word;
* `Shared`, `Pc`, `step` : the atomic variables, where a thread is, and what it does next;
* `Moves` : what a step can be, with the guard it was taken under.

The read handle and the write handle run the same code with different tests and updates, which are
the functions of `Kind` below.  The clock is not modelled: each test of it may turn out either
way.  Memory is sequentially consistent.
-/

namespace Chenc
namespace Lock
namespace RwLock

open Interleaving (Config)
open Parking (Signal Program)

/-- The two handles, `read_lock_ref` and `write_lock_ref`. -/
inductive Kind
  | read
  | write
  deriving DecidableEq

instance : Fintype Kind :=
  ⟨{.read, .write}, fun k => by cases k <;> decide⟩

/-- `state_t`. -/
structure State where
  prepReadCount : BitVec 16
  prepWriteCount : BitVec 16
  actiReadCount : BitVec 16
  actiWriteCount : BitVec 16
  deriving DecidableEq

/-- `wait_read__count_` and `wait_write_count_` are `waitCount .read` and `waitCount .write`. -/
structure Shared where
  state : State
  waitCount : Kind → BitVec 64

def waitCntMask : BitVec 64 := 0xFFFF
def verInc : BitVec 64 := 0x10000

namespace State

variable (d : State)

def active : Kind → BitVec 16
  | .read => d.actiReadCount
  | .write => d.actiWriteCount

def prepared : Kind → BitVec 16
  | .read => d.prepReadCount
  | .write => d.prepWriteCount

def setActive (n : BitVec 16) : Kind → State
  | .read => { d with actiReadCount := n }
  | .write => { d with actiWriteCount := n }

def setPrepared (n : BitVec 16) : Kind → State
  | .read => { d with prepReadCount := n }
  | .write => { d with prepWriteCount := n }

/-- What makes `try_lock` give up. -/
def Obstructed : Kind → Prop
  | .read => d.actiWriteCount ≠ 0 ∨ d.prepWriteCount ≠ 0
  | .write => (d.actiReadCount ≠ 0 ∨ d.prepReadCount ≠ 0) ∨
      d.actiWriteCount ≠ 0 ∨ d.prepWriteCount ≠ 0

/-- What makes the loop of `lock` go to `pass`. -/
def Closed : Kind → Prop
  | .read => d.actiWriteCount ≠ 0 ∨ d.prepWriteCount ≠ 0
  | .write => d.actiReadCount ≠ 0 ∨ d.actiWriteCount ≠ 0

instance : ∀ k, Decidable (d.Obstructed k)
  | .read => inferInstanceAs (Decidable (_ ∨ _))
  | .write => inferInstanceAs (Decidable (_ ∨ _))

instance : ∀ k, Decidable (d.Closed k)
  | .read => inferInstanceAs (Decidable (_ ∨ _))
  | .write => inferInstanceAs (Decidable (_ ∨ _))

/-- The active count of a lock that is taken once more. -/
def taken : Kind → BitVec 16
  | .read => d.actiReadCount + 1
  | .write => 1

/-- The active count of a lock that is given up. -/
def freed : Kind → BitVec 16
  | .read => d.actiReadCount - 1
  | .write => 0

/-- The new state of `try_lock`. -/
def take (k : Kind) : State :=
  d.setActive (d.taken k) k

/-- The new state with which `lock` announces itself. -/
def prepare (k : Kind) : State :=
  d.setPrepared (d.prepared k + 1) k

/-- The new state of the loop of `lock`. -/
def claim (k : Kind) : State :=
  (d.take k).setPrepared (d.prepared k - 1) k

/-- The new state of `unlock`. -/
def release (k : Kind) : State :=
  d.setActive (d.freed k) k

end State

/-- The next operation of a thread; the third argument of `tryCas` and `claim` and the second of
`prep` and `unlockCas` is `expected`, and that of `recheck` and `wait` is `wait_expected`. -/
inductive Pc
  | idle
  -- `try_lock`, by itself or at the top of `lock`
  | tryLoad (k : Kind) (blocking : Bool)
  | tryCas (k : Kind) (blocking : Bool) (expected : State)
  -- `lock`
  | slowLoad (k : Kind)
  | prep (k : Kind) (expected : State)
  | loadState (k : Kind) (isWait : Bool)
  | claim (k : Kind) (isWait : Bool) (expected : State)
  | register (k : Kind)
  | loadCount (k : Kind)
  | recheck (k : Kind) (waitExpected : BitVec 64)
  | cancel (k : Kind)
  | wait (k : Kind) (waitExpected : BitVec 64)
  | blocked (k : Kind) (waitExpected : BitVec 64)
  | deregister (k : Kind)
  | holding (k : Kind)
  -- `unlock`
  | unlockLoad (k : Kind)
  | unlockCas (k : Kind) (expected : State)
  | bumpWriters
  | bumpReaders
  | notify (k : Kind)
  deriving DecidableEq

/-- What a thread does not decide itself. -/
inductive Act
  /-- The next operation; `late` is the outcome of a test of the clock that may follow it. -/
  | go (late : Bool)
  | tryLock (k : Kind)
  | lock (k : Kind)
  | unlock

/-- What follows a `try_lock` that failed. -/
def Kind.failed (k : Kind) (blocking : Bool) : Pc :=
  if blocking then .slowLoad k else .idle

/-- What follows `pass`, when the clock says `late`. -/
def Kind.pass (k : Kind) (isWait late : Bool) : Pc :=
  if late then (if isWait then .loadCount k else .register k) else .loadState k isWait

/-- What follows the loop. -/
def Kind.won (k : Kind) (isWait : Bool) : Pc :=
  if isWait then .deregister k else .holding k

/-- `notify_one` for the writers, `notify_all` for the readers. -/
def Kind.notification : Kind → Signal Kind
  | .read => .all .read
  | .write => .one .write

namespace Shared

def setState (s : Shared) (d : State) : Shared :=
  { s with state := d }

/-- `fetch_add`, or `fetch_sub` of `-n`. -/
def addCount (s : Shared) (k : Kind) (n : BitVec 64) : Shared :=
  { s with waitCount := Function.update s.waitCount k (s.waitCount k + n) }

end Shared

/-- The next operation. -/
def advance (s : Shared) (late : Bool) : Pc → Option (Shared × Pc × Signal Kind)
  | .idle => none
  | .tryLoad k b =>
      if s.state.Obstructed k then some (s, k.failed b, .silent)
      else some (s, .tryCas k b s.state, .silent)
  | .tryCas k b expected =>
      if s.state = expected then some (s.setState (expected.take k), .holding k, .silent)
      else some (s, k.failed b, .silent)
  | .slowLoad k => some (s, .prep k s.state, .silent)
  | .prep k expected =>
      if s.state = expected then some (s.setState (expected.prepare k), .loadState k false, .silent)
      else some (s, .prep k s.state, .silent)
  | .loadState k b =>
      if s.state.Closed k then some (s, k.pass b late, .silent)
      else some (s, .claim k b s.state, .silent)
  | .claim k b expected =>
      if s.state = expected then some (s.setState (expected.claim k), k.won b, .silent)
      else some (s, .loadState k b, .silent)
  | .register k => some (s.addCount k 1, .recheck k (s.waitCount k + 1), .silent)
  | .loadCount k => some (s, .recheck k (s.waitCount k), .silent)
  | .recheck k old =>
      if s.state.Closed k then some (s, .wait k old, .silent) else some (s, .cancel k, .silent)
  | .cancel k => some (s.addCount k (-1), .loadState k false, .silent)
  | .wait k old =>
      if s.waitCount k = old then some (s, .blocked k old, .silent)
      else some (s, .loadState k true, .silent)
  | .blocked _ _ => none
  | .deregister k => some (s.addCount k (-1), .holding k, .silent)
  | .holding _ => none
  | .unlockLoad k => some (s, .unlockCas k s.state, .silent)
  | .unlockCas k expected =>
      if expected.active k = 0 then some (s, .idle, .silent)
      else if s.state = expected then
        some (s.setState (expected.release k), .bumpWriters, .silent)
      else some (s, .unlockCas k s.state, .silent)
  | .bumpWriters =>
      some (s.addCount .write verInc,
        if s.waitCount .write &&& waitCntMask ≠ 0 then .notify .write else .bumpReaders, .silent)
  | .bumpReaders =>
      some (s.addCount .read verInc,
        if s.waitCount .read &&& waitCntMask ≠ 0 then .notify .read else .idle, .silent)
  | .notify k => some (s, .idle, k.notification)

def step (s : Shared) (l : Pc) : Act → Option (Shared × Pc × Signal Kind)
  | .go late => advance s late l
  | .tryLock k => if l = .idle then some (s, .tryLoad k false, .silent) else none
  | .lock k => if l = .idle then some (s, .tryLoad k true, .silent) else none
  | .unlock =>
      match l with
      | .holding k => some (s, .unlockLoad k, .silent)
      | _ => none

/-- Blocked in `wait_read__count_.wait` or `wait_write_count_.wait`. -/
def Pc.parked : Pc → Option Kind
  | .blocked k _ => some k
  | _ => none

/-- A thread that is woken compares the count again. -/
def Pc.resume : Pc → Pc
  | .blocked k old => .wait k old
  | l => l

def program : Program Shared Pc Act Kind :=
  ⟨step, Pc.parked, Pc.resume⟩

def start (ι : Type) : Config ι Shared Pc :=
  ⟨⟨⟨0, 0, 0, 0⟩, fun _ => 0⟩, fun _ => .idle⟩

/-! ## The fields of the word -/

section Fields

variable (d : State) (n : BitVec 16) {j k : Kind}

@[simp] theorem active_setActive : (d.setActive n k).active k = n := by
  cases k <;> rfl

@[simp] theorem prepared_setPrepared : (d.setPrepared n k).prepared k = n := by
  cases k <;> rfl

@[simp] theorem prepared_setActive : (d.setActive n j).prepared k = d.prepared k := by
  cases j <;> cases k <;> rfl

@[simp] theorem active_setPrepared : (d.setPrepared n j).active k = d.active k := by
  cases j <;> cases k <;> rfl

theorem active_setActive_of_ne (h : k ≠ j) : (d.setActive n j).active k = d.active k := by
  cases j <;> cases k <;> first | rfl | exact absurd rfl h

theorem prepared_setPrepared_of_ne (h : k ≠ j) :
    (d.setPrepared n j).prepared k = d.prepared k := by
  cases j <;> cases k <;> first | rfl | exact absurd rfl h

/-- A lock that is not closed has no writer, and for a writer no readers. -/
theorem active_eq_zero_of_open (h : ¬ d.Closed k) :
    d.active .write = 0 ∧ (k = .write → d.active .read = 0) := by
  cases k with
  | read =>
      simp only [State.Closed, not_or, not_not] at h
      exact ⟨h.1, fun hk => Kind.noConfusion hk⟩
  | write =>
      simp only [State.Closed, not_or, not_not] at h
      exact ⟨h.2, fun _ => h.1⟩

theorem open_of_unobstructed (h : ¬ d.Obstructed k) : ¬ d.Closed k := by
  cases k with
  | read => exact h
  | write => exact fun hclosed => h (hclosed.elim (fun h => .inl (.inl h)) fun h => .inr (.inl h))

end Fields

section Counts

variable (s : Shared) (n : BitVec 64) {j k : Kind}

@[simp] theorem waitCount_addCount : (s.addCount k n).waitCount k = s.waitCount k + n := by
  simp [Shared.addCount]

theorem waitCount_addCount_of_ne (h : k ≠ j) :
    (s.addCount j n).waitCount k = s.waitCount k := by
  simp [Shared.addCount, h]

end Counts

/-! ## The cases of a step -/

/-- One constructor for each way a thread can go on. -/
inductive Moves (s : Shared) : Pc → Shared → Pc → Signal Kind → Prop
  | call (k : Kind) (b : Bool) : Moves s .idle s (.tryLoad k b) .silent
  | unlock (k : Kind) : Moves s (.holding k) s (.unlockLoad k) .silent
  -- `try_lock`
  | tryObstructed (k : Kind) (b : Bool) : Moves s (.tryLoad k b) s (k.failed b) .silent
  | tryOpen (k : Kind) (b : Bool) : ¬ s.state.Obstructed k →
      Moves s (.tryLoad k b) s (.tryCas k b s.state) .silent
  | tryWon (k : Kind) (b : Bool) :
      Moves s (.tryCas k b s.state) (s.setState (s.state.take k)) (.holding k) .silent
  | tryMissed (k : Kind) (b : Bool) (expected : State) :
      Moves s (.tryCas k b expected) s (k.failed b) .silent
  -- `lock`
  | slowLoad (k : Kind) : Moves s (.slowLoad k) s (.prep k s.state) .silent
  | prepare (k : Kind) :
      Moves s (.prep k s.state) (s.setState (s.state.prepare k)) (.loadState k false) .silent
  | prepMissed (k : Kind) (expected : State) :
      Moves s (.prep k expected) s (.prep k s.state) .silent
  | loadOpen (k : Kind) (b : Bool) : ¬ s.state.Closed k →
      Moves s (.loadState k b) s (.claim k b s.state) .silent
  | pass (k : Kind) (b late : Bool) : s.state.Closed k →
      Moves s (.loadState k b) s (k.pass b late) .silent
  | claim (k : Kind) (b : Bool) :
      Moves s (.claim k b s.state) (s.setState (s.state.claim k)) (k.won b) .silent
  | claimMissed (k : Kind) (b : Bool) (expected : State) :
      Moves s (.claim k b expected) s (.loadState k b) .silent
  | register (k : Kind) :
      Moves s (.register k) (s.addCount k 1) (.recheck k (s.waitCount k + 1)) .silent
  | loadCount (k : Kind) : Moves s (.loadCount k) s (.recheck k (s.waitCount k)) .silent
  | recheckClosed (k : Kind) (old : BitVec 64) : s.state.Closed k →
      Moves s (.recheck k old) s (.wait k old) .silent
  | recheckOpen (k : Kind) (old : BitVec 64) : Moves s (.recheck k old) s (.cancel k) .silent
  | cancel (k : Kind) :
      Moves s (.cancel k) (s.addCount k (-1)) (.loadState k false) .silent
  | block (k : Kind) :
      Moves s (.wait k (s.waitCount k)) s (.blocked k (s.waitCount k)) .silent
  | goOn (k : Kind) (old : BitVec 64) : s.waitCount k ≠ old →
      Moves s (.wait k old) s (.loadState k true) .silent
  | deregister (k : Kind) :
      Moves s (.deregister k) (s.addCount k (-1)) (.holding k) .silent
  -- `unlock`
  | unlockLoad (k : Kind) : Moves s (.unlockLoad k) s (.unlockCas k s.state) .silent
  | unlockMissed (k : Kind) (expected : State) : s.state ≠ expected →
      Moves s (.unlockCas k expected) s (.unlockCas k s.state) .silent
  | notHeld (k : Kind) (expected : State) : expected.active k = 0 →
      Moves s (.unlockCas k expected) s .idle .silent
  | release (k : Kind) :
      Moves s (.unlockCas k s.state) (s.setState (s.state.release k)) .bumpWriters .silent
  | wakeWriter : s.waitCount .write &&& waitCntMask ≠ 0 →
      Moves s .bumpWriters (s.addCount .write verInc) (.notify .write) .silent
  | noWriter : s.waitCount .write &&& waitCntMask = 0 →
      Moves s .bumpWriters (s.addCount .write verInc) .bumpReaders .silent
  | wakeReaders : Moves s .bumpReaders (s.addCount .read verInc) (.notify .read) .silent
  | noReader : s.waitCount .read &&& waitCntMask = 0 →
      Moves s .bumpReaders (s.addCount .read verInc) .idle .silent
  | notify (k : Kind) : Moves s (.notify k) s .idle k.notification

variable {s s' : Shared} {l l' : Pc} {sig : Signal Kind}

theorem Moves.of_advance {late : Bool} (h : advance s late l = some (s', l', sig)) :
    Moves s l s' l' sig := by
  cases l with
  | idle | blocked k old | holding k => cases h
  | tryLoad k b =>
      simp only [advance] at h
      split_ifs at h with hobstructed <;> cases h
      · exact .tryObstructed k b
      · exact .tryOpen k b hobstructed
  | tryCas k b expected =>
      simp only [advance] at h
      split_ifs at h with hstate <;> cases h
      · subst hstate
        exact .tryWon k b
      · exact .tryMissed k b expected
  | prep k expected =>
      simp only [advance] at h
      split_ifs at h with hstate <;> cases h
      · subst hstate
        exact .prepare k
      · exact .prepMissed k expected
  | loadState k b =>
      simp only [advance] at h
      split_ifs at h with hclosed <;> cases h
      · exact .pass k b late hclosed
      · exact .loadOpen k b hclosed
  | claim k b expected =>
      simp only [advance] at h
      split_ifs at h with hstate <;> cases h
      · subst hstate
        exact .claim k b
      · exact .claimMissed k b expected
  | recheck k old =>
      simp only [advance] at h
      split_ifs at h with hclosed <;> cases h
      · exact .recheckClosed k old hclosed
      · exact .recheckOpen k old
  | wait k old =>
      simp only [advance] at h
      split_ifs at h with hold <;> cases h
      · subst hold
        exact .block k
      · exact .goOn k old hold
  | unlockCas k expected =>
      simp only [advance] at h
      split_ifs at h with hzero hstate <;> cases h
      · exact .notHeld k expected hzero
      · subst hstate
        exact .release k
      · exact .unlockMissed k expected hstate
  | bumpWriters =>
      cases h
      split_ifs with hcount
      · exact .wakeWriter hcount
      · exact .noWriter (not_not.1 hcount)
  | bumpReaders =>
      cases h
      split_ifs with hcount
      · exact .wakeReaders
      · exact .noReader (not_not.1 hcount)
  | slowLoad k | register k | loadCount k | cancel k | deregister k | unlockLoad k | notify k =>
      cases h
      constructor

/-- What a step can be. -/
theorem Moves.of_step {a : Act} (h : step s l a = some (s', l', sig)) : Moves s l s' l' sig := by
  cases a with
  | go late => exact .of_advance h
  | unlock =>
      cases l with
      | holding k =>
          cases h
          exact .unlock k
      | _ => cases h
  | tryLock k | lock k =>
      simp only [step] at h
      split_ifs at h with hl
      subst hl
      cases h
      exact .call _ _

end RwLock
end Lock
end Chenc
