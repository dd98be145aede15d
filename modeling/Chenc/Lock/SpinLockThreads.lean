import Chenc.Lib.Parking
import Chenc.Lock.SpinLock

/-!
# SpinLockThreads — threads that come for one spin lock

Model of `spin_lock` (`thread/olock.hpp`), one atomic operation at a time.

* `Shared`, `Pc`, `step` : the two atomic variables, where a thread is, and what it does next;
* `Moves` : what a step can be, with the guard it was taken under;
* `clearStart_toWord`, `orStart_toWord` : the two operations that set the wait start time, on the
  word; those of `try_lock`, `lock` and `unlock` are the updates of `Lock.SpinLock`;
* `lock_byte_excludes` : at most one thread holds the lock, and the lock byte says whether one does.

The word of `flag_` is given by its fields, as `State.toWord` packs them.  Memory is sequentially
consistent; `flag_.wait` blocks only while the word is the expected one, and a thread that is woken,
or unblocks by itself, compares again.
-/

namespace Chenc
namespace Lock
namespace SpinLock

open Interleaving (Config Counts Tally)
open Parking (Signal Program Delivers runSchedule)

/-- `flag_`, and the static variable of `get_and_set_global_wait_start_time`. -/
structure Shared where
  flag : State
  globalWaitStart : U64

def Shared.setFlag (s : Shared) (d : State) : Shared :=
  { s with flag := d }

/-- `now_sleep_ns`, which `lock` never changes. -/
def nowSleepNs : U64 := 1000

/-- The next operation of a thread; `oldVal` is `old_val`, and `isWait` is
`has_incremented_wait`. -/
inductive Pc
  | idle
  -- `try_lock`, by itself or at the top of `lock`
  | tryLoad (blocking : Bool)
  | tryCas (blocking : Bool) (oldVal : State)
  -- the loop of `lock`
  | loopLoad (isWait : Bool)
  | loopCas (isWait : Bool) (oldVal : State)
  | waitTime (isWait : Bool) (oldVal : State)
  | globalTime (isWait : Bool) (oldVal : State)
  | countLoad
  | countCas (oldVal : State)
  -- From here on `has_incremented_wait` is set.
  | wait (oldVal : State)
  | blocked (oldVal : State)
  | holding
  -- `unlock`
  | fetchAnd
  | notify
  -- `get_and_set_wait_start_time(ns)`, by a thread that holds the lock or does not
  | clearStart (ns : U64) (holds : Bool)
  | orStart (ns : U64) (holds : Bool)
  deriving DecidableEq

/-- What a thread does not decide itself. -/
inductive Act
  /-- The next operation. -/
  | go
  /-- `compare_exchange_weak` fails, or `flag_.wait` unblocks, without a reason. -/
  | spurious
  | tryLock
  | lock
  | unlock
  | setStart (ns : U64)
  | setGlobal (ns : U64)

/-- What follows a `try_lock` that failed. -/
def failed (blocking : Bool) : Pc :=
  if blocking then .loopLoad false else .idle

/-- The slow path of `lock`, once the wait start time is known. -/
def slowPath (isWait : Bool) (oldVal : State) (waitNs : U64) : Pc :=
  if waitNs ≤ nowSleepNs then (if isWait then .wait oldVal else .countLoad) else .loopLoad isWait

/-- Back from `get_and_set_wait_start_time`. -/
def back (holds : Bool) : Pc :=
  if holds then .holding else .idle

/-- The next operation. -/
def advance (s : Shared) : Pc → Option (Shared × Pc × Signal Unit)
  | .idle => none
  | .tryLoad b =>
      if s.flag.lock ≠ 0 then some (s, failed b, .silent)
      else some (s, .tryCas b s.flag, .silent)
  | .tryCas b old =>
      if s.flag = old then
        some (s.setFlag ((Update.tryLock true).apply s.flag), .holding, .silent)
      else some (s, failed b, .silent)
  | .loopLoad w =>
      if s.flag.lock = 0 then some (s, .loopCas w s.flag, .silent)
      else some (s, .waitTime w s.flag, .silent)
  | .loopCas w old =>
      if s.flag = old then
        some (s.setFlag ((Update.acquire w true).apply s.flag), .holding, .silent)
      else some (s, .loopLoad w, .silent)
  | .waitTime w old =>
      if s.flag.toWord = 0 then some (s, .globalTime w old, .silent)
      else some (s, slowPath w old s.flag.toWord, .silent)
  | .globalTime w old => some (s, slowPath w old s.globalWaitStart, .silent)
  | .countLoad => some (s, .countCas s.flag, .silent)
  | .countCas old =>
      -- `old_val` keeps the word of before the exchange.
      if s.flag = old then
        some (s.setFlag ((Update.register true).apply s.flag), .wait old, .silent)
      else some (s, .countLoad, .silent)
  | .wait old => some (s, if s.flag = old then .blocked old else .loopLoad true, .silent)
  | .blocked _ => none
  | .holding => none
  | .fetchAnd =>
      some (s.setFlag (Update.unlock.apply s.flag),
        if s.flag.waitCount > 0 then .notify else .idle, .silent)
  | .notify => some (s, .idle, .one ())
  | .clearStart ns h => some (s.setFlag { s.flag with waitStart := 0 }, .orStart ns h, .silent)
  | .orStart ns h =>
      some (s.setFlag { s.flag with waitStart := s.flag.waitStart ||| ns.setWidth 32 }, back h,
        .silent)

/-- What happens without a reason. -/
def fail (s : Shared) : Pc → Option (Shared × Pc × Signal Unit)
  | .tryCas b _ => some (s, failed b, .silent)
  | .loopCas w _ => some (s, .loopLoad w, .silent)
  | .countCas _ => some (s, .countLoad, .silent)
  | .blocked old => some (s, .wait old, .silent)
  | _ => none

def step (s : Shared) (l : Pc) : Act → Option (Shared × Pc × Signal Unit)
  | .go => advance s l
  | .spurious => fail s l
  | .tryLock => if l = .idle then some (s, .tryLoad false, .silent) else none
  | .lock => if l = .idle then some (s, .tryLoad true, .silent) else none
  | .unlock => if l = .holding then some (s, .fetchAnd, .silent) else none
  -- A call with zero only reads.
  | .setStart ns =>
      if ns = 0 then none
      else if l = .idle then some (s, .clearStart ns false, .silent)
      else if l = .holding then some (s, .clearStart ns true, .silent)
      else none
  | .setGlobal ns =>
      if ns ≠ 0 ∧ (l = .idle ∨ l = .holding) then
        some ({ s with globalWaitStart := ns }, l, .silent)
      else none

/-- Blocked in `flag_.wait`. -/
def Pc.parked : Pc → Option Unit
  | .blocked _ => some ()
  | _ => none

/-- A thread that is woken compares the word again. -/
def Pc.resume : Pc → Pc
  | .blocked old => .wait old
  | l => l

def program : Program Shared Pc Act Unit :=
  ⟨step, Pc.parked, Pc.resume⟩

def start (ι : Type) : Config ι Shared Pc :=
  ⟨⟨⟨0, 0, 0⟩, 10000⟩, fun _ => .idle⟩

/-! ## The wait start time on the word -/

/-- `flag_.fetch_and` of `get_and_set_wait_start_time`. -/
theorem clearStart_toWord (d : State) :
    { d with waitStart := 0 }.toWord =
      d.toWord &&& State.toWord { waitStart := 0, waitCount := -1, lock := -1 } := by
  have hstart : d.waitStart &&& 0 = 0 := BitVec.and_zero
  have hcount : d.waitCount &&& -1 = d.waitCount := BitVec.and_allOnes
  have hlock : d.lock &&& -1 = d.lock := BitVec.and_allOnes
  rw [State.toWord_and, hstart, hcount, hlock]

/-- `flag_.fetch_or` of `get_and_set_wait_start_time`. -/
theorem orStart_toWord (d : State) (ns : U64) :
    { d with waitStart := d.waitStart ||| ns.setWidth 32 }.toWord =
      d.toWord ||| State.toWord { waitStart := ns.setWidth 32, waitCount := 0, lock := 0 } := by
  have hcount : d.waitCount ||| 0 = d.waitCount := BitVec.or_zero
  have hlock : d.lock ||| 0 = d.lock := BitVec.or_zero
  rw [State.toWord_or, hcount, hlock]

/-! ## The cases of a step -/

/-- One constructor for each way a thread can go on. -/
inductive Moves (s : Shared) : Pc → Shared → Pc → Signal Unit → Prop
  | call (b : Bool) : Moves s .idle s (.tryLoad b) .silent
  | unlock : Moves s .holding s .fetchAnd .silent
  | setStart (ns : U64) (h : Bool) : Moves s (back h) s (.clearStart ns h) .silent
  | setGlobal (ns : U64) (h : Bool) :
      Moves s (back h) { s with globalWaitStart := ns } (back h) .silent
  -- `try_lock`
  | tryBusy (b : Bool) : s.flag.lock ≠ 0 → Moves s (.tryLoad b) s (failed b) .silent
  | tryFree (b : Bool) : s.flag.lock = 0 → Moves s (.tryLoad b) s (.tryCas b s.flag) .silent
  | tryWon (b : Bool) :
      Moves s (.tryCas b s.flag) (s.setFlag ((Update.tryLock true).apply s.flag)) .holding .silent
  | tryMissed (b : Bool) (old : State) : Moves s (.tryCas b old) s (failed b) .silent
  -- `lock`
  | loopFree (w : Bool) : s.flag.lock = 0 → Moves s (.loopLoad w) s (.loopCas w s.flag) .silent
  | loopBusy (w : Bool) : s.flag.lock ≠ 0 → Moves s (.loopLoad w) s (.waitTime w s.flag) .silent
  | loopWon (w : Bool) :
      Moves s (.loopCas w s.flag) (s.setFlag ((Update.acquire w true).apply s.flag)) .holding
        .silent
  | loopMissed (w : Bool) (old : State) : Moves s (.loopCas w old) s (.loopLoad w) .silent
  | waitUnset (w : Bool) (old : State) : s.flag.toWord = 0 →
      Moves s (.waitTime w old) s (.globalTime w old) .silent
  | waitSet (w : Bool) (old : State) : s.flag.toWord ≠ 0 →
      Moves s (.waitTime w old) s (slowPath w old s.flag.toWord) .silent
  | globalTime (w : Bool) (old : State) :
      Moves s (.globalTime w old) s (slowPath w old s.globalWaitStart) .silent
  | countLoad : Moves s .countLoad s (.countCas s.flag) .silent
  | register :
      Moves s (.countCas s.flag) (s.setFlag ((Update.register true).apply s.flag)) (.wait s.flag)
        .silent
  | countMissed (old : State) : Moves s (.countCas old) s .countLoad .silent
  | block : Moves s (.wait s.flag) s (.blocked s.flag) .silent
  | goOn (old : State) : s.flag ≠ old → Moves s (.wait old) s (.loopLoad true) .silent
  | unblock (old : State) : Moves s (.blocked old) s (.wait old) .silent
  -- `unlock`
  | wake : s.flag.waitCount ≠ 0 →
      Moves s .fetchAnd (s.setFlag (Update.unlock.apply s.flag)) .notify .silent
  | nobody : s.flag.waitCount = 0 →
      Moves s .fetchAnd (s.setFlag (Update.unlock.apply s.flag)) .idle .silent
  | notify : Moves s .notify s .idle (.one ())
  -- `get_and_set_wait_start_time`
  | clearStart (ns : U64) (h : Bool) :
      Moves s (.clearStart ns h) (s.setFlag { s.flag with waitStart := 0 }) (.orStart ns h) .silent
  | orStart (ns : U64) (h : Bool) :
      Moves s (.orStart ns h)
        (s.setFlag { s.flag with waitStart := s.flag.waitStart ||| ns.setWidth 32 }) (back h)
        .silent

variable {s s' : Shared} {l l' : Pc} {sig : Signal Unit}

theorem Moves.of_advance (h : advance s l = some (s', l', sig)) : Moves s l s' l' sig := by
  cases l with
  | idle | blocked old | holding => cases h
  | tryLoad b =>
      simp only [advance] at h
      split_ifs at h with hlock <;> cases h
      · exact .tryBusy b hlock
      · exact .tryFree b (not_not.1 hlock)
  | tryCas b old =>
      simp only [advance] at h
      split_ifs at h with hflag <;> cases h
      · subst hflag
        exact .tryWon b
      · exact .tryMissed b old
  | loopLoad w =>
      simp only [advance] at h
      split_ifs at h with hlock <;> cases h
      · exact .loopFree w hlock
      · exact .loopBusy w hlock
  | loopCas w old =>
      simp only [advance] at h
      split_ifs at h with hflag <;> cases h
      · subst hflag
        exact .loopWon w
      · exact .loopMissed w old
  | waitTime w old =>
      simp only [advance] at h
      split_ifs at h with hzero <;> cases h
      · exact .waitUnset w old hzero
      · exact .waitSet w old hzero
  | countCas old =>
      simp only [advance] at h
      split_ifs at h with hflag <;> cases h
      · subst hflag
        exact .register
      · exact .countMissed old
  | wait old =>
      cases h
      split_ifs with hflag
      · subst hflag
        exact .block
      · exact .goOn old hflag
  | fetchAnd =>
      cases h
      split_ifs with hcount
      · exact .wake ((BitVec.pos_iff_ne_zero _).1 hcount)
      · exact .nobody (BitVec.le_zero_iff.1 (BitVec.not_lt.1 hcount))
  | globalTime w old | countLoad | notify | clearStart ns b | orStart ns b =>
      cases h
      constructor

theorem Moves.of_fail (h : fail s l = some (s', l', sig)) : Moves s l s' l' sig := by
  cases l <;> cases h
  · exact .tryMissed _ _
  · exact .loopMissed _ _
  · exact .countMissed _
  · exact .unblock _

/-- What a step can be. -/
theorem Moves.of_step {a : Act} (h : step s l a = some (s', l', sig)) : Moves s l s' l' sig := by
  cases a with
  | go => exact .of_advance h
  | spurious => exact .of_fail h
  | tryLock | lock =>
      simp only [step] at h
      split_ifs at h with hl
      subst hl
      cases h
      exact .call _
  | unlock =>
      simp only [step] at h
      split_ifs at h with hl
      subst hl
      cases h
      exact .unlock
  | setStart ns =>
      simp only [step] at h
      split_ifs at h with hzero hidle hholding
      · subst hidle
        cases h
        exact .setStart ns false
      · subst hholding
        cases h
        exact .setStart ns true
  | setGlobal ns =>
      simp only [step] at h
      split_ifs at h with hl
      cases h
      rcases hl.2 with rfl | rfl
      · exact .setGlobal ns false
      · exact .setGlobal ns true

/-! ## The holder -/

/-- Has taken the lock and not yet given it up. -/
def Pc.held : Pc → Prop
  | .holding | .fetchAnd => True
  | .clearStart _ h | .orStart _ h => h = true
  | _ => False

/-- What a thread has read before it exchanges the word. -/
def Pc.Fit : Pc → Prop
  | .tryCas _ old | .loopCas _ old => old.lock = 0
  | _ => True

@[simp] theorem held_failed (b : Bool) : ¬ (failed b).held := by
  cases b <;> exact id

@[simp] theorem held_slowPath (w : Bool) (old : State) (ns : U64) :
    ¬ (slowPath w old ns).held := by
  unfold slowPath
  split_ifs <;> exact id

@[simp] theorem held_back (h : Bool) : (back h).held ↔ h = true := by
  cases h <;> simp [back, Pc.held]

theorem fit_failed (b : Bool) : (failed b).Fit := by
  cases b <;> exact trivial

theorem fit_slowPath (w : Bool) (old : State) (ns : U64) : (slowPath w old ns).Fit := by
  unfold slowPath
  split_ifs <;> exact trivial

theorem fit_back (h : Bool) : (back h).Fit := by
  cases h <;> exact trivial

theorem Moves.fit (h : Moves s l s' l' sig) : l'.Fit := by
  cases h with
  | setGlobal ns b | orStart ns b => exact fit_back b
  | tryBusy b _ | tryMissed b old => exact fit_failed b
  | tryFree b hlock | loopFree w hlock => exact hlock
  | waitSet w old _ | globalTime w old => exact fit_slowPath w old _
  | _ => exact trivial

/-- A lock byte of one or zero says whether somebody holds the lock. -/
theorem Moves.held (h : Moves s l s' l' sig) (hfit : l.Fit) (hsingle : s.flag.lock.toNat ≤ 1)
    (hpos : l.held → 0 < s.flag.lock.toNat) :
    Tally l.held s.flag.lock.toNat l'.held s'.flag.lock.toNat ∧ s'.flag.lock.toNat ≤ 1 := by
  have hstay : (l'.held ↔ l.held) → s'.flag.lock = s.flag.lock →
      Tally l.held s.flag.lock.toNat l'.held s'.flag.lock.toNat ∧ s'.flag.lock.toNat ≤ 1 := by
    intro hheld hlock
    rw [hlock]
    exact ⟨.stay hheld, hsingle⟩
  -- Both exchanges that take the lock have read a lock byte of zero.
  have htake : s.flag.lock = 0 → s'.flag.lock = 1 → ¬ l.held → l'.held →
      Tally l.held s.flag.lock.toNat l'.held s'.flag.lock.toNat ∧ s'.flag.lock.toNat ≤ 1 := by
    intro hzero hone hl hl'
    rw [hzero, hone]
    exact ⟨.enter hl hl', le_refl _⟩
  have hfree : l.held → s'.flag.lock = 0 → ¬ l'.held →
      Tally l.held s.flag.lock.toNat l'.held s'.flag.lock.toNat ∧ s'.flag.lock.toNat ≤ 1 := by
    intro hl hzero hl'
    have hone : s.flag.lock.toNat = 1 := Nat.le_antisymm hsingle (hpos hl)
    rw [hzero, hone]
    exact ⟨.leave hl hl', Nat.zero_le 1⟩
  cases h with
  | tryWon b =>
      have hzero : s.flag.lock = 0 := hfit
      refine htake hzero ?_ id trivial
      simp [Shared.setFlag, Update.apply, hzero]
  | loopWon w =>
      have hzero : s.flag.lock = 0 := hfit
      refine htake hzero ?_ id trivial
      simp [Shared.setFlag, Update.apply, hzero]
  | register => exact hstay Iff.rfl rfl
  | wake _ | nobody _ => exact hfree trivial rfl id
  | setStart ns b => exact hstay (held_back b).symm rfl
  | orStart ns b => exact hstay (held_back b) rfl
  | tryBusy b _ | tryMissed b old => exact hstay ⟨fun h => absurd h (held_failed b), False.elim⟩ rfl
  | waitSet w old _ | globalTime w old =>
      exact hstay ⟨fun h => absurd h (held_slowPath w old _), False.elim⟩ rfl
  | _ => exact hstay Iff.rfl rfl

/-! ## Runs -/

variable {ι : Type} {c c' : Config ι Shared Pc} {t : ι}

structure Inv (c : Config ι Shared Pc) : Prop where
  fit (t : ι) : (c.pc t).Fit
  single : c.shared.flag.lock.toNat ≤ 1
  held : Counts Pc.held c.shared.flag.lock.toNat c

theorem Pc.eq_blocked (h : l.parked ≠ none) : ∃ old, l = .blocked old := by
  cases l with
  | blocked old => exact ⟨old, rfl⟩
  | _ => exact absurd rfl h

theorem Pc.held_resume (l : Pc) (k : Unit) (_ : l.parked = some k) : l.resume.held ↔ l.held := by
  cases l <;> exact Iff.rfl

theorem Pc.fit_resume (l : Pc) (k : Unit) (_ : l.parked = some k) (h : l.Fit) : l.resume.Fit := by
  cases l <;> exact h

namespace Inv

theorem start : Inv (SpinLock.start ι) where
  fit _ := trivial
  single := Nat.zero_le 1
  held := .zero fun _ => id

variable [DecidableEq ι]

theorem step (h : Inv c) (hm : Moves c.shared (c.pc t) s' l' sig)
    (hdel : Delivers program (c.set t s' l') sig c') : Inv c' := by
  rcases hm.held (h.fit t) h.single fun ht => h.held.pos ht with ⟨htally, hsingle⟩
  have hshared : c'.shared = s' := hdel.shared
  constructor
  · refine hdel.forall_pc Pc.fit_resume ?_
    exact (Config.forall_set c t s' l').2 ⟨hm.fit, fun u _ => h.fit u⟩
  · rwa [hshared]
  · rw [hshared]
    exact hdel.counts Pc.held_resume (h.held.tally htally)

end Inv

variable [DecidableEq ι]

theorem inv_of_reachable {ok : Config ι Shared Pc → ι → Config ι Shared Pc → Prop}
    (h : Parking.Reachable program ok (SpinLock.start ι) c) : Inv c := by
  refine h.rule (I := Inv) .start ?_
  intro c t a s l sig c' hc hstep hdel _
  exact hc.step (Moves.of_step hstep) hdel

/-- What the lock byte says. -/
structure Excludes (c : Config ι Shared Pc) : Prop where
  alone {t u : ι} : (c.pc t).held → (c.pc u).held → t = u
  locked : c.shared.flag.lock = 1 ↔ ∃ t, (c.pc t).held
  free : c.shared.flag.lock = 0 ↔ ¬ ∃ t, (c.pc t).held

omit [DecidableEq ι] in
theorem Inv.excludes (h : Inv c) : Excludes c := by
  have hone : c.shared.flag.lock = 1 ↔ ∃ t, (c.pc t).held := by
    constructor
    · intro hlock
      refine h.held.exists_of_pos ?_
      rw [hlock]
      exact Nat.one_pos
    · rintro ⟨t, ht⟩
      exact BitVec.eq_of_toNat_eq (Nat.le_antisymm h.single (h.held.pos ht))
  refine ⟨fun ht hu => h.held.unique h.single ht hu, hone, ?_⟩
  rw [← hone]
  constructor
  · intro hzero hlock
    exact absurd (hzero.symm.trans hlock) (by decide)
  · intro hne
    refine BitVec.eq_of_toNat_eq (Nat.le_antisymm (Nat.le_of_not_lt fun hpos => hne ?_) ?_)
    · exact BitVec.eq_of_toNat_eq (Nat.le_antisymm h.single hpos)
    · exact Nat.zero_le _

/-- **The spin lock excludes.**  For any number of threads that release only what they hold, in
any order of their operations, with any wait start times set at any moment: at most one thread
holds the lock, and the lock byte is one if somebody does and zero if nobody does. -/
theorem lock_byte_excludes
    (h : Parking.Reachable program (fun _ _ _ => True) (SpinLock.start ι) c) : Excludes c :=
  (inv_of_reachable h).excludes

/-! ## Schedules -/

/-- Thread `t` takes its next operation, and wakes nobody. -/
def go (t : ι) : ι × Act × Option ι :=
  (t, .go, none)

/-- Both threads find the lock free; thread `false` misses, and goes to the loop. -/
def contention : List (Bool × Act × Option Bool) :=
  [(true, .lock, none), (false, .lock, none), go true, go false, go true, go false, go false,
    go false]

theorem lock_byte_excludes_contention :
    ∃ c : Config Bool Shared Pc, runSchedule program (fun _ _ _ => True) contention
        (SpinLock.start Bool) = some c ∧
      c.pc true = .holding ∧ c.pc false = .loopLoad false ∧ Excludes c := by
  have hrun : (runSchedule program (fun _ _ _ => True) contention (SpinLock.start Bool)).map
      (fun c => (c.pc true, c.pc false)) = some (.holding, .loopLoad false) := by
    decide +kernel
  rcases Option.map_eq_some_iff.1 hrun with ⟨c, hc, hpair⟩
  rcases Prod.mk.inj hpair with ⟨htrue, hfalse⟩
  exact ⟨c, hc, htrue, hfalse, lock_byte_excludes (Parking.Reachable.start.runSchedule hc)⟩

end SpinLock
end Lock
end Chenc
