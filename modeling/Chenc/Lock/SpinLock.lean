import Chenc.Lib.Bits

/-!
# SpinLock — a lock byte, a count and a time in one word

Model of `spin_lock` (`thread/olock.hpp`): the layout of its word, the atomic operations of
`try_lock`, `lock` and `unlock` on it, and `get_and_set_wait_start_time`.

* `State` : the three fields of the word, little-endian and with a padding byte of zero;
* `Update`, `Update.run` : what `try_lock`, `lock` and `unlock` do to the word in one atomic
  operation;
* `Update.run_toWord` : an update works on the lock byte and the count and leaves the time alone;
* `Independent` : the law of the wait start time;
* `independent_iff` : it holds where the word says nothing but the time;
* `spins_while_locked` : what follows for the slow path of `lock`.

Memory is sequentially consistent.
-/

namespace Chenc
namespace Lock
namespace SpinLock

abbrev U64 : Type := BitVec 64

/-- `state_t`. -/
@[ext] structure State where
  waitStart : BitVec 32
  waitCount : BitVec 16
  lock : BitVec 8
  deriving DecidableEq, Repr

namespace State

/-- `std::bit_cast<u64>`. -/
def toWord (s : State) : U64 :=
  0#8 ++ s.lock ++ s.waitCount ++ s.waitStart

/-- `std::bit_cast<state_t>`. -/
def ofWord (flag : U64) : State where
  waitStart := flag.extractLsb' 0 32
  waitCount := flag.extractLsb' 32 16
  lock := flag.extractLsb' 48 8

@[simp] theorem ofWord_toWord (s : State) : ofWord s.toWord = s := by
  have hstart : s.toWord.extractLsb' 0 32 = s.waitStart := BitVec.extractLsb'_append_eq_right
  have hcount : s.toWord.extractLsb' 32 16 = s.waitCount := by
    rw [toWord, BitVec.extractLsb'_append_eq_of_le (by decide)]
    exact BitVec.extractLsb'_append_eq_right
  have hlock : s.toWord.extractLsb' 48 8 = s.lock := by
    rw [toWord, BitVec.extractLsb'_append_eq_of_le (by decide),
      BitVec.extractLsb'_append_eq_of_le (by decide)]
    exact BitVec.extractLsb'_append_eq_right
  rw [ofWord, hstart, hcount, hlock]

theorem toWord_injective {s t : State} (h : s.toWord = t.toWord) : s = t := by
  rw [← ofWord_toWord s, h, ofWord_toWord]

/-- Masks work field by field. -/
theorem toWord_and (s t : State) :
    s.toWord &&& t.toWord =
      toWord ⟨s.waitStart &&& t.waitStart, s.waitCount &&& t.waitCount, s.lock &&& t.lock⟩ := by
  rw [toWord, toWord, BitVec.and_append, BitVec.and_append, BitVec.and_append]
  rfl

theorem toWord_or (s t : State) :
    s.toWord ||| t.toWord =
      toWord ⟨s.waitStart ||| t.waitStart, s.waitCount ||| t.waitCount, s.lock ||| t.lock⟩ := by
  rw [toWord, toWord, BitVec.or_append, BitVec.or_append, BitVec.or_append]
  rfl

theorem toNat_toWord (s : State) :
    s.toWord.toNat =
      (s.lock.toNat * 2 ^ 16 + s.waitCount.toNat) * 2 ^ 32 + s.waitStart.toNat := by
  have hstart := s.waitStart.isLt
  have hcount := s.waitCount.isLt
  have hlock := s.lock.isLt
  rw [toWord, BitVec.toNat_append, BitVec.toNat_append, BitVec.toNat_append,
    ← Nat.shiftLeft_add_eq_or_of_lt hstart, ← Nat.shiftLeft_add_eq_or_of_lt hcount,
    ← Nat.shiftLeft_add_eq_or_of_lt hlock]
  simp [Nat.shiftLeft_eq]

/-- A word that holds nothing but a time is that time. -/
theorem toWord_start {ns : U64} (h : ns.toNat < 2 ^ 32) : toWord ⟨ns.setWidth 32, 0, 0⟩ = ns := by
  refine BitVec.eq_of_toNat_eq ?_
  rw [toNat_toWord, BitVec.toNat_setWidth, Nat.mod_eq_of_lt h]
  simp

end State

/-! ## The operations on the word -/

/-- `try_lock`; the exchange can fail. -/
def tryLock (wins : Bool) (flag : U64) : Bool × U64 :=
  if (State.ofWord flag).lock ≠ 0 then (false, flag)
  else if wins then (true, State.toWord { State.ofWord flag with lock := 1 })
  else (false, flag)

/-- The attempt of `lock` to take the lock, in its loop. -/
def acquire (hasIncrementedWait wins : Bool) (flag : U64) : Bool × U64 :=
  let newVal := State.ofWord flag
  if newVal.lock = 0 then
    let newState := { newVal with lock := 1 }
    let newState :=
      if hasIncrementedWait then
        if newState.waitCount > 0 then { newState with waitCount := newState.waitCount - 1 }
        else newState
      else newState
    if wins then (true, newState.toWord) else (false, flag)
  else (false, flag)

/-- The loop of `lock` that counts a waiter, one pass. -/
def register (wins : Bool) (flag : U64) : Bool × U64 :=
  let nextS := State.ofWord flag
  let nextS := { nextS with waitCount := nextS.waitCount + 1 }
  if wins then (true, nextS.toWord) else (false, flag)

/-- The `fetch_and` of `unlock`. -/
def unlock (flag : U64) : U64 :=
  flag &&& State.toWord { waitStart := -1, waitCount := -1, lock := 0 }

/-- `get_and_set_global_wait_start_time`, with the new value of the variable. -/
def getAndSetGlobalWaitStartTime (global ns : U64) : U64 × U64 :=
  if ns = 0 then (global, global) else (ns, ns)

/-- `get_and_set_wait_start_time`, with the new word. -/
def getAndSetWaitStartTime (global ns flag : U64) : U64 × U64 :=
  if ns = 0 then
    let tmp := flag
    if tmp = 0 then ((getAndSetGlobalWaitStartTime global 0).1, flag)
    else (tmp, flag)
  else
    let flag := flag &&& State.toWord { waitStart := 0, waitCount := -1, lock := -1 }
    let flag := flag ||| State.toWord { waitStart := ns.setWidth 32, waitCount := 0, lock := 0 }
    (flag, flag)

/-- An atomic operation of a thread other than on the time. -/
inductive Update
  | tryLock (wins : Bool)
  | acquire (hasIncrementedWait wins : Bool)
  | register (wins : Bool)
  | unlock
  deriving DecidableEq, Repr

namespace Update

def run (flag : U64) : Update → U64
  | tryLock wins => (SpinLock.tryLock wins flag).2
  | acquire hasIncrementedWait wins => (SpinLock.acquire hasIncrementedWait wins flag).2
  | register wins => (SpinLock.register wins flag).2
  | unlock => SpinLock.unlock flag

def runAll (flag : U64) (updates : List Update) : U64 :=
  updates.foldl run flag

end Update

/-- The values of the word that calls in any order lead to. -/
inductive Reachable : U64 → Prop
  | init : Reachable 0
  | update {flag : U64} (u : Update) : Reachable flag → Reachable (u.run flag)
  | setStart {flag : U64} (global ns : U64) :
      Reachable flag → Reachable (getAndSetWaitStartTime global ns flag).2

/-! ## The fields under the operations -/

/-- An update of the fields other than the time. -/
def Update.apply (s : State) : Update → State
  | tryLock wins => if s.lock = 0 ∧ wins then { s with lock := 1 } else s
  | acquire hasIncrementedWait wins =>
      if s.lock = 0 ∧ wins then
        { s with
          lock := 1
          waitCount :=
            if hasIncrementedWait ∧ s.waitCount > 0 then s.waitCount - 1 else s.waitCount }
      else s
  | register wins => if wins then { s with waitCount := s.waitCount + 1 } else s
  | unlock => { s with lock := 0 }

theorem Update.run_toWord (s : State) (u : Update) : u.run s.toWord = (u.apply s).toWord := by
  cases u with
  | tryLock wins =>
      simp only [run, SpinLock.tryLock, apply, State.ofWord_toWord]
      split_ifs <;> simp_all
  | acquire hasIncrementedWait wins =>
      simp only [run, SpinLock.acquire, apply, State.ofWord_toWord]
      split_ifs <;> simp_all
  | register wins =>
      simp only [run, SpinLock.register, apply, State.ofWord_toWord]
      split_ifs <;> rfl
  | unlock =>
      have hstart : s.waitStart &&& -1 = s.waitStart := BitVec.and_allOnes
      have hcount : s.waitCount &&& -1 = s.waitCount := BitVec.and_allOnes
      have hlock : s.lock &&& 0 = 0 := BitVec.and_zero
      rw [run, SpinLock.unlock, State.toWord_and, hstart, hcount, hlock]
      rfl

/-- The time takes no part in an update. -/
theorem Update.apply_setStart (s : State) (start : BitVec 32) (u : Update) :
    u.apply { s with waitStart := start } = { u.apply s with waitStart := start } := by
  cases u with
  | tryLock wins => simp only [apply]; split_ifs <;> rfl
  | acquire hasIncrementedWait wins => simp only [apply]; split_ifs <;> rfl
  | register wins => simp only [apply]; split_ifs <;> rfl
  | unlock => rfl

/-- A row of updates keeps the time, and does to the other fields what it does to them with any
other time. -/
theorem Update.runAll_toWord (s : State) (updates : List Update) :
    ∃ t : State, runAll s.toWord updates = t.toWord ∧ ∀ start : BitVec 32,
      runAll { s with waitStart := start }.toWord updates =
        { t with waitStart := start }.toWord := by
  induction updates generalizing s with
  | nil => exact ⟨s, rfl, fun _ => rfl⟩
  | cons u updates ih =>
      rcases ih (u.apply s) with ⟨t, ht, hstart⟩
      refine ⟨t, ?_, fun start => ?_⟩
      · rw [runAll, List.foldl_cons, run_toWord]
        exact ht
      · rw [runAll, List.foldl_cons, run_toWord, apply_setStart]
        exact hstart start

/-- Setting the time changes no other field. -/
theorem getAndSet_toWord (global : U64) {ns : U64} (hns : ns ≠ 0) (s : State) :
    getAndSetWaitStartTime global ns s.toWord =
      ({ s with waitStart := ns.setWidth 32 }.toWord,
        { s with waitStart := ns.setWidth 32 }.toWord) := by
  have hset : s.toWord &&& State.toWord ⟨0, -1, -1⟩ ||| State.toWord ⟨ns.setWidth 32, 0, 0⟩ =
      { s with waitStart := ns.setWidth 32 }.toWord := by
    have hstart : s.waitStart &&& 0 ||| ns.setWidth 32 = ns.setWidth 32 :=
      (congrArg (· ||| _) BitVec.and_zero).trans BitVec.zero_or
    have hcount : s.waitCount &&& -1 ||| 0 = s.waitCount :=
      BitVec.or_zero.trans BitVec.and_allOnes
    have hlock : s.lock &&& -1 ||| 0 = s.lock :=
      BitVec.or_zero.trans BitVec.and_allOnes
    rw [State.toWord_and, State.toWord_or, hstart, hcount, hlock]
  rw [getAndSetWaitStartTime, if_neg hns]
  exact congrArg (fun flag => (flag, flag)) hset

/-- Asking for the time returns the word, and the global time if the word is zero. -/
theorem getAndSet_zero (global flag : U64) :
    getAndSetWaitStartTime global 0 flag = (if flag = 0 then global else flag, flag) := by
  rw [getAndSetWaitStartTime, if_pos rfl]
  show (if flag = 0 then (global, flag) else (flag, flag)) = _
  split_ifs <;> rfl

theorem Reachable.exists_state {flag : U64} (h : Reachable flag) :
    ∃ s : State, flag = s.toWord := by
  induction h with
  | init => exact ⟨⟨0, 0, 0⟩, rfl⟩
  | update u _ ih =>
      rcases ih with ⟨s, rfl⟩
      exact ⟨_, u.run_toWord s⟩
  | setStart global ns _ ih =>
      rcases ih with ⟨s, rfl⟩
      by_cases hns : ns = 0
      · rw [hns, getAndSet_zero]
        exact ⟨s, rfl⟩
      · rw [getAndSet_toWord global hns]
        exact ⟨_, rfl⟩

/-! ## The law of the wait start time -/

/-- The lock byte and the count are those of another word. -/
def SameOthers (flag flag' : U64) : Prop :=
  (State.ofWord flag').lock = (State.ofWord flag).lock ∧
    (State.ofWord flag').waitCount = (State.ofWord flag).waitCount

/-- The lock is free and no waiter is counted. -/
def Bare (flag : U64) : Prop :=
  (State.ofWord flag).lock = 0 ∧ (State.ofWord flag).waitCount = 0

instance (flag : U64) : Decidable (Bare flag) :=
  inferInstanceAs (Decidable (_ ∧ _))

/-- Setting the time returns it, asking for it after some updates returns it again, and neither
changes another field. -/
structure Independent (global ns flag : U64) (updates : List Update) : Prop where
  set : (getAndSetWaitStartTime global ns flag).1 = ns
  setKeeps : SameOthers flag (getAndSetWaitStartTime global ns flag).2
  get : (getAndSetWaitStartTime global 0
    (Update.runAll (getAndSetWaitStartTime global ns flag).2 updates)).1 = ns
  getKeeps : SameOthers (Update.runAll (getAndSetWaitStartTime global ns flag).2 updates)
    (getAndSetWaitStartTime global 0
      (Update.runAll (getAndSetWaitStartTime global ns flag).2 updates)).2

/-- The whole word is a given time only if the other fields are zero. -/
theorem toWord_eq_iff {ns : U64} (h : ns.toNat < 2 ^ 32) (s : State) :
    { s with waitStart := ns.setWidth 32 }.toWord = ns ↔ Bare s.toWord := by
  rw [Bare, State.ofWord_toWord]
  constructor
  · intro heq
    have hsame := State.toWord_injective (heq.trans (State.toWord_start h).symm)
    exact ⟨congrArg State.lock hsame, congrArg State.waitCount hsame⟩
  · rintro ⟨hlock, hcount⟩
    rw [hlock, hcount]
    exact State.toWord_start h

/-- **When the fields are independent.**  The time that was set is returned, by the call that sets
it and by a later call, if and only if the lock is free and no waiter is counted at the first call
and again at the second: both return the whole word. -/
theorem independent_iff (global : U64) {ns : U64} (hpos : 0 < ns.toNat) (hlt : ns.toNat < 2 ^ 32)
    {flag : U64} (hflag : Reachable flag) (updates : List Update) :
    Independent global ns flag updates ↔ Bare flag ∧ Bare (Update.runAll flag updates) := by
  rcases hflag.exists_state with ⟨s, rfl⟩
  have hns : ns ≠ 0 := by
    rintro rfl
    exact absurd hpos (Nat.lt_irrefl 0)
  rcases Update.runAll_toWord s updates with ⟨t, ht, hstart⟩
  have hset := getAndSet_toWord global hns s
  have hlater : Update.runAll (getAndSetWaitStartTime global ns s.toWord).2 updates =
      { t with waitStart := ns.setWidth 32 }.toWord := by
    rw [hset, hstart]
  -- The time is not zero, so the global time is not asked for.
  have hne : { t with waitStart := ns.setWidth 32 }.toWord ≠ 0 := by
    intro hzero
    have hfields : { t with waitStart := ns.setWidth 32 } = State.mk 0 0 0 :=
      State.toWord_injective hzero
    have hstart : ns.setWidth 32 = 0 := congrArg State.waitStart hfields
    have htime := State.toWord_start hlt
    rw [hstart] at htime
    exact hns htime.symm
  have hget : (getAndSetWaitStartTime global 0
      (Update.runAll (getAndSetWaitStartTime global ns s.toWord).2 updates)).1 =
      { t with waitStart := ns.setWidth 32 }.toWord := by
    rw [hlater, getAndSet_zero, if_neg hne]
  rw [ht, ← toWord_eq_iff hlt s, ← toWord_eq_iff hlt t]
  constructor
  · intro h
    exact ⟨(congrArg Prod.fst hset).symm.trans h.set, hget.symm.trans h.get⟩
  · rintro ⟨hfirst, hsecond⟩
    constructor
    · exact (congrArg Prod.fst hset).trans hfirst
    · rw [hset]
      simp [SameOthers]
    · exact hget.trans hsecond
    · rw [getAndSet_zero]
      exact ⟨rfl, rfl⟩

/-- A lock that is taken and given up between the two calls. -/
theorem independent_iff_unlocked :
    Independent 10000 5000 0 [.tryLock true, .unlock] :=
  (independent_iff 10000 (by decide) (by decide) .init _).2 (by decide)

/-- While the lock is held the call that sets the time returns the lock byte with it. -/
theorem not_independent_locked :
    ¬ ∀ (global ns flag : U64) (updates : List Update), 0 < ns.toNat → ns.toNat < 2 ^ 32 →
      Reachable flag → Independent global ns flag updates := by
  intro hall
  have hlocked : Reachable (Update.run 0 (.tryLock true)) := .update _ .init
  have hset := (hall 10000 5000 _ [] (by decide) (by decide) hlocked).set
  revert hset
  decide

/-- While the lock is held, the time that `lock` compares with its spin time of 1000 is larger, and
the thread that asks for it goes on spinning. -/
theorem spins_while_locked (global : U64) (s : State) (h : s.lock ≠ 0) :
    1000 < (getAndSetWaitStartTime global 0 s.toWord).1.toNat := by
  have hlock : 0 < s.lock.toNat := Nat.pos_of_ne_zero fun hzero => h (BitVec.eq_of_toNat_eq hzero)
  have hword := State.toNat_toWord s
  have hlarge : 1000 < s.toWord.toNat := by omega
  have hne : s.toWord ≠ 0 := by
    intro hzero
    rw [hzero] at hlarge
    exact absurd hlarge (by decide)
  rw [getAndSet_zero, if_neg hne]
  exact hlarge

end SpinLock
end Lock
end Chenc
