import Chenc.Lib.Stirring
import Chenc.Lock.SpinLockThreads

/-!
# SpinLockWakeup — the threads that sleep at a spin lock

* `Pc.registered`, `Moves.registered` : the count in the word follows the threads that are in it;
* `SeesLocked` : the condition that nobody blocks on a word in which the lock is free;
* `awake_of_seesLocked`, `stale_wait_hangs` : the condition is enough for every release to reach
  whoever sleeps, and it is needed, since `lock` blocks on the word of before its registration;
* `SetsLong`, `spins_of_setsLong` : while every time that is set is above a thousand, `lock` never
  blocks and `unlock` never notifies.
-/

namespace Chenc
namespace Lock
namespace SpinLock

open Interleaving (Config Counts Tally)
open Parking (Signal Program Delivers runSchedule)
open Stirring (Watch)

variable {s s' : Shared} {l l' : Pc} {sig : Signal Unit}

/-! ## The count -/

/-- A word that shows the lock taken or somebody registered is above the threshold. -/
theorem nowSleepNs_lt_toWord {d : State} (h : d.lock ≠ 0 ∨ d.waitCount ≠ 0) :
    nowSleepNs < d.toWord := by
  have hpos : 0 < d.lock.toNat * 2 ^ 16 + d.waitCount.toNat := by
    rcases h with hlock | hcount
    · have hlock : 0 < d.lock.toNat := (BitVec.pos_iff_ne_zero _).2 hlock
      omega
    · have hcount : 0 < d.waitCount.toNat := (BitVec.pos_iff_ne_zero _).2 hcount
      omega
  refine BitVec.lt_def.2 ?_
  rw [State.toNat_toWord]
  have hthreshold : nowSleepNs.toNat = 1000 := rfl
  omega

/-- Stands in `wait_count_`. -/
def Pc.registered : Pc → Prop
  | .loopLoad w | .loopCas w _ | .waitTime w _ | .globalTime w _ => w = true
  | .wait _ | .blocked _ => True
  | _ => False

@[simp] theorem registered_failed (b : Bool) : ¬ (failed b).registered := by
  cases b <;> simp [failed, Pc.registered]

@[simp] theorem registered_back (h : Bool) : ¬ (back h).registered := by
  cases h <;> exact id

@[simp] theorem registered_slowPath (w : Bool) (old : State) (ns : U64) :
    (slowPath w old ns).registered ↔ w = true := by
  unfold slowPath
  split_ifs with hns hw
  · exact iff_of_true trivial hw
  · exact iff_of_false id hw
  · exact Iff.rfl

/-- The count follows the threads that stand in it, while it does not run over. -/
theorem Moves.registered (h : Moves s l s' l' sig) (hfit : l.Fit)
    (hroom : ¬ l.registered → s.flag.waitCount ≠ -1)
    (hpos : l.registered → 0 < s.flag.waitCount.toNat) :
    Tally l.registered s.flag.waitCount.toNat l'.registered s'.flag.waitCount.toNat := by
  have hstay : (l'.registered ↔ l.registered) → s'.flag.waitCount = s.flag.waitCount →
      Tally l.registered s.flag.waitCount.toNat l'.registered s'.flag.waitCount.toNat := by
    intro hiff hcount
    rw [hcount]
    exact .stay hiff
  cases h with
  | register =>
      have hsucc := Bits.toNat_add_one (by decide) (hroom id)
      exact hsucc ▸ .enter id trivial
  | tryWon b =>
      have hzero : s.flag.lock = 0 := hfit
      refine hstay Iff.rfl ?_
      simp [Shared.setFlag, Update.apply, hzero]
  | loopWon w =>
      have hzero : s.flag.lock = 0 := hfit
      cases w with
      | false =>
          refine hstay (iff_of_false id Bool.false_ne_true) ?_
          simp [Shared.setFlag, Update.apply, hzero]
      | true =>
          -- The count is not zero, so the exchange takes one from it.
          have hcount : s.flag.waitCount > 0 := hpos rfl
          have hpred := Bits.toNat_sub_one (by decide) (hpos rfl)
          have happly : (s.setFlag ((Update.acquire true true).apply s.flag)).flag.waitCount =
              s.flag.waitCount - 1 := by
            rw [Shared.setFlag, Update.apply, if_pos ⟨hzero, rfl⟩]
            exact if_pos ⟨rfl, hcount⟩
          rw [happly, hpred]
          exact .leave rfl id
  | tryBusy b _ | tryMissed b old => exact hstay (iff_of_false (registered_failed b) id) rfl
  | setStart ns b => exact hstay (iff_of_false id (registered_back b)) rfl
  | orStart ns b => exact hstay (iff_of_false (registered_back b) id) rfl
  | waitSet w old _ | globalTime w old => exact hstay (registered_slowPath w old _) rfl
  | goOn old _ => exact hstay (iff_of_true rfl trivial) rfl
  | _ => exact hstay Iff.rfl rfl

/-! ## Wakeups -/

/-- On the way to the lock, or to the threads that wait for it. -/
def Pc.stirs : Pc → Prop
  | .loopLoad _ | .loopCas _ _ | .waitTime _ _ | .globalTime _ _ | .countLoad | .countCas _
  | .wait _ | .notify => True
  | _ => False

def watch : Watch Shared Pc where
  closed s := s.flag.lock ≠ 0
  stirs := Pc.stirs

theorem watch_lawful : watch.Lawful program where
  awake_of_stirs {l} h := by
    cases l with
    | blocked old => exact absurd h id
    | _ => rfl
  awake_of_resume {l} _ h := by
    cases l with
    | blocked old => rfl
    | _ => cases h
  stirs_of_resume {l} _ h := by
    cases l with
    | blocked old => exact trivial
    | _ => cases h

theorem stirs_slowPath (w : Bool) (old : State) (ns : U64) : (slowPath w old ns).stirs := by
  unfold slowPath
  split_ifs <;> exact trivial

variable {ι : Type} {c c' : Config ι Shared Pc} {t : ι}

/-- The thread does not block on a word in which the lock is free. -/
def SeesLocked (c : Config ι Shared Pc) (t : ι) (_ : Config ι Shared Pc) : Prop :=
  match c.pc t with
  | .wait old => c.shared.flag = old → old.lock ≠ 0
  | _ => True

/-- What a step means to the threads that are blocked. -/
theorem Moves.outcome (h : Moves c.shared (c.pc t) s' l' sig) (hfit : (c.pc t).Fit)
    (hok : ∀ old, c.pc t = .wait old → c.shared.flag = old → old.lock ≠ 0)
    (hcount : c.shared.flag.waitCount = 0 → ∀ u, ¬ (c.pc u).registered) :
    watch.Outcome program c (c.pc t) s' l' sig := by
  generalize c.pc t = l at h hfit hok
  have hone : (1 : BitVec 8) ≠ 0 := by decide
  cases h with
  | tryWon b | loopWon w =>
      have hzero : c.shared.flag.lock = 0 := hfit
      refine .closed ?_
      simp [watch, Shared.setFlag, Update.apply, hzero]
  | block => exact .closed (hok _ rfl rfl)
  | tryBusy b _ | tryMissed b old =>
      cases b
      · exact .aside id rfl id
      · exact .stirs trivial
  | waitSet w old _ | globalTime w old => exact .stirs (stirs_slowPath w old _)
  | loopFree w _ | loopBusy w _ | loopMissed w old | waitUnset w old _ | countLoad | register
  | countMissed old | goOn old _ | unblock old | wake _ => exact .stirs trivial
  | nobody hzero =>
      refine .nobody (fun u => ?_) rfl
      rcases hpark : (c.pc u).parked with _ | k
      · exact hpark
      · rcases Pc.eq_blocked (hpark ▸ Option.some_ne_none k) with ⟨old, hold⟩
        exact absurd (hold ▸ trivial) (hcount hzero u)
  | notify => exact .notifies rfl rfl
  | setGlobal ns b | orStart ns b | setStart ns b => cases b <;> exact .aside id rfl id
  | call b | unlock | tryFree b _ | clearStart ns b => exact .aside id rfl id

/-- A thread that stands in the count does not get to the global time. -/
def Pc.Counted : Pc → Prop
  | .globalTime w _ => w = false
  | _ => True

theorem Moves.counted (h : Moves s l s' l' sig) (hpos : l.registered → s.flag.waitCount ≠ 0) :
    l'.Counted := by
  cases h with
  | waitUnset w old hzero =>
      cases w with
      | false => exact rfl
      | true =>
          have hlt := nowSleepNs_lt_toWord (.inr (hpos rfl))
          rw [hzero] at hlt
          exact absurd hlt (by decide)
  | tryBusy b _ | tryMissed b old => cases b <;> exact trivial
  | setGlobal ns b | orStart ns b => cases b <;> exact trivial
  | waitSet w old _ | globalTime w old =>
      unfold slowPath
      split_ifs <;> exact trivial
  | _ => exact trivial

structure Registers (c : Config ι Shared Pc) : Prop extends Inv c where
  registered : Counts Pc.registered c.shared.flag.waitCount.toNat c
  counted (t : ι) : (c.pc t).Counted

theorem Pc.registered_resume (l : Pc) (k : Unit) (_ : l.parked = some k) :
    l.resume.registered ↔ l.registered := by
  cases l <;> exact Iff.rfl

theorem Pc.counted_resume (l : Pc) (k : Unit) (_ : l.parked = some k) (h : l.Counted) :
    l.resume.Counted := by
  cases l <;> exact h

namespace Registers

theorem start : Registers (SpinLock.start ι) where
  toInv := .start
  registered := .zero fun _ => id
  counted _ := trivial

theorem count_ne_zero (h : Registers c) (ht : (c.pc t).registered) :
    c.shared.flag.waitCount ≠ 0 :=
  (BitVec.pos_iff_ne_zero _).1 (h.registered.pos ht)

theorem step [DecidableEq ι] [Fintype ι] (hcard : Fintype.card ι < 2 ^ 16) (h : Registers c)
    (hm : Moves c.shared (c.pc t) s' l' sig) (hdel : Delivers program (c.set t s' l') sig c') :
    Registers c' := by
  -- The thread that comes to the count finds room in it.
  have hroom : ¬ (c.pc t).registered → c.shared.flag.waitCount ≠ -1 := by
    intro ht hfull
    have hlt := h.registered.lt_card ht
    rw [hfull] at hlt
    exact absurd hcard (Nat.not_lt.2 hlt)
  have htally := hm.registered (h.fit t) hroom fun ht => h.registered.pos ht
  refine ⟨h.toInv.step hm hdel, ?_, ?_⟩
  · rw [hdel.shared]
    exact hdel.counts Pc.registered_resume (h.registered.tally htally)
  · refine hdel.forall_pc Pc.counted_resume ?_
    exact (Config.forall_set c t s' l').2 ⟨hm.counted h.count_ne_zero, fun u _ => h.counted u⟩

end Registers

structure Sleepers (c : Config ι Shared Pc) : Prop extends Registers c where
  watched : watch.Watched program c

namespace Sleepers

theorem start : Sleepers (SpinLock.start ι) where
  toRegisters := .start
  watched := fun ⟨_, ht⟩ => absurd rfl ht

theorem step [DecidableEq ι] [Fintype ι] (hcard : Fintype.card ι < 2 ^ 16) (h : Sleepers c)
    (hm : Moves c.shared (c.pc t) s' l' sig) (hdel : Delivers program (c.set t s' l') sig c')
    (hok : SeesLocked c t c') : Sleepers c' := by
  have hcount : c.shared.flag.waitCount = 0 → ∀ u, ¬ (c.pc u).registered := fun hzero u hu =>
    h.count_ne_zero hu hzero
  have hguard : ∀ old, c.pc t = .wait old → c.shared.flag = old → old.lock ≠ 0 := by
    intro old hpc
    simpa only [SeesLocked, hpc] using hok
  exact ⟨h.toRegisters.step hcard hm hdel,
    h.watched.step watch_lawful (hm.outcome (h.fit t) hguard hcount) hdel⟩

end Sleepers

/-- The count is right, and nobody is left blocked at a free lock. -/
structure Awake (c : Config ι Shared Pc) : Prop where
  count : Counts Pc.registered c.shared.flag.waitCount.toNat c
  locked : (∀ t, c.pc t = .idle ∨ (c.pc t).parked ≠ none) → (∃ t, (c.pc t).parked ≠ none) →
    c.shared.flag.lock ≠ 0

/-- **No release is lost.**  For fewer than `2^16` threads, in every run in which no thread blocks
on a word that shows the lock free: `wait_count_` is the number of threads that have registered and
not yet taken the lock, and when everybody is idle or blocked, and somebody is blocked, the lock is
taken. -/
theorem awake_of_seesLocked [DecidableEq ι] [Fintype ι] (hcard : Fintype.card ι < 2 ^ 16)
    (h : Parking.Reachable program SeesLocked (SpinLock.start ι) c) : Awake c := by
  have hsleepers : Sleepers c := by
    refine h.rule (I := Sleepers) .start ?_
    intro c t a s l sig c' hc hstep hdel hok
    exact hc.step hcard (Moves.of_step hstep) hdel hok
  exact ⟨hsleepers.registered, hsleepers.watched.closed_of_rest watch_lawful id⟩

/-- A thread that stands in the count spins. -/
structure SpinsRegistered [DecidableEq ι] (c : Config ι Shared Pc) : Prop where
  noGlobal (t : ι) (old : State) : c.pc t ≠ .globalTime true old
  spins {t : ι} {old : State} {c' : Config ι Shared Pc} :
    c.pc t = .waitTime true old → Parking.Step program c t c' → c'.pc t = .loopLoad true

theorem Moves.spins_registered (h : Moves s l s' l' sig) {old : State} (hl : l = .waitTime true old)
    (hcount : s.flag.waitCount ≠ 0) : l' = .loopLoad true := by
  have hlt := nowSleepNs_lt_toWord (.inr hcount)
  cases h with
  | waitUnset w old hzero =>
      rw [hzero] at hlt
      exact absurd hlt (by decide)
  | waitSet w old hne =>
      cases hl
      exact if_neg (BitVec.not_le.2 hlt)
  | setStart ns b | setGlobal ns b => cases b <;> cases hl
  | _ => cases hl

/-- **A thread sleeps at most once in one `lock`.**  For fewer than `2^16` threads, in every run: a
thread that has registered does not come from the loop to `flag_.wait` again, since the word that
it takes for the wait start time has a count in it.  So the only word it ever compares in `wait` is
the one of before its registration. -/
theorem spins_of_registered [DecidableEq ι] [Fintype ι] (hcard : Fintype.card ι < 2 ^ 16)
    (h : Parking.Reachable program (fun _ _ _ => True) (SpinLock.start ι) c) :
    SpinsRegistered c := by
  have hreg : Registers c := by
    refine h.rule (I := Registers) .start ?_
    intro c t a s l sig c' hc hstep hdel _
    exact hc.step hcard (Moves.of_step hstep) hdel
  constructor
  · intro t old hpc
    have hcounted := hreg.counted t
    rw [hpc] at hcounted
    cases hcounted
  · rintro t old c' hpc ⟨a, s, l, sig, hstep, hdel⟩
    have hregistered : (c.pc t).registered := by
      rw [hpc]
      exact rfl
    have hl : l = .loopLoad true :=
      (Moves.of_step hstep).spins_registered hpc (hreg.count_ne_zero hregistered)
    rw [hdel.pc_of_awake] <;> rw [Config.set_pc_self, hl]
    rfl

/-! ## Short times -/

/-- A time of the word that does not lead to sleep: none, or one above the threshold. -/
def LongTime (start : BitVec 32) : Prop :=
  start = 0 ∨ nowSleepNs.toNat < start.toNat

/-- A time is not below the threshold when it is set. -/
def SetsLong (_ : Config ι Shared Pc) (t : ι) (c' : Config ι Shared Pc) : Prop :=
  nowSleepNs < c'.shared.globalWaitStart ∧
    match c'.pc t with
    | .clearStart ns _ => LongTime (ns.setWidth 32)
    | _ => True

/-- Neither registers nor blocks nor notifies, and sets no short time. -/
def Pc.Spinning : Pc → Prop
  | .loopLoad w | .loopCas w _ | .waitTime w _ | .globalTime w _ => w = false
  | .countLoad | .countCas _ | .wait _ | .blocked _ | .notify => False
  | .clearStart ns _ | .orStart ns _ => LongTime (ns.setWidth 32)
  | _ => True

/-- What is shared gives no reason to sleep. -/
structure Shared.Quiet (s : Shared) : Prop where
  start : LongTime s.flag.waitStart
  global : nowSleepNs < s.globalWaitStart
  count : s.flag.waitCount = 0

theorem LongTime.or {a b : BitVec 32} (ha : LongTime a) (hb : LongTime b) : LongTime (a ||| b) := by
  rcases hb with rfl | hb
  · have hor : a ||| 0 = a := BitVec.or_zero
    rwa [hor]
  · refine .inr (Nat.lt_of_lt_of_le hb ?_)
    rw [BitVec.toNat_or]
    exact Nat.right_le_or

theorem LongTime.lt_toWord {d : State} (h : LongTime d.waitStart) (hne : d.toWord ≠ 0) :
    nowSleepNs < d.toWord := by
  by_cases hzero : d.lock = 0 ∧ d.waitCount = 0
  · rcases h with hstart | hstart
    · refine absurd (BitVec.eq_of_toNat_eq ?_) hne
      rw [State.toNat_toWord, hzero.1, hzero.2, hstart]
      rfl
    · refine BitVec.lt_def.2 ?_
      rw [State.toNat_toWord]
      omega
  · exact nowSleepNs_lt_toWord (not_and_or.1 hzero)

theorem slowPath_of_lt {ns : U64} (h : nowSleepNs < ns) (w : Bool) (old : State) :
    slowPath w old ns = .loopLoad w :=
  if_neg (BitVec.not_le.2 h)

theorem Update.apply_waitStart (d : State) (u : Update) : (u.apply d).waitStart = d.waitStart := by
  cases u <;> simp only [apply] <;> split_ifs <;> rfl

theorem Moves.spins (h : Moves s l s' l' sig) (hs : s.Quiet) (hl : l.Spinning)
    (hglobal : nowSleepNs < s'.globalWaitStart)
    (hset : ∀ ns b, l' = .clearStart ns b → LongTime (ns.setWidth 32)) :
    s'.Quiet ∧ l'.Spinning := by
  cases h with
  | tryWon b =>
      refine ⟨⟨?_, hs.global, ?_⟩, trivial⟩
      · exact (Update.apply_waitStart s.flag (.tryLock true)).symm ▸ hs.start
      · simp [Shared.setFlag, Update.apply, apply_ite State.waitCount, hs.count]
  | loopWon w =>
      -- A thread that is not registered takes nothing from the count.
      have hw : w = false := hl
      refine ⟨⟨?_, hs.global, ?_⟩, trivial⟩
      · exact (Update.apply_waitStart s.flag (.acquire w true)).symm ▸ hs.start
      · simp [Shared.setFlag, Update.apply, apply_ite State.waitCount, hw, hs.count]
  | waitSet w old hne =>
      rw [slowPath_of_lt (hs.start.lt_toWord hne)]
      exact ⟨hs, hl⟩
  | globalTime w old =>
      rw [slowPath_of_lt hs.global]
      exact ⟨hs, hl⟩
  | wake hcount => exact absurd hs.count hcount
  | clearStart ns b => exact ⟨⟨.inl rfl, hs.global, hs.count⟩, hl⟩
  | orStart ns b =>
      refine ⟨⟨hs.start.or hl, hs.global, hs.count⟩, ?_⟩
      cases b <;> exact trivial
  | setStart ns b => exact ⟨hs, hset ns b rfl⟩
  | setGlobal ns b =>
      refine ⟨⟨hs.start, hglobal, hs.count⟩, ?_⟩
      cases b <;> exact trivial
  | tryBusy b _ | tryMissed b old =>
      refine ⟨hs, ?_⟩
      cases b
      · exact trivial
      · exact rfl
  | nobody _ => exact ⟨⟨hs.start, hs.global, hs.count⟩, trivial⟩
  | countLoad | register | countMissed old | block | goOn old _ | unblock old | notify =>
      exact absurd hl id
  | loopFree w _ | loopBusy w _ | loopMissed w old | waitUnset w old _ => exact ⟨hs, hl⟩
  | call b | unlock | tryFree b _ => exact ⟨hs, trivial⟩

/-- Nobody sleeps, nobody is going to, and nobody is notified. -/
structure Spins (c : Config ι Shared Pc) : Prop where
  shared : c.shared.Quiet
  pc (t : ι) : (c.pc t).Spinning

theorem Spins.start : Spins (SpinLock.start ι) where
  shared := ⟨.inl rfl, show nowSleepNs < 10000 by decide, rfl⟩
  pc _ := trivial

/-- **Without a short time the lock only spins.**  In every run in which no time that is set, of
the lock in its low 32 bits or of all locks, is a number from one to a thousand, for any number of
threads: no thread registers, blocks or notifies, and the count stays zero. -/
theorem spins_of_setsLong [DecidableEq ι]
    (h : Parking.Reachable program SetsLong (SpinLock.start ι) c) : Spins c := by
  refine h.rule (I := Spins) .start ?_
  intro c t a s l sig c' hc hstep hdel hok
  -- Whom a notification would wake is not there.
  have hresume : ∀ l k, Pc.parked l = some k → l.Spinning → l.resume.Spinning := by
    intro l k hk hl
    rcases Pc.eq_blocked (hk ▸ Option.some_ne_none k) with ⟨old, rfl⟩
    exact absurd hl id
  have hset : ∀ ns b, l = .clearStart ns b → LongTime (ns.setWidth 32) := by
    rintro ns b rfl
    have hpc : c'.pc t = .clearStart ns b := by
      rw [hdel.pc_of_awake] <;> rw [Config.set_pc_self]
      rfl
    simpa only [SetsLong, hpc] using hok.2
  have hglobal : nowSleepNs < s.globalWaitStart := by
    have hafter := hok.1
    rwa [hdel.shared] at hafter
  rcases (Moves.of_step hstep).spins hc.shared (hc.pc t) hglobal hset with ⟨hs, hl⟩
  refine ⟨by rwa [hdel.shared], hdel.forall_pc hresume ?_⟩
  exact (Config.forall_set c t s l).2 ⟨hl, fun u _ => hc.pc u⟩

/-! ## Schedules -/

instance [DecidableEq ι] (c : Config ι Shared Pc) (t : ι) (c' : Config ι Shared Pc) :
    Decidable (SeesLocked c t c') := by
  unfold SeesLocked
  split <;> infer_instance

/-- The holder of the lock, and two that come for it. -/
inductive Party
  | holder
  | early
  | late
  deriving DecidableEq

instance : Fintype Party where
  elems := {.holder, .early, .late}
  complete p := by cases p <;> decide

/-- Both find the lock taken, and come to the registration when it is free again and a time of
500 is set. -/
def bothLate : List (Party × Act × Option Party) :=
  [(.holder, .setGlobal 500, none), (.holder, .lock, none), go .holder, go .holder,
    (.early, .lock, none), go .early, go .early, (.late, .lock, none), go .late, go .late,
    (.holder, .unlock, none), go .holder,
    go .early, go .early, go .late, go .late]

/-- `late` blocks on the word of before its registration when `early` has left the count and
taken the lock; the release wakes it. -/
def sleepAndWake : List (Party × Act × Option Party) :=
  bothLate ++ [go .early, go .early, (.holder, .lock, none), go .holder, go .holder,
    go .late, go .late, (.holder, .unlock, none), go .holder, go .holder,
    go .early, go .early, go .early, go .late,
    (.early, .unlock, none), go .early, (.early, .go, some .late)]

theorem awake_of_seesLocked_sleepAndWake :
    ∃ c : Config Party Shared Pc, runSchedule program SeesLocked sleepAndWake
        (SpinLock.start Party) = some c ∧
      c.pc .late = .wait ⟨0, 1, 1⟩ ∧ c.shared.flag = ⟨0, 1, 0⟩ ∧ Awake c := by
  have hrun : (runSchedule program SeesLocked sleepAndWake (SpinLock.start Party)).map
      (fun c => (c.pc .late, c.shared.flag)) = some (.wait ⟨0, 1, 1⟩, ⟨0, 1, 0⟩) := by
    decide +kernel
  rcases Option.map_eq_some_iff.1 hrun with ⟨c, hc, hpair⟩
  rcases Prod.mk.inj hpair with ⟨hpc, hflag⟩
  exact ⟨c, hc, hpc, hflag,
    awake_of_seesLocked (by decide) (Parking.Reachable.start.runSchedule hc)⟩

/-- `late` is back in the loop, and stands in the count. -/
theorem spins_of_registered_late :
    ∃ c : Config Party Shared Pc, runSchedule program (fun _ _ _ => True)
        (sleepAndWake ++ [go .late, (.holder, .lock, none), go .holder, go .holder, go .late])
        (SpinLock.start Party) = some c ∧
      c.pc .late = .waitTime true ⟨0, 1, 1⟩ ∧ SpinsRegistered c := by
  have hrun : (runSchedule program (fun _ _ _ => True)
      (sleepAndWake ++ [go .late, (.holder, .lock, none), go .holder, go .holder, go .late])
      (SpinLock.start Party)).map (fun c => c.pc .late) = some (.waitTime true ⟨0, 1, 1⟩) := by
    decide +kernel
  rcases Option.map_eq_some_iff.1 hrun with ⟨c, hc, hpc⟩
  exact ⟨c, hc, hpc, spins_of_registered (by decide) (Parking.Reachable.start.runSchedule hc)⟩

/-- `early` registers, takes the lock and gives it up; the word is again that of before the
registration of `late`, which blocks after the notification. -/
def staleWait : List (Party × Act × Option Party) :=
  bothLate ++ [go .early, go .early, go .late, go .late, go .early, go .early, go .early,
    (.early, .unlock, none), go .early, go .early, go .late]

theorem stale_wait_hangs :
    ¬ ∀ c : Config Party Shared Pc,
      Parking.Reachable program (fun _ _ _ => True) (SpinLock.start Party) c → Awake c := by
  intro hall
  have hrun : (runSchedule program (fun _ _ _ => True) staleWait (SpinLock.start Party)).map
      (fun c => (c.pc .holder, c.pc .early, c.pc .late, c.shared.flag.lock)) =
        some (.idle, .idle, .blocked ⟨0, 1, 0⟩, 0) := by
    decide +kernel
  rcases Option.map_eq_some_iff.1 hrun with ⟨c, hc, hquad⟩
  rcases Prod.mk.inj hquad with ⟨hholder, htriple⟩
  rcases Prod.mk.inj htriple with ⟨hearly, hpair⟩
  rcases Prod.mk.inj hpair with ⟨hlate, hlock⟩
  have hblocked : (c.pc .late).parked ≠ none := by
    rw [hlate]
    exact Option.some_ne_none ()
  refine (hall c (Parking.Reachable.start.runSchedule hc)).locked (fun t => ?_)
    ⟨.late, hblocked⟩ hlock
  cases t with
  | holder => exact .inl hholder
  | early => exact .inl hearly
  | late => exact .inr hblocked

instance [DecidableEq ι] (c : Config ι Shared Pc) (t : ι) (c' : Config ι Shared Pc) :
    Decidable (SetsLong c t c') := by
  unfold SetsLong LongTime
  split <;> infer_instance

/-- With a time of 2000, thread `false` spins while thread `true` holds the lock. -/
def spinning : List (Bool × Act × Option Bool) :=
  [(true, .setStart 2000, none), go true, go true, (true, .lock, none), go true, go true,
    (false, .lock, none), go false, go false, go false, go false]

theorem spins_of_setsLong_spinning :
    ∃ c : Config Bool Shared Pc, runSchedule program SetsLong spinning (SpinLock.start Bool) =
        some c ∧
      c.pc false = .waitTime false ⟨2000, 0, 1⟩ ∧ Spins c := by
  have hrun : (runSchedule program SetsLong spinning (SpinLock.start Bool)).map
      (fun c => c.pc false) = some (.waitTime false ⟨2000, 0, 1⟩) := by
    decide +kernel
  rcases Option.map_eq_some_iff.1 hrun with ⟨c, hc, hpc⟩
  exact ⟨c, hc, hpc, spins_of_setsLong (Parking.Reachable.start.runSchedule hc)⟩

end SpinLock
end Lock
end Chenc
