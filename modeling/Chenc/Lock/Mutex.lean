import Chenc.Lib.Bits
import Chenc.Lib.Parking

/-!
# Mutex — a flag, and a count of the threads that wait for it

Model of `mutex` (`thread/lock.hpp`), one atomic operation at a time, and what its count is worth.

* `Shared`, `Pc`, `step` : the two atomic variables, where a thread is, and what it does next;
* `Moves` : what a step can be, with the guard it was taken under;
* `RegistersOnce` : the condition that no thread comes to the registration a second time within
  one `lock`;
* `Attended` : the count is the number of threads registered, and no thread is left blocked at a
  free lock;
* `attended_of_registersOnce`, `second_wait_hangs` : the condition is enough, and it is needed.

The clock is not modelled: each test of it may turn out either way.  Memory is sequentially
consistent; `flag_.wait` blocks only while the flag is set, and a thread that is woken tests it
again.
-/

namespace Chenc
namespace Lock
namespace Mutex

open Interleaving (Config Counts Tally)
open Parking (Signal Program Delivers Reachable runSchedule)

structure Shared where
  flag : Bool
  waitCount : BitVec 32

/-- The next operation of a thread. -/
inductive Pc
  | idle
  -- `lock`
  | firstTry
  | fastTry (i : Nat)
  | slowTry (isAddWait : Bool)
  | register (isAddWait : Bool)
  -- From here on `is_add_wait` is set; `counted` records whether the thread stands in
  -- `wait_count_`, which the code does not.
  | loadFlag (counted : Bool)
  | wait (counted : Bool)
  | blocked (counted : Bool)
  | deregister (counted : Bool)
  -- `unlock`
  | holding
  | storeFlag
  | loadCount
  | notify
  deriving DecidableEq

/-- What a thread does not decide itself. -/
inductive Act
  /-- The next operation; `late` is the outcome of a test of the clock that may follow it. -/
  | go (late : Bool)
  | lock
  | unlock

/-- `try_lock`, with what follows when it fails. -/
def tryLock (s : Shared) (failed : Pc) : Shared × Pc × Signal Unit :=
  if s.flag = false then ({ s with flag := true }, .holding, .silent) else (s, failed, .silent)

/-- The next operation, for a configuration with `fast_test_size_ = fast`. -/
def advance (fast : Nat) (s : Shared) (late : Bool) : Pc → Option (Shared × Pc × Signal Unit)
  | .idle => none
  | .firstTry => some (tryLock s (.fastTry 1))
  | .fastTry i =>
      if i < fast then some (tryLock s (if late then .register false else .fastTry (i + 1)))
      else some (s, .slowTry false, .silent)
  | .slowTry b => some (tryLock s (if late then .register b else .slowTry b))
  | .register b =>
      if b = false then some ({ s with waitCount := s.waitCount + 1 }, .loadFlag true, .silent)
      else some (s, .loadFlag false, .silent)
  | .loadFlag r => some (s, if s.flag = true then .wait r else .deregister r, .silent)
  | .wait r => some (s, if s.flag = true then .blocked r else .loadFlag r, .silent)
  | .blocked _ => none
  | .deregister _ => some ({ s with waitCount := s.waitCount - 1 }, .slowTry true, .silent)
  | .holding => none
  | .storeFlag => some ({ s with flag := false }, .loadCount, .silent)
  | .loadCount => some (s, if s.waitCount > 0 then .notify else .idle, .silent)
  | .notify => some (s, .idle, .one ())

def step (fast : Nat) (s : Shared) (l : Pc) : Act → Option (Shared × Pc × Signal Unit)
  | .go late => advance fast s late l
  | .lock => if l = .idle then some (s, .firstTry, .silent) else none
  | .unlock => if l = .holding then some (s, .storeFlag, .silent) else none

/-- Blocked in `flag_.wait`. -/
def Pc.parked : Pc → Option Unit
  | .blocked _ => some ()
  | _ => none

/-- A thread that is woken tests the flag again. -/
def Pc.resume : Pc → Pc
  | .blocked r => .wait r
  | l => l

def program (fast : Nat) : Program Shared Pc Act Unit :=
  ⟨step fast, Pc.parked, Pc.resume⟩

def start (ι : Type) : Config ι Shared Pc :=
  ⟨⟨false, 0⟩, fun _ => .idle⟩

/-! ## The cases of a step -/

/-- At a call of `try_lock`. -/
def Pc.trying : Pc → Prop
  | .firstTry | .fastTry _ | .slowTry _ => True
  | _ => False

/-- One constructor for each way a thread can go on. -/
inductive Moves (s : Shared) : Pc → Shared → Pc → Signal Unit → Prop
  | lock : Moves s .idle s .firstTry .silent
  | unlock : Moves s .holding s .storeFlag .silent
  | acquire (l : Pc) : l.trying → Moves s l { s with flag := true } .holding .silent
  | firstFailed : Moves s .firstTry s (.fastTry 1) .silent
  | fastFailed (i : Nat) : Moves s (.fastTry i) s (.fastTry (i + 1)) .silent
  | fastLate (i : Nat) : Moves s (.fastTry i) s (.register false) .silent
  | fastOver (i : Nat) : Moves s (.fastTry i) s (.slowTry false) .silent
  | slowFailed (b : Bool) : Moves s (.slowTry b) s (.slowTry b) .silent
  | slowLate (b : Bool) : Moves s (.slowTry b) s (.register b) .silent
  | register : Moves s (.register false) { s with waitCount := s.waitCount + 1 } (.loadFlag true)
      .silent
  | skip : Moves s (.register true) s (.loadFlag false) .silent
  | loadSet (r : Bool) : Moves s (.loadFlag r) s (.wait r) .silent
  | loadClear (r : Bool) : Moves s (.loadFlag r) s (.deregister r) .silent
  | block (r : Bool) : s.flag = true → Moves s (.wait r) s (.blocked r) .silent
  | goOn (r : Bool) : Moves s (.wait r) s (.loadFlag r) .silent
  | deregister (r : Bool) :
      Moves s (.deregister r) { s with waitCount := s.waitCount - 1 } (.slowTry true) .silent
  | storeFlag : Moves s .storeFlag { s with flag := false } .loadCount .silent
  | nobody : s.waitCount = 0 → Moves s .loadCount s .idle .silent
  | somebody : Moves s .loadCount s .notify .silent
  | notify : Moves s .notify s .idle (.one ())

variable {fast : Nat} {s s' : Shared} {l l' : Pc} {sig : Signal Unit}

theorem Moves.tryLock {failed : Pc} (hl : l.trying) (hfail : Moves s l s failed .silent)
    (h : Mutex.tryLock s failed = (s', l', sig)) : Moves s l s' l' sig := by
  unfold Mutex.tryLock at h
  split_ifs at h <;> cases h
  · exact .acquire l hl
  · exact hfail

theorem Moves.of_advance {late : Bool} (h : advance fast s late l = some (s', l', sig)) :
    Moves s l s' l' sig := by
  cases l with
  | firstTry => exact .tryLock trivial .firstFailed (Option.some.inj h)
  | fastTry i =>
      by_cases hi : i < fast
      · simp only [advance, if_pos hi, Option.some.injEq] at h
        refine .tryLock trivial ?_ h
        cases late
        · exact .fastFailed i
        · exact .fastLate i
      · simp only [advance, if_neg hi, Option.some.injEq] at h
        cases h
        exact .fastOver i
  | slowTry b =>
      refine .tryLock trivial ?_ (Option.some.inj h)
      cases late
      · exact .slowFailed b
      · exact .slowLate b
  | register b =>
      cases b <;> cases h
      · exact .register
      · exact .skip
  | loadFlag r =>
      cases h
      split_ifs
      · exact .loadSet r
      · exact .loadClear r
  | wait r =>
      cases h
      split_ifs with hflag
      · exact .block r hflag
      · exact .goOn r
  | loadCount =>
      cases h
      split_ifs with hcount
      · exact .somebody
      · exact .nobody (BitVec.le_zero_iff.1 (BitVec.not_lt.1 hcount))
  | idle | blocked r | holding => cases h
  | deregister r | storeFlag | notify =>
      cases h
      constructor

/-- What a step can be. -/
theorem Moves.of_step {a : Act} (h : step fast s l a = some (s', l', sig)) :
    Moves s l s' l' sig := by
  cases a with
  | go late => exact .of_advance h
  | lock =>
      simp only [step] at h
      split_ifs at h with hl
      subst hl
      cases h
      exact .lock
  | unlock =>
      simp only [step] at h
      split_ifs at h with hl
      subst hl
      cases h
      exact .unlock

/-! ## The count -/

/-- Registered as a waiter, and not yet deregistered. -/
def Pc.counted : Pc → Prop
  | .loadFlag r | .wait r | .blocked r | .deregister r => r = true
  | _ => False

/-- Whoever waits is registered. -/
def Pc.Enrolled : Pc → Prop
  | .loadFlag r | .wait r | .blocked r | .deregister r => r = true
  | _ => True

/-- No thread comes to the registration again after it has deregistered within the same `lock`,
and the count does not wrap around. -/
def RegistersOnce {ι : Type} (c : Config ι Shared Pc) (t : ι) (_ : Config ι Shared Pc) : Prop :=
  match c.pc t with
  | .register isAddWait => isAddWait = false ∧ c.shared.waitCount ≠ -1
  | _ => True

theorem Moves.counted (h : Moves s l s' l' sig) (hl : l.Enrolled)
    (hok : ∀ b, l = .register b → b = false ∧ s.waitCount ≠ -1)
    (hpos : l.counted → 0 < s.waitCount.toNat) :
    Tally l.counted s.waitCount.toNat l'.counted s'.waitCount.toNat := by
  cases h with
  | register =>
      have hsucc := Bits.toNat_add_one (by decide) (hok false rfl).2
      exact hsucc ▸ .enter id rfl
  | skip => exact absurd (hok true rfl).1 (by decide)
  | deregister r =>
      have hpred := Bits.toNat_sub_one (by decide) (hpos hl)
      exact hpred ▸ .leave hl id
  | acquire l htry => cases l <;> first | exact absurd htry id | exact .stay Iff.rfl
  | _ => exact .stay Iff.rfl

theorem Moves.enrolled (h : Moves s l s' l' sig) (hl : l.Enrolled)
    (hok : ∀ b, l = .register b → b = false ∧ s.waitCount ≠ -1) : l'.Enrolled := by
  cases h with
  | register => exact rfl
  | skip => exact absurd (hok true rfl).1 (by decide)
  | _ => first | exact trivial | exact hl

/-! ## Wakeups -/

/-- On the way to the flag, or to the threads that wait for it. -/
def Pc.stirring : Pc → Prop
  | .firstTry | .fastTry _ | .slowTry _ | .register _ | .loadFlag _ | .wait _ | .deregister _
  | .loadCount | .notify => True
  | _ => False

/-- What becomes of a thread that is stirring. -/
theorem Moves.stirring (h : Moves s l s' l' sig) :
    l'.stirring ∨ s'.flag = true ∨
      (¬ l.stirring ∧ l'.parked = none ∧ s'.flag = s.flag ∧ sig = .silent) ∨
      (s.waitCount = 0 ∧ l = .loadCount ∧ l' = .idle ∧ sig = .silent) ∨
      (l = .notify ∧ l' = .idle ∧ sig = .one ()) := by
  cases h with
  | unlock => exact .inr (.inr (.inl ⟨id, rfl, rfl, rfl⟩))
  | acquire l htry => exact .inr (.inl rfl)
  | block r hflag => exact .inr (.inl hflag)
  | nobody hzero => exact .inr (.inr (.inr (.inl ⟨hzero, rfl, rfl, rfl⟩)))
  | notify => exact .inr (.inr (.inr (.inr ⟨rfl, rfl, rfl⟩)))
  | _ => exact .inl trivial

variable {ι : Type} [DecidableEq ι]

structure Inv (c : Config ι Shared Pc) : Prop where
  count : Counts Pc.counted c.shared.waitCount.toNat c
  enrolled (t : ι) : (c.pc t).Enrolled
  attended : (∃ t, (c.pc t).parked ≠ none) → c.shared.flag = true ∨ ∃ t, (c.pc t).stirring

theorem Pc.eq_blocked (h : l.parked ≠ none) : ∃ r, l = .blocked r := by
  cases l with
  | blocked r => exact ⟨r, rfl⟩
  | _ => exact absurd rfl h

theorem Pc.counted_of_parked (hl : l.Enrolled) (h : l.parked ≠ none) : l.counted := by
  rcases Pc.eq_blocked h with ⟨r, rfl⟩
  exact hl

theorem Pc.parked_of_stirring (h : l.stirring) : l.parked = none := by
  cases l <;> first | rfl | exact absurd h id

theorem Pc.parked_resume (l : Pc) (k : Unit) (_ : l.parked = some k) : l.resume.parked = none := by
  cases l <;> rfl

theorem Pc.stirring_resume (l : Pc) (k : Unit) (h : l.parked = some k) : l.resume.stirring := by
  cases l <;> first | exact trivial | cases h

theorem Pc.counted_resume (l : Pc) (k : Unit) (_ : l.parked = some k) :
    l.resume.counted ↔ l.counted := by
  cases l <;> exact Iff.rfl

theorem Pc.enrolled_resume (l : Pc) (k : Unit) (_ : l.parked = some k) (h : l.Enrolled) :
    l.resume.Enrolled := by
  cases l <;> exact h

namespace Inv

variable {c c' : Config ι Shared Pc} {t : ι}

omit [DecidableEq ι] in
theorem start : Inv (Mutex.start ι) where
  count := .zero fun _ => id
  enrolled _ := trivial
  attended h := by
    rcases h with ⟨t, ht⟩
    exact absurd rfl ht

/-- A thread is blocked: the lock is held, or somebody is stirring. -/
theorem attended_step (h : Inv c) (hm : Moves c.shared (c.pc t) s' l' sig)
    (hdel : Delivers (program fast) (c.set t s' l') sig c') :
    (∃ u, (c'.pc u).parked ≠ none) → c'.shared.flag = true ∨ ∃ u, (c'.pc u).stirring := by
  rw [hdel.shared]
  rintro ⟨u, hu⟩
  have hstay : ∀ v, ((c.set t s' l').pc v).stirring → ∃ w, (c'.pc w).stirring := fun v hv =>
    hdel.exists_of_awake (fun _ => Pc.parked_of_stirring) ⟨v, hv⟩
  have hbefore : ((c.set t s' l').pc u).parked ≠ none := by
    rcases hk : (c'.pc u).parked with _ | k
    · exact absurd hk hu
    · rwa [← hdel.parked_before Pc.parked_resume hk]
  have hother : l'.parked = none → u ≠ t := by
    rintro hl rfl
    rw [Config.set_pc_self] at hbefore
    exact hbefore hl
  rcases hm.stirring with hl | hflag | ⟨ht, hl, hflag, -⟩ | ⟨hzero, -, rfl, -⟩ | ⟨-, rfl, rfl⟩
  · exact .inr (hstay t (by rwa [Config.set_pc_self]))
  · exact .inl hflag
  · -- The mover had nothing to do with it: whoever was stirring still is.
    have hut := hother hl
    rw [Config.set_pc_of_ne _ _ _ _ hut] at hbefore
    rcases h.attended ⟨u, hbefore⟩ with hold | ⟨v, hv⟩
    · exact .inl (hflag.trans hold)
    · have hvt : v ≠ t := by
        rintro rfl
        exact ht hv
      exact .inr (hstay v (by rwa [Config.set_pc_of_ne _ _ _ _ hvt]))
  · -- The count was read as zero, but whoever is blocked is counted.
    rw [Config.set_pc_of_ne _ _ _ _ (hother rfl)] at hbefore
    have hpos := h.count.pos (Pc.counted_of_parked (h.enrolled u) hbefore)
    rw [hzero] at hpos
    exact absurd hpos (lt_irrefl _)
  · -- Somebody is blocked, so somebody is woken.
    cases hdel with
    | nobody hnone =>
        rcases Option.ne_none_iff_exists'.1 hbefore with ⟨k, hk⟩
        exact absurd hk (hnone u)
    | one v hv =>
        refine .inr ⟨v, ?_⟩
        rw [Config.set_pc_self]
        exact Pc.stirring_resume _ _ hv

/-- What a step does, with the threads it wakes. -/
theorem step (h : Inv c) (hm : Moves c.shared (c.pc t) s' l' sig)
    (hdel : Delivers (program fast) (c.set t s' l') sig c') (hok : RegistersOnce c t c') :
    Inv c' := by
  have hguard : ∀ b, c.pc t = .register b → b = false ∧ c.shared.waitCount ≠ -1 := by
    intro b hb
    simpa only [RegistersOnce, hb] using hok
  have hshared : c'.shared = s' := hdel.shared
  constructor
  · rw [hshared]
    refine hdel.counts Pc.counted_resume ?_
    exact h.count.tally (hm.counted (h.enrolled t) hguard fun ht => h.count.pos ht)
  · refine hdel.forall_pc Pc.enrolled_resume ?_
    exact (Config.forall_set c t s' l').2
      ⟨hm.enrolled (h.enrolled t) hguard, fun u _ => h.enrolled u⟩
  · exact h.attended_step hm hdel

end Inv

/-! ## Runs -/

/-- The count is right, it counts whoever is blocked, and nobody is left blocked at a free lock. -/
structure Attended (c : Config ι Shared Pc) : Prop where
  count : Counts Pc.counted c.shared.waitCount.toNat c
  blocked (t : ι) : (c.pc t).parked ≠ none → (c.pc t).counted
  awake : ¬ (c.shared.flag = false ∧ (∀ t, c.pc t = .idle ∨ (c.pc t).parked ≠ none) ∧
    ∃ t, (c.pc t).parked ≠ none)

omit [DecidableEq ι] in
theorem Inv.toAttended {c : Config ι Shared Pc} (h : Inv c) : Attended c where
  count := h.count
  blocked t := Pc.counted_of_parked (h.enrolled t)
  awake := by
    rintro ⟨hflag, hrest, hparked⟩
    rcases h.attended hparked with htrue | ⟨t, ht⟩
    · rw [hflag] at htrue
      cases htrue
    · rcases hrest t with hidle | hpark
      · rw [hidle] at ht
        exact ht
      · exact hpark (Pc.parked_of_stirring ht)

/-- **The mutex.**  In every run in which no thread comes to the registration a second time within
one `lock`, for any number of threads and any order of their operations: `wait_count_` is the
number of threads that have registered and not yet deregistered, every blocked thread is among
them, and no thread is left blocked while the lock is free and everyone else is idle or blocked. -/
theorem attended_of_registersOnce {c : Config ι Shared Pc}
    (h : Reachable (program fast) RegistersOnce (start ι) c) : Attended c := by
  refine Inv.toAttended (h.rule (I := Inv) .start ?_)
  intro c t a s l sig c' hc hstep hdel hok
  exact hc.step (Moves.of_step hstep) hdel hok

/-! ## Schedules -/

instance (c : Config ι Shared Pc) (t : ι) (c' : Config ι Shared Pc) :
    Decidable (RegistersOnce c t c') := by
  unfold RegistersOnce
  split <;> infer_instance

/-- Thread `t` takes a step, and wakes nobody. -/
def go (t : ι) (late : Bool) : ι × Act × Option ι :=
  (t, .go late, none)

/-- Thread `false` blocks while thread `true` holds the lock, and is woken. -/
def handover : List (Bool × Act × Option Bool) :=
  [(true, .lock, none), go true false,
    (false, .lock, none), go false false, go false true, go false false, go false false,
    go false false,
    (true, .unlock, none), go true false, go true false, (true, .go false, some false)]

theorem attended_of_registersOnce_handover :
    ∃ c : Config Bool Shared Pc, runSchedule (program 2) RegistersOnce handover (start Bool) =
      some c ∧ c.pc false = .wait true ∧ c.shared.waitCount = 1 ∧ Attended c := by
  have hrun : (runSchedule (program 2) RegistersOnce handover (start Bool)).map
      (fun c => (c.pc false, c.shared.waitCount)) = some (.wait true, 1) := by
    decide +kernel
  rcases Option.map_eq_some_iff.1 hrun with ⟨c, hc, hpair⟩
  rcases Prod.mk.inj hpair with ⟨hpc, hcount⟩
  exact ⟨c, hc, hpc, hcount, attended_of_registersOnce (Reachable.start.runSchedule hc)⟩

/-- The woken thread deregisters, and loses the race for the lock to thread `true`.  It waits a
second time without registering, and the next `unlock` wakes nobody. -/
def secondWait : List (Bool × Act × Option Bool) :=
  handover ++ [go false false, go false false, go false false,
    (true, .lock, none), go true false,
    go false true, go false false, go false false, go false false,
    (true, .unlock, none), go true false, go true false]

theorem second_wait_hangs :
    ¬ ∀ c : Config Bool Shared Pc,
      Reachable (program 2) (fun _ _ _ => True) (start Bool) c → Attended c := by
  intro hall
  have hrun : (runSchedule (program 2) (fun _ _ _ => True) secondWait (start Bool)).map
      (fun c => (c.pc false, c.pc true, c.shared.flag)) =
        some (.blocked false, .idle, false) := by
    decide +kernel
  rcases Option.map_eq_some_iff.1 hrun with ⟨c, hc, htriple⟩
  rcases Prod.mk.inj htriple with ⟨hfalse, hpair⟩
  rcases Prod.mk.inj hpair with ⟨htrue, hflag⟩
  have hblocked : (c.pc false).parked ≠ none := by
    rw [hfalse]
    exact Option.some_ne_none ()
  refine (hall c (Reachable.start.runSchedule hc)).awake ⟨hflag, fun t => ?_, false, hblocked⟩
  cases t
  · exact .inr hblocked
  · exact .inl htrue

end Mutex
end Lock
end Chenc
