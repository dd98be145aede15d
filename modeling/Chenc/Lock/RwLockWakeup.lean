import Chenc.Lib.Sleeping
import Chenc.Lock.RwLockAccounting

/-!
# RwLockWakeup — who wakes the threads that sleep

* `version` : what stands above the waiters in a wait count, and is new after every `unlock`;
* `discipline` : when the lock is closed, who helps, and who waits with the present version;
* `Moves.version`, `Moves.helps`, `Moves.waits` : what one step does to each of them;
* `not_stuck_of_noReturn` : nobody is left asleep, as long as no version comes round to one that a
  thread in `wait` compares with;
* `version_returns_hangs` : the version has 48 bits, and it does come round.
-/

namespace Chenc
namespace Lock
namespace RwLock

open Interleaving (Config Counts)
open Parking (Signal Delivers Reachable runSchedule)
open Sleeping (Discipline)

/-- The bits above the waiters. -/
def version (w : BitVec 64) : Nat :=
  (w >>> 16).toNat

/-- What a thread in `wait` compares with. -/
def Pc.comparing : Pc → Option (Kind × BitVec 64)
  | .wait k old | .blocked k old => some (k, old)
  | _ => none

/-- About to bump a version. -/
def Pc.bumping : Pc → Prop
  | .bumpWriters | .bumpReaders => True
  | _ => False

/-- In `wait` with the present version. -/
def Pc.current (s : Shared) (k : Kind) (l : Pc) : Prop :=
  ∃ old, l.comparing = some (k, old) ∧ version (s.waitCount k) = version old

/-- On the way to a notification of `k`; a writer in its loop is as good, since it will take the
lock or find it taken. -/
def Pc.helps (s : Shared) : Kind → Pc → Prop
  | .write, .loadState k _ | .write, .claim k _ _ | .write, .register k | .write, .loadCount k
  | .write, .recheck k _ | .write, .cancel k => k = .write
  | .write, .wait k old => k = .write ∧ version (s.waitCount .write) ≠ version old
  | .read, .bumpReaders => True
  | _, .bumpWriters => True
  | _, _ => False

def discipline : Discipline Shared Pc Kind where
  closed s := s.state.Closed
  helps := Pc.helps
  waits k l := ∃ old, l.comparing = some (k, old)
  current := Pc.current
  notifies k l := l = .notify k

/-! ## Versions -/

section Versions

variable {s : Shared} {j k : Kind}

theorem version_eq_div (w : BitVec 64) : version w = w.toNat / 2 ^ 16 :=
  Bits.toNat_ushiftRight w 16

theorem version_add_verInc (w : BitVec 64) : version (w + verInc) ≠ version w := by
  have hlt := w.isLt
  have hinc : verInc.toNat = 2 ^ 16 := rfl
  rw [version_eq_div, version_eq_div, BitVec.toNat_add, hinc]
  omega

/-- Registering does not carry into the version. -/
theorem version_register (h : s.waiters k + 1 < 2 ^ 16) :
    version ((s.addCount j 1).waitCount k) = version (s.waitCount k) := by
  by_cases hj : k = j
  · subst hj
    have hlt := (s.waitCount k).isLt
    have hone : (1 : BitVec 64).toNat = 1 := rfl
    rw [waiters_eq_mod] at h
    rw [waitCount_addCount, version_eq_div, version_eq_div, BitVec.toNat_add, hone]
    omega
  · rw [waitCount_addCount_of_ne _ _ hj]

/-- Nor does deregistering borrow from it. -/
theorem version_deregister (h : k = j → 0 < s.waiters k) :
    version ((s.addCount j (-1)).waitCount k) = version (s.waitCount k) := by
  by_cases hj : k = j
  · have hpos := h hj
    subst hj
    have hlt := (s.waitCount k).isLt
    have hone : (-1 : BitVec 64).toNat = 2 ^ 64 - 1 := rfl
    rw [waiters_eq_mod] at hpos
    rw [waitCount_addCount, version_eq_div, version_eq_div, BitVec.toNat_add, hone]
    omega
  · rw [waitCount_addCount_of_ne _ _ hj]

end Versions

/-! ## The places of a thread -/

section Places

variable {s : Shared} {j k : Kind} {l : Pc} {b late : Bool}

@[simp] theorem comparing_failed : (k.failed b).comparing = none := by
  cases b <;> rfl

@[simp] theorem comparing_pass : (k.pass b late).comparing = none := by
  cases b <;> cases late <;> rfl

@[simp] theorem comparing_won : (k.won b).comparing = none := by
  cases b <;> rfl

theorem Pc.eq_blocked (h : l.parked = some k) : ∃ old, l = .blocked k old := by
  cases l with
  | blocked j old =>
      cases h
      exact ⟨old, rfl⟩
  | _ => cases h

theorem Pc.parked_of_helps (h : l.helps s k) : l.parked = none := by
  cases k <;> cases l <;> first | rfl | exact absurd h id

theorem Pc.comparing_resume (h : l.parked = some j) : l.resume.comparing = l.comparing := by
  rcases Pc.eq_blocked h with ⟨old, rfl⟩
  rfl

theorem Pc.registered_of_comparing {old : BitVec 64} (h : l.comparing = some (k, old)) :
    l.registered = some k := by
  cases l with
  | wait j o | blocked j o =>
      cases h
      rfl
  | _ => cases h

/-- A count of the writers is given up only after the lock is taken. -/
theorem Pc.slow_or_held (h : l.registered = some k) : l.slow = some k ∨ l.held = some k := by
  cases l with
  | loadState j b | claim j b e =>
      cases b <;> cases h
      exact .inl rfl
  | loadCount j | recheck j o | cancel j | wait j o | blocked j o => exact .inl h
  | deregister j => exact .inr h
  | _ => cases h

theorem lawful : discipline.Lawful program where
  waits_of_parked {k l} h := by
    rcases Pc.eq_blocked h with ⟨old, rfl⟩
    exact ⟨old, rfl⟩
  waits_of_current h := h.imp fun _ => And.left
  awake_of_helps := Pc.parked_of_helps
  awake_of_notifies h := by
    subst h
    rfl
  awake_of_resume {k l} h := by
    rcases Pc.eq_blocked h with ⟨old, rfl⟩
    rfl
  current_of_resume {s j k l} h hcurrent := by
    rcases hcurrent with ⟨old, hold, hversion⟩
    exact ⟨old, (Pc.comparing_resume h) ▸ hold, hversion⟩

/-- An idle thread neither helps nor notifies. -/
theorem idle_at_rest (k : Kind) :
    ¬ discipline.helps s k .idle ∧ ¬ discipline.notifies k .idle :=
  ⟨by cases k <;> exact id, Pc.noConfusion⟩

end Places

/-! ## The steps of the code -/

section Words

variable {d : State} {k : Kind}

theorem one_ne : (1 : BitVec 16) ≠ 0 := by
  decide

theorem obstructed_of_closed (h : d.Closed .read) : d.Obstructed k := by
  cases k
  · exact h
  · exact .inr h

theorem ne_zero_of_room {n : BitVec 16} (h : n.toNat + 1 < 2 ^ 16) : n + 1 ≠ 0 := by
  intro hzero
  have hsucc := toNat_add_one_of_room h
  rw [hzero] at hsucc
  exact absurd hsucc.symm (Nat.succ_ne_zero _)

/-- A lock that somebody has taken is closed to writers. -/
theorem closed_take (h : k = .read → d.actiReadCount.toNat + 1 < 2 ^ 16) :
    (d.take k).Closed .write := by
  cases k with
  | read => exact .inl (ne_zero_of_room (h rfl))
  | write => exact .inr one_ne

theorem closed_claim : (d.claim k).Closed .write ↔ (d.take k).Closed .write := by
  cases k <;> exact Iff.rfl

end Words

variable {s s' : Shared} {l l' : Pc} {sig : Signal Kind}

/-- The versions change at the bumps of `unlock`, and at no other time. -/
theorem Moves.version (h : Moves s l s' l' sig) (hready : Ready s l) (k : Kind) :
    l.bumping ∨ RwLock.version (s'.waitCount k) = RwLock.version (s.waitCount k) := by
  cases h with
  | register j =>
      by_cases hj : k = j
      · subst hj
        exact .inr (version_register ((hready.registered k).lt (none_ne k)))
      · exact .inr (congrArg RwLock.version (waitCount_addCount_of_ne _ _ hj))
  | cancel j | deregister j =>
      refine .inr (version_deregister fun hj => ?_)
      subst hj
      exact (hready.registered k).pos rfl
  | wakeWriter _ | noWriter _ | wakeReaders | noReader _ => exact .inl trivial
  | _ => exact .inr rfl

/-- A thread comes to `wait` when it finds the lock closed, and blocks there while the count is
what it was. -/
theorem Moves.waits (h : Moves s l s' l' sig) {k : Kind} {old : BitVec 64}
    (hl : l'.comparing = some (k, old)) :
    s' = s ∧ ((l'.parked = none ∧ s.state.Closed k) ∨ l.current s k) := by
  cases h with
  | recheckClosed j o hclosed =>
      cases hl
      exact ⟨rfl, .inl ⟨rfl, hclosed⟩⟩
  | block j =>
      cases hl
      exact ⟨rfl, .inr ⟨_, rfl, rfl⟩⟩
  | tryObstructed j b | tryMissed j b e =>
      rw [comparing_failed] at hl
      cases hl
  | pass j b late _ =>
      rw [comparing_pass] at hl
      cases hl
  | claim j b =>
      rw [comparing_won] at hl
      cases hl
  | _ => cases hl

/-- What becomes of a lock that is closed to readers, or of a thread that will wake them. -/
theorem Moves.helps_read (h : Moves s l s' l' sig) (hready : Ready s l)
    (hannounced : s.waiters .write ≠ 0 → s.state.Closed .read)
    (hk : s.state.Closed .read ∨ l.helps s .read) :
    (s'.state.Closed .read ∨ l'.helps s' .read) ∨
      (l' = .notify .read ∧
        RwLock.version (s'.waitCount .read) ≠ RwLock.version (s.waitCount .read)) ∨
      s.waiters .read = 0 := by
  cases h with
  -- Nobody gets into a lock that is closed to readers but a writer in its loop.
  | tryWon j b => exact absurd (obstructed_of_closed (hk.resolve_right id)) hready.fit
  | claim j b =>
      cases j with
      | read => exact absurd (hk.resolve_right id) hready.fit
      | write => exact .inl (.inl (.inl one_ne))
  | prepare j =>
      cases j with
      | read => exact .inl (.inl (hk.resolve_right id))
      | write =>
          exact .inl (.inl (.inr (ne_zero_of_room ((hready.prepared .write).lt (none_ne _)))))
  | release j => exact .inl (.inr trivial)
  | wakeWriter hne =>
      exact .inl (.inl (hannounced fun hzero => hne (BitVec.eq_of_toNat_eq hzero)))
  | noWriter _ => exact .inl (.inr trivial)
  | wakeReaders =>
      refine .inr (.inl ⟨rfl, ?_⟩)
      rw [waitCount_addCount]
      exact version_add_verInc _
  | noReader hzero => exact .inr (.inr (congrArg BitVec.toNat hzero))
  | tryObstructed j b | tryMissed j b e | pass j b late _ =>
      exact .inl (.inl (hk.resolve_right id))
  | _ => exact .inl (.inl (hk.resolve_right id))

/-- What becomes of a lock that is closed to writers, or of a thread that will wake one or look
for itself. -/
theorem Moves.helps_write (h : Moves s l s' l' sig) (hready : Ready s l)
    (hk : s.state.Closed .write ∨ l.helps s .write) :
    (s'.state.Closed .write ∨ l'.helps s' .write) ∨
      (l' = .notify .write ∧
        RwLock.version (s'.waitCount .write) ≠ RwLock.version (s.waitCount .write)) ∨
      s.waiters .write = 0 := by
  cases h with
  | tryWon j b =>
      refine .inl (.inl (closed_take fun hj => ?_))
      exact (hready.active .read).lt (none_ne _)
  | claim j b =>
      refine .inl (.inl (closed_claim.2 (closed_take fun hj => ?_)))
      exact (hready.active .read).lt (none_ne _)
  | prepare j =>
      cases j with
      | read => exact .inl (.inl (hk.resolve_right id))
      | write => exact .inl (.inr rfl)
  | release j => exact .inl (.inr trivial)
  | pass j b late hclosed =>
      cases j with
      | read => exact .inl (.inl (hk.resolve_right Kind.noConfusion))
      | write => exact .inl (.inl hclosed)
  | recheckClosed j old hclosed =>
      cases j with
      | read => exact .inl (.inl (hk.resolve_right Kind.noConfusion))
      | write => exact .inl (.inl hclosed)
  | block j => exact .inl (.inl (hk.resolve_right fun h => h.2 (h.1 ▸ rfl)))
  | loadOpen j b _ | claimMissed j b e | register j | loadCount j | recheckOpen j old | cancel j =>
      cases j with
      | read => exact .inl (.inl (hk.resolve_right Kind.noConfusion))
      | write => exact .inl (.inr rfl)
  | goOn j old _ =>
      cases j with
      | read => exact .inl (.inl (hk.resolve_right fun h => Kind.noConfusion h.1))
      | write => exact .inl (.inr rfl)
  | wakeWriter _ =>
      refine .inr (.inl ⟨rfl, ?_⟩)
      rw [waitCount_addCount]
      exact version_add_verInc _
  | noWriter hzero => exact .inr (.inr (congrArg BitVec.toNat hzero))
  | _ => exact .inl (.inl (hk.resolve_right id))

theorem Moves.helps (h : Moves s l s' l' sig) (hready : Ready s l)
    (hannounced : s.waiters .write ≠ 0 → s.state.Closed .read) {k : Kind}
    (hk : s.state.Closed k ∨ l.helps s k) :
    (s'.state.Closed k ∨ l'.helps s' k) ∨
      (l' = .notify k ∧ RwLock.version (s'.waitCount k) ≠ RwLock.version (s.waitCount k)) ∨
      s.waiters k = 0 := by
  cases k with
  | read => exact h.helps_read hready hannounced hk
  | write => exact h.helps_write hready hk

theorem Moves.of_notify {k : Kind} (h : Moves s (.notify k) s' l' sig) :
    sig = k.notification := by
  cases h
  rfl

/-! ## Runs -/

variable {ι : Type} {c c' : Config ι Shared Pc} {t : ι}

/-- The condition on a step: a bump does not bring a version round to that of a value that a
thread in `wait` compares with. -/
def NoReturn (c : Config ι Shared Pc) (t : ι) (c' : Config ι Shared Pc) : Prop :=
  (c.pc t).bumping → ∀ u, ∀ p ∈ (c.pc u).comparing,
    version (c.shared.waitCount p.1) ≠ version p.2 →
      version (c'.shared.waitCount p.1) ≠ version p.2

/-- A writer that is registered has announced itself, or has the lock. -/
theorem Inv.announced (h : Inv c) (hne : c.shared.waiters .write ≠ 0) :
    c.shared.state.Closed .read := by
  have hnonzero : ∀ {n : BitVec 16}, 0 < n.toNat → n ≠ 0 := by
    rintro n hpos rfl
    exact absurd hpos (by decide)
  rcases (h.registered .write).exists_of_pos (Nat.pos_of_ne_zero hne) with ⟨t, ht⟩
  rcases Pc.slow_or_held ht with hslow | hheld
  · exact .inr (hnonzero ((h.prepared .write).pos hslow))
  · exact .inl (hnonzero ((h.active .write).pos hheld))

variable {k : Kind}

/-- A version that a thread in `wait` does not find is not there after the step either. -/
theorem NoReturn.version_ne (hok : NoReturn c t c') (hm : Moves c.shared (c.pc t) s' l' sig)
    (hready : Ready c.shared (c.pc t)) (hshared : c'.shared = s') {u : ι} {old : BitVec 64}
    (hold : (c.pc u).comparing = some (k, old))
    (hne : version (c.shared.waitCount k) ≠ version old) :
    version (s'.waitCount k) ≠ version old := by
  rcases hm.version hready k with hbump | hsame
  · have hafter := hok hbump u (k, old) hold hne
    rwa [hshared] at hafter
  · rwa [hsame]

/-- A thread that helps and stands still goes on helping. -/
theorem NoReturn.helps_other (hok : NoReturn c t c') (hm : Moves c.shared (c.pc t) s' l' sig)
    (hready : Ready c.shared (c.pc t)) (hshared : c'.shared = s') {u : ι}
    (hhelps : (c.pc u).helps c.shared k) : (c.pc u).helps s' k := by
  -- Only a writer about to compare depends on what is shared.
  cases hpc : c.pc u with
  | wait j old =>
      rw [hpc] at hhelps
      cases k with
      | read => exact absurd hhelps id
      | write =>
          rcases hhelps with ⟨rfl, hne⟩
          have hold : (c.pc u).comparing = some (.write, old) := by
            rw [hpc]
            rfl
          exact ⟨rfl, hok.version_ne hm hready hshared hold hne⟩
  | _ =>
      rw [hpc] at hhelps
      cases k <;> exact hhelps

/-- Whoever waits with a version that is there after the step has waited with it before. -/
theorem NoReturn.current_other (hok : NoReturn c t c') (hm : Moves c.shared (c.pc t) s' l' sig)
    (hready : Ready c.shared (c.pc t)) (hshared : c'.shared = s') {u : ι}
    (hu : (c.pc u).current s' k) :
    version (c.shared.waitCount k) = version (s'.waitCount k) ∧ (c.pc u).current c.shared k := by
  rcases hu with ⟨old, hold, hversion⟩
  have hbefore : version (c.shared.waitCount k) = version old := by
    by_contra hne
    exact hok.version_ne hm hready hshared hold hne hversion
  exact ⟨hbefore.trans hversion.symm, old, hold, hbefore⟩

variable [DecidableEq ι] [Fintype ι]

/-- What the step does for those who sleep. -/
theorem Inv.keeps (h : Inv c) (hcard : Fintype.card ι < 2 ^ 16)
    (hm : Moves c.shared (c.pc t) s' l' sig)
    (hdel : Delivers program (c.set t s' l') sig c') (hok : NoReturn c t c') :
    discipline.Keeps program c t s' l' sig := by
  have hready := h.ready hcard t
  constructor
  · intro k hk
    rcases hm.helps hready h.announced hk with hhelps | ⟨hl, hbump⟩ | hzero
    · exact .inl hhelps
    · -- The version is new: nobody compares with it.
      refine .inr (.inl ⟨hl, fun u hu => ?_⟩)
      by_cases hut : u = t
      · subst hut
        rcases hu with ⟨old, hold, -⟩
        rw [Config.set_pc_self, hl] at hold
        cases hold
      · rw [Config.set_pc_of_ne _ _ _ _ hut] at hu
        exact hbump (hok.current_other hm hready hdel.shared hu).1.symm
    · -- Nobody waits who is not registered.
      refine .inr (.inr ?_)
      rintro u ⟨old, hold⟩
      have hcount := h.registered k
      rw [hzero] at hcount
      exact hcount.not_of_zero u (Pc.registered_of_comparing hold)
  · intro k u _ hhelps
    exact hok.helps_other hm hready hdel.shared hhelps
  · rintro k ⟨old, hold, hversion⟩
    rcases hm.waits hold with ⟨rfl, ⟨-, hclosed⟩ | hcurrent⟩
    · exact .inl hclosed
    · exact .inr hcurrent
  · intro k u _ hcurrent
    exact (hok.current_other hm hready hdel.shared hcurrent).2
  · intro k hparked
    rcases lawful.waits_of_parked hparked with ⟨old, hold⟩
    rcases hm.waits hold with ⟨-, ⟨hnone, -⟩ | hcurrent⟩
    · exact absurd (hnone.symm.trans hparked) (none_ne k)
    · exact hcurrent
  · intro k hnotifies
    have hpc : c.pc t = .notify k := hnotifies
    rw [hpc] at hm
    rw [hm.of_notify]
    cases k with
    | read => exact .inl rfl
    | write =>
        -- The writer that is woken with an old version goes round its loop.
        refine .inr ⟨rfl, fun {l} hl hstale => ?_⟩
        rcases Pc.eq_blocked hl with ⟨old, rfl⟩
        exact ⟨rfl, fun hversion => hstale ⟨old, rfl, hversion⟩⟩

/-- The lock is free, everybody is idle or blocked, and somebody is blocked. -/
def Stuck (c : Config ι Shared Pc) : Prop :=
  (c.shared.state.actiReadCount = 0 ∧ c.shared.state.actiWriteCount = 0) ∧
    (∀ t, c.pc t = .idle ∨ (c.pc t).parked ≠ none) ∧ ∃ t, (c.pc t).parked ≠ none

omit [DecidableEq ι] [Fintype ι] in
theorem not_stuck (hinv : Inv c) (h : discipline.Wakeful program c) : ¬ Stuck c := by
  rintro ⟨⟨hreaders, hwriter⟩, hrest, t, ht⟩
  have hclosed : ∀ {u k}, (c.pc u).parked = some k → c.shared.state.Closed k :=
    h.closed_of_rest lawful idle_at_rest hrest
  have hwriters : ∀ u, (c.pc u).parked ≠ some .write := fun u hu =>
    (hclosed hu).elim (fun hne => hne hreaders) fun hne => hne hwriter
  rcases Option.ne_none_iff_exists'.1 ht with ⟨k, hk⟩
  cases k with
  | write => exact hwriters t hk
  | read =>
      -- The lock is closed to readers by a writer in its loop, which is blocked itself.
      have hprepared := (hclosed hk).resolve_left fun hne => hne hwriter
      rcases (hinv.prepared .write).exists_of_pos
        (Nat.pos_of_ne_zero fun hzero => hprepared (BitVec.eq_of_toNat_eq hzero)) with ⟨u, hu⟩
      rcases hrest u with hidle | hparked
      · rw [hidle] at hu
        cases hu
      · rcases Option.ne_none_iff_exists'.1 hparked with ⟨j, hj⟩
        rcases Pc.eq_blocked hj with ⟨old, hpc⟩
        rw [hpc] at hu hj
        cases hu
        exact hwriters u (by rw [hpc]; rfl)

/-- **Wakeups.**  In every run of fewer than `2^16` threads in which no bump brings a version
round to that of a value that a thread in `wait` compares with, in any order of their operations:
no configuration has the lock free, everybody idle or blocked, and somebody blocked. -/
theorem not_stuck_of_noReturn (hcard : Fintype.card ι < 2 ^ 16)
    (h : Reachable program NoReturn (start ι) c) : ¬ Stuck c := by
  have hboth : Inv c ∧ discipline.Wakeful program c := by
    refine h.rule (I := fun c => Inv c ∧ discipline.Wakeful program c) ⟨.start, ?_⟩ ?_
    · constructor
      · rintro k t ⟨old, hold, -⟩
        cases hold
      · intro k t hparked
        cases hparked
    · rintro c t a s l sig c' ⟨hinv, hwakeful⟩ hstep hdel hok
      have hm := Moves.of_step hstep
      exact ⟨hinv.step hcard hm hdel, hwakeful.step lawful (hinv.keeps hcard hm hdel hok) hdel⟩
  exact not_stuck hboth.1 hboth.2

/-! ## Schedules -/

instance : ∀ l : Pc, Decidable l.bumping
  | .bumpWriters | .bumpReaders => .isTrue trivial
  | .idle | .tryLoad _ _ | .tryCas _ _ _ | .slowLoad _ | .prep _ _ | .loadState _ _
  | .claim _ _ _ | .register _ | .loadCount _ | .recheck _ _ | .cancel _ | .wait _ _
  | .blocked _ _ | .deregister _ | .holding _ | .unlockLoad _ | .unlockCas _ _ | .notify _ =>
      .isFalse id

instance (c : Config ι Shared Pc) (t : ι) (c' : Config ι Shared Pc) :
    Decidable (NoReturn c t c') :=
  -- only the count that is compared is looked at, not every one there can be
  letI : ∀ u, Decidable (∀ p ∈ (c.pc u).comparing,
      version (c.shared.waitCount p.1) ≠ version p.2 →
        version (c'.shared.waitCount p.1) ≠ version p.2) :=
    fun _ => Option.decidableForallMem _
  inferInstanceAs (Decidable ((c.pc t).bumping → ∀ u, ∀ p ∈ (c.pc u).comparing,
    version (c.shared.waitCount p.1) ≠ version p.2 →
      version (c'.shared.waitCount p.1) ≠ version p.2))

theorem not_stuck_of_noReturn_handover :
    ∃ c : Config Bool Shared Pc,
      runSchedule program NoReturn readerAfterWriter (start Bool) = some c ∧
      c.pc false = .deregister .read ∧ version (c.shared.waitCount .read) = 1 ∧ ¬ Stuck c := by
  have hrun : (runSchedule program NoReturn readerAfterWriter (start Bool)).map
      (fun c => (c.pc false, version (c.shared.waitCount .read))) =
        some (.deregister .read, 1) := by
    decide +kernel
  rcases Option.map_eq_some_iff.1 hrun with ⟨c, hc, hpair⟩
  rcases Prod.mk.inj hpair with ⟨hpc, hversion⟩
  exact ⟨c, hc, hpc, hversion,
    not_stuck_of_noReturn (by decide) (Reachable.start.runSchedule hc)⟩

/-- Thread `false` has found the lock taken and is about to compare the count with the value 1;
thread `true` has left, and the count is `v`. -/
def lapped (v : BitVec 64) : Config Bool Shared Pc :=
  ⟨⟨⟨0, 1, 0, 0⟩, Function.update (fun _ => 0) .write v⟩,
    Function.update (fun _ => .idle) false (.wait .write 1)⟩

def arrival : List (Bool × Act × Option Bool) :=
  [(true, .lock .write, none), go true false, go true false,
    (false, .lock .write, none), go false false, go false false, go false false, go false true,
    go false false, go false false,
    (true, .unlock, none), go true false, go true false, go true false, go true false]

/-- Thread `true` takes the write lock once more and gives it up. -/
def lap : List (Bool × Act × Option Bool) :=
  [(true, .lock .write, none), go true false, go true false, go true false, go true false,
    go true false, (true, .unlock, none), go true false, go true false, go true false,
    go true false]

theorem runSchedule_lap {v : BitVec 64} (hv : v &&& waitCntMask ≠ 0) :
    runSchedule program (fun _ _ _ => True) lap (lapped v) = some (lapped (v + verInc)) := by
  have hcount : ¬ v &&& waitCntMask = 0#64 := hv
  simp [lap, lapped, runSchedule, Parking.deliver, go, program, step, advance, Config.set,
    State.Obstructed, State.Closed, State.prepare, State.claim, State.take, State.release,
    State.taken, State.freed, State.active, State.prepared, State.setActive, State.setPrepared,
    Shared.setState, Shared.addCount, Kind.failed, Kind.won, Kind.notification, Pc.parked, hcount]

/-- The count after `n + 1` releases. -/
def lapCount (n : Nat) : BitVec 64 :=
  BitVec.ofNat 64 (1 + (n + 1) * 2 ^ 16)

theorem lapCount_succ (n : Nat) : lapCount (n + 1) = lapCount n + verInc := by
  have hinc : verInc = BitVec.ofNat 64 (2 ^ 16) := rfl
  rw [lapCount, lapCount, hinc, ← BitVec.ofNat_add]
  congr 1
  ring

theorem lapCount_registered (n : Nat) : lapCount n &&& waitCntMask ≠ 0 := by
  intro hzero
  have hlow : (lapCount n &&& waitCntMask).toNat = (lapCount n).toNat % 2 ^ 16 :=
    Bits.toNat_and_low 16 rfl
  have hnone : (0 : BitVec 64).toNat = 0 := rfl
  rw [hzero, hnone, lapCount, BitVec.toNat_ofNat] at hlow
  omega

theorem reachable_lapped (n : Nat) :
    Reachable program (fun _ _ _ => True) (start Bool) (lapped (lapCount n)) := by
  induction n with
  | zero =>
      have hrun : (runSchedule program (fun _ _ _ => True) arrival (start Bool)).map
          (fun c => ((c.shared.state, c.shared.waitCount .read, c.shared.waitCount .write),
            c.pc false, c.pc true)) =
          some ((⟨0, 1, 0, 0⟩, 0, lapCount 0), .wait .write 1, .idle) := by
        decide +kernel
      rcases Option.map_eq_some_iff.1 hrun with ⟨⟨⟨d, counts⟩, pc⟩, hc, hprojections⟩
      simp only [Prod.mk.injEq] at hprojections
      rcases hprojections with ⟨⟨rfl, hread, hwrite⟩, hfalse, htrue⟩
      have hcounts : counts = Function.update (fun _ => 0) .write (lapCount 0) := by
        funext k
        cases k
        · exact hread
        · exact hwrite
      have hpc : pc = Function.update (fun _ => .idle) false (.wait .write 1) := by
        funext t
        cases t
        · exact hfalse
        · exact htrue
      subst hcounts hpc
      exact Reachable.start.runSchedule hc
  | succ n ih =>
      rw [lapCount_succ]
      exact ih.runSchedule (runSchedule_lap (lapCount_registered n))

/-- After `2 ^ 48` releases the count is 1 again: thread `false` blocks, and nobody is left. -/
theorem version_returns_hangs :
    ¬ ∀ c : Config Bool Shared Pc,
      Reachable program (fun _ _ _ => True) (start Bool) c → ¬ Stuck c := by
  intro hall
  have hreach := reachable_lapped (2 ^ 48 - 1)
  have hround : lapCount (2 ^ 48 - 1) = 1 := by
    decide +kernel
  rw [hround] at hreach
  have hblock : runSchedule program (fun _ _ _ => True) [go false false] (lapped 1) =
      some ((lapped 1).set false (lapped 1).shared (.blocked .write 1)) := rfl
  refine hall _ (hreach.runSchedule hblock) ⟨⟨rfl, rfl⟩, fun t => ?_, false, ?_⟩
  · cases t
    · exact .inr (Option.some_ne_none _)
    · exact .inl rfl
  · exact Option.some_ne_none _

end RwLock
end Lock
end Chenc
