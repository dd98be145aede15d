import Chenc.Lock.RwLock

/-!
# RwLockAccounting — what the counts of `rw_lock` count

* `Pc.held`, `Pc.slow`, `Pc.registered` : what a thread holds, which loop of `lock` it is in, and
  in which of the two wait counts it stands;
* `State.Sound` : many readers, or one writer;
* `Moves.active`, `Moves.prepared`, `Moves.registered` : the counts follow the thread that moves;
* `accounts_of_card` : in every run of fewer than `2^16` threads the counts are right, and none of
  them wraps around.
-/

namespace Chenc
namespace Lock
namespace RwLock

open Interleaving (Config Counts Tally)
open Parking (Signal Delivers Reachable Step runSchedule)

/-- How a thread holds the lock. -/
def Pc.held : Pc → Option Kind
  | .deregister k | .holding k | .unlockLoad k | .unlockCas k _ => some k
  | _ => none

/-- Which loop of `lock` a thread is in: it has announced itself and not yet taken the lock. -/
def Pc.slow : Pc → Option Kind
  | .loadState k _ | .claim k _ _ | .register k | .loadCount k | .recheck k _ | .cancel k
  | .wait k _ | .blocked k _ => some k
  | _ => none

/-- In which of the two wait counts a thread stands. -/
def Pc.registered : Pc → Option Kind
  | .loadState k isWait | .claim k isWait _ => if isWait then some k else none
  | .loadCount k | .recheck k _ | .cancel k | .wait k _ | .blocked k _ | .deregister k => some k
  | _ => none

/-- What a thread has read before it acts on it. -/
def Pc.Fit : Pc → Prop
  | .tryCas k _ expected => ¬ expected.Obstructed k
  | .claim k _ expected => ¬ expected.Closed k
  | .unlockCas k expected => expected.active k ≠ 0
  | _ => True

/-- The registered waiters, below the version. -/
def Shared.waiters (s : Shared) (k : Kind) : Nat :=
  (s.waitCount k &&& waitCntMask).toNat

/-! ## One word -/

/-- Many readers, or one writer. -/
structure State.Sound (d : State) : Prop where
  single : (d.active .write).toNat ≤ 1
  apart : d.active .write ≠ 0 → d.active .read = 0

/-- A count, beside a thread that is counted or not, has room. -/
structure Room (p : Prop) (n : Nat) : Prop where
  pos : p → 0 < n
  lt : ¬ p → n + 1 < 2 ^ 16

section Words

variable {d : State} {j k : Kind}

theorem toNat_add_one_of_room {n : BitVec 16} (h : n.toNat + 1 < 2 ^ 16) :
    (n + 1).toNat = n.toNat + 1 := by
  refine Bits.toNat_add_one (by decide) ?_
  rintro rfl
  exact absurd h (by decide)

theorem Sound.setPrepared {n : BitVec 16} (h : d.Sound) : (d.setPrepared n j).Sound := by
  constructor
  · rw [active_setPrepared]
    exact h.single
  · rw [active_setPrepared, active_setPrepared]
    exact h.apart

theorem Sound.take (h : d.Sound) (hopen : ¬ d.Closed k) : (d.take k).Sound := by
  rcases active_eq_zero_of_open d hopen with ⟨hwriter, hreader⟩
  cases k with
  | read => exact ⟨h.single, fun hne => absurd hwriter hne⟩
  | write => exact ⟨le_refl 1, fun _ => hreader rfl⟩

theorem Sound.release (h : d.Sound) (hpos : d.active k ≠ 0) : (d.release k).Sound := by
  cases k with
  | read => exact ⟨h.single, fun hne => absurd (h.apart hne) hpos⟩
  | write => exact ⟨zero_le_one, fun hne => absurd rfl hne⟩

/-- A thread takes the lock. -/
theorem tally_take {p p' : Prop} (hopen : ¬ d.Closed k)
    (hroom : Room p (d.active j).toNat) (hp : ¬ p) (hp' : p' ↔ k = j) :
    Tally p (d.active j).toNat p' ((d.take k).active j).toNat := by
  by_cases hj : j = k
  · subst hj
    rw [State.take, active_setActive]
    cases j with
    | read =>
        have hlt : d.actiReadCount.toNat + 1 < 2 ^ 16 := hroom.lt hp
        rw [State.taken, toNat_add_one_of_room hlt]
        exact .enter hp (hp'.2 rfl)
    | write =>
        -- There was no writer.
        rw [(active_eq_zero_of_open d hopen).1]
        exact .enter hp (hp'.2 rfl)
  · rw [State.take, active_setActive_of_ne d _ hj]
    exact .stay (iff_of_false (fun h => hj (hp'.1 h).symm) hp)

/-- A thread gives the lock up. -/
theorem tally_release {p p' : Prop} (h : d.Sound) (hroom : Room p (d.active j).toNat)
    (hp : p ↔ k = j) (hp' : ¬ p') :
    Tally p (d.active j).toNat p' ((d.release k).active j).toNat := by
  by_cases hj : j = k
  · subst hj
    have hpos := hroom.pos (hp.2 rfl)
    rw [State.release, active_setActive]
    cases j with
    | read =>
        have hpos' : 0 < d.actiReadCount.toNat := hpos
        rw [State.freed, Bits.toNat_sub_one (by decide) hpos']
        exact .leave (hp.2 rfl) hp'
    | write =>
        have hone : (d.active .write).toNat = 1 := Nat.le_antisymm h.single hpos
        rw [hone]
        exact .leave (hp.2 rfl) hp'
  · rw [State.release, active_setActive_of_ne d _ hj]
    exact .stay (iff_of_false hp' fun h => hj (hp.1 h).symm)

theorem tally_prepare {p p' : Prop} (hroom : Room p (d.prepared j).toNat) (hp : ¬ p)
    (hp' : p' ↔ k = j) : Tally p (d.prepared j).toNat p' ((d.prepare k).prepared j).toNat := by
  by_cases hj : j = k
  · subst hj
    rw [State.prepare, prepared_setPrepared, toNat_add_one_of_room (hroom.lt hp)]
    exact .enter hp (hp'.2 rfl)
  · rw [State.prepare, prepared_setPrepared_of_ne d _ hj]
    exact .stay (iff_of_false (fun h => hj (hp'.1 h).symm) hp)

theorem tally_claim {p p' : Prop} (hroom : Room p (d.prepared j).toNat) (hp : p ↔ k = j)
    (hp' : ¬ p') : Tally p (d.prepared j).toNat p' ((d.claim k).prepared j).toNat := by
  by_cases hj : j = k
  · subst hj
    rw [State.claim, prepared_setPrepared, Bits.toNat_sub_one (by decide) (hroom.pos (hp.2 rfl))]
    exact .leave (hp.2 rfl) hp'
  · rw [State.claim, prepared_setPrepared_of_ne _ _ hj, State.take, prepared_setActive]
    exact .stay (iff_of_false hp' fun h => hj (hp.1 h).symm)

theorem active_claim : (d.claim k).active j = (d.take k).active j := by
  rw [State.claim, active_setPrepared]

end Words

section Waiters

variable {s : Shared} {j k : Kind}

theorem waiters_eq_mod : s.waiters k = (s.waitCount k).toNat % 2 ^ 16 :=
  Bits.toNat_and_low 16 rfl

/-- A new version leaves the waiters alone. -/
theorem waiters_addCount_verInc : (s.addCount j verInc).waiters k = s.waiters k := by
  rw [waiters_eq_mod, waiters_eq_mod]
  by_cases hj : k = j
  · subst hj
    have hinc : verInc.toNat = 2 ^ 16 := rfl
    rw [waitCount_addCount, BitVec.toNat_add, hinc]
    omega
  · rw [waitCount_addCount_of_ne _ _ hj]

theorem tally_register {p p' : Prop} (hroom : Room p (s.waiters j)) (hp : ¬ p) (hp' : p' ↔ k = j) :
    Tally p (s.waiters j) p' ((s.addCount k 1).waiters j) := by
  by_cases hj : j = k
  · subst hj
    have hlt := hroom.lt hp
    have hone : (1 : BitVec 64).toNat = 1 := rfl
    have hsucc : (s.addCount j 1).waiters j = s.waiters j + 1 := by
      rw [waiters_eq_mod] at hlt ⊢
      rw [waiters_eq_mod, waitCount_addCount, BitVec.toNat_add, hone]
      omega
    rw [hsucc]
    exact .enter hp (hp'.2 rfl)
  · rw [waiters_eq_mod, waiters_eq_mod, waitCount_addCount_of_ne _ _ hj]
    exact .stay (iff_of_false (fun h => hj (hp'.1 h).symm) hp)

theorem tally_deregister {p p' : Prop} (hroom : Room p (s.waiters j)) (hp : p ↔ k = j)
    (hp' : ¬ p') : Tally p (s.waiters j) p' ((s.addCount k (-1)).waiters j) := by
  by_cases hj : j = k
  · subst hj
    have hpos := hroom.pos (hp.2 rfl)
    have hone : (-1 : BitVec 64).toNat = 2 ^ 64 - 1 := rfl
    have hpred : (s.addCount j (-1)).waiters j = s.waiters j - 1 := by
      rw [waiters_eq_mod] at hpos ⊢
      rw [waiters_eq_mod, waitCount_addCount, BitVec.toNat_add, hone]
      omega
    rw [hpred]
    exact .leave (hp.2 rfl) hp'
  · rw [waiters_eq_mod, waiters_eq_mod, waitCount_addCount_of_ne _ _ hj]
    exact .stay (iff_of_false hp' fun h => hj (hp.1 h).symm)

end Waiters

/-! ## The steps of the code -/

section Targets

variable (k : Kind) (b late : Bool)

@[simp] theorem held_failed : (k.failed b).held = none := by
  cases b <;> rfl

@[simp] theorem slow_failed : (k.failed b).slow = none := by
  cases b <;> rfl

@[simp] theorem registered_failed : (k.failed b).registered = none := by
  cases b <;> rfl

@[simp] theorem held_pass : (k.pass b late).held = none := by
  cases b <;> cases late <;> rfl

@[simp] theorem slow_pass : (k.pass b late).slow = some k := by
  cases b <;> cases late <;> rfl

@[simp] theorem registered_pass : (k.pass b late).registered = if b then some k else none := by
  cases b <;> cases late <;> rfl

@[simp] theorem held_won : (k.won b).held = some k := by
  cases b <;> rfl

@[simp] theorem slow_won : (k.won b).slow = none := by
  cases b <;> rfl

@[simp] theorem registered_won : (k.won b).registered = if b then some k else none := by
  cases b <;> rfl

theorem fit_failed : (k.failed b).Fit := by
  cases b <;> exact trivial

theorem fit_pass : (k.pass b late).Fit := by
  cases b <;> cases late <;> exact trivial

theorem fit_won : (k.won b).Fit := by
  cases b <;> exact trivial

end Targets

variable {s s' : Shared} {l l' : Pc} {sig : Signal Kind}

/-- What is known of the word when a thread moves. -/
structure Ready (s : Shared) (l : Pc) : Prop where
  fit : l.Fit
  sound : s.state.Sound
  active (k : Kind) : Room (l.held = some k) (s.state.active k).toNat
  prepared (k : Kind) : Room (l.slow = some k) (s.state.prepared k).toNat
  registered (k : Kind) : Room (l.registered = some k) (s.waiters k)

theorem Tally.keep {α : Type} {o o' : Option α} {a : α} (n : Nat) (h : o' = o) :
    Tally (o = some a) n (o' = some a) n :=
  .stay (by rw [h])

theorem none_ne (k : Kind) : ¬ (none : Option Kind) = some k :=
  (Option.some_ne_none k).symm

/-- The active counts follow what the thread holds. -/
theorem Moves.active (h : Moves s l s' l' sig) (hready : Ready s l) (k : Kind) :
    Tally (l.held = some k) (s.state.active k).toNat (l'.held = some k)
      (s'.state.active k).toNat := by
  cases h with
  | tryObstructed j b => exact Tally.keep _ (held_failed j b)
  | tryMissed j b expected => exact Tally.keep _ (held_failed j b)
  | pass j b late _ => exact Tally.keep _ (held_pass j b late)
  | tryWon j b =>
      exact tally_take (open_of_unobstructed _ hready.fit) (hready.active k) (none_ne k)
        Option.some_inj
  | prepare j =>
      rw [Shared.setState, State.prepare, active_setPrepared]
      exact Tally.keep _ rfl
  | claim j b =>
      rw [Shared.setState, active_claim, held_won]
      exact tally_take hready.fit (hready.active k) (none_ne k) Option.some_inj
  | release j =>
      exact tally_release hready.sound (hready.active k) Option.some_inj (none_ne k)
  | notHeld j expected hzero => exact absurd hzero hready.fit
  | _ => exact Tally.keep _ rfl

/-- The prepared counts follow the threads in the loops of `lock`. -/
theorem Moves.prepared (h : Moves s l s' l' sig) (hready : Ready s l) (k : Kind) :
    Tally (l.slow = some k) (s.state.prepared k).toNat (l'.slow = some k)
      (s'.state.prepared k).toNat := by
  cases h with
  | tryObstructed j b => exact Tally.keep _ (slow_failed j b)
  | tryMissed j b expected => exact Tally.keep _ (slow_failed j b)
  | pass j b late _ => exact Tally.keep _ (slow_pass j b late)
  | tryWon j b =>
      rw [Shared.setState, State.take, prepared_setActive]
      exact Tally.keep _ rfl
  | prepare j => exact tally_prepare (hready.prepared k) (none_ne k) Option.some_inj
  | claim j b =>
      rw [slow_won]
      exact tally_claim (hready.prepared k) Option.some_inj (none_ne k)
  | release j =>
      rw [Shared.setState, State.release, prepared_setActive]
      exact Tally.keep _ rfl
  | _ => exact Tally.keep _ rfl

/-- The wait counts follow the threads that register and deregister. -/
theorem Moves.registered (h : Moves s l s' l' sig) (hready : Ready s l) (k : Kind) :
    Tally (l.registered = some k) (s.waiters k) (l'.registered = some k) (s'.waiters k) := by
  cases h with
  | tryObstructed j b => exact Tally.keep _ (registered_failed j b)
  | tryMissed j b expected => exact Tally.keep _ (registered_failed j b)
  | pass j b late _ => exact Tally.keep _ (registered_pass j b late)
  | claim j b => exact Tally.keep _ (registered_won j b)
  | register j => exact tally_register (hready.registered k) (none_ne k) Option.some_inj
  | cancel j | deregister j =>
      exact tally_deregister (hready.registered k) Option.some_inj (none_ne k)
  | wakeWriter _ | noWriter _ | wakeReaders | noReader _ =>
      rw [waiters_addCount_verInc]
      exact Tally.keep _ rfl
  | _ => exact Tally.keep _ rfl

theorem Moves.sound (h : Moves s l s' l' sig) (hready : Ready s l) : s'.state.Sound := by
  cases h with
  | tryWon j b => exact Sound.take hready.sound (open_of_unobstructed _ hready.fit)
  | prepare j => exact Sound.setPrepared hready.sound
  | claim j b => exact Sound.setPrepared (Sound.take hready.sound hready.fit)
  | release j => exact Sound.release hready.sound hready.fit
  | _ => exact hready.sound

theorem Moves.fit (h : Moves s l s' l' sig) (hready : Ready s l) : l'.Fit := by
  -- Whoever is in `unlock` holds the lock, so that what it reads there is not zero.
  have hne : ∀ {k}, l.held = some k → s.state.active k ≠ 0 := by
    intro k hheld hzero
    have hpos := (hready.active k).pos hheld
    rw [hzero] at hpos
    exact lt_irrefl _ hpos
  cases h with
  | tryObstructed j b => exact fit_failed j b
  | tryMissed j b expected => exact fit_failed j b
  | tryOpen j b hopen => exact hopen
  | loadOpen j b hopen => exact hopen
  | pass j b late _ => exact fit_pass j b late
  | claim j b => exact fit_won j b
  | unlockLoad j => exact hne rfl
  | unlockMissed j expected _ => exact hne rfl
  | _ => exact trivial

/-! ## Runs -/

variable {ι : Type} [DecidableEq ι] [Fintype ι] {c c' : Config ι Shared Pc} {t : ι}

structure Inv (c : Config ι Shared Pc) : Prop where
  sound : c.shared.state.Sound
  active (k : Kind) : Counts (fun l => l.held = some k) (c.shared.state.active k).toNat c
  prepared (k : Kind) : Counts (fun l => l.slow = some k) (c.shared.state.prepared k).toNat c
  registered (k : Kind) : Counts (fun l => l.registered = some k) (c.shared.waiters k) c
  fit (t : ι) : (c.pc t).Fit

omit [DecidableEq ι] in
theorem Room.of_counts {P : Pc → Prop} {n : Nat} (hcard : Fintype.card ι < 2 ^ 16)
    (h : Counts P n c) (t : ι) : Room (P (c.pc t)) n :=
  ⟨h.pos, fun ht => lt_of_le_of_lt (h.lt_card ht) hcard⟩

section Resume

variable (k : Kind) (l : Pc) (j : Kind) (h : l.parked = some j)

include h

theorem held_resume : l.resume.held = some k ↔ l.held = some k := by
  cases l <;> exact Iff.rfl

theorem slow_resume : l.resume.slow = some k ↔ l.slow = some k := by
  cases l <;> exact Iff.rfl

theorem registered_resume : l.resume.registered = some k ↔ l.registered = some k := by
  cases l <;> exact Iff.rfl

theorem fit_resume (hfit : l.Fit) : l.resume.Fit := by
  cases l <;> exact hfit

end Resume

namespace Inv

omit [DecidableEq ι] [Fintype ι] in
theorem start : Inv (RwLock.start ι) where
  sound := ⟨zero_le_one, fun _ => rfl⟩
  active k := by
    cases k <;> exact .zero fun _ => none_ne _
  prepared k := by
    cases k <;> exact .zero fun _ => none_ne _
  registered k := by
    have hzero : (RwLock.start ι).shared.waiters k = 0 := waiters_eq_mod
    rw [hzero]
    exact .zero fun _ => none_ne k
  fit _ := trivial

omit [DecidableEq ι] in
theorem ready (h : Inv c) (hcard : Fintype.card ι < 2 ^ 16) (t : ι) : Ready c.shared (c.pc t) where
  fit := h.fit t
  sound := h.sound
  active k := .of_counts hcard (h.active k) t
  prepared k := .of_counts hcard (h.prepared k) t
  registered k := .of_counts hcard (h.registered k) t

/-- What a step does, with the threads it wakes. -/
theorem step (h : Inv c) (hcard : Fintype.card ι < 2 ^ 16)
    (hm : Moves c.shared (c.pc t) s' l' sig) (hdel : Delivers program (c.set t s' l') sig c') :
    Inv c' := by
  have hready := h.ready hcard t
  constructor
  · rw [hdel.shared]
    exact hm.sound hready
  · intro k
    rw [hdel.shared]
    exact hdel.counts (held_resume k) ((h.active k).tally (hm.active hready k))
  · intro k
    rw [hdel.shared]
    exact hdel.counts (slow_resume k) ((h.prepared k).tally (hm.prepared hready k))
  · intro k
    rw [hdel.shared]
    exact hdel.counts (registered_resume k) ((h.registered k).tally (hm.registered hready k))
  · exact hdel.forall_pc fit_resume
      ((Config.forall_set c t s' l').2 ⟨hm.fit hready, fun u _ => h.fit u⟩)

end Inv

/-- What the lock promises of a configuration. -/
structure Accounts (c : Config ι Shared Pc) : Prop where
  readers : Counts (fun l => l.held = some .read) c.shared.state.actiReadCount.toNat c
  writer : c.shared.state.actiWriteCount = 1 ↔ ∃ t, (c.pc t).held = some .write
  noWriter : c.shared.state.actiWriteCount = 0 ↔ ¬ ∃ t, (c.pc t).held = some .write
  alone {t u : ι} : (c.pc t).held = some .write → (c.pc u).held ≠ none → u = t
  preparedReaders : Counts (fun l => l.slow = some .read) c.shared.state.prepReadCount.toNat c
  preparedWriters : Counts (fun l => l.slow = some .write) c.shared.state.prepWriteCount.toNat c
  /-- The low 16 bits of `wait_read__count_` and `wait_write_count_`. -/
  waiters (k : Kind) : Counts (fun l => l.registered = some k)
    (c.shared.waitCount k &&& waitCntMask).toNat c

/-- No count goes up or down by more than one, so that none wraps around. -/
structure Steady (s s' : Shared) : Prop where
  active (k : Kind) : (s'.state.active k).toNat ≤ (s.state.active k).toNat + 1 ∧
    (s.state.active k).toNat ≤ (s'.state.active k).toNat + 1
  prepared (k : Kind) : (s'.state.prepared k).toNat ≤ (s.state.prepared k).toNat + 1 ∧
    (s.state.prepared k).toNat ≤ (s'.state.prepared k).toNat + 1
  waiters (k : Kind) : s'.waiters k ≤ s.waiters k + 1 ∧ s.waiters k ≤ s'.waiters k + 1

namespace Inv

omit [DecidableEq ι] [Fintype ι] in
theorem writer_iff (h : Inv c) :
    c.shared.state.active .write ≠ 0 ↔ ∃ t, (c.pc t).held = some .write := by
  constructor
  · intro hne
    exact (h.active .write).exists_of_pos
      (Nat.pos_of_ne_zero fun hzero => hne (BitVec.eq_of_toNat_eq hzero))
  · rintro ⟨t, ht⟩ hzero
    have hpos := (h.active .write).pos ht
    rw [hzero] at hpos
    exact lt_irrefl _ hpos

omit [DecidableEq ι] [Fintype ι] in
theorem accounts (h : Inv c) : Accounts c where
  readers := h.active .read
  writer := by
    rw [← h.writer_iff]
    constructor
    · intro hone hzero
      exact absurd (hone.symm.trans hzero) (by decide)
    · intro hne
      have hpos : 0 < (c.shared.state.active .write).toNat :=
        Nat.pos_of_ne_zero fun hzero => hne (BitVec.eq_of_toNat_eq hzero)
      exact BitVec.eq_of_toNat_eq (Nat.le_antisymm h.sound.single hpos)
  noWriter := by
    rw [← h.writer_iff, not_not]
    exact Iff.rfl
  alone {t u} ht hu := by
    rcases Option.ne_none_iff_exists'.1 hu with ⟨k, hk⟩
    cases k with
    | write => exact (h.active .write).unique h.sound.single hk ht
    | read =>
        have hpos := (h.active .read).pos hk
        rw [h.sound.apart (h.writer_iff.2 ⟨t, ht⟩)] at hpos
        exact absurd hpos (lt_irrefl _)
  preparedReaders := h.prepared .read
  preparedWriters := h.prepared .write
  waiters := h.registered

theorem steady (h : Inv c) (hcard : Fintype.card ι < 2 ^ 16) (hstep : Step program c t c') :
    Steady c.shared c'.shared := by
  rcases hstep with ⟨a, s, l, sig, hstep, hdel⟩
  have hm := Moves.of_step hstep
  have hready := h.ready hcard t
  rw [hdel.shared, Config.set_shared]
  exact ⟨fun k => (hm.active hready k).near, fun k => (hm.prepared hready k).near,
    fun k => (hm.registered hready k).near⟩

end Inv

theorem inv_of_reachable (hcard : Fintype.card ι < 2 ^ 16)
    {ok : Config ι Shared Pc → ι → Config ι Shared Pc → Prop}
    (h : Reachable program ok (start ι) c) : Inv c := by
  refine h.rule (I := Inv) .start ?_
  intro c t a s l sig c' hc hstep hdel _
  exact hc.step hcard (Moves.of_step hstep) hdel

/-- **Accounting.**  In every run of fewer than `2^16` threads that release only what they hold,
in any order of their operations: the active counts are the number of readers and whether there is
a writer, who is then alone; the prepared counts are the numbers of threads in the loops of `lock`;
the low 16 bits of the wait counts are the numbers of waiters registered; and no step moves any of
these by more than one. -/
theorem accounts_of_card (hcard : Fintype.card ι < 2 ^ 16)
    (h : Reachable program (fun _ _ _ => True) (start ι) c) :
    Accounts c ∧ ∀ t c', Step program c t c' → Steady c.shared c'.shared :=
  ⟨(inv_of_reachable hcard h).accounts, fun _ _ => (inv_of_reachable hcard h).steady hcard⟩

/-! ## A schedule -/

/-- Thread `t` takes a step, and wakes nobody. -/
def go (t : ι) (late : Bool) : ι × Act × Option ι :=
  (t, .go late, none)

/-- Thread `false` comes for the read lock while thread `true` writes, and blocks; the writer
leaves and wakes it, and it takes the lock. -/
def readerAfterWriter : List (Bool × Act × Option Bool) :=
  [(true, .lock .write, none), go true false, go true false,
    (false, .lock .read, none), go false false, go false false, go false false, go false true,
    go false false, go false false, go false false,
    (true, .unlock, none), go true false, go true false, go true false, go true false,
    go true false,
    go false false, go false false, go false false]

theorem accounts_of_card_handover :
    ∃ c : Config Bool Shared Pc,
      runSchedule program (fun _ _ _ => True) readerAfterWriter (start Bool) = some c ∧
      c.pc false = .deregister .read ∧ c.shared.state = ⟨0, 0, 1, 0⟩ ∧
      Accounts c ∧ ∀ t c', Step program c t c' → Steady c.shared c'.shared := by
  have hrun : (runSchedule program (fun _ _ _ => True) readerAfterWriter (start Bool)).map
      (fun c => (c.pc false, c.shared.state)) = some (.deregister .read, ⟨0, 0, 1, 0⟩) := by
    decide +kernel
  rcases Option.map_eq_some_iff.1 hrun with ⟨c, hc, hpair⟩
  rcases Prod.mk.inj hpair with ⟨hpc, hstate⟩
  exact ⟨c, hc, hpc, hstate, accounts_of_card (by decide) (Reachable.start.runSchedule hc)⟩

end RwLock
end Lock
end Chenc
