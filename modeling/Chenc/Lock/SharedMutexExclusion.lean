import Chenc.Lock.SharedMutex

/-!
# SharedMutexExclusion — readers together, a writer alone

* `Pc.held` : what a thread holds, from the write that took the lock to the one that gives it up;
* `Turn` : what a lock for readers and writers may do, whatever the code;
* `Moves.turn` : every step of the code is such a turn;
* `excludes_of_fewReaders` : in every run `lock_state_` counts the readers and says whether there
  is a writer, and `unlock` takes the branch of what its caller holds.
-/

namespace Chenc
namespace Lock
namespace SharedMutex

open Interleaving (Config Counts)
open Parking (Signal Delivers Reachable runSchedule)

/-- How a thread holds the lock. -/
def Pc.held : Pc → Option Kind
  | .deregister k | .holding k | .branch k | .loadWriters k | .release k _ | .subReader k => some k
  | _ => none

/-- What a thread has read before it acts on it, and which branch of `unlock` it is in. -/
def Pc.Fit : Pc → Prop
  | .claim _ state => ¬ (decode state).Closed .exclusive
  | .readClaim _ state => ¬ (decode state).Closed .shared
  | .loadWriters k | .release k _ => k = .exclusive
  | .subReader k => k = .shared
  | _ => True

/-! ## The lock as such -/

/-- A lock goes from `d` to `d'` while one thread goes from holding `h` to holding `h'`. -/
inductive Turn (d : Word) : Option Kind → Word → Option Kind → Prop
  | stay (h : Option Kind) (p : Bool) : Turn d h { d with pending := p } h
  | acquire (p : Bool) : ¬ d.Closed .exclusive → Turn d none ⟨true, p, 0⟩ (some .exclusive)
  | giveUp (p : Bool) : Turn d (some .exclusive) ⟨false, p, 0⟩ none
  | enter : d.locked = false → Turn d none { d with readers := d.readers + 1 } (some .shared)
  | leave : Turn d (some .shared) { d with readers := d.readers - 1 } none

section Holders

variable {ι : Type} [DecidableEq ι] {c : Config ι Shared Pc} {d d' : Word} {t : ι}

/-- `d` says who holds the lock: many readers, or one writer. -/
structure Holders (d : Word) (c : Config ι Shared Pc) : Prop where
  readers : Counts (fun l => l.held = some .shared) d.readers c
  writers : Counts (fun l => l.held = some .exclusive) d.locked.toNat c
  apart : d.locked = true → d.readers = 0

namespace Holders

omit [DecidableEq ι] in
theorem locked_of_held (h : Holders d c) (ht : (c.pc t).held = some .exclusive) :
    d.locked = true := by
  have hpos := h.writers.pos ht
  rcases hlocked : d.locked with _ | _
  · rw [hlocked] at hpos
    exact absurd hpos (lt_irrefl _)
  · rfl

omit [DecidableEq ι] in
theorem unlocked_of_held (h : Holders d c) (ht : (c.pc t).held = some .shared) :
    d.locked = false := by
  rcases hlocked : d.locked with _ | _
  · rfl
  · have hpos := h.readers.pos ht
    rw [h.apart hlocked] at hpos
    exact absurd hpos (lt_irrefl _)

omit [DecidableEq ι] in
theorem unique (h : Holders d c) {u : ι} (ht : (c.pc t).held = some .exclusive)
    (hu : (c.pc u).held = some .exclusive) : t = u :=
  h.writers.unique (Bool.toNat_le _) ht hu

omit [DecidableEq ι] in
theorem locked_iff (h : Holders d c) :
    d.locked = true ↔ ∃ t, (c.pc t).held = some .exclusive := by
  constructor
  · intro hlocked
    exact h.writers.exists_of_pos (by simp [hlocked])
  · rintro ⟨t, ht⟩
    exact h.locked_of_held ht

/-- Every turn of the lock leaves it in agreement with its holders. -/
theorem turn (h : Holders d c) {s' : Shared} {l' : Pc} (hturn : Turn d (c.pc t).held d' l'.held) :
    Holders d' (c.set t s' l') := by
  generalize hheld : (c.pc t).held = held, hheld' : l'.held = held' at hturn
  have hold : ∀ k, held = some k ↔ (c.pc t).held = some k := fun k => by rw [hheld]
  have hnew : ∀ k, held' = some k ↔ l'.held = some k := fun k => by rw [hheld']
  cases hturn with
  | stay _ p =>
      exact ⟨h.readers.same ((hnew _).symm.trans (hold _)),
        h.writers.same ((hnew _).symm.trans (hold _)), h.apart⟩
  | acquire p hopen =>
      simp only [Word.Closed, not_or, Bool.not_eq_true, Nat.not_lt, Nat.le_zero] at hopen
      -- Nobody held the lock.
      have hreaders := h.readers
      have hwriters := h.writers
      rw [hopen.2] at hreaders
      rw [hopen.1] at hwriters
      exact ⟨hreaders.same (by simp [hheld, hheld']),
        hwriters.enter (by simp [hheld]) hheld', fun _ => rfl⟩
  | giveUp p =>
      have hlocked := h.locked_of_held hheld
      have hreaders := h.readers
      have hwriters := h.writers
      rw [h.apart hlocked] at hreaders
      rw [hlocked] at hwriters
      exact ⟨hreaders.same (by simp [hheld, hheld']),
        hwriters.exit hheld (by simp [hheld']), fun _ => rfl⟩
  | enter hopen =>
      refine ⟨h.readers.enter (by simp [hheld]) hheld', h.writers.same (by simp [hheld, hheld']),
        fun hlocked => ?_⟩
      rw [hopen] at hlocked
      cases hlocked
  | leave =>
      refine ⟨h.readers.exit hheld (by simp [hheld']), h.writers.same (by simp [hheld, hheld']),
        fun hlocked => ?_⟩
      rw [h.unlocked_of_held hheld] at hlocked
      cases hlocked

end Holders

end Holders

/-! ## The steps of the code -/

section Held

@[simp] theorem held_attempt (k : Kind) (b : Bool) : (k.attempt b).held = none := by
  cases k <;> rfl

@[simp] theorem held_retry (k : Kind) (b late : Bool) : (k.retry b late).held = none := by
  cases k <;> cases b <;> cases late <;> rfl

@[simp] theorem held_won (k : Kind) (b : Bool) : (k.won b).held = some k := by
  cases b <;> rfl

@[simp] theorem Caller.held_won (caller : Caller) : caller.won.held = some .shared := by
  cases caller with
  | loop b => exact SharedMutex.held_won .shared b
  | _ => rfl

@[simp] theorem Caller.held_failed (caller : Caller) (late : Bool) :
    (caller.failed late).held = none := by
  cases caller with
  | loop b => exact held_retry .shared b late
  | _ => rfl

theorem Pc.held_of_entry {l : Pc} (h : l.entry) : l.held = none := by
  cases l <;> first | rfl | exact absurd h id

theorem Pc.held_of_attempting {l : Pc} {b : Bool} (h : l.attempting b) : l.held = none := by
  cases l <;> first | rfl | exact absurd h id

theorem Pc.held_of_reading {l : Pc} {caller : Caller} (h : l.reading caller) : l.held = none := by
  cases l <;> first | rfl | exact absurd h id

theorem Pc.fit_of_settled {l : Pc} (h : l.settled) : l.Fit := by
  cases l <;> first | exact trivial | exact absurd h id

end Held

variable {s s' : Shared} {l l' : Pc} {sig : Signal Kind}

theorem Turn.keep (d : Word) {h h' : Option Kind} (hh : h' = h) : Turn d h d h' := by
  subst hh
  exact .stay h' d.pending

/-- The thread acts on what it has read, and the number of readers stays within its bits. -/
structure Ready (s : Shared) (l l' : Pc) : Prop where
  fit : l.Fit
  room : l.held = none → l'.held = some .shared → (decode s.lockState).readers + 1 < 2 ^ 30
  pos : l.held = some .shared → 0 < (decode s.lockState).readers

/-- Every step of the code is a turn of the lock. -/
theorem Moves.turn (h : Moves s l s' l' sig) (hready : Ready s l l') :
    Turn (decode s.lockState) l.held (decode s'.lockState) l'.held := by
  cases h with
  | call l hl => exact .keep _ (Pc.held_of_entry hl)
  | tryWon b hzero =>
      rw [Shared.setState, decode_writeLockedBit, hzero]
      exact .acquire false fun hclosed => by cases hclosed <;> contradiction
  | setPending =>
      rw [Shared.setState, decode_or_pending]
      exact .stay none true
  | claimed b =>
      -- The word is the one the thread found open.
      rw [Shared.setState, decode_claimed, held_won]
      exact .acquire _ hready.fit
  | missed l b late hl =>
      rw [Pc.held_of_attempting hl, held_retry]
      exact .keep _ rfl
  | readClaimed caller =>
      have hopen : (decode s.lockState).locked = false :=
        Bool.eq_false_iff.2 fun hlocked => hready.fit (.inl hlocked)
      rw [Shared.setState, decode_add_one _ (hready.room rfl (Caller.held_won caller)),
        Caller.held_won]
      exact .enter hopen
  | readMissed l caller late hl =>
      rw [Pc.held_of_reading hl, Caller.held_failed]
      exact .keep _ rfl
  | recheckOpen k old | goOn k old _ => exact .keep _ (held_attempt k true)
  | releaseToWriter k =>
      cases show k = .exclusive from hready.fit
      rw [Shared.setState, decode_writePendingBit]
      exact .giveUp true
  | releaseToReaders k =>
      cases show k = .exclusive from hready.fit
      rw [Shared.setState, decode_zero]
      exact .giveUp false
  | subLast k _ _ | subReader k _ =>
      cases show k = .shared from hready.fit
      rw [Shared.setState, decode_sub_one _ (hready.pos rfl)]
      exact .leave
  | _ => exact .keep _ rfl

/-- A thread acts on what it has read, and `unlock` takes the branch of what its caller holds. -/
theorem Moves.fit (h : Moves s l s' l' sig) (hfit : l.Fit)
    (hex : l.held = some .exclusive → (decode s.lockState).locked = true)
    (hsh : l.held = some .shared → (decode s.lockState).locked = false) : l'.Fit := by
  cases h with
  | call _ hl => exact Pc.fit_of_settled (Pc.settled_of_entry hl)
  | loadOpen b hopen => exact hopen
  | readOpen caller hopen => exact hopen
  -- `unlock` goes by the write bit, which agrees with what the thread holds.
  | branchWriter k hlocked =>
      cases k with
      | exclusive => rfl
      | shared =>
          rw [hsh rfl] at hlocked
          cases hlocked
  | branchReader k hlocked =>
      cases k with
      | exclusive =>
          rw [hex rfl] at hlocked
          cases hlocked
      | shared => rfl
  | loadWriters k => exact hfit
  | missed _ b late _ => exact Pc.fit_of_settled settled_retry
  | claimed b => exact Pc.fit_of_settled settled_won
  | readMissed _ caller late _ => exact Pc.fit_of_settled Caller.settled_failed
  | readClaimed caller => exact Pc.fit_of_settled Caller.settled_won
  | recheckOpen k old | goOn k old _ => exact Pc.fit_of_settled settled_attempt
  | _ => exact trivial

/-! ## Runs -/

variable {ι : Type} [DecidableEq ι] {c c' : Config ι Shared Pc} {t : ι}

/-- Fewer than `2^30` threads hold the lock for reading. -/
def FewReaders (c : Config ι Shared Pc) : Prop :=
  ∀ T : Finset ι, (∀ t ∈ T, (c.pc t).held = some .shared) → T.card < 2 ^ 30

theorem Pc.held_iff_resume (k : Kind) (l : Pc) (j : Kind) (_ : l.parked = some j) :
    l.resume.held = some k ↔ l.held = some k := by
  cases l <;> exact Iff.rfl

theorem Pc.fit_resume (l : Pc) (k : Kind) (_ : l.parked = some k) (h : l.Fit) : l.resume.Fit := by
  cases l <;> exact h

structure Inv (c : Config ι Shared Pc) : Prop where
  holders : Holders (decode c.shared.lockState) c
  fit (t : ι) : (c.pc t).Fit

namespace Inv

omit [DecidableEq ι] in
theorem start : Inv (SharedMutex.start ι) := by
  have hnone : ∀ k t, ¬ ((SharedMutex.start ι).pc t).held = some k := by
    intro k t h
    cases h
  have hword : decode (SharedMutex.start ι).shared.lockState = ⟨false, false, 0⟩ := decode_zero
  constructor
  · rw [hword]
    exact ⟨.zero (hnone .shared), .zero (hnone .exclusive), fun _ => rfl⟩
  · intro t
    trivial

theorem ready (h : Inv c) (hdel : Delivers program (c.set t s' l') sig c')
    (hfew : FewReaders c') : Ready c.shared (c.pc t) l' where
  fit := h.fit t
  room hold hnew := by
    -- The new reader is counted among those of `c'`.
    have hentered : Counts (fun l => l.held = some .shared)
        ((decode c.shared.lockState).readers + 1) c' :=
      hdel.counts (Pc.held_iff_resume .shared) (h.holders.readers.enter (by simp [hold]) hnew)
    rcases hentered with ⟨T, hcard, hT⟩
    rw [← hcard]
    exact hfew T fun u hu => (hT u).1 hu
  pos hheld := h.holders.readers.pos hheld

/-- What a step does, with the threads it wakes. -/
theorem step (h : Inv c) (hm : Moves c.shared (c.pc t) s' l' sig)
    (hdel : Delivers program (c.set t s' l') sig c') (hfew : FewReaders c') : Inv c' := by
  have hholders : Holders (decode s'.lockState) (c.set t s' l') :=
    h.holders.turn (hm.turn (h.ready hdel hfew))
  constructor
  · rw [hdel.shared]
    exact ⟨hdel.counts (Pc.held_iff_resume .shared) hholders.readers,
      hdel.counts (Pc.held_iff_resume .exclusive) hholders.writers, hholders.apart⟩
  · refine hdel.forall_pc Pc.fit_resume ((Config.forall_set c t s' l').2 ⟨?_, fun u _ => h.fit u⟩)
    exact hm.fit (h.fit t) h.holders.locked_of_held h.holders.unlocked_of_held

end Inv

/-- What the lock promises of a configuration. -/
structure Excludes (c : Config ι Shared Pc) : Prop where
  /-- The low 30 bits are the number of readers. -/
  readers : Counts (fun l => l.held = some .shared) (c.shared.lockState &&& readerMask).toNat c
  /-- Bit 31 says whether there is a writer. -/
  writer : c.shared.lockState &&& writeLockedBit ≠ 0 ↔ ∃ t, (c.pc t).held = some .exclusive
  alone {t u : ι} : (c.pc t).held = some .exclusive → (c.pc u).held ≠ none → u = t
  apart : c.shared.lockState &&& writeLockedBit ≠ 0 → c.shared.lockState &&& readerMask = 0
  /-- The store of the exclusive `unlock` meets no reader and no other writer. -/
  store {t u : ι} {k : Kind} {hasWriter : Bool} :
    c.pc t = .release k hasWriter → (c.pc u).held ≠ none → u = t
  /-- `unlock` takes the branch of what its caller holds. -/
  writerBranch {t : ι} {k : Kind} :
    (c.pc t = .loadWriters k ∨ ∃ hasWriter, c.pc t = .release k hasWriter) → k = .exclusive
  readerBranch {t : ι} {k : Kind} : c.pc t = .subReader k → k = .shared

omit [DecidableEq ι] in
theorem Holders.alone {d : Word} (h : Holders d c) {u : ι}
    (ht : (c.pc t).held = some .exclusive) (hu : (c.pc u).held ≠ none) : u = t := by
  rcases Option.ne_none_iff_exists'.1 hu with ⟨k, hk⟩
  cases k with
  | exclusive => exact h.unique hk ht
  | shared =>
      have hlocked := h.locked_of_held ht
      rw [h.unlocked_of_held hk] at hlocked
      cases hlocked

omit [DecidableEq ι] in
theorem Inv.excludes (h : Inv c) : Excludes c where
  readers := h.holders.readers
  writer := (and_writeLockedBit_ne _).trans h.holders.locked_iff
  alone := h.holders.alone
  apart hlocked := by
    have hzero := h.holders.apart ((and_writeLockedBit_ne _).1 hlocked)
    exact BitVec.eq_of_toNat_eq hzero
  store {t u k hasWriter} ht hu := by
    have hfit := h.fit t
    rw [ht] at hfit
    have hk : k = .exclusive := hfit
    refine h.holders.alone (t := t) ?_ hu
    rw [ht, hk]
    rfl
  writerBranch {t k} ht := by
    have hfit := h.fit t
    rcases ht with ht | ⟨hasWriter, ht⟩
    · rw [ht] at hfit
      exact hfit
    · rw [ht] at hfit
      exact hfit
  readerBranch {t k} ht := by
    have hfit := h.fit t
    rw [ht] at hfit
    exact hfit

/-- **Exclusion.**  In every run with fewer than `2^30` simultaneous readers, for any number of
threads that release only what they hold and any order of their operations: the low 30 bits of
`lock_state_` are the number of readers, bit 31 is set exactly while there is a writer, who is then
alone, the store of the exclusive `unlock` meets nobody else, and `unlock` takes the branch that
matches what its caller holds. -/
theorem excludes_of_fewReaders
    (h : Reachable program (fun _ _ c' => FewReaders c') (start ι) c) : Excludes c := by
  refine Inv.excludes (h.rule (I := Inv) .start ?_)
  intro c t a s l sig c' hc hstep hdel hfew
  exact hc.step (Moves.of_step hstep) hdel hfew

/-! ## A schedule -/

omit [DecidableEq ι] in
theorem fewReaders_of_card [Fintype ι] (h : Fintype.card ι < 2 ^ 30) (c : Config ι Shared Pc) :
    FewReaders c :=
  fun T _ => T.card_le_univ.trans_lt h

/-- Thread `t` takes a step, and wakes nobody. -/
def go (t : ι) (late : Bool) : ι × Act × Option ι :=
  (t, .go late, none)

/-- Thread `false` comes for the write lock while thread `true` reads, and blocks; the reader
leaves and wakes it, and it takes the lock. -/
def writerAfterReader : List (Bool × Act × Option Bool) :=
  [(true, .lockShared, none), go true false, go true false,
    (false, .lock, none), go false false, go false false, go false true, go false false,
    go false false, go false false, go false false,
    (true, .unlock, none), go true false, go true false, go true false, go true false,
    (true, .go false, some false),
    go false false, go false false, go false false]

theorem excludes_of_fewReaders_handover :
    ∃ c : Config Bool Shared Pc,
      runSchedule program (fun _ _ _ => True) writerAfterReader (start Bool) = some c ∧
      c.pc false = .deregister .exclusive ∧
      c.shared.lockState = writeLockedBit ||| writePendingBit ∧ Excludes c := by
  have hrun : (runSchedule program (fun _ _ _ => True) writerAfterReader (start Bool)).map
      (fun c => (c.pc false, c.shared.lockState)) =
        some (.deregister .exclusive, writeLockedBit ||| writePendingBit) := by
    decide +kernel
  rcases Option.map_eq_some_iff.1 hrun with ⟨c, hc, hpair⟩
  rcases Prod.mk.inj hpair with ⟨hpc, hword⟩
  exact ⟨c, hc, hpc, hword, excludes_of_fewReaders
    ((Reachable.start.runSchedule hc).mono fun _ _ c' _ => fewReaders_of_card (by decide) c')⟩

end SharedMutex
end Lock
end Chenc
