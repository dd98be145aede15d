import Chenc.Lock.Mutex

/-!
# MutexExclusion — one holder of a mutex at a time

* `Pc.held` : from the exchange that takes the lock up to the store that gives it up;
* `held_step` : the flag follows the threads that hold the lock;
* `flag_excludes` : at most one thread holds the lock, and the flag says whether one does, whatever
  becomes of the count of the waiters.
-/

namespace Chenc
namespace Lock
namespace Mutex

open Interleaving (Config Counts Tally)
open Parking (Signal Delivers Reachable runSchedule)

variable {fast : Nat} {s s' : Shared} {l l' : Pc} {sig : Signal Unit}

def Pc.held : Pc → Prop
  | .holding | .storeFlag => True
  | _ => False

/-- `try_lock` takes the lock only when it is free. -/
theorem free_of_tryLock {failed : Pc} (h : tryLock s failed = (s', .holding, sig))
    (hfailed : failed ≠ .holding) : s.flag = false := by
  unfold tryLock at h
  split_ifs at h with hflag
  · exact hflag
  · cases h
    exact absurd rfl hfailed

theorem free_of_step {a : Act} (h : step fast s l a = some (s', .holding, sig)) :
    s.flag = false := by
  cases a with
  | lock | unlock =>
      simp only [step] at h
      split_ifs at h
      cases h
  | go late =>
      cases l with
      | firstTry => exact free_of_tryLock (Option.some.inj h) (by decide)
      | fastTry i =>
          simp only [step, advance] at h
          split_ifs at h
          · exact free_of_tryLock (Option.some.inj h) (by decide)
          · exact free_of_tryLock (Option.some.inj h) (by simp)
          · cases h
      | slowTry b =>
          refine free_of_tryLock (Option.some.inj h) ?_
          split_ifs <;> simp
      | register b =>
          simp only [step, advance] at h
          split_ifs at h <;> cases h
      | loadFlag r | wait r | loadCount =>
          simp only [step, advance, Option.some.injEq, Prod.mk.injEq] at h
          split_ifs at h <;> cases h.2.1
      | idle | blocked r | deregister r | holding | storeFlag | notify => cases h

/-- A step takes its thread into the lock, or out of it, or does neither, and the flag follows. -/
theorem held_step {a : Act} (h : step fast s l a = some (s', l', sig))
    (hpos : l.held → 0 < s.flag.toNat) :
    Tally l.held s.flag.toNat l'.held s'.flag.toNat := by
  cases Moves.of_step h with
  | acquire l htry =>
      have hfree : s.flag = false := free_of_step h
      have hl : ¬ l.held := by
        cases l <;> first | exact id | exact absurd htry id
      rw [hfree]
      exact .enter hl trivial
  | storeFlag =>
      have hflag : s.flag = true := by
        cases hs : s.flag with
        | true => rfl
        | false =>
            rw [hs] at hpos
            exact absurd (hpos trivial) (lt_irrefl 0)
      rw [hflag]
      exact .leave trivial id
  | _ => exact .stay Iff.rfl

/-! ## Runs -/

variable {ι : Type} {c : Config ι Shared Pc}

theorem Pc.held_resume (l : Pc) (k : Unit) (_ : l.parked = some k) :
    l.resume.held ↔ l.held := by
  cases l <;> exact Iff.rfl

theorem held_counts [DecidableEq ι] {ok : Config ι Shared Pc → ι → Config ι Shared Pc → Prop}
    (h : Reachable (program fast) ok (start ι) c) : Counts Pc.held c.shared.flag.toNat c := by
  refine h.rule (I := fun c => Counts Pc.held c.shared.flag.toNat c) (.zero fun _ => id) ?_
  intro c t a s l sig c' hc hstep hdel _
  rw [hdel.shared]
  exact hdel.counts Pc.held_resume (hc.tally (held_step hstep fun ht => hc.pos ht))

/-- What the flag says. -/
structure Excludes (c : Config ι Shared Pc) : Prop where
  alone {t u : ι} : (c.pc t).held → (c.pc u).held → t = u
  locked : c.shared.flag = true ↔ ∃ t, (c.pc t).held

/-- **The mutex excludes.**  For any number of threads that release only what they hold, in any
order of their operations and for any outcome of the tests of the clock: at most one thread holds
the lock, and the flag is set exactly while somebody does.  A wrong count of the waiters does not
matter to that. -/
theorem flag_excludes [DecidableEq ι]
    (h : Reachable (program fast) (fun _ _ _ => True) (start ι) c) : Excludes c := by
  have hcounts := held_counts h
  refine ⟨fun ht hu => hcounts.unique (Bool.toNat_le _) ht hu, fun hflag => ?_, ?_⟩
  · refine hcounts.exists_of_pos ?_
    rw [hflag]
    exact Nat.one_pos
  · rintro ⟨t, ht⟩
    have hpos := hcounts.pos ht
    cases hflag : c.shared.flag with
    | true => rfl
    | false =>
        rw [hflag] at hpos
        exact absurd hpos (lt_irrefl 0)

/-- The run in which a thread waits a second time without being counted. -/
theorem flag_excludes_secondWait :
    ∃ c : Config Bool Shared Pc, runSchedule (program 2) (fun _ _ _ => True) (secondWait.take 21)
        (start Bool) = some c ∧
      c.pc false = .blocked false ∧ c.pc true = .holding ∧ Excludes c := by
  have hrun : (runSchedule (program 2) (fun _ _ _ => True) (secondWait.take 21) (start Bool)).map
      (fun c => (c.pc false, c.pc true)) = some (.blocked false, .holding) := by
    decide +kernel
  rcases Option.map_eq_some_iff.1 hrun with ⟨c, hc, hpair⟩
  rcases Prod.mk.inj hpair with ⟨hfalse, htrue⟩
  exact ⟨c, hc, hfalse, htrue, flag_excludes (Reachable.start.runSchedule hc)⟩

end Mutex
end Lock
end Chenc
