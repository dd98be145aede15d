import Chenc.Lib.Precedence
import Chenc.Lock.RwLockAccounting

/-!
# RwLockPriority — a writer that has announced itself is not passed by

Once a writer stands in `prep_write_count_`, neither a reader nor a `try_lock` gets in.

* `Awaits` : thread `w` is in the loop of the write handle's `lock`, which no thread outside `B` is;
* `Moves.held_of_prepared` : who may take a lock that a writer has announced itself for;
* `writer_goes_first` : the whole time that `w` waits.
-/

namespace Chenc
namespace Lock
namespace RwLock

open Interleaving (Config)
open Parking (Signal Reachable runSchedule Admits Party)

variable {ι : Type} [DecidableEq ι] [Fintype ι] {c d : Config ι Shared Pc} {w : ι} {B : ι → Prop}

/-- Thread `w` has announced that it will write; all who have are in `B`. -/
structure Awaits (w : ι) (B : ι → Prop) (c : Config ι Shared Pc) : Prop where
  announced : (c.pc w).slow = some .write
  among (u : ι) : (c.pc u).slow = some .write → B u

/-! ## One step -/

theorem closed_read_of_prepared {d : State} (h : d.prepared .write ≠ 0) : d.Closed .read :=
  .inr h

theorem obstructed_of_prepared {d : State} (h : d.prepared .write ≠ 0) : ∀ k, d.Obstructed k
  | .read => .inr h
  | .write => .inr (.inr h)

/-- While a writer is announced, whoever comes to hold the lock is such a writer. -/
theorem Moves.held_of_prepared {s s' : Shared} {l l' : Pc} {sig : Signal Kind} {k : Kind}
    (h : Moves s l s' l' sig) (hfit : l.Fit) (hprep : s.state.prepared .write ≠ 0)
    (hk : l'.held = some k) : l.held = some k ∨ k = .write ∧ l.slow = some .write := by
  cases h with
  -- `try_lock` has seen a lock without announced writers, and finds the same word again.
  | tryWon j b => exact absurd (obstructed_of_prepared hprep j) hfit
  | claim j b =>
      rw [held_won] at hk
      cases hk
      cases k with
      | read => exact absurd (closed_read_of_prepared hprep) hfit
      | write => exact .inr ⟨rfl, rfl⟩
  | tryObstructed j b | tryMissed j b expected =>
      rw [held_failed] at hk
      cases hk
  | pass j b late _ =>
      rw [held_pass] at hk
      cases hk
  | unlock j | deregister j | unlockLoad j | unlockMissed j expected _ => exact .inl hk
  | _ => cases hk

/-! ## The whole time -/

omit [DecidableEq ι] [Fintype ι] in
theorem Awaits.prepared_ne (h : Awaits w B c) (hinv : Inv c) :
    c.shared.state.prepared .write ≠ 0 := by
  intro hzero
  have hpos := (hinv.prepared .write).pos h.announced
  rw [hzero] at hpos
  exact lt_irrefl _ hpos

/-- **Writers first.**  In every run of fewer than `2^16` threads: from the moment that thread `w`
has announced itself in the write handle's `lock` until it takes the lock, nobody else comes to
hold it, for reading or by `try_lock`, but threads that wait in the loop of that `lock` as well. -/
theorem writer_goes_first (hcard : Fintype.card ι < 2 ^ 16)
    (hc : Reachable program (fun _ _ _ => True) (start ι) c) (hw : Awaits w B c)
    (hrun : Reachable program (fun _ _ d => Awaits w B d) c d) (k : Kind) :
    Admits (fun l => l.held = some k) (fun u => k = .write ∧ B u) c d := by
  refine (hrun.admits (I := fun d => Inv d ∧ Awaits w B d) ⟨inv_of_reachable hcard hc, hw⟩
    (fun l j hl hheld => (held_resume k l j hl).1 hheld) ?_).2
  rintro d t a s l sig d' ⟨hinv, hawaits⟩ hstep hdel hawaits'
  have hm := Moves.of_step hstep
  refine ⟨⟨hinv.step hcard hm hdel, hawaits'⟩, fun hheld => ?_⟩
  refine (hm.held_of_prepared (hinv.fit t) (hawaits.prepared_ne hinv) hheld).imp_right ?_
  rintro ⟨hk, hslow⟩
  exact ⟨hk, hawaits.among t hslow⟩

/-! ## A schedule -/

instance (w : ι) (B : ι → Prop) [DecidablePred B] (c : Config ι Shared Pc) :
    Decidable (Awaits w B c) :=
  decidable_of_iff ((c.pc w).slow = some .write ∧ ∀ u, (c.pc u).slow = some .write → B u)
    ⟨fun h => ⟨h.1, h.2⟩, fun h => ⟨h.announced, h.among⟩⟩

/-- Thread `owner` reads when thread `writer` comes for the write lock and announces itself. -/
def writerAnnounced : List (Party × Act × Option Party) :=
  [(.owner, .lock .read, none), go .owner false, go .owner false,
    (.writer, .lock .write, none), go .writer false, go .writer false, go .writer false]

/-- Thread `late` comes to read, and thread `owner` stops reading. -/
def readersPass : List (Party × Act × Option Party) :=
  [(.late, .lock .read, none), go .late false, go .late false, go .late false, go .late false,
    (.owner, .unlock, none), go .owner false, go .owner false, go .late false]

theorem writer_goes_first_reader :
    ∃ c d : Config Party Shared Pc,
      runSchedule program (fun _ _ _ => True) writerAnnounced (start Party) = some c ∧
      runSchedule program (fun _ _ d => Awaits .writer (· = .writer) d) readersPass c = some d ∧
      d.shared.state = ⟨1, 1, 0, 0⟩ ∧ d.pc .late = .loadState .read false ∧
      ∀ k, Admits (fun l => l.held = some k) (fun u => k = .write ∧ u = .writer) c d := by
  have hrun : (runSchedule program (fun _ _ _ => True) writerAnnounced (start Party)).bind
      (fun c =>
        (runSchedule program (fun _ _ d => Awaits .writer (· = .writer) d) readersPass c).map
          fun d => (decide (Awaits .writer (· = .writer) c), d.shared.state, d.pc .late)) =
        some (true, ⟨1, 1, 0, 0⟩, .loadState .read false) := by
    decide +kernel
  rcases Option.bind_eq_some_iff.1 hrun with ⟨c, hc, hmap⟩
  rcases Option.map_eq_some_iff.1 hmap with ⟨d, hd, htriple⟩
  rcases Prod.mk.inj htriple with ⟨hawaits, hpair⟩
  rcases Prod.mk.inj hpair with ⟨hstate, hpc⟩
  exact ⟨c, d, hc, hd, hstate, hpc, writer_goes_first (by decide)
    (Reachable.start.runSchedule hc) (of_decide_eq_true hawaits) (Reachable.start.runSchedule hd)⟩

end RwLock
end Lock
end Chenc
