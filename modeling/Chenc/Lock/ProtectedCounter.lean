import Chenc.Lib.CriticalSection
import Chenc.Lock.MutexExclusion
import Chenc.Lock.RwLockAccounting
import Chenc.Lock.SharedMutexExclusion
import Chenc.Lock.SpinLockThreads

/-!
# ProtectedCounter — the check at the end of the lock benchmark

Model of the sections of `benchmark_thread` (`test/1.cpp`): a writer increments `shared_counter`
between `lock` and `unlock`, and counts that in its `write_ops`; a reader loads the counter between
`lock_shared` and `unlock_shared`.  The increment is a load and a store.

* `Checked` : the counter is the number of increments, and the final comparison says PASS;
* `checked_of_guards` : what it takes from the lock;
* `mutex_guards`, `sharedMutex_guards`, `spinLock_guards`, `rwLock_guards` : each lock of the
  repository gives it.
-/

namespace Chenc
namespace Lock
namespace ProtectedCounter

open CriticalSection (Guard Guards Client Stage Run Turn)
open Interleaving (Config)
open Parking (Program Reachable runSchedule)

variable {ι σ Λ A K : Type} [DecidableEq ι] [Fintype ι] [DecidableEq K] {P : Program σ Λ A K}
  {ok : Config ι σ Λ → ι → Config ι σ Λ → Prop} {c₀ : Config ι σ Λ} {G : Guard Λ}

abbrev U64 : Type := BitVec 64

/-- `shared_counter++`, what is stored. -/
def increment (v : U64) : U64 :=
  v + 1

/-- The runs of the benchmark with a lock. -/
abbrev BenchRun (P : Program σ Λ A K) (ok : Config ι σ Λ → ι → Config ι σ Λ → Prop) (G : Guard Λ)
    (c₀ : Config ι σ Λ) (x : Client ι σ Λ U64) : Prop :=
  Run P ok G increment (.start c₀ 0) x

/-- What the benchmark relies on. -/
structure Checked (x : Client ι σ Λ U64) : Prop where
  /-- No increment is lost. -/
  counter : x.data = BitVec.ofNat 64 x.total
  /-- What a reader has loaded stays there until it leaves. -/
  stable {t : ι} {v : U64} : x.stage t = .reading v → v = x.data
  /-- `shared_counter == total_writes`, once every thread has counted what it did. -/
  passes : (∀ t, x.stage t ≠ .stored) → x.data = BitVec.ofNat 64 (∑ t, x.rounds t)

theorem iterate_increment (n : Nat) : increment^[n] 0 = BitVec.ofNat 64 n := by
  induction n with
  | zero => rfl
  | succ n ih =>
      rw [Function.iterate_succ_apply', ih, increment, BitVec.ofNat_add]
      rfl

theorem checked_of_guards (hguards : Guards G P ok c₀) {x : Client ι σ Λ U64}
    (h : BenchRun P ok G c₀ x) : Checked x := by
  rcases h.intact hguards with ⟨hintact, hdata⟩
  rw [iterate_increment] at hdata
  refine ⟨hdata, fun ht => (hintact.reading ht).1, fun hcounted => ?_⟩
  have htotal : x.total = ∑ t, x.rounds t := by
    refine Finset.sum_congr rfl fun t _ => ?_
    have ht := hcounted t
    rw [Client.stores]
    cases hstage : x.stage t with
    | stored => exact absurd hstage ht
    | outside | loaded v | reading v => rfl
  rw [hdata, htotal]

/-! ## The locks -/

def mutexGuard : Guard Mutex.Pc where
  reads _ := False
  writes l := l = .holding

omit [Fintype ι] in
theorem mutex_guards (fast : Nat) :
    Guards mutexGuard (Mutex.program fast) (fun _ _ _ => True) (Mutex.start ι) where
  awake {l} h := by
    rcases h with rfl | h
    · rfl
    · exact absurd h id
  alone {c t u} hc ht hu := by
    have hheld : ∀ v, c.pc v = .holding → (c.pc v).held := fun v hv => by rw [hv]; exact trivial
    rcases hu with hu | hu
    · exact (Mutex.held_counts hc).unique (Bool.toNat_le _) (hheld u hu) (hheld t ht)
    · exact absurd hu id

def sharedMutexGuard : Guard SharedMutex.Pc where
  reads l := l = .holding .shared
  writes l := l = .holding .exclusive

omit [Fintype ι] in
theorem sharedMutex_guards :
    Guards sharedMutexGuard SharedMutex.program (fun _ _ c' => SharedMutex.FewReaders c')
      (SharedMutex.start ι) where
  awake {l} h := by rcases h with rfl | rfl <;> rfl
  alone {c t u} hc ht hu := by
    have hinv : SharedMutex.Inv c := by
      refine hc.rule (I := SharedMutex.Inv) .start ?_
      intro c t a s l sig c' hc hstep hdel hfew
      exact hc.step (SharedMutex.Moves.of_step hstep) hdel hfew
    refine hinv.holders.alone (t := t) ?_ ?_
    · rw [show c.pc t = _ from ht]
      rfl
    · rcases hu with hu | hu <;> rw [show c.pc u = _ from hu] <;> exact Option.some_ne_none _

def spinLockGuard : Guard SpinLock.Pc where
  reads _ := False
  writes l := l = .holding

omit [Fintype ι] in
theorem spinLock_guards :
    Guards spinLockGuard SpinLock.program (fun _ _ _ => True) (SpinLock.start ι) where
  awake {l} h := by
    rcases h with rfl | h
    · rfl
    · exact absurd h id
  alone {c t u} hc ht hu := by
    have hheld : ∀ v, c.pc v = .holding → (c.pc v).held := fun v hv => by rw [hv]; exact trivial
    have hinv := SpinLock.inv_of_reachable hc
    rcases hu with hu | hu
    · exact hinv.held.unique hinv.single (hheld u hu) (hheld t ht)
    · exact absurd hu id

def rwLockGuard : Guard RwLock.Pc where
  reads l := l = .holding .read
  writes l := l = .holding .write

theorem rwLock_guards (hcard : Fintype.card ι < 2 ^ 16) :
    Guards rwLockGuard RwLock.program (fun _ _ _ => True) (RwLock.start ι) where
  awake {l} h := by rcases h with rfl | rfl <;> rfl
  alone {c t u} hc ht hu := by
    refine (RwLock.inv_of_reachable hcard hc).accounts.alone (t := t) ?_ ?_
    · rw [show c.pc t = _ from ht]
      rfl
    · rcases hu with hu | hu <;> rw [show c.pc u = _ from hu] <;> exact Option.some_ne_none _

/-! ## The benchmark -/

section Benchmark

variable {x : Client ι SharedMutex.Shared SharedMutex.Pc U64}

/-- **The benchmark with `shared_mutex`.**  For any number of threads that increment the counter
under `lock` and read it under `lock_shared`, in any order of the operations of the lock and of the
loads and stores between them, with fewer than `2^30` readers at once: no increment is lost, what a
reader loads stays there until it leaves, and the final comparison says PASS. -/
theorem sharedMutex_checked
    (h : BenchRun SharedMutex.program (fun _ _ c' => SharedMutex.FewReaders c') sharedMutexGuard
      (SharedMutex.start ι) x) : Checked x :=
  checked_of_guards sharedMutex_guards h

/-- The same with `rw_lock`, for fewer than `2^16` threads. -/
theorem rwLock_checked {x : Client ι RwLock.Shared RwLock.Pc U64} (hcard : Fintype.card ι < 2 ^ 16)
    (h : BenchRun RwLock.program (fun _ _ _ => True) rwLockGuard (RwLock.start ι) x) : Checked x :=
  checked_of_guards (rwLock_guards hcard) h

/-- The same with `mutex`, when readers take it as writers do. -/
theorem mutex_checked {fast : Nat} {x : Client ι Mutex.Shared Mutex.Pc U64}
    (h : BenchRun (Mutex.program fast) (fun _ _ _ => True) mutexGuard (Mutex.start ι) x) :
    Checked x :=
  checked_of_guards (mutex_guards fast) h

/-- The same with `spin_lock`. -/
theorem spinLock_checked {x : Client ι SpinLock.Shared SpinLock.Pc U64}
    (h : BenchRun SpinLock.program (fun _ _ _ => True) spinLockGuard (SpinLock.start ι) x) :
    Checked x :=
  checked_of_guards spinLock_guards h

end Benchmark

/-! ## A run -/

open SharedMutex (go writerAfterReader) in
/-- A reader loads zero and leaves; a writer that came meanwhile increments, and counts that. -/
theorem sharedMutex_checked_handover :
    ∃ x : Client Bool SharedMutex.Shared SharedMutex.Pc U64,
      BenchRun SharedMutex.program (fun _ _ c' => SharedMutex.FewReaders c') sharedMutexGuard
        (SharedMutex.start Bool) x ∧
      x.data = 1 ∧ x.rounds false = 1 ∧ Checked x := by
  have hsched : (runSchedule SharedMutex.program (fun _ _ _ => True) (writerAfterReader.take 3)
      (SharedMutex.start Bool)).bind (fun c₁ =>
        (runSchedule SharedMutex.program (fun _ _ _ => True)
          (writerAfterReader.drop 3 ++ [go false false]) c₁).bind fun c₂ =>
            (runSchedule SharedMutex.program (fun _ _ _ => True) [(false, .unlock, none)] c₂).map
              fun c₃ => (c₁.pc true, c₂.pc false, c₃.pc false)) =
      some (SharedMutex.Pc.holding .shared, SharedMutex.Pc.holding .exclusive,
        SharedMutex.Pc.branch .exclusive) := by
    decide +kernel
  rcases Option.bind_eq_some_iff.1 hsched with ⟨c₁, hc₁, hrest⟩
  rcases Option.bind_eq_some_iff.1 hrest with ⟨c₂, hc₂, hmap⟩
  rcases Option.map_eq_some_iff.1 hmap with ⟨c₃, hc₃, htriple⟩
  rcases Prod.mk.inj htriple with ⟨hreader, hpair⟩
  rcases Prod.mk.inj hpair with ⟨hwriter, hleaving⟩
  have hstart : Run SharedMutex.program (fun _ _ _ => True) sharedMutexGuard increment
      (.start (SharedMutex.start Bool) 0) (.start (SharedMutex.start Bool) 0) := .start
  have hentered := hstart.schedule (fun _ => id) hc₁
  have hread := hentered.next true (.read hreader rfl)
  have hleft := hread.next true (.leave (Client.setStage_self _ _ _))
  have hwaited := hleft.schedule (by intro t; cases t <;> exact id) hc₂
  have hloaded := hwaited.next false (.load hwriter rfl)
  have hstored := hloaded.next false (.store (Client.setStage_self _ _ _))
  have hunlocked := hstored.schedule (by intro t; cases t <;> exact id) hc₃
  have hcounted := hunlocked.next false (.count rfl (by
    show ¬ c₃.pc false = .holding .exclusive
    rw [hleaving]
    decide))
  have hrun := hcounted.mono fun _ _ c' _ => SharedMutex.fewReaders_of_card (by decide) c'
  exact ⟨_, hrun, rfl, rfl, sharedMutex_checked hrun⟩

end ProtectedCounter
end Lock
end Chenc
