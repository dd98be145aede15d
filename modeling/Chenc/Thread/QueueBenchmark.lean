import Chenc.Thread.QueueRefinement
import Chenc.Thread.QueueResources
import Chenc.Thread.QueueSolo

/-!
# QueueBenchmark — the check at the end of the queue benchmark

Model of the counts of `benchmark_thread` and of the comparison in `main` (`test/2.cpp`).  Which
call a thread makes next is left open, as the random numbers leave it; the times are not modelled.

* `Metrics`, `metrics` : what a thread counts, from what its calls return;
* `passed` : the comparison;
* `metrics_balance` : at any moment, what was counted and what is under way is what is stored;
* `benchmark_passes` : once all threads are joined, the comparison says PASS.
-/

namespace Chenc
namespace Thread
namespace AtomicQueue

open FifoQueue (Answer Label)
open Interleaving (Config)

variable {ι α : Type} [DecidableEq ι]

/-- `metrics`, without the times. -/
structure Metrics where
  pushOps : Nat
  popOps : Nat
  popEmpty : Nat

/-- What is counted when a call returns. -/
def Metrics.record (m : Metrics) : Answer α → Metrics
  | .pushed => { m with pushOps := m.pushOps + 1 }
  | .popped (some _) => { m with popOps := m.popOps + 1 }
  | .popped none => { m with popEmpty := m.popEmpty + 1 }

/-- What thread `t` counts. -/
def Metrics.note (t : ι) (m : Metrics) : Label ι α → Metrics
  | .call _ _ => m
  | .ret u x => if u = t then m.record x else m

/-- `thread_metrics[t]`. -/
def metrics (ls : List (Label ι α)) (t : ι) : Metrics :=
  ls.foldl (Metrics.note t) ⟨0, 0, 0⟩

/-- `total_push == total_pop + remaining`. -/
def passed [Fintype ι] (ls : List (Label ι α)) (s : Shared α) : Prop :=
  ∑ t, (metrics ls t).pushOps = ∑ t, (metrics ls t).popOps + s.size

/-! ## Sums -/

/-- The share of thread `t` in the amount of a label. -/
def Metrics.share (t : ι) : Label ι α → ℤ
  | .call _ _ => 0
  | .ret u x => if u = t then x.amount else 0

theorem Metrics.note_share (t : ι) (m : Metrics) (x : Label ι α) :
    ((m.note t x).pushOps : ℤ) - (m.note t x).popOps =
      m.pushOps - m.popOps + Metrics.share t x := by
  cases x with
  | call u op => simp [note, share]
  | ret u x =>
      by_cases hu : u = t
      · rw [note, if_pos hu, share, if_pos hu]
        rcases x with _ | _ | _
        · simp only [record, Answer.amount]
          push_cast
          ring
        · simp [record, Answer.amount]
        · simp only [record, Answer.amount]
          push_cast
          ring
      · rw [note, if_neg hu, share, if_neg hu, add_zero]

variable [Fintype ι]

theorem sum_share (x : Label ι α) : ∑ t, Metrics.share t x = x.amount := by
  cases x with
  | call u op => exact Finset.sum_const_zero
  | ret u x => simp [Metrics.share, Label.amount]

/-- The counts of all threads, and what the calls have answered. -/
theorem sum_metrics (ls : List (Label ι α)) :
    (∑ t, (metrics ls t).pushOps : ℤ) - ∑ t, (metrics ls t).popOps =
      (ls.map Label.amount).sum := by
  rw [Nat.cast_sum, ← Finset.sum_sub_distrib]
  induction ls using List.reverseRecOn with
  | nil => simp [metrics]
  | append_singleton ls x ih =>
      have hlast : ∀ t, metrics (ls ++ [x]) t = (metrics ls t).note t x := fun t => by
        rw [metrics, List.foldl_append]
        rfl
      simp only [hlast, Metrics.note_share, Finset.sum_add_distrib, ih, sum_share, List.map_append,
        List.map_cons, List.map_nil, List.sum_append, List.sum_singleton]

/-! ## Runs -/

variable {initial : Nat} {ls : List (Label ι α)} {c : Config ι (Shared α) (Pc α)}

theorem size_eq (s : Shared α) : s.size = s.tail - s.head := by
  unfold Shared.size
  split_ifs <;> omega

/-- At any moment: what the threads have counted, with what they have done and not counted yet. -/
theorem metrics_balance (hi : 2 ≤ initial)
    (h : (system ι initial).Runs (start ι initial) ls c) :
    (∑ t, (metrics ls t).pushOps : ℤ) + ∑ t, ((c.pc t).phase c.shared).unanswered =
      ∑ t, (metrics ls t).popOps + c.shared.size := by
  have hsim := simulates (ι := ι) (α := α) hi
  rcases hsim.start rfl with ⟨a, rfl, hstart⟩
  rcases hsim.runs hstart h with ⟨b, hb, hrefines⟩
  rcases hrefines.inv with ⟨held, hinv⟩
  have hbalance := FifoQueue.balance hb
  rw [← sum_metrics, hrefines.shows.length hinv] at hbalance
  simp only [hrefines.shows.phase] at hbalance
  rw [size_eq]
  omega

/-- **The benchmark.**  For a queue with at least two slots, any number of threads and any calls,
in any order of their operations, while each migration is into an array that holds the values
stored: when all threads have returned, the pushes they have counted are the values they have got
from `pop` and those that `size` reports. -/
theorem benchmark_passes (hi : 2 ≤ initial) (h : (system ι initial).Runs (start ι initial) ls c)
    (hjoined : ∀ t, c.pc t = .idle) : passed ls c.shared := by
  have hbalance := metrics_balance hi h
  have hnone : ∑ t, ((c.pc t).phase c.shared).unanswered = 0 :=
    Finset.sum_eq_zero fun t _ => by rw [hjoined t]; rfl
  rw [hnone, add_zero] at hbalance
  exact_mod_cast hbalance

/-! ## A run -/

/-- Thread `true` pushes two values; thread `false` takes one of them. -/
def pushedTwice : List (Bool × Act Nat) :=
  call true (.push 10) 11 ++ call true (.push 11) 11 ++ call false .pop 12

theorem benchmark_passes_pushedTwice :
    ∃ (ls : List (Label Bool Nat)) (c : Config Bool (Shared Nat) (Pc Nat)),
      shownBy pushedTwice (start Bool 2) = some (ls, c) ∧ (metrics ls true).pushOps = 2 ∧
      (metrics ls false).popOps = 1 ∧ c.shared.size = 1 ∧ passed ls c.shared := by
  have hrun : (shownBy pushedTwice (start Bool 2)).map (fun r =>
      ((metrics r.1 true).pushOps, (metrics r.1 false).popOps, r.2.shared.size,
        (r.2.pc true).isIdle, (r.2.pc false).isIdle)) = some (2, 1, 1, true, true) := by
    decide +kernel
  rcases Option.map_eq_some_iff.1 hrun with ⟨⟨ls, c⟩, hshown, hquint⟩
  simp only [Prod.mk.injEq] at hquint
  rcases hquint with ⟨hpush, hpop, hsize, htrue, hfalse⟩
  refine ⟨ls, c, hshown, hpush, hpop, hsize, ?_⟩
  refine benchmark_passes (le_refl 2) (runs_of_shownBy hshown) fun t => ?_
  cases t
  · exact Pc.eq_idle hfalse
  · exact Pc.eq_idle htrue

end AtomicQueue
end Thread
end Chenc
