import Mathlib.Tactic
import Mathlib.Data.List.Basic

/-!
# Region — what a routine has written through a pointer

A `Region α` records, for every offset from the pointer a routine was given, the last value the
routine stored there; `none` marks an offset it left alone.  Offsets are unbounded, so a store
past the end of the caller's buffer is visible rather than impossible.

* `storeAll m i us` stores the list `us` at `i, i + 1, …`;
* `filled w` is the region whose first `w.length` offsets hold `w` and whose rest is untouched;
* a stream of stores that always continues where the last one ended keeps a region filled
  (`storeAll_filled`).
-/

/-- The last value stored at every offset, `none` where nothing was stored. -/
def Region (α : Type) : Type :=
  Nat → Option α

namespace Region

variable {α : Type}

def untouched : Region α :=
  fun _ => none

def store (m : Region α) (i : Nat) (u : α) : Region α :=
  fun j => if j = i then some u else m j

def storeAll (m : Region α) (i : Nat) : List α → Region α
  | [] => m
  | u :: us => storeAll (m.store i u) (i + 1) us

/-- `w` at the front, nothing behind it. -/
def filled (w : List α) : Region α :=
  fun i => w[i]?

@[simp] theorem filled_nil : filled ([] : List α) = untouched := rfl

theorem filled_injective : Function.Injective (filled : List α → Region α) :=
  fun _ _ h => List.ext_getElem? (congrFun h)

@[simp] theorem storeAll_nil (m : Region α) (i : Nat) : m.storeAll i [] = m := rfl

theorem storeAll_append (m : Region α) (i : Nat) (us vs : List α) :
    m.storeAll i (us ++ vs) = (m.storeAll i us).storeAll (i + us.length) vs := by
  induction us generalizing m i with
  | nil => rfl
  | cons u us ih =>
      simp only [List.cons_append, storeAll, ih, List.length_cons]
      congr 1
      omega

theorem store_filled (w : List α) (u : α) :
    (filled w).store w.length u = filled (w ++ [u]) := by
  funext j
  simp only [store, filled]
  split_ifs with hj
  · simp [hj]
  · rcases Nat.lt_or_gt_of_ne hj with hlt | hgt
    · rw [List.getElem?_append_left hlt]
    · rw [List.getElem?_eq_none hgt.le, List.getElem?_eq_none (by simp; omega)]

/-- Storing at the end of a filled region fills it further. -/
theorem storeAll_filled (w us : List α) :
    (filled w).storeAll w.length us = filled (w ++ us) := by
  induction us generalizing w with
  | nil => simp
  | cons u us ih =>
      have hlen : w.length + 1 = (w ++ [u]).length := by simp
      rw [storeAll, store_filled, hlen, ih]
      simp

/-- Stores at `i, …, i + us.length - 1` are seen there and nowhere else. -/
theorem storeAll_apply (m : Region α) (i : Nat) (us : List α) (j : Nat) :
    m.storeAll i us j = if i ≤ j ∧ j < i + us.length then us[j - i]? else m j := by
  induction us generalizing m i with
  | nil =>
      simp only [storeAll_nil, List.length_nil, Nat.add_zero]
      rw [if_neg (by omega)]
  | cons u us ih =>
      rw [storeAll, ih, List.length_cons]
      -- Offset `i` gets the head of the list, the offsets behind it the tail.
      rcases Nat.lt_trichotomy j i with hlt | heq | hgt
      · rw [if_neg (by omega), if_neg (by omega), store, if_neg (by omega)]
      · subst heq
        rw [if_neg (by omega), if_pos (by omega), store, if_pos rfl]
        simp
      · have hsub : j - i = (j - (i + 1)) + 1 := by omega
        by_cases hin : j < i + 1 + us.length
        · rw [if_pos ⟨hgt, hin⟩, if_pos (by omega), hsub, List.getElem?_cons_succ]
        · rw [if_neg (by omega), if_neg (by omega), store, if_neg (by omega)]

/-- What is stored in the first `n` offsets. -/
def front (m : Region α) (n : Nat) : List α :=
  (List.range n).filterMap fun i => m i

theorem front_filled (w : List α) (n : Nat) : (filled w).front n = w.take n := by
  induction n with
  | zero => rfl
  | succ n ih =>
      have hstep : (filled w).front (n + 1) = (filled w).front n ++ w[n]?.toList := by
        have hlast : [n].filterMap (fun i => filled w i) = w[n]?.toList := by
          cases h : w[n]? <;> simp [filled, h]
        rw [front, List.range_succ, List.filterMap_append, hlast, front]
      rw [hstep, ih, List.take_add_one]

/-- No offset from `n` on has been stored to. -/
def Within (m : Region α) (n : Nat) : Prop :=
  ∀ i, n ≤ i → m i = none

theorem within_untouched (n : Nat) : (untouched : Region α).Within n :=
  fun _ _ => rfl

theorem Within.mono {m : Region α} {n k : Nat} (h : m.Within n) (hnk : n ≤ k) : m.Within k :=
  fun i hi => h i (hnk.trans hi)

theorem Within.storeAll {m : Region α} {n i : Nat} {us : List α} (h : m.Within n)
    (hi : i + us.length ≤ n) : (m.storeAll i us).Within n := by
  intro j hj
  rw [storeAll_apply, if_neg (by omega)]
  exact h j hj

end Region
