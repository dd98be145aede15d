import Mathlib.Tactic
import Chenc.Lib.Refinement

/-!
# FifoQueue — a queue whose calls take effect at one moment

What a queue for many threads is for: each call takes effect at once, at some moment between its
call and its return.

* `State` : the values in their order, each with the thread whose push has not returned yet;
* `Step` : calls, returns, and the moments between them;
* `system` : what is seen from outside are the calls and the returns;
* `balance` : what has been answered, and what has been done and not answered yet, is what is there.

A pop may answer that there is nothing while the push of the first value has not returned.
-/

namespace FifoQueue

open Refinement (System)

variable {ι α : Type}

inductive Call (α : Type)
  | push (v : α)
  | pop
  deriving DecidableEq

inductive Answer (α : Type)
  | pushed
  | popped (res : Option α)
  deriving DecidableEq

/-- Where a thread is with its call. -/
inductive Phase (α : Type)
  | idle
  | pending (op : Call α)
  | done (a : Answer α)

structure Entry (ι α : Type) where
  value : α
  /-- The thread that pushed the value and has not returned. -/
  pusher : Option ι

structure State (ι α : Type) where
  entries : List (Entry ι α)
  phase : ι → Phase α

inductive Label (ι α : Type)
  | call (t : ι) (op : Call α)
  | ret (t : ι) (a : Answer α)
  deriving DecidableEq

variable [DecidableEq ι]

/-- The push of the entry has returned, if it was that of `t`. -/
def Entry.settle (t : ι) (e : Entry ι α) : Entry ι α :=
  if e.pusher = some t then { e with pusher := none } else e

@[simp] theorem Entry.settle_value (t : ι) (e : Entry ι α) : (e.settle t).value = e.value := by
  unfold settle
  split_ifs <;> rfl

theorem Entry.settle_of_ne {t : ι} {e : Entry ι α} (h : e.pusher ≠ some t) : e.settle t = e :=
  if_neg h

/-- Thread `t` is now at `x`. -/
def State.set (a : State ι α) (t : ι) (x : Phase α) (entries : List (Entry ι α)) : State ι α :=
  ⟨entries, Function.update a.phase t x⟩

inductive Step (a : State ι α) : Option (Label ι α) → State ι α → Prop
  | call (t : ι) (op : Call α) : a.phase t = .idle →
      Step a (some (.call t op)) (a.set t (.pending op) a.entries)
  | push (t : ι) (v : α) : a.phase t = .pending (.push v) →
      Step a none (a.set t (.done .pushed) (a.entries ++ [⟨v, some t⟩]))
  | pop (t : ι) {e : Entry ι α} {rest : List (Entry ι α)} :
      a.phase t = .pending .pop → a.entries = e :: rest →
      Step a none (a.set t (.done (.popped (some e.value))) rest)
  | empty (t : ι) : a.phase t = .pending .pop → (∀ e ∈ a.entries.head?, e.pusher ≠ none) →
      Step a none (a.set t (.done (.popped none)) a.entries)
  | ret (t : ι) {x : Answer α} : a.phase t = .done x →
      Step a (some (.ret t x)) (a.set t .idle (a.entries.map (Entry.settle t)))

def system (ι α : Type) [DecidableEq ι] : System (State ι α) (Label ι α) where
  init a := a = ⟨[], fun _ => .idle⟩
  step := Step

/-! ## The balance -/

/-- What a thread has put in or taken out, and not answered yet. -/
def Phase.unanswered : Phase α → ℤ
  | .done .pushed => 1
  | .done (.popped (some _)) => -1
  | _ => 0

/-- What an answer says has been put in or taken out. -/
def Answer.amount : Answer α → ℤ
  | .pushed => 1
  | .popped (some _) => -1
  | .popped none => 0

def Label.amount : Label ι α → ℤ
  | .call _ _ => 0
  | .ret _ x => x.amount

@[simp] theorem unanswered_idle : (Phase.idle : Phase α).unanswered = 0 := rfl

@[simp] theorem unanswered_pending (op : Call α) : (Phase.pending op).unanswered = 0 := rfl

@[simp] theorem unanswered_done (x : Answer α) : (Phase.done x).unanswered = x.amount := by
  rcases x with _ | _ | _ <;> rfl

variable [Fintype ι] {a b : State ι α}

/-- Thread `t` moves from one phase to another one. -/
theorem sum_unanswered_set (a : State ι α) (t : ι) (x : Phase α) (entries : List (Entry ι α)) :
    ∑ u, ((a.set t x entries).phase u).unanswered =
      ∑ u, (a.phase u).unanswered - (a.phase t).unanswered + x.unanswered := by
  have hsplit := Finset.sum_erase_add Finset.univ (fun u => (a.phase u).unanswered)
    (Finset.mem_univ t)
  have hsplit' := Finset.sum_erase_add Finset.univ
    (fun u => ((a.set t x entries).phase u).unanswered) (Finset.mem_univ t)
  have hothers : ∑ u ∈ Finset.univ.erase t, ((a.set t x entries).phase u).unanswered =
      ∑ u ∈ Finset.univ.erase t, (a.phase u).unanswered := by
    refine Finset.sum_congr rfl fun u hu => ?_
    show (Function.update a.phase t x u).unanswered = _
    rw [Function.update_of_ne (Finset.ne_of_mem_erase hu)]
  have hself : (a.set t x entries).phase t = x := Function.update_self ..
  rw [hself] at hsplit'
  omega

theorem Step.balance {l : Option (Label ι α)} (h : Step a l b) :
    (l.toList.map Label.amount).sum + ∑ t, (b.phase t).unanswered - b.entries.length =
      ∑ t, (a.phase t).unanswered - a.entries.length := by
  cases h with
  | call t op hphase =>
      rw [sum_unanswered_set, hphase]
      simp [State.set, Label.amount]
  | push t v hphase =>
      rw [sum_unanswered_set, hphase]
      simp [State.set, Answer.amount]
  | pop t hphase hentries =>
      rw [sum_unanswered_set, hphase]
      simp only [State.set, Answer.amount, hentries, Option.toList_none, List.map_nil, List.sum_nil,
        List.length_cons, unanswered_pending, unanswered_done]
      push_cast
      ring
  | empty t hphase _ =>
      rw [sum_unanswered_set, hphase]
      simp [State.set, Answer.amount]
  | ret t hphase =>
      rw [sum_unanswered_set, hphase]
      simp [State.set, Label.amount]

/-- What has been put in and not taken out is in the queue. -/
theorem balance {ls : List (Label ι α)} (h : (system ι α).Runs ⟨[], fun _ => .idle⟩ ls a) :
    (ls.map Label.amount).sum + ∑ t, (a.phase t).unanswered = a.entries.length := by
  induction h with
  | start => simp [Phase.unanswered]
  | next _ hstep ih =>
      have hbalance := Step.balance hstep
      rw [List.map_append, List.sum_append]
      omega

end FifoQueue
