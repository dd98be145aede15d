import Chenc.Lib.WatchedRun
import Chenc.Thread.QueueMigration

/-!
# QueueSolo — one thread alone with the queue

* `Alone` : the queue, the next operation of the one thread that uses it, and how often
  `compare_exchange_weak` will still fail for it without a reason;
* `Returns` : a call returns after finitely many operations, with the state it leaves;
* `Alone.reachable` : what the thread does is a run of the queue among other threads;
* `Goes` : the way of the thread from one operation to another, with a condition on the states it
  leaves and the positions it moves;
* `finishes_push`, `finishes_pop`, `finishes_empty` : the three ways to return at the first attempt;
* `goes_full` : the way of a push that finds the ring full, to `reset_capa`;
* `not_returns_of_ahead` : a pop whose slot is numbered beyond its position never returns.
-/

namespace Chenc
namespace Thread
namespace AtomicQueue

open Interleaving (Config)
open StateTransition (Reaches)
open WatchedRun (Watched)

variable {α : Type}

/-- A thread alone with the queue. -/
structure Alone (α : Type) where
  /-- How often `compare_exchange_weak` will still fail without a reason. -/
  fails : Nat
  shared : Shared α
  pc : Pc α

/-- The next operation; the failures without a reason come first. -/
def Alone.next (a : Alone α) : Option (Alone α) :=
  match a.fails, a.pc with
  | n + 1, .reserve op w =>
      (step a.shared (.reserve op w) .spurious).map fun r => ⟨n, r.1, r.2⟩
  | n, l => (step a.shared l .go).map fun r => ⟨n, r.1, r.2⟩

/-- A call of `op` leaves the active region with `e`, returns, and leaves the queue as `s'`. -/
def Returns (fails : Nat) (s : Shared α) (op : Op α) (s' : Shared α) (e : Exit α) : Prop :=
  ∃ n s₁, Reaches Alone.next ⟨fails, s, .loadStat op⟩ ⟨n, s₁, .leave e⟩ ∧ e.next = .idle ∧
    advance s₁ (.leave e) = some (s', .idle)

/-- An operation of the thread alone is one of its steps among other threads. -/
theorem Alone.exists_step {a b : Alone α} (h : Alone.next a = some b) :
    ∃ act, step a.shared a.pc act = some (b.shared, b.pc) := by
  rcases a with ⟨n, s, l⟩
  simp only [Alone.next] at h
  split at h <;> rcases Option.map_eq_some_iff.1 h with ⟨r, hr, rfl⟩
  · exact ⟨.spurious, hr⟩
  · exact ⟨.go, hr⟩

/-- What a thread does alone is a run of the queue, in which the other threads stand still. -/
theorem Alone.reachable {ι : Type} [DecidableEq ι] {c : Config ι (Shared α) (Pc α)} {t : ι}
    {n : Nat} {a : Alone α} (h : Reaches Alone.next ⟨n, c.shared, c.pc t⟩ a) :
    Interleaving.Reachable step (fun _ _ => True) c (c.set t a.shared a.pc) := by
  induction h with
  | refl =>
      have hself : c.set t c.shared (c.pc t) = c := by
        rw [Config.set, Function.update_eq_self]
      rw [hself]
      exact .start
  | @tail a b _ hstep ih =>
      rcases Alone.exists_step hstep with ⟨act, hact⟩
      have hset : (c.set t a.shared a.pc).set t b.shared b.pc = c.set t b.shared b.pc := by
        simp only [Config.set, Function.update_idem]
      rw [← hset]
      refine .next t act ih trivial ?_
      rwa [Config.set_shared, Config.set_pc_self]

/-- `size`. -/
def Shared.size (s : Shared α) : Nat :=
  if s.tail > s.head then s.tail - s.head else 0

/-! ## Paths -/

/-- The next operation is the first of `reset_capa`. -/
def Pc.callsReset : Pc α → Prop
  | .closeGate _ _ => True
  | _ => False

/-- The position whose value `reset_capa` constructs next in the new array. -/
def Pc.moves : Pc α → Option Nat
  | .transfer _ _ i t => if i < t then some i else none
  | _ => none

/-- An operation other than the reservation of a position, the first of `reset_capa` and its
loop. -/
def Pc.plain : Pc α → Prop
  | .reserve _ _ | .closeGate _ _ | .transfer _ _ _ _ => False
  | _ => True

/-- The capacity is `C`, and `reset_capa` is not called. -/
def Alone.Calm (C : Nat) (a : Alone α) : Prop :=
  a.shared.capacity = C ∧ ¬ a.pc.callsReset

/-- The thread goes from `a` to `b`, every state it leaves on the way meets `P`, and `moved` are the
positions whose values are moved. -/
abbrev Goes (P : Alone α → Prop) (a : Alone α) (moved : List Nat) (b : Alone α) : Prop :=
  Watched Alone.next P (fun a => a.pc.moves) a moved b

section Paths

variable {P : Alone α → Prop} {n : Nat} {s s' : Shared α} {l l' : Pc α} {op : Op α} {w : Window}
  {b : Alone α} {moved : List Nat} {v : α}

theorem next_of_advance (hl : ∀ op w, l ≠ .reserve op w) (h : advance s l = some (s', l')) :
    Alone.next ⟨n, s, l⟩ = some ⟨n, s', l'⟩ := by
  cases n with
  | zero => simp [Alone.next, step, h]
  | succ n =>
      cases l with
      | reserve op w => exact absurd rfl (hl op w)
      | _ => simp [Alone.next, step, h]

theorem Pc.plain_spec (h : l.plain) :
    (∀ op w, l ≠ .reserve op w) ∧ ¬ l.callsReset ∧ l.moves = none := by
  cases l <;> first | exact absurd h id | exact ⟨by simp, id, rfl⟩

/-- A plain operation. -/
theorem goes_step (hP : ∀ a, Alone.Calm s.capacity a → P a) (hl : l.plain)
    (h : advance s l = some (s', l')) (hrest : Goes P ⟨n, s', l'⟩ moved b) :
    Goes P ⟨n, s, l⟩ moved b := by
  rcases Pc.plain_spec hl with ⟨hreserve, hcalm, hmoves⟩
  exact .silent (hP _ ⟨rfl, hcalm⟩) (next_of_advance hreserve h) hmoves hrest

/-- The reservation, once the failures without a reason have come. -/
theorem goes_reserve (hP : ∀ a, Alone.Calm s.capacity a → P a)
    (h : advance s (.reserve op w) = some (s', l')) (hrest : Goes P ⟨0, s', l'⟩ moved b) :
    Goes P ⟨0, s, .reserve op w⟩ moved b := by
  refine .silent (hP _ ⟨rfl, id⟩) ?_ rfl hrest
  simp [Alone.next, step, h]

theorem goes_spurious (hP : ∀ a, Alone.Calm s.capacity a → P a)
    (hrest : Goes P ⟨n, s, .leave (.retry op)⟩ moved b) :
    Goes P ⟨n + 1, s, .reserve op w⟩ moved b :=
  .silent (hP _ ⟨rfl, id⟩) rfl rfl hrest

/-- The locals of a call that finds the queue as `s`. -/
def Shared.window (s : Shared α) (op : Op α) : Window :=
  ⟨s.capacity, s.pos op, s.kmap⟩

/-- The queue while the thread is in the active region. -/
def Shared.entered (s : Shared α) : Shared α :=
  { s with active := s.active + 1 }

/-- From the call to the test of the slot. -/
theorem goes_judge (hP : ∀ a, Alone.Calm s.capacity a → P a) (hstat : s.stat = .normal)
    (hrest : Goes P ⟨n, s.entered, judge (s.window op) (s.node (s.window op)).sequence op⟩ moved
      b) :
    Goes P ⟨n, s, .loadStat op⟩ moved b := by
  have hnormal : s.stat ≠ .resizing := by
    rw [hstat]
    exact Status.noConfusion
  have hload : advance s (.loadStat op) = some (s, .enter op) := by
    simp [advance, hnormal]
  have hrecheck : advance s.entered (.recheck op) = some (s.entered, .loadCapa op) := by
    simp [advance, Shared.entered, hnormal]
  have hpos : advance s.entered (.loadPos op s.capacity) =
      some (s.entered, .loadMap op s.capacity (s.pos op)) := by
    cases op <;> rfl
  refine goes_step hP trivial hload ?_
  refine goes_step hP trivial rfl ?_
  refine goes_step hP trivial hrecheck ?_
  refine goes_step hP trivial rfl ?_
  refine goes_step hP trivial hpos ?_
  refine goes_step hP trivial rfl ?_
  exact goes_step hP trivial rfl hrest

/-- An attempt that fails is followed by the next one. -/
theorem goes_retry (hP : ∀ a, Alone.Calm s.capacity a → P a)
    (hrest : Goes P ⟨n, s, .loadStat op⟩ moved b) :
    Goes P ⟨n, s.entered, .leave (.retry op)⟩ moved b :=
  goes_step hP trivial rfl hrest

/-- From the call to the reservation, through all the failures without a reason. -/
theorem goes_ready (hP : ∀ a, Alone.Calm s.capacity a → P a) (hstat : s.stat = .normal)
    (hjudge : judge (s.window op) (s.node (s.window op)).sequence op = .reserve op (s.window op))
    (hrest : Goes P ⟨0, s.entered, .reserve op (s.window op)⟩ moved b) :
    Goes P ⟨n, s, .loadStat op⟩ moved b := by
  -- Each failure without a reason leads back to the call.
  induction n with
  | zero =>
      refine goes_judge hP hstat ?_
      rwa [hjudge]
  | succ n ih =>
      refine goes_judge hP hstat ?_
      rw [hjudge]
      exact goes_spurious hP (goes_retry hP ih)

/-- A push that finds the ring full goes on to grow it. -/
theorem goes_full (hP : ∀ a, Alone.Calm s.capacity a → P a) (hstat : s.stat = .normal)
    (hseq : (s.node (s.window (.push v))).sequence < s.tail)
    (hrest : Goes P ⟨n, s, .closeGate v (s.capacity * 2)⟩ moved b) :
    Goes P ⟨n, s, .loadStat (.push v)⟩ moved b := by
  have hjudge : judge (s.window (.push v)) (s.node (s.window (.push v))).sequence (.push v) =
      .leave (.full v s.capacity) := (if_neg hseq.ne).trans (if_pos hseq)
  refine goes_judge hP hstat ?_
  rw [hjudge]
  exact goes_step hP trivial rfl hrest

end Paths

/-! ## Calls that return -/

section Calls

variable {P : Alone α → Prop} {n : Nat} {s s' s₁ s₂ : Shared α} {l' : Pc α} {op : Op α}
  {e₁ e₂ : Exit α} {v : α}

theorem setSequence_setData (s : Shared α) (w : Window) (data : Option α) (seq : Nat) :
    (s.setData w data).setSequence w seq = s.setNode w.map w.slot ⟨seq, data⟩ := by
  simp [Shared.setSequence, Shared.setData, Shared.setNode, Shared.node]

/-- A push has put its value into the slot of the tail. -/
def Shared.pushed (s : Shared α) (v : α) : Shared α :=
  { s with tail := s.tail + 1, pushes := s.pushes ++ [v] }.setNode s.kmap
    (slotOf s.tail s.capacity) ⟨s.tail + 1, some v⟩

/-- A pop has taken `res` from the slot of the head. -/
def Shared.popped (s : Shared α) (res : Option α) : Shared α :=
  { s with head := s.head + 1, returns := s.returns ++ [(s.head, res)] }.setNode s.kmap
    (slotOf s.head s.capacity) ⟨s.head + s.capacity, none⟩

/-- A call returns, and meets `P` until it leaves the active region. -/
def Finishes (P : Alone α → Prop) (fails : Nat) (s : Shared α) (op : Op α) (s' : Shared α)
    (e : Exit α) : Prop :=
  ∃ n s₁ moved, Goes P ⟨fails, s, .loadStat op⟩ moved ⟨n, s₁, .leave e⟩ ∧ e.next = .idle ∧
    advance s₁ (.leave e) = some (s', .idle)

theorem Finishes.returns (h : Finishes P n s op s' e₁) : Returns n s op s' e₁ := by
  rcases h with ⟨m, s₁, moved, hgoes, hlast⟩
  exact ⟨m, s₁, hgoes.reaches, hlast⟩

theorem Finishes.of_goes {moved : List Nat}
    (h : Goes P ⟨n, s, .loadStat op⟩ moved ⟨n, s₁, .loadStat op⟩)
    (hfin : Finishes P n s₁ op s' e₁) : Finishes P n s op s' e₁ := by
  rcases hfin with ⟨m, t, moved', hgoes, hlast⟩
  exact ⟨m, t, _, h.trans hgoes, hlast⟩

theorem finishes_push (hP : ∀ a, Alone.Calm s.capacity a → P a) (hstat : s.stat = .normal)
    (hseq : (s.node (s.window (.push v))).sequence = s.tail) :
    Finishes P n s (.push v) (s.pushed v) .pushed := by
  have hjudge : judge (s.window (.push v)) (s.node (s.window (.push v))).sequence (.push v) =
      .reserve (.push v) (s.window (.push v)) := if_pos hseq
  have hcas : advance s.entered (.reserve (.push v) (s.window (.push v))) =
      some ({ s.entered with tail := s.tail + 1, pushes := s.pushes ++ [v] },
        .construct v (s.window (.push v))) := if_pos rfl
  refine ⟨0, (s.pushed v).entered, [], goes_ready hP hstat hjudge ?_, rfl, rfl⟩
  refine goes_reserve hP hcas ?_
  refine goes_step hP trivial rfl ?_
  refine goes_step hP trivial rfl ?_
  rw [setSequence_setData]
  exact .refl _

theorem finishes_pop (hP : ∀ a, Alone.Calm s.capacity a → P a) (hstat : s.stat = .normal)
    (hseq : (s.node (s.window .pop)).sequence = s.head + 1) :
    Finishes P n s .pop (s.popped (s.node (s.window .pop)).data)
      (.popped s.head (s.node (s.window .pop)).data) := by
  have hjudge : judge (s.window .pop) (s.node (s.window .pop)).sequence (.pop : Op α) =
      .reserve .pop (s.window .pop) := if_pos hseq
  have hcas : advance s.entered (.reserve .pop (s.window .pop)) =
      some ({ s.entered with head := s.head + 1 }, .moveOut (s.window .pop)) := if_pos rfl
  refine ⟨0, { s.entered with head := s.head + 1 }.setNode s.kmap (slotOf s.head s.capacity)
    ⟨s.head + s.capacity, none⟩, [], goes_ready hP hstat hjudge ?_, rfl, rfl⟩
  refine goes_reserve hP hcas ?_
  refine goes_step hP trivial rfl ?_
  refine goes_step hP trivial rfl ?_
  refine goes_step hP trivial rfl ?_
  rw [setSequence_setData]
  exact .refl _

theorem finishes_empty (hP : ∀ a, Alone.Calm s.capacity a → P a) (hstat : s.stat = .normal)
    (hseq : (s.node (s.window .pop)).sequence < s.head + 1) : Finishes P n s .pop s .empty := by
  have hjudge : judge (s.window .pop) (s.node (s.window .pop)).sequence (.pop : Op α) =
      .leave .empty := (if_neg hseq.ne).trans (if_pos hseq)
  refine ⟨n, s.entered, [], goes_judge hP hstat ?_, rfl, rfl⟩
  rw [hjudge]
  exact .refl _

/-- After it has left, the thread does nothing more. -/
theorem eq_of_left {x : Alone α} (hlast : advance s (.leave e₁) = some (s', .idle))
    (h : Reaches Alone.next ⟨n, s, .leave e₁⟩ x) :
    x = ⟨n, s, .leave e₁⟩ ∨ x = ⟨n, s', .idle⟩ := by
  have hidle : Alone.next ⟨n, s, .leave e₁⟩ = some ⟨n, s', .idle⟩ :=
    next_of_advance (by simp) hlast
  have hhalt : Alone.next (⟨n, s', .idle⟩ : Alone α) = none := by
    cases n <;> rfl
  rcases h.cases_head with heq | ⟨b, hb, hrest⟩
  · exact .inl heq.symm
  · rw [Option.mem_def, hidle, Option.some.injEq] at hb
    subst hb
    rcases hrest.cases_head with heq | ⟨b, hb, -⟩
    · exact .inr heq.symm
    · rw [Option.mem_def, hhalt] at hb
      cases hb

theorem advance_leave_capacity (h : advance s (.leave e₁) = some (s', l')) :
    s'.capacity = s.capacity := by
  cases h
  cases e₁ <;> rfl

/-- Every state of a call that finishes. -/
theorem Finishes.forall_reaches (h : Finishes P n s op s' e₁)
    (hP : ∀ a, Alone.Calm s'.capacity a → P a) {a : Alone α}
    (ha : Reaches Alone.next ⟨n, s, .loadStat op⟩ a) : P a := by
  rcases h with ⟨m, s₁, moved, hgoes, -, hlast⟩
  rcases hgoes.cases_reaches ha with hPa | hleft
  · exact hPa
  · rcases eq_of_left hlast hleft with rfl | rfl
    · exact hP _ ⟨(advance_leave_capacity hlast).symm, id⟩
    · exact hP _ ⟨rfl, id⟩

/-- A call returns in one way only. -/
theorem Returns.unique (h₁ : Returns n s op s₁ e₁) (h₂ : Returns n s op s₂ e₂) :
    s₁ = s₂ ∧ e₁ = e₂ := by
  rcases h₁ with ⟨n₁, t₁, hreach₁, -, hlast₁⟩
  rcases h₂ with ⟨n₂, t₂, hreach₂, -, hlast₂⟩
  -- One of the two paths goes on where the other ends, and there it ends too.
  have hsame : (⟨n₁, t₁, .leave e₁⟩ : Alone α) = ⟨n₂, t₂, .leave e₂⟩ := by
    rcases StateTransition.reaches_total hreach₁ hreach₂ with hreach | hreach
    · rcases eq_of_left hlast₁ hreach with heq | heq
      · exact heq.symm
      · cases heq
    · rcases eq_of_left hlast₂ hreach with heq | heq
      · exact heq
      · cases heq
  cases hsame
  rw [hlast₁] at hlast₂
  cases hlast₂
  exact ⟨rfl, rfl⟩

/-- Whatever a deterministic system reaches on a cycle leads back to where the cycle starts. -/
theorem reaches_of_cycle {σ : Type} {f : σ → Option σ} {a x : σ}
    (hcycle : StateTransition.Reaches₁ f a a) (hx : Reaches f a x) : Reaches f x a := by
  induction hx with
  | refl => exact .refl
  | @tail y z _ hstep ih =>
      rcases ih.cases_head with rfl | ⟨u, hu, hrest⟩
      · exact StateTransition.reaches₁_fwd hcycle hstep
      · cases Option.mem_unique hu hstep
        exact hrest

/-- A pop whose slot is numbered beyond its position never returns. -/
theorem not_returns_of_ahead (hstat : s.stat = .normal)
    (hseq : s.head + 1 < (s.node (s.window .pop)).sequence) : ¬ Returns n s .pop s' e₁ := by
  rintro ⟨m, t, hreach, -, hlast⟩
  have hjudge : judge (s.window .pop) (s.node (s.window .pop)).sequence (.pop : Op α) =
      .leave (.retry .pop) := (if_neg hseq.ne').trans (if_neg hseq.not_gt)
  have hattempt : Goes (fun _ => True) ⟨n, s, .loadStat .pop⟩ []
      ⟨n, s.entered, .leave (.retry .pop)⟩ := by
    refine goes_judge (fun _ _ => trivial) hstat ?_
    rw [hjudge]
    exact .refl _
  have hcycle : StateTransition.Reaches₁ Alone.next ⟨n, s, .loadStat .pop⟩
      ⟨n, s, .loadStat .pop⟩ :=
    Relation.TransGen.trans_right hattempt.reaches
      (.single (next_of_advance (l := .leave (.retry .pop)) (by simp) rfl))
  -- The thread that has left does not come back to its call.
  rcases eq_of_left hlast (reaches_of_cycle hcycle hreach) with heq | heq
  · cases heq
  · cases heq

end Calls

end AtomicQueue
end Thread
end Chenc
