import Mathlib.Tactic

/-!
# WhileLoop — loops that continue, return or fail

`run cond body fuel s` iterates `body` from `s` while `cond` holds.  An iteration continues with
a new state, returns from inside the loop, or fails; `none` is the result of a failed iteration
and of a run that is cut off for want of fuel.

* `Head` is the set of states met at the head of the loop;
* `run_isSome` gives a result from a measure that every iteration decreases;
* `run_rule` is the invariant rule, for loops that end by such a measure;
* `run_congr` lets two bodies be exchanged that agree at every head;
* `run_map` carries a run over to a loop that imitates it state by state;
* `exists_last_head` and `Head.run_eq` tie the result of a run to its heads.
-/

namespace WhileLoop

/-- How an iteration ends. -/
inductive Flow (σ : Type)
  | next (s : σ)
  | ret (s : σ)

def Flow.map {σ τ : Type} (φ : σ → τ) : Flow σ → Flow τ
  | .next s => .next (φ s)
  | .ret s => .ret (φ s)

variable {σ : Type} {cond : σ → Prop} {body : σ → Option (Flow σ)}

/-- The states met at the head of the loop started in `s`. -/
inductive Head (cond : σ → Prop) (body : σ → Option (Flow σ)) (s : σ) : σ → Prop
  | start : Head cond body s s
  | next {t u : σ} :
      Head cond body s t → cond t → body t = some (.next u) → Head cond body s u

theorem Head.trans {s t u : σ} (h : Head cond body s t) (h' : Head cond body t u) :
    Head cond body s u := by
  induction h' with
  | start => exact h
  | next _ hc hb ih => exact .next ih hc hb

theorem Head.cases_front {s t : σ} (h : Head cond body s t) :
    t = s ∨ ∃ u, cond s ∧ body s = some (.next u) ∧ Head cond body u t := by
  induction h with
  | start => exact .inl rfl
  | next _ hc hb ih =>
      rcases ih with rfl | ⟨v, hc', hb', hv⟩
      · exact .inr ⟨_, hc, hb, .start⟩
      · exact .inr ⟨v, hc', hb', .next hv hc hb⟩

/-- The heads met from `s` on, when the iteration at `s` continues with `u`. -/
theorem forall_head_next {P : σ → Prop} {s u : σ} (hc : cond s) (hb : body s = some (.next u)) :
    (∀ t, Head cond body s t → P t) ↔ P s ∧ ∀ t, Head cond body u t → P t := by
  constructor
  · intro h
    exact ⟨h s .start, fun t ht => h t ((Head.next .start hc hb).trans ht)⟩
  · rintro ⟨hs, hu⟩ t ht
    rcases ht.cases_front with rfl | ⟨v, -, hv, htv⟩
    · exact hs
    · rw [hb] at hv
      cases hv
      exact hu t htv

/-- The loop meets no head but `s` when the iteration at `s` does not continue. -/
theorem forall_head_stop {P : σ → Prop} {s : σ} (hstop : ∀ u, cond s → body s ≠ some (.next u)) :
    (∀ t, Head cond body s t → P t) ↔ P s := by
  constructor
  · intro h
    exact h s .start
  · intro hs t ht
    rcases ht.cases_front with rfl | ⟨v, hc, hv, -⟩
    · exact hs
    · exact absurd hv (hstop v hc)

/-! ## Runs -/

variable [DecidablePred cond]

def run (cond : σ → Prop) [DecidablePred cond] (body : σ → Option (Flow σ)) :
    Nat → σ → Option σ
  | 0, s => if cond s then none else some s
  | fuel + 1, s =>
      if cond s then
        match body s with
        | some (.next s') => run cond body fuel s'
        | some (.ret s') => some s'
        | none => none
      else
        some s

theorem run_exit {s : σ} (h : ¬ cond s) (fuel : Nat) : run cond body fuel s = some s := by
  cases fuel <;> simp [run, h]

theorem run_next {s t : σ} (h : cond s) (hb : body s = some (.next t)) (fuel : Nat) :
    run cond body (fuel + 1) s = run cond body fuel t := by
  simp [run, h, hb]

theorem run_ret {s t : σ} (h : cond s) (hb : body s = some (.ret t)) (fuel : Nat) :
    run cond body (fuel + 1) s = some t := by
  simp [run, h, hb]

theorem run_fail {s : σ} (h : cond s) (hb : body s = none) (fuel : Nat) :
    run cond body (fuel + 1) s = none := by
  simp [run, h, hb]

/-- A measure that every iteration decreases bounds the number of iterations, as long as an
invariant keeps them from failing. -/
theorem run_isSome (measure : σ → Nat) (I : σ → Prop)
    (hpos : ∀ s, cond s → 0 < measure s)
    (hbody : ∀ s, I s → cond s → (body s).isSome)
    (hnext : ∀ s t, I s → cond s → body s = some (.next t) → I t ∧ measure t < measure s) :
    ∀ {fuel : Nat} {s : σ}, I s → measure s ≤ fuel → (run cond body fuel s).isSome := by
  intro fuel
  induction fuel with
  | zero =>
      intro s _ hle
      have hc : ¬ cond s := fun hc => absurd (hpos s hc) (by omega)
      rw [run_exit hc]
      rfl
  | succ fuel ih =>
      intro s hs hle
      by_cases hc : cond s
      · have hsome := hbody s hs hc
        rcases hb : body s with _ | (t | t)
        · simp [hb] at hsome
        · rw [run_next hc hb]
          rcases hnext s t hs hc hb with ⟨ht, hlt⟩
          exact ih ht (by omega)
        · rw [run_ret hc hb]
          rfl
      · rw [run_exit hc]
        rfl

/-- The invariant rule: a loop whose measure every iteration decreases ends, however it ends, in a
state that meets `Q`. -/
theorem run_rule {m : σ → Nat} {I Q : σ → Prop} (hpos : ∀ s, cond s → 0 < m s)
    (hexit : ∀ s, I s → ¬ cond s → Q s)
    (hbody : ∀ s, I s → cond s → (∃ t, body s = some (.ret t) ∧ Q t) ∨
      ∃ t, body s = some (.next t) ∧ I t ∧ m t < m s) :
    ∀ {fuel : Nat} {s : σ}, I s → m s ≤ fuel → ∃ t, run cond body fuel s = some t ∧ Q t := by
  intro fuel
  induction fuel with
  | zero =>
      intro s hs hle
      have hc : ¬ cond s := fun hc => absurd (hpos s hc) (by omega)
      exact ⟨s, run_exit hc 0, hexit s hs hc⟩
  | succ fuel ih =>
      intro s hs hle
      by_cases hc : cond s
      · rcases hbody s hs hc with ⟨t, hb, hQ⟩ | ⟨t, hb, hI, hlt⟩
        · exact ⟨t, run_ret hc hb fuel, hQ⟩
        · rw [run_next hc hb]
          exact ih hI (by omega)
      · exact ⟨s, run_exit hc _, hexit s hs hc⟩

/-- Bodies that agree at every head give the same run. -/
theorem run_congr {body' : σ → Option (Flow σ)} :
    ∀ {fuel : Nat} {s : σ}, (∀ t, Head cond body s t → cond t → body t = body' t) →
      run cond body fuel s = run cond body' fuel s := by
  intro fuel
  induction fuel with
  | zero =>
      intro s _
      rfl
  | succ fuel ih =>
      intro s hagree
      by_cases hc : cond s
      · have hs : body s = body' s := hagree s .start hc
        rcases hb : body s with _ | (t | t)
        · rw [run_fail hc hb, run_fail hc (hs ▸ hb)]
        · rw [run_next hc hb, run_next hc (hs ▸ hb)]
          exact ih fun u hu => hagree u ((Head.next .start hc hb).trans hu)
        · rw [run_ret hc hb, run_ret hc (hs ▸ hb)]
      · rw [run_exit hc, run_exit hc]

/-- A loop that imitates another one, as long as an invariant of the latter lasts, ends in the
images of its states. -/
theorem run_map {τ : Type} {cond' : τ → Prop} [DecidablePred cond'] {body' : τ → Option (Flow τ)}
    (φ : σ → τ) (I : σ → Prop) (hcond : ∀ s, cond' (φ s) ↔ cond s)
    (hbody : ∀ s, I s → cond s → body' (φ s) = (body s).map (Flow.map φ))
    (hnext : ∀ s t, I s → cond s → body s = some (.next t) → I t) :
    ∀ {fuel : Nat} {s : σ}, I s →
      run cond' body' fuel (φ s) = (run cond body fuel s).map φ := by
  intro fuel
  induction fuel with
  | zero =>
      intro s _
      simp only [run, hcond]
      split_ifs <;> rfl
  | succ fuel ih =>
      intro s hs
      by_cases hc : cond s
      · have hc' : cond' (φ s) := (hcond s).2 hc
        have hb' := hbody s hs hc
        rcases hb : body s with _ | (t | t)
        · rw [hb] at hb'
          rw [run_fail hc hb, run_fail hc' hb']
          rfl
        · rw [hb] at hb'
          rw [run_next hc hb, run_next hc' hb']
          exact ih (hnext s t hs hc hb)
        · rw [hb] at hb'
          rw [run_ret hc hb, run_ret hc' hb']
          rfl
      · rw [run_exit hc, run_exit fun hc' => hc ((hcond s).1 hc')]
        rfl

/-- A run that ends within its fuel does not depend on it. -/
theorem run_mono {s s' : σ} {fuel fuel' : Nat} (h : run cond body fuel s = some s')
    (hle : fuel ≤ fuel') : run cond body fuel' s = some s' := by
  induction fuel generalizing s fuel' with
  | zero =>
      by_cases hc : cond s
      · simp [run, hc] at h
      · rw [run_exit hc] at h
        cases h
        exact run_exit hc fuel'
  | succ fuel ih =>
      rcases fuel' with _ | fuel'
      · omega
      · by_cases hc : cond s
        · rcases hb : body s with _ | (t | t)
          · rw [run_fail hc hb] at h
            cases h
          · rw [run_next hc hb] at h ⊢
            exact ih h (Nat.le_of_succ_le_succ hle)
          · rw [run_ret hc hb] at h ⊢
            exact h
        · rw [run_exit hc] at h ⊢
          exact h

/-! ## The result and the heads -/

/-- What the run from a later head comes to is what the whole run comes to. -/
theorem Head.run_eq {s t s' : σ} (h : Head cond body s t) {fuel : Nat}
    (hrun : run cond body fuel s = some s') : ∃ fuel', run cond body fuel' t = some s' := by
  induction h with
  | start => exact ⟨fuel, hrun⟩
  | next _ hc hb ih =>
      rcases ih with ⟨_ | fuel', hrun'⟩
      · simp [run, hc] at hrun'
      · rw [run_next hc hb] at hrun'
        exact ⟨fuel', hrun'⟩

/-- A run ends at a head: the loop test fails there, or the iteration returns. -/
theorem exists_last_head {s s' : σ} {fuel : Nat} (hrun : run cond body fuel s = some s') :
    ∃ t, Head cond body s t ∧
      ((¬ cond t ∧ s' = t) ∨ (cond t ∧ body t = some (.ret s'))) := by
  induction fuel generalizing s with
  | zero =>
      by_cases hc : cond s
      · simp [run, hc] at hrun
      · rw [run_exit hc] at hrun
        cases hrun
        exact ⟨_, .start, .inl ⟨hc, rfl⟩⟩
  | succ fuel ih =>
      by_cases hc : cond s
      · rcases hb : body s with _ | (t | t)
        · rw [run_fail hc hb] at hrun
          cases hrun
        · rw [run_next hc hb] at hrun
          rcases ih hrun with ⟨u, hu, hend⟩
          exact ⟨u, (Head.next .start hc hb).trans hu, hend⟩
        · rw [run_ret hc hb] at hrun
          cases hrun
          exact ⟨s, .start, .inr ⟨hc, hb⟩⟩
      · rw [run_exit hc] at hrun
        cases hrun
        exact ⟨_, .start, .inl ⟨hc, rfl⟩⟩

end WhileLoop
