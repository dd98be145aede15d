/-!
# Refinement — what a system shows of itself

Systems whose steps carry a label, or none if nobody outside can see them.

* `System`, `Runs`, `Shows` : the lists of labels that a run shows;
* `Simulates` : every step of one system is matched by steps of the other that show the same;
* `Simulates.shows` : what the one system shows, the other could have shown.
-/

namespace Refinement

variable {S A L : Type}

structure System (S L : Type) where
  init : S → Prop
  step : S → Option L → S → Prop

namespace System

inductive Runs (M : System S L) (s : S) : List L → S → Prop
  | start : Runs M s [] s
  | next {ls : List L} {t u : S} {l : Option L} :
      Runs M s ls t → M.step t l u → Runs M s (ls ++ l.toList) u

variable {M : System S L} {N : System A L} {R : S → A → Prop} {s t u : S} {ls ms : List L}

theorem Runs.trans (h : M.Runs s ls t) (h' : M.Runs t ms u) : M.Runs s (ls ++ ms) u := by
  induction h' with
  | start =>
      rw [List.append_nil]
      exact h
  | next _ hstep ih =>
      rw [← List.append_assoc]
      exact ih.next hstep

theorem Runs.single {l : Option L} (h : M.step s l t) : M.Runs s l.toList t :=
  Runs.start.next h

/-- Some run from an initial state shows the list. -/
def Shows (M : System S L) (ls : List L) : Prop :=
  ∃ s t, M.init s ∧ M.Runs s ls t

/-- A forward simulation. -/
structure Simulates (R : S → A → Prop) (M : System S L) (N : System A L) : Prop where
  start {s : S} : M.init s → ∃ a, N.init a ∧ R s a
  step {s s' : S} {a : A} {l : Option L} :
    R s a → M.step s l s' → ∃ a', N.Runs a l.toList a' ∧ R s' a'

theorem Simulates.runs (h : Simulates R M N) {a : A} (hR : R s a) (hrun : M.Runs s ls t) :
    ∃ b, N.Runs a ls b ∧ R t b := by
  induction hrun with
  | start => exact ⟨a, .start, hR⟩
  | next _ hstep ih =>
      rcases ih with ⟨b, hb, hRb⟩
      rcases h.step hRb hstep with ⟨b', hb', hRb'⟩
      exact ⟨b', hb.trans hb', hRb'⟩

theorem Simulates.shows (h : Simulates R M N) (hM : M.Shows ls) : N.Shows ls := by
  rcases hM with ⟨s, t, hinit, hrun⟩
  rcases h.start hinit with ⟨a, ha, hR⟩
  rcases h.runs hR hrun with ⟨b, hb, -⟩
  exact ⟨a, b, ha, hb⟩

end System

end Refinement
