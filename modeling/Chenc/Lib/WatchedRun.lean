import Mathlib.Computability.StateTransition

/-!
# WatchedRun — runs of a deterministic system, with what is seen on the way

* `Watched f P event a log b` : the system goes from `a` to `b`, each state it leaves on the way
  meets `P`, and `log` lists their events;
* `Watched.reaches`, `Watched.trans`, `Watched.mono` : the run without the log, two runs one after
  the other, and a weaker condition on the way;
* `Watched.cases_reaches` : whatever the system reaches is on the way, or behind it.
-/

namespace WatchedRun

open StateTransition (Reaches)

variable {σ β : Type} {f : σ → Option σ} {P Q : σ → Prop} {event : σ → Option β}
  {a b c x : σ} {log log' : List β}

inductive Watched (f : σ → Option σ) (P : σ → Prop) (event : σ → Option β) :
    σ → List β → σ → Prop
  | refl (a : σ) : Watched f P event a [] a
  | step {a b c : σ} {log : List β} : P a → f a = some b → Watched f P event b log c →
      Watched f P event a ((event a).toList ++ log) c

namespace Watched

/-- A step without an event. -/
theorem silent (ha : P a) (hstep : f a = some b) (hevent : event a = none)
    (hrest : Watched f P event b log c) : Watched f P event a log c := by
  have hrun := Watched.step ha hstep hrest
  rwa [hevent, Option.toList_none, List.nil_append] at hrun

/-- A step with an event. -/
theorem noted {e : β} (ha : P a) (hstep : f a = some b) (hevent : event a = some e)
    (hrest : Watched f P event b log c) : Watched f P event a (e :: log) c := by
  have hrun := Watched.step ha hstep hrest
  rwa [hevent, Option.toList_some, List.singleton_append] at hrun

theorem trans (h : Watched f P event a log b) (h' : Watched f P event b log' c) :
    Watched f P event a (log ++ log') c := by
  induction h with
  | refl => exact h'
  | step ha hstep _ ih =>
      rw [List.append_assoc]
      exact .step ha hstep (ih h')

theorem reaches (h : Watched f P event a log b) : Reaches f a b := by
  induction h with
  | refl => exact .refl
  | step _ hstep _ ih => exact ih.head hstep

theorem mono (h : Watched f P event a log b) (hPQ : ∀ x, P x → Q x) :
    Watched f Q event a log b := by
  induction h with
  | refl => exact .refl _
  | step ha hstep _ ih => exact .step (hPQ _ ha) hstep ih

/-- Whatever the system reaches is on the way, or behind it. -/
theorem cases_reaches (h : Watched f P event a log b) (hx : Reaches f a x) :
    P x ∨ Reaches f b x := by
  induction h with
  | refl => exact .inr hx
  | @step a b c log ha hstep _ ih =>
      rcases hx.cases_head with rfl | ⟨d, hd, hrest⟩
      · exact .inl ha
      · cases Option.mem_unique hd hstep
        exact ih hrest

end Watched

end WatchedRun
