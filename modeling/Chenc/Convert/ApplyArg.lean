import Chenc.Convert.Options

/-!
# ApplyArg — options put together from arguments

Model of the constructors of `options_t`, a fold of `apply_arg` over the arguments.

* `Arg` : a mode, a `replace_char_t` or a whole `options_t`;
* `lastGiven` : what the last argument that determines a field says;
* `foldl_lastGiven` : a fold whose steps override a field ends with the last override;
* `setByLast_iff` : all six fields have the value given last exactly if the replacement character of
  a preset is not needed.
-/

namespace Chenc
namespace Convert

/-- An argument of the constructor. -/
inductive Arg
  | charMode (m : CharMode)
  | errorMode (m : ErrorMode)
  | outMode (m : OutMode)
  | inputMode (m : InputMode)
  | perfMode (m : PerfMode)
  | replaceChar (c : ReplaceChar)
  | preset (m : Options)
  deriving DecidableEq

namespace Options

def applyArg (o : Options) : Arg → Options
  | .charMode m => { o with charMode := m }
  | .errorMode m => { o with errorMode := m }
  | .outMode m => { o with outMode := m }
  | .inputMode m => { o with inputMode := m }
  | .perfMode m => { o with perfMode := m }
  | .replaceChar c => { o with replaceChar := c }
  | .preset m =>
      { o with
        charMode := m.charMode
        errorMode := m.errorMode
        outMode := m.outMode
        inputMode := m.inputMode
        perfMode := m.perfMode }

/-- `options_t{args...}`. One `options_t` alone is copied, since the constructor template is no
copy constructor. -/
def make : List Arg → Options
  | [.preset m] => m
  | args => args.foldl applyArg {}

theorem make_of_two_le {args : List Arg} (h : 2 ≤ args.length) :
    make args = args.foldl applyArg {} := by
  rcases args with _ | ⟨a, _ | ⟨b, rest⟩⟩
  · simp at h
  · simp at h
  · rw [make]
    simp

end Options

/-! ## What the arguments determine -/

namespace Arg

/-- The value for `char_mode_`: a mode determines its own field, a preset all of them. -/
def charMode? : Arg → Option CharMode
  | .charMode m => some m
  | .preset m => some m.charMode
  | _ => none

def errorMode? : Arg → Option ErrorMode
  | .errorMode m => some m
  | .preset m => some m.errorMode
  | _ => none

def outMode? : Arg → Option OutMode
  | .outMode m => some m
  | .preset m => some m.outMode
  | _ => none

def inputMode? : Arg → Option InputMode
  | .inputMode m => some m
  | .preset m => some m.inputMode
  | _ => none

def perfMode? : Arg → Option PerfMode
  | .perfMode m => some m
  | .preset m => some m.perfMode
  | _ => none

def replaceChar? : Arg → Option ReplaceChar
  | .replaceChar c => some c
  | .preset m => some m.replaceChar
  | _ => none

/-- The character of a `replace_char_t`. -/
def ownReplaceChar? : Arg → Option ReplaceChar
  | .replaceChar c => some c
  | _ => none

end Arg

section LastGiven

variable {σ α β : Type}

/-- The value given by the last element that gives one. -/
def lastGiven (given : α → Option β) (default : β) (xs : List α) : β :=
  (xs.filterMap given).getLastD default

@[simp] theorem lastGiven_nil (given : α → Option β) (default : β) :
    lastGiven given default [] = default := rfl

theorem lastGiven_concat (given : α → Option β) (default : β) (xs : List α) (x : α) :
    lastGiven given default (xs ++ [x]) = (given x).getD (lastGiven given default xs) := by
  cases h : given x <;> simp [lastGiven, h]

/-- A fold whose steps override a field, if at all, ends with the last override. -/
theorem foldl_lastGiven {step : σ → α → σ} (field : σ → β) {given : α → Option β}
    (hstep : ∀ s x, field (step s x) = (given x).getD (field s)) (s : σ) (xs : List α) :
    field (xs.foldl step s) = lastGiven given (field s) xs := by
  induction xs using List.reverseRecOn with
  | nil => rfl
  | append_singleton xs x ih =>
      rw [List.foldl_append, List.foldl_cons, List.foldl_nil, hstep, ih, lastGiven_concat]

end LastGiven

/-- Each field of the options made from `args` has the value set by the last argument that
determines it, or its default. -/
structure SetByLast (args : List Arg) : Prop where
  charMode : (Options.make args).charMode = lastGiven Arg.charMode? .strict args
  errorMode : (Options.make args).errorMode = lastGiven Arg.errorMode? .stop args
  outMode : (Options.make args).outMode = lastGiven Arg.outMode? .normal args
  inputMode : (Options.make args).inputMode = lastGiven Arg.inputMode? .normal args
  perfMode : (Options.make args).perfMode = lastGiven Arg.perfMode? .normal args
  replaceChar : (Options.make args).replaceChar = lastGiven Arg.replaceChar? .replacement args

/-- A preset that is the last argument to determine the replacement character agrees with the
`replace_char_t` before it, or with the default. -/
def PresetsAgree (args : List Arg) : Prop :=
  ∀ before preset after, args = before ++ Arg.preset preset :: after →
    (∀ a ∈ after, a.replaceChar? = none) →
    preset.replaceChar = lastGiven Arg.ownReplaceChar? .replacement before

/-- The constructor looks at the `replace_char_t` arguments alone. -/
theorem replaceChar_foldl (args : List Arg) :
    (args.foldl Options.applyArg {}).replaceChar =
      lastGiven Arg.ownReplaceChar? .replacement args := by
  refine foldl_lastGiven Options.replaceChar (fun o a => ?_) {} args
  cases a <;> rfl

/-- Where an element of a list with a last element stands. -/
theorem concat_eq_append_cons {α : Type} {xs before after : List α} {x y : α}
    (h : xs ++ [x] = before ++ y :: after) :
    (after = [] ∧ xs = before ∧ x = y) ∨
      ∃ middle, after = middle ++ [x] ∧ xs = before ++ y :: middle := by
  rcases List.eq_nil_or_concat after with rfl | ⟨middle, z, rfl⟩
  · rcases List.append_inj' h rfl with ⟨hxs, hx⟩
    exact Or.inl ⟨rfl, hxs, List.head_eq_of_cons_eq hx⟩
  · have hsplit : xs ++ [x] = (before ++ y :: middle) ++ [z] := by
      simpa using h
    rcases List.append_inj' hsplit rfl with ⟨hxs, hx⟩
    refine Or.inr ⟨middle, ?_, hxs⟩
    rw [List.concat_eq_append, List.head_eq_of_cons_eq hx]

theorem presetsAgree_concat_preset (args : List Arg) (m : Options) :
    PresetsAgree (args ++ [.preset m]) ↔
      m.replaceChar = lastGiven Arg.ownReplaceChar? .replacement args := by
  constructor
  · intro hagree
    exact hagree args m [] rfl (by simp)
  · intro hchar before preset after hargs hafter
    rcases concat_eq_append_cons hargs with ⟨-, rfl, hpreset⟩ | ⟨middle, rfl, -⟩
    · cases hpreset
      exact hchar
    · have hnone := hafter (.preset m) (by simp)
      cases hnone

theorem presetsAgree_concat_replaceChar (args : List Arg) (c : ReplaceChar) :
    PresetsAgree (args ++ [.replaceChar c]) := by
  intro before preset after hargs hafter
  rcases concat_eq_append_cons hargs with ⟨-, -, hpreset⟩ | ⟨middle, rfl, -⟩
  · cases hpreset
  · have hnone := hafter (.replaceChar c) (by simp)
    cases hnone

/-- An argument that does not determine the replacement character changes nothing. -/
theorem presetsAgree_concat_of_none {args : List Arg} {a : Arg} (h : a.replaceChar? = none) :
    PresetsAgree (args ++ [a]) ↔ PresetsAgree args := by
  constructor
  · -- The list after a preset grows by an argument that determines nothing.
    intro hagree before preset after hargs hafter
    refine hagree before preset (after ++ [a]) (by simp [hargs]) fun b hb => ?_
    rcases List.mem_append.1 hb with hb | hb
    · exact hafter b hb
    · rw [List.mem_singleton.1 hb, h]
  · intro hagree before preset after hargs hafter
    rcases concat_eq_append_cons hargs with ⟨-, -, rfl⟩ | ⟨middle, rfl, hmiddle⟩
    · cases h
    · exact hagree before preset middle hmiddle fun b hb => hafter b (by simp [hb])

theorem lastGiven_own_iff (args : List Arg) :
    lastGiven Arg.ownReplaceChar? .replacement args =
      lastGiven Arg.replaceChar? .replacement args ↔ PresetsAgree args := by
  -- From the end, since the last argument decides.
  induction args using List.reverseRecOn with
  | nil =>
      have hnil : PresetsAgree [] := by
        intro before preset after hargs
        simp at hargs
      simp [hnil]
  | append_singleton args a ih =>
      rw [lastGiven_concat, lastGiven_concat]
      cases a with
      | replaceChar c =>
          exact iff_of_true rfl (presetsAgree_concat_replaceChar args c)
      | preset m => exact eq_comm.trans (presetsAgree_concat_preset args m).symm
      | charMode m => exact ih.trans (presetsAgree_concat_of_none rfl).symm
      | errorMode m => exact ih.trans (presetsAgree_concat_of_none rfl).symm
      | outMode m => exact ih.trans (presetsAgree_concat_of_none rfl).symm
      | inputMode m => exact ih.trans (presetsAgree_concat_of_none rfl).symm
      | perfMode m => exact ih.trans (presetsAgree_concat_of_none rfl).symm

/-- **The last argument wins, but for the replacement character of a preset.**  Two or more
arguments set every field as the last argument that determines it says if and only if no preset
was to bring a replacement character of its own. -/
theorem setByLast_iff {args : List Arg} (h : 2 ≤ args.length) :
    SetByLast args ↔ PresetsAgree args := by
  have hmake := Options.make_of_two_le h
  constructor
  · intro hset
    rw [← lastGiven_own_iff, ← replaceChar_foldl, ← hmake]
    exact hset.replaceChar
  · intro hagree
    -- Every field but the last is copied from a preset.
    constructor
    · rw [hmake]
      exact foldl_lastGiven Options.charMode (fun o a => by cases a <;> rfl) {} args
    · rw [hmake]
      exact foldl_lastGiven Options.errorMode (fun o a => by cases a <;> rfl) {} args
    · rw [hmake]
      exact foldl_lastGiven Options.outMode (fun o a => by cases a <;> rfl) {} args
    · rw [hmake]
      exact foldl_lastGiven Options.inputMode (fun o a => by cases a <;> rfl) {} args
    · rw [hmake]
      exact foldl_lastGiven Options.perfMode (fun o a => by cases a <;> rfl) {} args
    · rw [hmake, replaceChar_foldl]
      exact (lastGiven_own_iff args).2 hagree

/-- `?` as a replacement character. -/
def ReplaceChar.questionMark : ReplaceChar where
  value := 0x3F#32
  inRange := by decide
  notSurrogate := by decide
  notNonCharacter := by decide

/-- A preset that replaces errors by `?`, with the fast path turned on. -/
def questionMarkArgs : List Arg :=
  [.preset { errorMode := .replace, replaceChar := .questionMark }, .perfMode .simd]

theorem setByLast_default_simd :
    SetByLast [.preset { errorMode := .replace, replaceChar := .replacement }, .perfMode .simd] :=
  (setByLast_iff (by decide)).2 ((presetsAgree_concat_of_none rfl).2
    ((presetsAgree_concat_preset [] _).2 rfl))

/-- The replacement character of the preset is dropped. -/
theorem not_setByLast_questionMark :
    ¬ ∀ args : List Arg, 2 ≤ args.length → SetByLast args := by
  intro hall
  have hchar := (hall questionMarkArgs (by decide)).replaceChar
  revert hchar
  decide

end Convert
end Chenc
