import Chenc.Convert.Decoding
import Chenc.Convert.StrToStr

/-!
# Scan — the conversion as a sequence of items

The slow path of `strToStr` does two separate things: it cuts the input into *items*, which
depends on the input and the reading options only, and it sends the items to the output.

* `Options.verdict` : what the switch over `err1` makes of a decoding outcome;
* `Scan o s items e` : reading `s` meets `items` and ends with `e`;
* `Scan.exists`, `Scan.unique` : every text has exactly one scan;
* `Scan.congr` : the output and performance modes play no part in it.

The output side follows in `Convert.Replay`.
-/

namespace Chenc
namespace Convert

/-! ## Items and verdicts -/

/-- One step of the loop that does not return: the units read, the error met and the code point
handed to `utf32_to_char`. -/
structure Item where
  units : Nat
  error : ErrorT
  code : Option U32
  deriving DecidableEq, Repr

/-- How the reading of a text ends: at the end of the text, at an error or a truncation, or at
a read past the end of the text. -/
inductive Ending
  | done
  | halt (units : Nat) (error : ErrorT)
  | fault
  deriving DecidableEq, Repr

inductive Verdict
  | item (i : Item)
  | halt (units : Nat) (error : ErrorT)

/-- What the switch over `err1` makes of a decoding outcome. -/
def Options.verdict (o : Options) : ErrorT × CharResult → Verdict
  | (.none, cr) => .item { units := cr.inputBlock, error := .none, code := some cr.unicode }
  | (.inTruncated, cr) => .halt cr.inputBlock .inTruncated
  | (err, cr) =>
      match o.errorMode with
      | .stop => .halt cr.inputBlock err
      | .skip => .item { units := cr.inputBlock, error := err, code := none }
      | .replace =>
          .item { units := cr.inputBlock, error := err, code := some o.replaceChar.value }

inductive Scan (o : Options) {In : CharType} : List In.Unit → List Item → Ending → Prop
  | nil : Scan o [] [] .done
  | item {u : In.Unit} {s : List In.Unit} {r : ErrorT × CharResult} {i : Item}
      {items : List Item} {e : Ending} :
      charToUtf32 o In (u :: s) {} = some r → o.verdict r = .item i →
      Scan o ((u :: s).drop i.units) items e → Scan o (u :: s) (i :: items) e
  | halt {u : In.Unit} {s : List In.Unit} {r : ErrorT × CharResult} {k : Nat} {err : ErrorT} :
      charToUtf32 o In (u :: s) {} = some r → o.verdict r = .halt k err →
      Scan o (u :: s) [] (.halt k err)
  | fault {u : In.Unit} {s : List In.Unit} :
      charToUtf32 o In (u :: s) {} = none → Scan o (u :: s) [] .fault

section Verdicts

variable {o : Options} {In : CharType} {u : In.Unit} {s : List In.Unit} {r : ErrorT × CharResult}

/-- An item takes the units its first unit announces, and they are there. -/
theorem verdict_item_units {i : Item} (hr : charToUtf32 o In (u :: s) {} = some r)
    (hv : o.verdict r = .item i) :
    i.units = In.announced u ∧ i.units ≤ (u :: s).length := by
  have hreads := charToUtf32_reads hr
  rcases r with ⟨err, cr⟩
  have hin := hreads.input
  have hle : err ≠ .inTruncated → In.announced u ≤ (u :: s).length := by
    intro hne
    by_contra hlt
    exact hne (hreads.truncated.2 (by omega))
  cases err <;> simp only [Options.verdict] at hv
  case none =>
    cases hv
    exact ⟨hin, hin.le.trans (hle (by simp))⟩
  case inTruncated => cases hv
  all_goals
    cases hm : o.errorMode <;> simp only [hm] at hv
    · cases hv
    · cases hv
      exact ⟨hin, hin.le.trans (hle (by simp))⟩
    · cases hv
      exact ⟨hin, hin.le.trans (hle (by simp))⟩

theorem verdict_item_pos {i : Item} (hr : charToUtf32 o In (u :: s) {} = some r)
    (hv : o.verdict r = .item i) : 0 < i.units := by
  rw [(verdict_item_units hr hv).1]
  exact In.announced_pos u

theorem verdict_item_error {i : Item} (hv : o.verdict r = .item i) : i.error = r.1 := by
  rcases r with ⟨err, cr⟩
  cases err <;> simp only [Options.verdict] at hv
  case none =>
    cases hv
    rfl
  case inTruncated => cases hv
  all_goals
    cases hm : o.errorMode <;> simp only [hm] at hv
    · cases hv
    · cases hv
      rfl
    · cases hv
      rfl

/-- An error that does not end the reading has been skipped or replaced. -/
theorem verdict_item_of_error {i : Item} (hv : o.verdict r = .item i) (herr : r.1 ≠ .none) :
    r.2.inputBlock = i.units ∧ (o.errorMode = .skip ∧ i.code = none ∨
      o.errorMode = .replace ∧ i.code = some o.replaceChar.value) := by
  rcases r with ⟨err, cr⟩
  cases err <;> simp only [Options.verdict] at hv
  case none => exact absurd rfl herr
  case inTruncated => cases hv
  all_goals
    cases hm : o.errorMode <;> simp only [hm] at hv
    · cases hv
    · cases hv
      exact ⟨rfl, .inl ⟨rfl, rfl⟩⟩
    · cases hv
      exact ⟨rfl, .inr ⟨rfl, rfl⟩⟩

theorem verdict_halt_units {k : Nat} {err : ErrorT} (hv : o.verdict r = .halt k err) :
    k = r.2.inputBlock := by
  rcases r with ⟨err', cr⟩
  cases err' <;> simp only [Options.verdict] at hv
  case none => cases hv
  case inTruncated =>
    cases hv
    rfl
  all_goals
    cases hm : o.errorMode <;> simp only [hm] at hv
    · cases hv
      rfl
    · cases hv
    · cases hv

theorem verdict_halt_error {k : Nat} {err : ErrorT} (hv : o.verdict r = .halt k err) :
    r.1 = err ∧ err ≠ .none := by
  rcases r with ⟨err', cr⟩
  cases err' <;> simp only [Options.verdict] at hv
  case none => cases hv
  case inTruncated =>
    cases hv
    exact ⟨rfl, by simp⟩
  all_goals
    cases hm : o.errorMode <;> simp only [hm] at hv
    · cases hv
      exact ⟨rfl, by simp⟩
    · cases hv
    · cases hv

/-- Under `skip` and `replace` only a truncated sequence ends the reading. -/
theorem verdict_continues (he : o.errorMode = .skip ∨ o.errorMode = .replace)
    (hr : r.1 ≠ .inTruncated) : ∃ i, o.verdict r = .item i := by
  rcases r with ⟨err, cr⟩
  cases err
  case none => exact ⟨_, rfl⟩
  case inTruncated => exact absurd rfl hr
  all_goals
    simp only [Options.verdict]
    rcases he with hm | hm <;> rw [hm] <;> exact ⟨_, rfl⟩

end Verdicts

/-! ## Scans exist and are unique -/

/-- Every item reads a unit, so the rest of the text is shorter. -/
theorem Scan.exists (o : Options) {In : CharType} (s : List In.Unit) :
    ∃ items e, Scan o s items e := by
  induction hn : s.length using Nat.strong_induction_on generalizing s with
  | _ n ih =>
      rcases s with _ | ⟨u, t⟩
      · exact ⟨[], .done, .nil⟩
      · cases hr : charToUtf32 o In (u :: t) {} with
        | none => exact ⟨[], .fault, .fault hr⟩
        | some r =>
            cases hv : o.verdict r with
            | halt k err => exact ⟨[], .halt k err, .halt hr hv⟩
            | item i =>
                have hpos := verdict_item_pos hr hv
                have hlt : ((u :: t).drop i.units).length < n := by
                  rw [List.length_drop, ← hn, List.length_cons]
                  omega
                rcases ih _ hlt _ rfl with ⟨items, e, hscan⟩
                exact ⟨i :: items, e, .item hr hv hscan⟩

theorem Scan.unique {o : Options} {In : CharType} {s : List In.Unit} {items items' : List Item}
    {e e' : Ending} (h : Scan o s items e) (h' : Scan o s items' e') :
    items = items' ∧ e = e' := by
  -- What is read at the front, and the verdict on it, decide which constructor applies.
  induction h generalizing items' e' with
  | nil =>
      cases h'
      exact ⟨rfl, rfl⟩
  | item hr hv _ ih =>
      cases h' with
      | item hr' hv' htail =>
          rw [hr] at hr'
          cases hr'
          rw [hv] at hv'
          cases hv'
          rcases ih htail with ⟨rfl, rfl⟩
          exact ⟨rfl, rfl⟩
      | halt hr' hv' =>
          rw [hr] at hr'
          cases hr'
          rw [hv] at hv'
          cases hv'
      | fault hr' =>
          rw [hr] at hr'
          cases hr'
  | halt hr hv =>
      cases h' with
      | item hr' hv' _ =>
          rw [hr] at hr'
          cases hr'
          rw [hv] at hv'
          cases hv'
      | halt hr' hv' =>
          rw [hr] at hr'
          cases hr'
          rw [hv] at hv'
          cases hv'
          exact ⟨rfl, rfl⟩
      | fault hr' =>
          rw [hr] at hr'
          cases hr'
  | fault hr =>
      cases h' with
      | item hr' _ _ | halt hr' _ =>
          rw [hr] at hr'
          cases hr'
      | fault _ => exact ⟨rfl, rfl⟩

/-- With input bounds checked, a scan does not leave the text. -/
theorem Scan.ne_fault {o : Options} (ho : o.inputMode = .normal) {In : CharType}
    {s : List In.Unit} {items : List Item} {e : Ending} (h : Scan o s items e) : e ≠ .fault := by
  induction h with
  | nil => simp
  | item _ _ _ ih => exact ih
  | halt _ _ => simp
  | @fault u s hr =>
      have hsome := charToUtf32_isSome s (u := u) (.inl ho)
      rw [hr] at hsome
      simp at hsome

/-- Reading never reports a full output buffer. -/
theorem Scan.notOverflow {o : Options} {In : CharType} {s : List In.Unit} {items : List Item}
    {e : Ending} (h : Scan o s items e) :
    (∀ i ∈ items, i.error ≠ .outOverflow) ∧ ∀ k err, e = .halt k err → err ≠ .outOverflow := by
  induction h with
  | nil => simp
  | item hr hv _ ih =>
      refine ⟨List.forall_mem_cons.2 ⟨?_, ih.1⟩, ih.2⟩
      rw [verdict_item_error hv]
      exact (charToUtf32_reads hr).notOverflow
  | halt hr hv =>
      refine ⟨by simp, ?_⟩
      rintro k err heq
      cases heq
      rw [← (verdict_halt_error hv).1]
      exact (charToUtf32_reads hr).notOverflow
  | fault _ => simp

/-- Only the character, error and input modes and the replacement character are read. -/
theorem Scan.congr {o : Options} {In : CharType} {s : List In.Unit} {items : List Item}
    {e : Ending} (h : Scan o s items e) (o' : Options) (hc : o.charMode = o'.charMode)
    (he : o.errorMode = o'.errorMode) (hi : o.inputMode = o'.inputMode)
    (hr : o.replaceChar = o'.replaceChar) : Scan o' s items e := by
  have hchar : ∀ s : List In.Unit, charToUtf32 o In s {} = charToUtf32 o' In s {} := by
    intro s
    cases o
    cases o'
    cases hc
    cases hi
    rfl
  have hverdict : o.verdict = o'.verdict := by
    cases o
    cases o'
    cases he
    cases hr
    rfl
  induction h with
  | nil => exact .nil
  | item hr' hv _ ih => exact .item (hchar _ ▸ hr') (hverdict ▸ hv) ih
  | halt hr' hv => exact .halt (hchar _ ▸ hr') (hverdict ▸ hv)
  | fault hr' => exact .fault (hchar _ ▸ hr')

end Convert
end Chenc
