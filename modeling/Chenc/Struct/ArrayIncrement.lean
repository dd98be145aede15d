import Chenc.Struct.ArrayCanonical

/-!
# ArrayIncrement — `++` and `--`, before and after

* `PostAgrees` : what a post form is for: the old value, and the effect of the pre form;
* `increment_swapped`, `decrement_swapped` : here the post forms return what the pre forms leave in
  the object, and leave the object as it was;
* `run_eq_run_pre` : so a sequence of them leaves what its pre forms alone leave;
* `post_never_agrees` : no value has a post form that does what it is for.
-/

namespace Chenc
namespace Struct
namespace ArrayUint

variable {w : Width} {x : ArrayUint w}

/-- The value of the expression is the old one, and the object is what the pre form leaves. -/
def PostAgrees (post : ArrayUint w → Option (ArrayUint w × ArrayUint w))
    (pre : ArrayUint w → Option (ArrayUint w)) (x : ArrayUint w) : Prop :=
  ∃ object, post x = some (object, x) ∧ pre x = some object

/-- The post form has the two exchanged. -/
def Swapped (post : ArrayUint w → Option (ArrayUint w × ArrayUint w))
    (pre : ArrayUint w → Option (ArrayUint w)) (x : ArrayUint w) : Prop :=
  ∃ r, post x = some (x, r) ∧ pre x = some r ∧ r ≠ x

theorem Swapped.not_agrees {post : ArrayUint w → Option (ArrayUint w × ArrayUint w)}
    {pre : ArrayUint w → Option (ArrayUint w)} (h : Swapped post pre x) :
    ¬ PostAgrees post pre x := by
  rcases h with ⟨r, hpost, -, hne⟩
  rintro ⟨object, hagree, -⟩
  rw [hpost] at hagree
  cases hagree
  exact hne rfl

/-- Odd and even differ. -/
theorem ne_of_parity {m n : Nat} (h : m + 1 ≡ n [MOD 2]) : m ≠ n := by
  rintro rfl
  have hmod : (m + 1) % 2 = m % 2 := h
  omega

theorem two_dvd_bits (w : Width) : 2 ∣ 2 ^ w.bits :=
  dvd_pow_self 2 w.pos.ne'

/-- `array_uint<64>(1)` has one block, as every width has. -/
theorem common_one (w : Width) :
    min w.blockSize (min w.blockSize Width.w64.blockSize) = 1 := by
  have hpos := w.blockSize_pos
  have hone : Width.w64.blockSize = 1 := rfl
  omega

/-- The kernel reads the same operands for `x++` as for `++x`. -/
theorem increment_swapped (x : ArrayUint w) : Swapped postIncrement preIncrement x := by
  rcases one_spec with ⟨one, hone, hnum⟩
  rcases addTo_spec x (.same : Operand w w) (.other one) with ⟨r, hr, hrnum⟩
  rcases addTo_spec zero (.other x : Operand w w) (.other one) with ⟨s, hs, hsnum⟩
  have hsr : s = r := num_inj (hsnum.trans hrnum.symm)
  refine ⟨r, by simp [postIncrement, hone, hs, hsr], by simp [preIncrement, hone, hr], ?_⟩
  -- Whatever blocks the addition drops, the last bit changes.
  have hval : r.num = (x.num % 2 ^ 64 + 1) % 2 ^ w.bits := by
    have hget : ((Operand.other one : Operand w Width.w64).get x).num = 1 := hnum
    rw [common_one, hget] at hrnum
    exact hrnum
  have hparity : x.num + 1 ≡ r.num [MOD 2] := by
    calc x.num + 1
        ≡ x.num % 2 ^ 64 + 1 [MOD 2] :=
          ((Nat.mod_modEq _ _).symm.of_dvd (by norm_num)).add_right 1
      _ ≡ r.num [MOD 2] := by
          rw [hval]
          exact ((Nat.mod_modEq _ _).symm).of_dvd (two_dvd_bits w)
  rintro rfl
  exact ne_of_parity hparity rfl

theorem decrement_swapped (x : ArrayUint w) : Swapped postDecrement preDecrement x := by
  rcases one_spec with ⟨one, hone, hnum⟩
  rcases subTo_spec x (.same : Operand w w) (.other one) with ⟨r, hr, hrlt, hrmod⟩
  rcases subTo_spec zero (.other x : Operand w w) (.other one) with ⟨s, hs, hslt, hsmod⟩
  have hsr : s = r := by
    have hmod : s.num ≡ r.num [MOD 2 ^ w.bits] :=
      Nat.ModEq.add_right_cancel' _ (hsmod.trans hrmod.symm)
    exact num_inj (hmod.eq_of_lt_of_lt hslt hrlt)
  refine ⟨r, by simp [postDecrement, hone, hs, hsr], by simp [preDecrement, hone, hr], ?_⟩
  have hparity : r.num + 1 ≡ x.num [MOD 2] := by
    have hmod : r.num + 1 ≡ x.num [MOD 2 ^ w.bits] := by
      have hget : ((Operand.other one : Operand w Width.w64).get x).num = 1 := hnum
      rw [common_one, hget] at hrmod
      exact hrmod
    exact hmod.of_dvd (two_dvd_bits w)
  rintro rfl
  exact ne_of_parity hparity rfl

/-! ## Sequences -/

inductive Step
  | preIncrement
  | postIncrement
  | preDecrement
  | postDecrement

/-- The same step in its pre form. -/
def Step.toPre : Step → Step
  | .preIncrement | .postIncrement => .preIncrement
  | .preDecrement | .postDecrement => .preDecrement

def Step.isPre : Step → Bool
  | .preIncrement | .preDecrement => true
  | _ => false

/-- The object after the statement. -/
def Step.apply (x : ArrayUint w) : Step → Option (ArrayUint w)
  | .preIncrement => ArrayUint.preIncrement x
  | .postIncrement => (ArrayUint.postIncrement x).map Prod.fst
  | .preDecrement => ArrayUint.preDecrement x
  | .postDecrement => (ArrayUint.postDecrement x).map Prod.fst

/-- The object after a sequence of statements. -/
def run : List Step → ArrayUint w → Option (ArrayUint w)
  | [], x => some x
  | s :: rest, x => (s.apply x).bind (run rest)

/-- A post form used as a statement does nothing. -/
theorem Step.apply_of_post {s : Step} (h : s.isPre = false) (x : ArrayUint w) :
    s.apply x = some x := by
  cases s with
  | postIncrement =>
      rcases increment_swapped x with ⟨r, hpost, -⟩
      rw [Step.apply, hpost, Option.map_some]
  | postDecrement =>
      rcases decrement_swapped x with ⟨r, hpost, -⟩
      rw [Step.apply, hpost, Option.map_some]
  | _ => cases h

/-- A sequence leaves what its pre forms alone leave. -/
theorem run_eq_run_pre (steps : List Step) (x : ArrayUint w) :
    run steps x = run (steps.filter Step.isPre) x := by
  induction steps generalizing x with
  | nil => rfl
  | cons s rest ih =>
      rcases hs : s.isPre with _ | _
      · rw [List.filter_cons_of_neg (by simp [hs]), run, Step.apply_of_post hs, Option.bind_some,
          ih]
      · rw [List.filter_cons_of_pos hs, run, run]
        exact congrArg _ (funext ih)

/-- What the post forms are for, of one object. -/
structure PostForms (x : ArrayUint w) : Prop where
  increment : PostAgrees postIncrement preIncrement x
  decrement : PostAgrees postDecrement preDecrement x
  sequences (steps : List Step) : run steps x = run (steps.map Step.toPre) x

/-- **Post forms.**  For no value does `x++` return the old value and leave what `++x` leaves, nor
does `x--`; they return what the pre form leaves, and leave the old value.  So a sequence that
consists of one of them alone already leaves something else than its pre form. -/
theorem post_never_agrees (x : ArrayUint w) :
    ¬ PostAgrees postIncrement preIncrement x ∧ ¬ PostAgrees postDecrement preDecrement x ∧
      ¬ ∀ steps : List Step, run steps x = run (steps.map Step.toPre) x := by
  have hinc := increment_swapped x
  refine ⟨hinc.not_agrees, (decrement_swapped x).not_agrees, fun hall => ?_⟩
  have hone := hall [.postIncrement]
  rcases hinc with ⟨r, -, hpre, hne⟩
  rw [run_eq_run_pre] at hone
  simp only [List.filter, Step.isPre, List.map, Step.toPre, run, Step.apply, hpre,
    Option.bind_some, Option.some_inj] at hone
  exact hne hone.symm

/-- `x++` on an object of 64 bits that holds 5 returns 6 and leaves 5. -/
theorem post_increment_five :
    ¬ ∀ (w : Width) (x : ArrayUint w), x.Canonical → PostForms x := by
  intro hall
  let x : ArrayUint Width.w64 := ⟨[5], rfl⟩
  have hx : x.Canonical := canonical_iff.2 (by decide)
  rcases (hall _ x hx).increment with ⟨object, hpost, -⟩
  have hresult : (postIncrement x).map (fun p => (p.1.num, p.2.num)) = some (5, 6) := by
    decide
  rw [hpost, Option.map_some, Option.some_inj] at hresult
  have hsix : x.num = 6 := (Prod.mk.inj hresult).2
  exact absurd hsix (by decide)

end ArrayUint
end Struct
end Chenc
