import Chenc.Core.IntOperators

/-!
# IntProgram — programs over byte-sized integers

Straight-line code over variables of both classes and of any sizes: assignments and conversions,
expressions of any depth, compound operators, increments in both forms, and statements under a
condition.

* `Expr`, `Cond`, `Stmt`, `run` : the code, on the bytes of the machine;
* `Expr.int`, `Cond.int`, `Stmt.int`, `meaning` : the same on integers, reduced to the bytes of each
  object, and undefined where an operator is;
* `programs_wrap` : the bytes compute what the program means.
-/

namespace Chenc
namespace Core

open MachineInt

variable {Var : Type} {T : Var → Ty}

/-! ## The code -/

/-- Expressions over variables of the types `T`. -/
inductive Expr (T : Var → Ty) : Ty → Type
  | var (x : Var) : Expr T (T x)
  | make (t : Ty) (val : U64) : Expr T t
  | convert {t' : Ty} (t : Ty) (e : Expr T t') : Expr T t
  | unary {t : Ty} (op : UnOp) (e : Expr T t) : Expr T t
  /-- The right operand is converted to the type of the parameter. -/
  | binary {t t' : Ty} (op : BinOp) (e : Expr T t) (e' : Expr T t') : Expr T t
  | binaryWord {t : Ty} (op : BinOp) (e : Expr T t) (v : U64) : Expr T t

inductive Cond (T : Var → Ty)
  | test {t : Ty} (e : Expr T t)
  | not {t : Ty} (e : Expr T t)
  | eq {t t' : Ty} (e : Expr T t) (e' : Expr T t')
  /-- `e <=> e'` is `o`. -/
  | cmp {t t' : Ty} (o : Ordering) (e : Expr T t) (e' : Expr T t')

inductive Stmt (T : Var → Ty)
  | assign (x : Var) {t : Ty} (e : Expr T t)
  | assignWord (x : Var) (val : U64)
  | compound (op : BinOp) (x : Var) {t : Ty} (e : Expr T t)
  | compoundWord (op : BinOp) (x : Var) (v : U64)
  | preIncr (x : Var)
  | preDecr (x : Var)
  /-- `x = y++`. -/
  | postIncr (x y : Var)
  /-- `x = y--`. -/
  | postDecr (x y : Var)
  | ifThen (c : Cond T) (s : Stmt T)

/-- The variables. -/
abbrev Store (T : Var → Ty) := ∀ x, Obj (T x)

/-- `t(e)`: within one type the compiler's own copy. -/
def convertTo (native : Endian) (t : Ty) {t' : Ty} (o : Obj t') : Obj t :=
  if h : t' = t then h ▸ o else .make native t (o.get native)

/-- `x = e`: within one type the compiler's own assignment. -/
def assignTo (native : Endian) {t t' : Ty} (x : Obj t) (o : Obj t') : Obj t :=
  if h : t' = t then h ▸ o else x.set native (o.get native)

variable (native : Endian)

def Expr.eval (σ : Store T) : {t : Ty} → Expr T t → Option (Obj t)
  | _, .var x => some (σ x)
  | _, .make t val => some (.make native t val)
  | _, .convert t e => (e.eval σ).map (convertTo native t)
  | _, .unary op e => (e.eval σ).bind fun o => o.unary native op
  | _, .binary op e e' =>
      (e.eval σ).bind fun o => (e'.eval σ).bind fun o' => o.binary native op (o'.get native)
  | _, .binaryWord op e v => (e.eval σ).bind fun o => o.binary native op v

def Cond.eval (σ : Store T) : Cond T → Option Bool
  | .test e => (e.eval native σ).map (Obj.toBool native)
  | .not e => (e.eval native σ).map (Obj.isZero native)
  | .eq e e' =>
      (e.eval native σ).bind fun o => (e'.eval native σ).map fun o' => o.eq native (o'.get native)
  | .cmp ord e e' =>
      (e.eval native σ).bind fun o =>
        (e'.eval native σ).map fun o' => o.cmp native (o'.get native) == ord

section Statements

variable [DecidableEq Var]

def Stmt.exec (σ : Store T) : Stmt T → Option (Store T)
  | .assign x e =>
      (e.eval native σ).map fun o => Function.update σ x (assignTo native (σ x) o)
  | .assignWord x val => some (Function.update σ x ((σ x).set native val))
  | .compound op x e =>
      (e.eval native σ).bind fun o =>
        ((σ x).compound native op (o.get native)).map (Function.update σ x)
  | .compoundWord op x v => ((σ x).compound native op v).map (Function.update σ x)
  | .preIncr x => some (Function.update σ x ((σ x).preIncr native))
  | .preDecr x => some (Function.update σ x ((σ x).preDecr native))
  | .postIncr x y =>
      let σ' := Function.update σ y ((σ y).postIncr native).2
      some (Function.update σ' x (assignTo native (σ' x) ((σ y).postIncr native).1))
  | .postDecr x y =>
      let σ' := Function.update σ y ((σ y).postDecr native).2
      some (Function.update σ' x (assignTo native (σ' x) ((σ y).postDecr native).1))
  | .ifThen c s => (c.eval native σ).bind fun b => if b then s.exec σ else some σ

def run : List (Stmt T) → Store T → Option (Store T)
  | [], σ => some σ
  | s :: rest, σ => (s.exec native σ).bind (run rest)

end Statements

/-! ## The meaning -/

/-- A value as an operand of `op` for an object of type `t`. -/
def Ty.operand (t : Ty) (op : BinOp) (z : ℤ) : ℤ :=
  (op.operand t.sign).wrap 64 z

def Expr.int (n : Var → ℤ) : {t : Ty} → Expr T t → Option ℤ
  | _, .var x => some (n x)
  | _, .make t val => some (t.wrap (t.sign.read val))
  | _, .convert t e => (e.int n).map t.wrap
  | t, .unary op e => (e.int n).bind fun a => (op.int a).map t.wrap
  | t, .binary op e e' =>
      (e.int n).bind fun a => (e'.int n).bind fun v => (op.int a (t.operand op v)).map t.wrap
  | t, .binaryWord op e v =>
      (e.int n).bind fun a => (op.int a ((op.operand t.sign).read v)).map t.wrap

def Cond.int (n : Var → ℤ) : Cond T → Option Bool
  | .test e => (e.int n).map fun a => decide (a ≠ 0)
  | .not e => (e.int n).map fun a => decide (a = 0)
  | .eq (t := t) e e' =>
      (e.int n).bind fun a => (e'.int n).map fun v => decide (a = t.sign.wrap 64 v)
  | .cmp (t := t) ord e e' =>
      (e.int n).bind fun a => (e'.int n).map fun v => compare a (t.sign.wrap 64 v) == ord

section Statements

variable [DecidableEq Var]

def Stmt.int (n : Var → ℤ) : Stmt T → Option (Var → ℤ)
  | .assign x e => (e.int n).map fun a => Function.update n x ((T x).wrap a)
  | .assignWord x val => some (Function.update n x ((T x).wrap ((T x).sign.read val)))
  | .compound op x e =>
      (e.int n).bind fun v =>
        (op.int (n x) ((T x).operand op v)).map fun a => Function.update n x ((T x).wrap a)
  | .compoundWord op x v =>
      (op.int (n x) ((op.operand (T x).sign).read v)).map fun a =>
        Function.update n x ((T x).wrap a)
  | .preIncr x => some (Function.update n x ((T x).wrap (n x + 1)))
  | .preDecr x => some (Function.update n x ((T x).wrap (n x - 1)))
  | .postIncr x y =>
      some (Function.update (Function.update n y ((T y).wrap (n y + 1))) x ((T x).wrap (n y)))
  | .postDecr x y =>
      some (Function.update (Function.update n y ((T y).wrap (n y - 1))) x ((T x).wrap (n y)))
  | .ifThen c s => (c.int n).bind fun b => if b then s.int n else some n

def meaning : List (Stmt T) → (Var → ℤ) → Option (Var → ℤ)
  | [], n => some n
  | s :: rest, n => (s.int n).bind (meaning rest)

end Statements

/-! ## Bytes and values -/

/-- The integers that the variables stand for. -/
def values (σ : Store T) (x : Var) : ℤ :=
  (σ x).value native

theorem value_convertTo (t : Ty) {t' : Ty} (o : Obj t') :
    (convertTo native t o).value native = t.wrap (o.value native) := by
  by_cases h : t' = t
  · subst h
    rw [convertTo, dif_pos rfl, Obj.wrap_value]
  · rw [convertTo, dif_neg h]
    exact Obj.value_make native t _ t'.sign

theorem value_assignTo {t t' : Ty} (x : Obj t) (o : Obj t') :
    (assignTo native x o).value native = t.wrap (o.value native) := by
  by_cases h : t' = t
  · subst h
    rw [assignTo, dif_pos rfl, Obj.wrap_value]
  · rw [assignTo, dif_neg h]
    exact Obj.value_set native x _ t'.sign

/-- Expressions, one case an operator. -/
theorem Expr.eval_value (σ : Store T) {t : Ty} (e : Expr T t) :
    (e.eval native σ).map (Obj.value native) = e.int (values native σ) := by
  induction e with
  | var x => rfl
  | make t val => exact congrArg some (Obj.value_make native t val t.sign)
  | convert t e ih =>
      rw [eval, int, ← ih, Option.map_map, Option.map_map]
      exact congrArg (fun f => Option.map f _) (funext fun o => value_convertTo native t o)
  | unary op e ih =>
      rw [eval, int, ← ih, Option.map_bind, Option.bind_map]
      exact congrArg (Option.bind _) (funext fun o => Obj.value_unary native o op)
  | binary op e e' ih ih' =>
      rw [eval, int, ← ih, ← ih', Option.map_bind, Option.bind_map]
      refine congrArg (Option.bind _) (funext fun o => ?_)
      rw [Function.comp_apply, Function.comp_apply, Option.map_bind, Option.bind_map]
      refine congrArg (Option.bind _) (funext fun o' => ?_)
      rw [Function.comp_apply, Function.comp_apply, Obj.value_binary, Obj.read_get, Ty.operand]
  | binaryWord op e v ih =>
      rw [eval, int, ← ih, Option.map_bind, Option.bind_map]
      exact congrArg (Option.bind _) (funext fun o => Obj.value_binary native o op v)

theorem Cond.eval_eq (σ : Store T) (c : Cond T) :
    c.eval native σ = c.int (values native σ) := by
  cases c with
  | test e =>
      rw [eval, int, ← e.eval_value, Option.map_map]
      exact congrArg (fun f => Option.map f _) (funext fun o => Obj.toBool_eq native o)
  | not e =>
      rw [eval, int, ← e.eval_value, Option.map_map]
      exact congrArg (fun f => Option.map f _) (funext fun o => Obj.isZero_eq native o)
  | eq e e' =>
      rw [eval, int, ← e.eval_value, ← e'.eval_value, Option.bind_map]
      refine congrArg (Option.bind _) (funext fun o => ?_)
      rw [Function.comp_apply, Option.map_map]
      refine congrArg (fun f => Option.map f _) (funext fun o' => ?_)
      rw [Function.comp_apply, Obj.eq_eq, Obj.read_get]
  | cmp ord e e' =>
      rw [eval, int, ← e.eval_value, ← e'.eval_value, Option.bind_map]
      refine congrArg (Option.bind _) (funext fun o => ?_)
      rw [Function.comp_apply, Option.map_map]
      refine congrArg (fun f => Option.map f _) (funext fun o' => ?_)
      rw [Function.comp_apply, Obj.cmp_eq, Obj.read_get]

variable [DecidableEq Var]

theorem values_update (σ : Store T) (x : Var) (o : Obj (T x)) :
    values native (Function.update σ x o) =
      Function.update (values native σ) x (o.value native) := by
  funext y
  by_cases hy : y = x
  · subst hy
    rw [values, Function.update_self, Function.update_self]
  · rw [values, Function.update_of_ne hy, Function.update_of_ne hy, values]

/-- What an operator leaves in its target. -/
theorem values_update_map (σ : Store T) (x : Var) {r : Option (Obj (T x))} {z : Option ℤ}
    (h : r.map (Obj.value native) = z.map (T x).wrap) :
    (r.map (Function.update σ x)).map (values native) =
      z.map fun a => Function.update (values native σ) x ((T x).wrap a) := by
  have hupdate : values native ∘ Function.update σ x =
      Function.update (values native σ) x ∘ Obj.value native :=
    funext fun o => values_update native σ x o
  rw [Option.map_map, hupdate, ← Option.map_map, h, Option.map_map]
  rfl

/-- One statement. -/
theorem Stmt.exec_values (σ : Store T) (s : Stmt T) :
    (s.exec native σ).map (values native) = s.int (values native σ) := by
  induction s with
  | assign x e =>
      rw [exec, int, ← e.eval_value, Option.map_map, Option.map_map]
      refine congrArg (fun f => Option.map f _) (funext fun o => ?_)
      rw [Function.comp_apply, Function.comp_apply, values_update, value_assignTo]
  | assignWord x val =>
      rw [exec, int, Option.map_some, values_update, Obj.value_set native _ _ (T x).sign]
  | compound op x e =>
      rw [exec, int, ← e.eval_value, Option.map_bind, Option.bind_map]
      refine congrArg (Option.bind _) (funext fun o => ?_)
      rw [Function.comp_apply, Function.comp_apply, Ty.operand, ← Obj.read_get]
      exact values_update_map native σ x (Obj.value_compound native (σ x) op _)
  | compoundWord op x v =>
      exact values_update_map native σ x (Obj.value_compound native (σ x) op v)
  | preIncr x =>
      rw [exec, int, Option.map_some, values_update, Obj.value_preIncr]
      rfl
  | preDecr x =>
      rw [exec, int, Option.map_some, values_update, Obj.value_preDecr]
      rfl
  | postIncr x y =>
      rw [exec, int, Option.map_some, values_update, values_update, value_assignTo,
        Obj.postIncr_eq, Obj.value_preIncr]
      rfl
  | postDecr x y =>
      rw [exec, int, Option.map_some, values_update, values_update, value_assignTo,
        Obj.postDecr_eq, Obj.value_preDecr]
      rfl
  | ifThen c s ih =>
      rw [exec, int, ← c.eval_eq, Option.map_bind]
      refine congrArg (Option.bind _) (funext fun b => ?_)
      rw [Function.comp_apply]
      split_ifs
      · exact ih
      · rfl

theorem run_values (p : List (Stmt T)) (σ : Store T) :
    (run native p σ).map (values native) = meaning p (values native σ) := by
  induction p generalizing σ with
  | nil => rfl
  | cons s rest ih =>
      rw [run, meaning, ← s.exec_values, Option.map_bind, Option.bind_map]
      exact congrArg (Option.bind _) (funext ih)

/-- **Programs.**  For variables of both classes and of any sizes, in either byte order, every
program on the bytes has undefined behaviour exactly where its meaning on the integers is undefined,
and else ends with the values that it means, each reduced to the bytes of its variable.  The values
determine the bytes. -/
theorem programs_wrap (p : List (Stmt T)) (σ : Store T) :
    (run native p σ).map (values native) = meaning p (values native σ) ∧
      (∀ x, (T x).wrap (values native σ x) = values native σ x) ∧
      ∀ τ : Store T, values native τ = values native σ → τ = σ :=
  ⟨run_values native p σ, fun x => Obj.wrap_value native (σ x),
    fun _ h => funext fun x => Obj.eq_of_value native (congrFun h x)⟩

end Core
end Chenc
