import Chenc.Vm.Stack
import Mathlib.Logic.Relation

/-!
# CallFrames — calls and returns of the virtual machine

Model of `call_r0i1` and `return_r0i1` of `vm/func.hpp`, with `pc` as one more slot of
`reg_t::reg_`. A call pushes `pc` and `fp` and lets `fp` point to them; a return takes everything
from there.

* `Suspended`, `Machine` : what a call suspends, and a machine with the calls still open;
* `Step` : a call, a piece of code that spares `fp` and the frames of the open calls, a return;
* `Chain` : the frames in memory, linked by the frame pointers they save, spell out the open calls;
* `returns_restore` : each return gives back what its call has suspended.
-/

namespace Chenc
namespace Vm

open Cells (Within Apart)

variable {M : Type} [Memory M]

/-! ## The instructions -/

/-- The enumerator `pc` as a number. -/
def pcNumber : U64 :=
  BitVec.ofNat 64 RegMap.pc.val

def callR0i1 (data : VmData M) : VmData M :=
  let pcu := data.reg.load RegMap.pc
  let fpu := data.reg.load RegMap.fp
  let imm21s := signExt 21 data.code.imm21
  let data := data.stackPush 8 pcu
  let data := data.stackPush 8 fpu
  let data := data.storeReg RegMap.fp (data.reg.load RegMap.sp)
  -- `pc` stands for the enumerator here, not for its value `pcu`.
  data.storeReg RegMap.pc (pcNumber + imm21s * 4)

def returnR0i1 (data : VmData M) : VmData M :=
  let fpu := data.reg.load RegMap.fp
  let data := data.storeReg RegMap.sp fpu
  let data := popReg 8 data RegMap.fp
  popReg 8 data RegMap.pc

/-! ## Open calls -/

/-- What a call suspends. -/
@[ext] structure Suspended where
  pc : U64
  fp : U64
  sp : U64
  deriving DecidableEq, Repr

/-- The address of the frame that is saved below `sp`. -/
def Suspended.base (f : Suspended) : U64 :=
  f.sp - 16

def VmData.suspended (data : VmData M) : Suspended where
  pc := data.reg.load RegMap.pc
  fp := data.reg.load RegMap.fp
  sp := data.reg.load RegMap.sp

/-- A machine, and what the calls that have not returned have suspended, the last one first. -/
structure Machine (M : Type) where
  data : VmData M
  calls : List Suspended

/-- One step of a machine. -/
inductive Step : Machine M → Machine M → Prop
  | call (data : VmData M) (calls : List Suspended) :
      (∀ f ∈ calls, Apart data.suspended.base 16 f.base 16) →
      Step ⟨data, calls⟩ ⟨callR0i1 data, data.suspended :: calls⟩
  /-- Code of the callee: any change but to `fp` and to the frames of the open calls. -/
  | code (data data' : VmData M) (calls : List Suspended) :
      (calls ≠ [] → data'.reg.load RegMap.fp = data.reg.load RegMap.fp) →
      (∀ f ∈ calls, ∀ x, Within f.base 16 x →
        Memory.bytes data'.ram x = Memory.bytes data.ram x) →
      Step ⟨data, calls⟩ ⟨data', calls⟩
  | ret (data : VmData M) (f : Suspended) (calls : List Suspended) :
      Step ⟨data, f :: calls⟩ ⟨returnR0i1 data, calls⟩

/-! ## The chain of frames -/

/-- From a frame pointer on, memory spells out the open calls: each frame holds the `fp` and the
`pc` that were suspended, and that `fp` leads to the next frame. -/
def Chain (ram : M) : U64 → List Suspended → Prop
  | _, [] => True
  | fp, f :: calls => fp = f.base ∧ Spells ram f.base [f.fp, f.pc] ∧ Chain ram f.fp calls

/-- The chain depends on the frames only. -/
theorem Chain.congr {ram ram' : M} {fp : U64} {calls : List Suspended} (h : Chain ram fp calls)
    (hsame : ∀ f ∈ calls, ∀ x, Within f.base 16 x →
      Memory.bytes ram' x = Memory.bytes ram x) : Chain ram' fp calls := by
  induction calls generalizing fp with
  | nil => trivial
  | cons f calls ih =>
      rcases h with ⟨hfp, hframe, hrest⟩
      rcases List.forall_mem_cons.1 hsame with ⟨hfirst, hothers⟩
      exact ⟨hfp, hframe.congr hfirst, ih hrest hothers⟩

/-- The state of a call behind its two pushes. -/
def VmData.saved (data : VmData M) : VmData M :=
  (data.stackPush 8 data.suspended.pc).stackPush 8 data.suspended.fp

theorem load_sp_saved (data : VmData M) :
    data.saved.reg.load RegMap.sp = data.suspended.base := by
  rw [VmData.saved, load_sp_stackPush, load_sp_stackPush, BitVec.sub_sub]
  rfl

/-- A call changes no byte outside its frame. -/
theorem bytes_callR0i1 (data : VmData M) {x : U64} (h : ¬ Within data.suspended.base 16 x) :
    Memory.bytes (callR0i1 data).ram x = Memory.bytes data.ram x := by
  have hbase : data.suspended.base + 8 = data.reg.load RegMap.sp - 8 := by
    rw [← load_sp_saved, VmData.saved, load_sp_stackPush, load_sp_stackPush,
      BitVec.sub_add_cancel]
  have hpc : ¬ Within (data.reg.load RegMap.sp - 8) 8 x := by
    rw [← hbase]
    exact fun hx => h (Within.of_offset (k := 8) hx)
  have hfp : ¬ Within ((data.stackPush 8 data.suspended.pc).reg.load RegMap.sp - 8) 8 x := by
    rw [← load_sp_stackPush _ data.suspended.fp]
    exact fun hx => h ((load_sp_saved data ▸ hx).mono (by decide))
  exact (bytes_stackPush _ _ hfp).trans (bytes_stackPush _ _ hpc)

/-- A call leaves `fp` at its frame, which holds what was suspended. -/
theorem frame_callR0i1 (data : VmData M) :
    (callR0i1 data).reg.load RegMap.fp = data.suspended.base ∧
      Spells (callR0i1 data).ram data.suspended.base
        [data.suspended.fp, data.suspended.pc] := by
  have hempty : OnStack data [] := trivial
  have hpc : OnStack (data.stackPush 8 data.suspended.pc) [data.suspended.pc] :=
    onStack_push hempty _ (by simp)
  have hstack : OnStack data.saved [data.suspended.fp, data.suspended.pc] :=
    onStack_push hpc _ (by simp)
  have hne : RegMap.fp ≠ RegMap.pc := by decide
  constructor
  · rw [← load_sp_saved]
    exact (Reg.load_store_of_ne _ hne _).trans
      (Reg.load_store_self data.saved.reg (i := RegMap.fp) (by decide) _)
  · rwa [OnStack, load_sp_saved] at hstack

/-- A return follows the frame pointer to the frame and leaves the memory alone. -/
theorem suspended_returnR0i1 {data : VmData M} {f : Suspended} {calls : List Suspended}
    (h : Chain data.ram (data.reg.load RegMap.fp) (f :: calls)) :
    (returnR0i1 data).suspended = f ∧ (returnR0i1 data).ram = data.ram := by
  refine ⟨?_, rfl⟩
  rcases h with ⟨hbase, hframe, -⟩
  have hsp : (data.storeReg RegMap.sp (data.reg.load RegMap.fp)).reg.load RegMap.sp = f.base := by
    rw [← hbase]
    exact Reg.load_store_self data.reg (i := RegMap.sp) (by decide) _
  have hstack : OnStack (data.storeReg RegMap.sp (data.reg.load RegMap.fp)) [f.fp, f.pc] := by
    rw [OnStack, hsp]
    exact hframe
  rcases popReg_spec (i := RegMap.fp) (by decide) (by decide) hstack with
    ⟨hstack', hfp, hsp', -⟩
  rcases popReg_spec (i := RegMap.pc) (by decide) (by decide) hstack' with
    ⟨-, hpc, hsp'', hothers⟩
  ext1
  · exact hpc
  · exact (hothers RegMap.fp (by decide) (by decide)).trans hfp
  · calc
      (returnR0i1 data).reg.load RegMap.sp = f.base + 8 + 8 := by
        rw [returnR0i1, hsp'', hsp', hsp]
      _ = f.sp := by
        rw [BitVec.add_assoc]
        exact BitVec.sub_add_cancel _ _

/-! ## Runs -/

/-- What holds of a machine whose open calls are spelled out in memory. -/
def Machine.Linked (m : Machine M) : Prop :=
  Chain m.data.ram (m.data.reg.load RegMap.fp) m.calls

theorem Step.linked {m m' : Machine M} (hstep : Step m m') (h : m.Linked) : m'.Linked := by
  cases hstep with
  | call data calls hapart =>
      rcases frame_callR0i1 data with ⟨hfp, hframe⟩
      refine ⟨hfp, hframe, ?_⟩
      -- The new frame lies outside the frames of the open calls.
      refine Chain.congr h fun f hf x hx => bytes_callR0i1 data fun hnew => ?_
      exact hapart f hf x hnew hx
  | code data data' calls hfp hmem =>
      rcases calls with _ | ⟨f, calls⟩
      · trivial
      · rw [Machine.Linked, hfp (List.cons_ne_nil f calls)]
        exact Chain.congr h hmem
  | ret data f calls =>
      rcases suspended_returnR0i1 h with ⟨hsame, hram⟩
      have hfp : (returnR0i1 data).reg.load RegMap.fp = f.fp := congrArg Suspended.fp hsame
      rw [Machine.Linked, hfp, hram]
      exact h.2.2

theorem linked_of_run {data : VmData M} {m : Machine M}
    (hrun : Relation.ReflTransGen Step ⟨data, []⟩ m) : m.Linked := by
  induction hrun with
  | refl => trivial
  | tail _ hstep ih => exact hstep.linked ih

/-- Returns in a row walk down the chain. -/
theorem Chain.suspended_iterate {calls : List Suspended} {data : VmData M}
    (h : Chain data.ram (data.reg.load RegMap.fp) calls) {k : Nat} {f : Suspended}
    (hk : calls[k]? = some f) : (returnR0i1^[k + 1] data).suspended = f := by
  induction k generalizing calls data with
  | zero =>
      rcases calls with _ | ⟨g, calls⟩
      · cases hk
      · cases hk
        exact (suspended_returnR0i1 h).1
  | succ k ih =>
      rcases calls with _ | ⟨g, calls⟩
      · cases hk
      · rcases suspended_returnR0i1 h with ⟨hsame, hram⟩
        have hfp : (returnR0i1 data).reg.load RegMap.fp = g.fp := congrArg Suspended.fp hsame
        have hrest : Chain (returnR0i1 data).ram ((returnR0i1 data).reg.load RegMap.fp) calls := by
          rw [hfp, hram]
          exact h.2.2
        rw [Function.iterate_succ_apply]
        exact ih hrest hk

/-- **Call frames nest.**  However calls, code of the callees and returns have followed each
other, the returns that follow give back `pc`, `fp` and `sp` as they were just before the calls
still open, one after the other from the last one on. -/
theorem returns_restore {data : VmData M} {m : Machine M}
    (hrun : Relation.ReflTransGen Step ⟨data, []⟩ m) {k : Nat} {f : Suspended}
    (hk : m.calls[k]? = some f) : (returnR0i1^[k + 1] m.data).suspended = f :=
  (linked_of_run hrun).suspended_iterate hk

/-- A machine at some instruction, with its stack below address 8192. -/
def started : VmData (U64 → BitVec 8) where
  ram := fun _ => 0
  reg := { reg := fun i => if i = RegMap.sp then 8192 else if i = RegMap.pc then 400 else 7 }
  code := { code := 0 }

/-- A callee that moves `sp` down, changes `pc` and `t0`, and writes a byte. -/
def running : VmData (U64 → BitVec 8) :=
  let data := ((callR0i1 started).storeReg RegMap.sp 8000).storeReg RegMap.pc 500
  { data.storeReg RegMap.t0 1 with ram := Function.update data.ram 8100 255 }

/-- Two calls, the second one from the callee of the first. -/
theorem returns_restore_nested :
    (returnR0i1 (callR0i1 running)).suspended = running.suspended ∧
      (returnR0i1 (returnR0i1 (callR0i1 running))).suspended = started.suspended := by
  have hbase : started.suspended.base = 8176#64 := by decide
  have hbase' : running.suspended.base = 7984#64 := by decide
  have hfirst : Step ⟨started, []⟩ ⟨callR0i1 started, [started.suspended]⟩ :=
    .call started [] (by simp)
  have hcode : Step ⟨callR0i1 started, [started.suspended]⟩ ⟨running, [started.suspended]⟩ := by
    refine .code _ _ _ (fun _ => rfl) fun f hf x hx => ?_
    rw [List.mem_singleton.1 hf, hbase] at hx
    refine Function.update_of_ne ?_ _ _
    rintro rfl
    revert hx
    decide
  have hsecond : Step ⟨running, [started.suspended]⟩
      ⟨callR0i1 running, [running.suspended, started.suspended]⟩ := by
    refine .call running _ fun f hf x hx hx' => ?_
    rw [List.mem_singleton.1 hf, hbase] at hx'
    rw [hbase'] at hx
    unfold Within at hx hx'
    bv_omega
  have hrun := ((Relation.ReflTransGen.single hfirst).tail hcode).tail hsecond
  exact ⟨returns_restore hrun (k := 0) rfl, returns_restore hrun (k := 1) rfl⟩

end Vm
end Chenc
