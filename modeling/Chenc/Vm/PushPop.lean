import Chenc.Vm.Stack
import Mathlib.Data.List.Palindrome

/-!
# PushPop — saving registers on the stack and restoring them

Model of `push_xs_xB_r4i1` and `popu_xs_xB_r4i1` of `vm/func.hpp`. The instruction table lists the
pops from the last register to the first; the code pops in the order in which it has pushed.

* `pushXsXBR4i1_eq`, `popuXsXBR4i1_eq` : both go through the register fields from the first on;
* `pushed`, `popped` : what a row of pushes and a row of pops do, for any list of registers;
* `popAfterPush_restored_iff` : popping undoes pushing where the values read the same both ways.
-/

namespace Chenc
namespace Vm

variable {M : Type} [Memory M]

/-! ## The instructions -/

/-- `cc_load_reg0_u(); cc_stack_push(byte, reg0);`, and the same for the other fields. -/
def pushReg (byte : Nat) (data : VmData M) (i : RegIndex) : VmData M :=
  data.stackPush byte (data.reg.load i)

/-- `push_xs_xB_r4i1<Size, Byte>`, for a `Size` of at most 4. -/
def pushXsXBR4i1 (size byte : Nat) (data : VmData M) : VmData M :=
  let data := if 1 ≤ size then pushReg byte data data.code.reg0 else data
  let data := if 2 ≤ size then pushReg byte data data.code.reg1 else data
  let data := if 3 ≤ size then pushReg byte data data.code.reg2 else data
  if 4 ≤ size then pushReg byte data data.code.reg3 else data

/-- `popu_xs_xB_r4i1<Size, Byte>`, for a `Size` of at most 4. -/
def popuXsXBR4i1 (size byte : Nat) (data : VmData M) : VmData M :=
  let data := if 1 ≤ size then popReg byte data data.code.reg0 else data
  let data := if 2 ≤ size then popReg byte data data.code.reg1 else data
  let data := if 3 ≤ size then popReg byte data data.code.reg2 else data
  if 4 ≤ size then popReg byte data data.code.reg3 else data

/-- The first `size` register fields of an instruction word. -/
def Opcode.fields (c : Opcode) (size : Nat) : List RegIndex :=
  [c.reg0, c.reg1, c.reg2, c.reg3].take size

theorem pushXsXBR4i1_eq (size byte : Nat) (data : VmData M) :
    pushXsXBR4i1 size byte data = (data.code.fields size).foldl (pushReg byte) data := by
  match size with
  | 0 | 1 | 2 | 3 => rfl
  | size + 4 => simp [pushXsXBR4i1, Opcode.fields, pushReg, VmData.stackPush]

theorem popuXsXBR4i1_eq (size byte : Nat) (data : VmData M) :
    popuXsXBR4i1 size byte data = (data.code.fields size).foldl (popReg byte) data := by
  match size with
  | 0 | 1 | 2 | 3 => rfl
  | size + 4 => simp [popuXsXBR4i1, Opcode.fields, popReg, VmData.stackPopU]

/-! ## Rows of pushes and pops -/

/-- One word and the words behind it, in bytes. -/
theorem eight_add (k : Nat) :
    (8 : U64) + BitVec.ofNat 64 (8 * k) = BitVec.ofNat 64 (8 * (k + 1)) := by
  rw [Nat.mul_succ, Nat.add_comm (8 * k), BitVec.ofNat_add]
  rfl

/-- After a row of pushes the values of the registers are on the stack, the last one on top. -/
structure Pushed (regs : List RegIndex) (before after : VmData M) (vs : List U64) : Prop where
  values : OnStack after ((regs.map before.reg.load).reverse ++ vs)
  sp : after.reg.load RegMap.sp = before.reg.load RegMap.sp - BitVec.ofNat 64 (8 * regs.length)
  others : ∀ i, i ≠ RegMap.sp → after.reg.load i = before.reg.load i
  code : after.code = before.code

theorem pushed {regs : List RegIndex} (hsp : RegMap.sp ∉ regs) {data : VmData M} {vs : List U64}
    (h : OnStack data vs) (hroom : 8 * (vs.length + regs.length) ≤ 2 ^ 64) :
    Pushed regs data (regs.foldl (pushReg 8) data) vs := by
  induction regs generalizing data vs with
  | nil => exact ⟨h, (BitVec.sub_zero _).symm, fun _ _ => rfl, rfl⟩
  | cons i regs ih =>
      rw [List.mem_cons, not_or] at hsp
      rw [List.length_cons] at hroom
      have hfirst : OnStack (pushReg 8 data i) (data.reg.load i :: vs) :=
        onStack_push h _ (by omega)
      have hrest := ih hsp.2 hfirst (by rw [List.length_cons]; omega)
      have hkept : ∀ j, j ≠ RegMap.sp → (pushReg 8 data i).reg.load j = data.reg.load j :=
        fun j hj => load_stackPush_of_ne data 8 _ hj
      -- The values pushed later are still those of before, as no register but `sp` changes.
      have hsame : regs.map (pushReg 8 data i).reg.load = regs.map data.reg.load :=
        List.map_congr_left fun j hj => hkept j fun heq => hsp.2 (heq ▸ hj)
      constructor
      · have hvalues := hrest.values
        rw [hsame] at hvalues
        simpa using hvalues
      · calc
          _ = (pushReg 8 data i).reg.load RegMap.sp - BitVec.ofNat 64 (8 * regs.length) := hrest.sp
          _ = data.reg.load RegMap.sp - 8 - BitVec.ofNat 64 (8 * regs.length) :=
              congrArg (· - _) (load_sp_stackPush data _)
          _ = data.reg.load RegMap.sp - BitVec.ofNat 64 (8 * (regs.length + 1)) := by
              rw [BitVec.sub_sub, eight_add]
      · intro j hj
        exact (hrest.others j hj).trans (hkept j hj)
      · exact hrest.code

/-- After a row of pops the registers hold the values of the stack, the first one its top. -/
structure Popped (regs : List RegIndex) (before after : VmData M) (vs : List U64) : Prop where
  values : regs.map after.reg.load = vs
  sp : after.reg.load RegMap.sp = before.reg.load RegMap.sp + BitVec.ofNat 64 (8 * regs.length)
  others : ∀ i, i ∉ regs → i ≠ RegMap.sp → after.reg.load i = before.reg.load i

theorem popped {regs : List RegIndex} (hnodup : regs.Nodup) (hzero : RegMap.zero ∉ regs)
    (hsp : RegMap.sp ∉ regs) {data : VmData M} {vs : List U64} (h : OnStack data vs)
    (hlen : vs.length = regs.length) :
    Popped regs data (regs.foldl (popReg 8) data) vs := by
  induction regs generalizing data vs with
  | nil =>
      refine ⟨?_, (BitVec.add_zero _).symm, fun _ _ _ => rfl⟩
      exact (List.eq_nil_of_length_eq_zero hlen).symm
  | cons i regs ih =>
      rcases vs with _ | ⟨v, vs⟩
      · cases hlen
      · rw [List.nodup_cons] at hnodup
        rw [List.mem_cons, not_or] at hzero hsp
        rcases popReg_spec (Ne.symm hzero.1) (Ne.symm hsp.1) h with ⟨hstack, hv, hstep, hkept⟩
        have hrest := ih hnodup.2 hzero.2 hsp.2 hstack (Nat.succ.inj hlen)
        constructor
        · -- The pops that follow are into other registers.
          have hfirst := hrest.others i hnodup.1 (Ne.symm hsp.1)
          rw [List.foldl_cons, List.map_cons, hrest.values, hfirst, hv]
        · calc
            _ = (popReg 8 data i).reg.load RegMap.sp + BitVec.ofNat 64 (8 * regs.length) :=
                hrest.sp
            _ = data.reg.load RegMap.sp + 8 + BitVec.ofNat 64 (8 * regs.length) :=
                congrArg (· + _) hstep
            _ = data.reg.load RegMap.sp + BitVec.ofNat 64 (8 * (regs.length + 1)) := by
                rw [BitVec.add_assoc, eight_add]
        · intro j hj hjsp
          rw [List.mem_cons, not_or] at hj
          exact (hrest.others j hj.2 hjsp).trans (hkept j hj.1 hjsp)

/-! ## Pop after push -/

/-- Restoring the registers of a word after saving them, with `changed` for the register file in
between. -/
def popAfterPush (size : Nat) (data : VmData M) (changed : Reg) : VmData M :=
  popuXsXBR4i1 size 8 { pushXsXBR4i1 size 8 data with reg := changed }

/-- The registers of the word and `sp` hold what they held before, and all others too. -/
def Restored (data after : VmData M) : Prop :=
  ∀ i, after.reg.load i = data.reg.load i

section Saved

variable {size : Nat} {data : VmData M} {changed : Reg}

/-- **Pop reverses push.**  Popping gives the values back in the opposite order, to registers that
may have changed in between, and moves `sp` back to where it was. -/
theorem popAfterPush_spec (hnodup : (data.code.fields size).Nodup)
    (hzero : RegMap.zero ∉ data.code.fields size) (hsp : RegMap.sp ∉ data.code.fields size)
    (hchanged : ∀ i, i ∉ data.code.fields size →
      changed.load i = (pushXsXBR4i1 size 8 data).reg.load i) :
    (data.code.fields size).map (popAfterPush size data changed).reg.load =
        ((data.code.fields size).map data.reg.load).reverse ∧
      ∀ i, i ∉ data.code.fields size →
        (popAfterPush size data changed).reg.load i = data.reg.load i := by
  have hfew : (data.code.fields size).length ≤ 4 := List.length_take_le' size _
  have hpush : Pushed (data.code.fields size) data (pushXsXBR4i1 size 8 data) [] := by
    rw [pushXsXBR4i1_eq]
    exact pushed hsp trivial (by rw [List.length_nil]; omega)
  have hsp' : changed.load RegMap.sp = (pushXsXBR4i1 size 8 data).reg.load RegMap.sp :=
    hchanged _ hsp
  have hstack : OnStack { pushXsXBR4i1 size 8 data with reg := changed }
      ((data.code.fields size).map data.reg.load).reverse := by
    have hvalues := hpush.values
    rw [List.append_nil, OnStack, ← hsp'] at hvalues
    exact hvalues
  have hpop : Popped (data.code.fields size) { pushXsXBR4i1 size 8 data with reg := changed }
      (popAfterPush size data changed) ((data.code.fields size).map data.reg.load).reverse := by
    rw [popAfterPush, popuXsXBR4i1_eq]
    show Popped _ _ (((pushXsXBR4i1 size 8 data).code.fields size).foldl (popReg 8) _) _
    rw [hpush.code]
    exact popped hnodup hzero hsp hstack (by simp)
  refine ⟨hpop.values, fun i hi => ?_⟩
  by_cases hisp : i = RegMap.sp
  · -- As many bytes are popped as were pushed.
    rw [hisp, hpop.sp]
    show changed.load RegMap.sp + _ = _
    rw [hsp', hpush.sp, BitVec.sub_add_cancel]
  · rw [hpop.others i hi hisp]
    exact (hchanged i hi).trans (hpush.others i hisp)

/-- **When pop undoes push.**  Saving the registers of a word and restoring them, whatever they
are changed to in between, leaves all registers as they were before if and only if their values
read the same from the first to the last as from the last to the first. -/
theorem popAfterPush_restored_iff (hnodup : (data.code.fields size).Nodup)
    (hzero : RegMap.zero ∉ data.code.fields size) (hsp : RegMap.sp ∉ data.code.fields size)
    (hchanged : ∀ i, i ∉ data.code.fields size →
      changed.load i = (pushXsXBR4i1 size 8 data).reg.load i) :
    Restored data (popAfterPush size data changed) ↔
      ((data.code.fields size).map data.reg.load).Palindrome := by
  rcases popAfterPush_spec hnodup hzero hsp hchanged with ⟨hvalues, hothers⟩
  rw [List.Palindrome.iff_reverse_eq, ← hvalues]
  constructor
  · intro hrestored
    exact List.map_congr_left fun i _ => hrestored i
  · intro heq i
    by_cases hi : i ∈ data.code.fields size
    · exact List.map_inj_left.1 heq i hi
    · exact hothers i hi

end Saved

/-- A machine whose registers `t0`, `t1`, `t2` hold the given values, at an instruction word with
these three register fields. -/
def threeRegs (v0 v1 v2 : U64) : VmData (U64 → BitVec 8) where
  ram := fun _ => 0
  reg :=
    { reg := fun i =>
        if i = RegMap.t0 then v0 else if i = RegMap.t1 then v1 else if i = RegMap.t2 then v2
        else 0 }
  code := { code := 1 <<< 11 ||| 2 <<< 16 ||| 3 <<< 21 }

/-- Three registers that hold 5, 9 and 5 and are all cleared after they have been saved. -/
theorem popAfterPush_restored_iff_palindrome :
    Restored (threeRegs 5 9 5) (popAfterPush 3 (threeRegs 5 9 5)
      ((((pushXsXBR4i1 3 8 (threeRegs 5 9 5)).reg.store RegMap.t0 0).store RegMap.t1 0).store
        RegMap.t2 0)) := by
  refine (popAfterPush_restored_iff (by decide) (by decide) (by decide) ?_).2 ?_
  · intro i hi
    have hfields : (threeRegs 5 9 5).code.fields 3 = [RegMap.t0, RegMap.t1, RegMap.t2] := by
      decide
    rw [hfields] at hi
    simp only [List.mem_cons, List.not_mem_nil, or_false, not_or] at hi
    rw [Reg.load_store_of_ne _ hi.2.2, Reg.load_store_of_ne _ hi.2.1,
      Reg.load_store_of_ne _ hi.1]
  · rw [List.Palindrome.iff_reverse_eq]
    decide

/-- Two registers with different values are exchanged. -/
theorem not_restored_two :
    ¬ ∀ (size : Nat) (data : VmData (U64 → BitVec 8)) (changed : Reg), 1 ≤ size → size ≤ 4 →
      (data.code.fields size).Nodup → RegMap.zero ∉ data.code.fields size →
      RegMap.sp ∉ data.code.fields size →
      (∀ i, i ∉ data.code.fields size →
        changed.load i = (pushXsXBR4i1 size 8 data).reg.load i) →
      Restored data (popAfterPush size data changed) := by
  intro hall
  have hnodup : ((threeRegs 5 9 0).code.fields 2).Nodup := by decide
  have hzero : RegMap.zero ∉ (threeRegs 5 9 0).code.fields 2 := by decide
  have hsp : RegMap.sp ∉ (threeRegs 5 9 0).code.fields 2 := by decide
  have hrestored := hall 2 (threeRegs 5 9 0) _ (by decide) (by decide) hnodup hzero hsp
    fun _ _ => rfl
  have hspec := popAfterPush_spec hnodup hzero hsp fun _ _ => rfl
  have hsame : ((threeRegs 5 9 0).code.fields 2).map (threeRegs 5 9 0).reg.load =
      (((threeRegs 5 9 0).code.fields 2).map (threeRegs 5 9 0).reg.load).reverse := by
    rw [← hspec.1]
    exact (List.map_congr_left fun i _ => hrestored i).symm
  revert hsame
  decide

end Vm
end Chenc
