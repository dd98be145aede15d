import Chenc.Lib.ByteOrder
import Chenc.Lib.Cells
import Chenc.Vm.Core

/-!
# Stack — the stack of the virtual machine in its memory

Model of `cc_stack_push` and `cc_stack_pop_u` of `vm/func.hpp`, over any memory whose words of
eight bytes lie in flat bytes.

* `Memory` : the operations `load` and `store` of a memory, whose bodies are still empty, with what
  is assumed of them;
* `OnStack` : the values a stack pointer spells out in memory, the top first;
* `onStack_push`, `onStack_pop`, `popReg_spec` : a push puts a value in front, a pop takes it away.
-/

namespace Chenc
namespace Vm

open ByteOrder (bytesOf ofBytes)
open Cells (Within Apart)

/-- A memory of flat bytes at addresses modulo `2^64`, whose words of eight bytes are stored with
the least significant byte first. -/
class Memory (M : Type) where
  bytes : M → U64 → BitVec 8
  load : Nat → M → U64 → U64
  store : Nat → M → U64 → U64 → M
  load_eight : ∀ (ram : M) (addr : U64),
    load 8 ram addr = ofBytes .little 8 (Cells.read (bytes ram) addr 8)
  bytes_store_eight : ∀ (ram : M) (addr val : U64),
    bytes (store 8 ram addr val) = Cells.write (bytes ram) addr (bytesOf (n := 8) .little val)

namespace Memory

variable {M : Type} [Memory M]

/-- A memory that is nothing but its bytes. -/
instance : Memory (U64 → BitVec 8) where
  bytes ram := ram
  load byte ram addr := (ofBytes .little byte (Cells.read ram addr byte)).setWidth 64
  store byte ram addr val := Cells.write ram addr (bytesOf (n := byte) .little (val.setWidth _))
  load_eight _ _ := BitVec.setWidth_eq _
  bytes_store_eight ram addr val :=
    congrArg (fun word => Cells.write ram addr (bytesOf (n := 8) .little word))
      (BitVec.setWidth_eq val)

theorem load_store (ram : M) (addr val : U64) : load 8 (store 8 ram addr val) addr = val := by
  have hlen : (bytesOf (n := 8) .little val).length = 8 := ByteOrder.length_bytesOf .little _
  have hfit : (bytesOf (n := 8) .little val).length ≤ 2 ^ 64 := by
    rw [hlen]
    decide
  have hread := Cells.read_write (bytes ram) addr hfit
  rw [hlen] at hread
  rw [load_eight, bytes_store_eight, hread]
  exact ByteOrder.ofBytes_bytesOf (n := 8) .little val

/-- A word depends on its eight bytes only. -/
theorem load_congr {ram ram' : M} {addr : U64}
    (h : ∀ x, Within addr 8 x → bytes ram x = bytes ram' x) :
    load 8 ram addr = load 8 ram' addr := by
  rw [load_eight, load_eight, Cells.read_congr (by decide) h]

/-- A store changes no byte outside its word. -/
theorem bytes_store_of_not_within (ram : M) {addr x : U64} (val : U64) (h : ¬ Within addr 8 x) :
    bytes (store 8 ram addr val) x = bytes ram x := by
  rw [bytes_store_eight]
  refine Cells.write_of_not_within _ ?_
  rwa [ByteOrder.length_bytesOf]

end Memory

variable {M : Type} [Memory M]

namespace VmData

/-- `cc_stack_push(byte, val)`. -/
def stackPush (byte : Nat) (data : VmData M) (val : U64) : VmData M :=
  let curSp := data.reg.load RegMap.sp
  let newSp := curSp - BitVec.ofNat 64 byte
  { data with ram := Memory.store byte data.ram newSp val }.storeReg RegMap.sp newSp

/-- `cc_stack_pop_u(byte)`. -/
def stackPopU (byte : Nat) (data : VmData M) : U64 × VmData M :=
  let curSp := data.reg.load RegMap.sp
  let val := Memory.load byte data.ram curSp
  (val, data.storeReg RegMap.sp (curSp + BitVec.ofNat 64 byte))

end VmData

/-- `cc_store_reg(i, cc_stack_pop_u(byte))`. -/
def popReg (byte : Nat) (data : VmData M) (i : RegIndex) : VmData M :=
  (data.stackPopU byte).2.storeReg i (data.stackPopU byte).1

@[simp] theorem ram_popReg (byte : Nat) (data : VmData M) (i : RegIndex) :
    (popReg byte data i).ram = data.ram := rfl

/-! ## The values on the stack -/

/-- The words in memory from an address on. -/
def Spells (ram : M) : U64 → List U64 → Prop
  | _, [] => True
  | addr, v :: vs => Memory.load 8 ram addr = v ∧ Spells ram (addr + 8) vs

/-- The values on the stack start with `vs`, the top first. -/
def OnStack (data : VmData M) (vs : List U64) : Prop :=
  Spells data.ram (data.reg.load RegMap.sp) vs

/-- The words depend on their bytes only. -/
theorem Spells.congr {ram ram' : M} {addr : U64} {vs : List U64} (h : Spells ram addr vs)
    (hsame : ∀ x, Within addr (8 * vs.length) x → Memory.bytes ram' x = Memory.bytes ram x) :
    Spells ram' addr vs := by
  induction vs generalizing addr with
  | nil => trivial
  | cons v vs ih =>
      rcases h with ⟨hload, hrest⟩
      have hlen : 8 * (v :: vs).length = 8 + 8 * vs.length := by
        rw [List.length_cons, Nat.mul_succ, Nat.add_comm]
      rw [hlen] at hsame
      constructor
      · rw [← hload]
        exact Memory.load_congr fun x hx => hsame x (hx.mono (Nat.le_add_right 8 _))
      · exact ih hrest fun x hx => hsame x (Within.of_offset (k := 8) hx)

theorem load_sp_stackPush (data : VmData M) (val : U64) :
    (data.stackPush 8 val).reg.load RegMap.sp = data.reg.load RegMap.sp - 8 :=
  Reg.load_store_self data.reg (i := RegMap.sp) (by decide) _

theorem load_stackPush_of_ne (data : VmData M) (byte : Nat) (val : U64) {i : RegIndex}
    (hi : i ≠ RegMap.sp) : (data.stackPush byte val).reg.load i = data.reg.load i :=
  Reg.load_store_of_ne _ hi _

/-- A push changes no byte but the eight below `sp`. -/
theorem bytes_stackPush (data : VmData M) (val : U64) {x : U64}
    (h : ¬ Within (data.reg.load RegMap.sp - 8) 8 x) :
    Memory.bytes (data.stackPush 8 val).ram x = Memory.bytes data.ram x :=
  Memory.bytes_store_of_not_within data.ram val h

/-- A push puts a value in front of those on the stack, as long as these leave room for it. -/
theorem onStack_push {data : VmData M} {vs : List U64} (h : OnStack data vs) (val : U64)
    (hroom : 8 * (vs.length + 1) ≤ 2 ^ 64) : OnStack (data.stackPush 8 val) (val :: vs) := by
  have hbelow : Apart (data.reg.load RegMap.sp - 8) 8 (data.reg.load RegMap.sp)
      (8 * vs.length) := Cells.apart_below (n := 8) _ (by omega)
  rw [OnStack, load_sp_stackPush]
  constructor
  · exact Memory.load_store data.ram _ val
  · rw [BitVec.sub_add_cancel]
    exact h.congr fun x hx => bytes_stackPush data val fun hbelow' => hbelow x hbelow' hx

/-- A pop gives the first of the values on the stack and leaves the rest. -/
theorem onStack_pop {data : VmData M} {v : U64} {vs : List U64} (h : OnStack data (v :: vs)) :
    (data.stackPopU 8).1 = v ∧ OnStack (data.stackPopU 8).2 vs := by
  refine ⟨h.1, ?_⟩
  have hsp : (data.stackPopU 8).2.reg.load RegMap.sp = data.reg.load RegMap.sp + 8 :=
    Reg.load_store_self data.reg (i := RegMap.sp) (by decide) _
  rw [OnStack, hsp]
  exact h.2

/-- One pop into a register that is neither `zero` nor `sp`. -/
theorem popReg_spec {i : RegIndex} (hzero : i ≠ RegMap.zero) (hsp : i ≠ RegMap.sp)
    {data : VmData M} {v : U64} {vs : List U64} (h : OnStack data (v :: vs)) :
    OnStack (popReg 8 data i) vs ∧ (popReg 8 data i).reg.load i = v ∧
      (popReg 8 data i).reg.load RegMap.sp = data.reg.load RegMap.sp + 8 ∧
      ∀ j, j ≠ i → j ≠ RegMap.sp → (popReg 8 data i).reg.load j = data.reg.load j := by
  rcases onStack_pop h with ⟨hv, hstack⟩
  have hother : ∀ j, j ≠ i →
      (popReg 8 data i).reg.load j = (data.stackPopU 8).2.reg.load j :=
    fun j hj => Reg.load_store_of_ne _ hj _
  refine ⟨?_, ?_, ?_, ?_⟩
  · rw [OnStack, hother _ hsp.symm]
    exact hstack
  · rw [← hv]
    exact Reg.load_store_self _ hzero _
  · rw [hother _ hsp.symm]
    exact Reg.load_store_self data.reg (i := RegMap.sp) (by decide) _
  · intro j hj hjsp
    rw [hother j hj]
    exact Reg.load_store_of_ne data.reg hjsp _

end Vm
end Chenc
