import Chenc.Lib.Bits

/-!
# Core — state and instruction words of the virtual machine

Model of `opcode_t`, `reg_map`, `reg_t` and `vm_data` of `vm/core.hpp`. The memory is a parameter:
the bodies of `memory::load` and `memory::store` are still empty.

* `Opcode.imm21`, `Opcode.imm21Slice` : the 21-bit immediate of an instruction word and its slices;
* `Opcode.reg0` … `Opcode.reg3` : its register fields;
* `Reg` : the register file, whose register `zero` is never written.
-/

namespace Chenc
namespace Vm

abbrev U32 : Type := BitVec 32
abbrev U64 : Type := BitVec 64

/-! ## Instruction words -/

/-- `opcode_t`. -/
structure Opcode where
  code : U32
  deriving DecidableEq, Repr

/-- `(u64(1) << width) - 1`. -/
def mask (width : Nat) : U64 :=
  ((1 : U64) <<< width) - 1

theorem toNat_mask {width : Nat} (h : width < 64) : (mask width).toNat = 2 ^ width - 1 := by
  have hlt : 2 ^ width < 2 ^ 64 := Nat.pow_lt_pow_right (by decide) h
  have hpos : 0 < 2 ^ width := Nat.two_pow_pos width
  have hone : (1 : U64).toNat = 1 := rfl
  have hshift : ((1 : U64) <<< width).toNat = 2 ^ width := by
    rw [Bits.toNat_shiftLeft_of_lt width (by rwa [hone, Nat.one_mul]), hone, Nat.one_mul]
  rw [mask, Bits.toNat_sub_one (by decide) (by omega), hshift]

namespace Opcode

def imm21 (c : Opcode) : U64 :=
  (c.code >>> 11).setWidth 64 &&& mask 21

/-- `cc_load_imm_slice_u(21, first, last)`. -/
def imm21Slice (c : Opcode) (first last : Nat) : U64 :=
  (c.imm21 >>> first) &&& mask (last - first)

theorem toNat_imm21 (c : Opcode) : c.imm21.toNat = c.code.toNat / 2 ^ 11 := by
  have hlt := c.code.isLt
  have hwide : ((c.code >>> 11).setWidth 64).toNat = c.code.toNat / 2 ^ 11 := by
    rw [BitVec.toNat_setWidth, Bits.toNat_ushiftRight, Nat.mod_eq_of_lt (by omega)]
  rw [imm21, Bits.toNat_and_low 21 (toNat_mask (by decide)), hwide]
  omega

theorem toNat_imm21Slice (c : Opcode) {first last : Nat} (h : last - first < 64) :
    (c.imm21Slice first last).toNat =
      c.code.toNat / 2 ^ 11 / 2 ^ first % 2 ^ (last - first) := by
  rw [imm21Slice, Bits.toNat_and_low _ (toNat_mask h), Bits.toNat_ushiftRight, toNat_imm21]

end Opcode

/-- `sign_ext<n>`. -/
def signExt (n : Nat) (val : U64) : U64 :=
  (val <<< (64 - n)).sshiftRight (64 - n)

/-! ## Registers -/

/-- An index into `reg_t::reg_`. -/
abbrev RegIndex : Type := Fin 33

namespace RegMap

/-- The register that reads as what it holds and ignores stores. -/
def zero : RegIndex := 0

def t0 : RegIndex := 1
def t1 : RegIndex := 2
def t2 : RegIndex := 3

/-- The frame pointer. -/
def fp : RegIndex := 29

/-- The stack pointer. -/
def sp : RegIndex := 30

/-- The slot of `reg_` behind those of `reg_map`. -/
def pc : RegIndex := 32

end RegMap

namespace Opcode

/-- `(code_ >> first) & ((u64(1) << 5) - 1)`. -/
def regField (c : Opcode) (first : Nat) : RegIndex :=
  ⟨((c.code >>> first).setWidth 64 &&& mask 5).toNat, by
    rw [Bits.toNat_and_low 5 (toNat_mask (by decide))]
    exact lt_trans (Nat.mod_lt _ (by decide)) (by decide)⟩

def reg0 (c : Opcode) : RegIndex :=
  c.regField 11

def reg1 (c : Opcode) : RegIndex :=
  c.regField 16

def reg2 (c : Opcode) : RegIndex :=
  c.regField 21

def reg3 (c : Opcode) : RegIndex :=
  c.regField 26

end Opcode

/-- `reg_t`. -/
structure Reg where
  reg : RegIndex → U64

namespace Reg

def store (r : Reg) (i : RegIndex) (val : U64) : Reg :=
  if i ≠ RegMap.zero then { reg := Function.update r.reg i val } else r

def load (r : Reg) (i : RegIndex) : U64 :=
  r.reg i

@[ext] theorem ext {r s : Reg} (h : ∀ i, r.load i = s.load i) : r = s := by
  cases r
  cases s
  exact congrArg mk (funext h)

theorem load_store (r : Reg) {i : RegIndex} (hi : i ≠ RegMap.zero) (val : U64) (j : RegIndex) :
    (r.store i val).load j = if j = i then val else r.load j := by
  rw [store, if_pos hi]
  exact Function.update_apply r.reg i val j

theorem load_store_self (r : Reg) {i : RegIndex} (hi : i ≠ RegMap.zero) (val : U64) :
    (r.store i val).load i = val := by
  rw [load_store r hi, if_pos rfl]

theorem load_store_of_ne (r : Reg) {i j : RegIndex} (h : j ≠ i) (val : U64) :
    (r.store i val).load j = r.load j := by
  by_cases hi : i = RegMap.zero
  · rw [store, if_neg (not_not.2 hi)]
  · rw [load_store r hi, if_neg h]

@[simp] theorem load_store_t0 (r : Reg) (val : U64) :
    (r.store RegMap.t0 val).load RegMap.t0 = val :=
  load_store_self r (by decide) val

end Reg

/-! ## Machine state -/

/-- The fields of `vm_data` that instructions work on, over the memories `M`. -/
structure VmData (M : Type) where
  ram : M
  reg : Reg
  code : Opcode

namespace VmData

variable {M : Type}

/-- `data.code_.decode(code)`. -/
def decode (data : VmData M) (code : U32) : VmData M :=
  { data with code := { code := code } }

/-- `cc_store_reg(i, val)`. -/
def storeReg (data : VmData M) (i : RegIndex) (val : U64) : VmData M :=
  { data with reg := data.reg.store i val }

@[simp] theorem reg_decode (data : VmData M) (code : U32) : (data.decode code).reg = data.reg := rfl

@[simp] theorem code_decode (data : VmData M) (code : U32) :
    (data.decode code).code = { code := code } := rfl

@[simp] theorem reg_storeReg (data : VmData M) (i : RegIndex) (val : U64) :
    (data.storeReg i val).reg = data.reg.store i val := rfl

@[simp] theorem ram_storeReg (data : VmData M) (i : RegIndex) (val : U64) :
    (data.storeReg i val).ram = data.ram := rfl

@[simp] theorem code_storeReg (data : VmData M) (i : RegIndex) (val : U64) :
    (data.storeReg i val).code = data.code := rfl

end VmData

end Vm
end Chenc
