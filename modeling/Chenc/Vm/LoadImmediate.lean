import Chenc.Vm.Core
import Mathlib.Data.Fintype.Basic

/-!
# LoadImmediate — constants loaded a quarter at a time

Model of `immu_load16b_or_shift_r0i1` and `immu_load16b_or_shift32_r0i1` of `vm/func.hpp`, which the
instruction table describes as `t0 = t0 | imm[0,16) << imm[16,21)` and the same with 32 added to
the amount. The macro `cc_load_regx_u(t0)` names the value it loads `t0u`, while the store is of
`t0 | ...`, where `t0` is still the index of the register, that is 1.

* `Tabled` : what the table states of an instruction, over all machine states;
* `load_loadConstant` : what four instructions with the quarters of a number leave in `t0`;
* `or_eq_or_iff` : where the instruction agrees with the table;
* `immuLoad16bOr_iff` : both, for the two instructions.
-/

namespace Chenc
namespace Vm

variable {M : Type}

namespace Opcode

/-- `imm[0,16) << (imm[16,21) + extra)`. -/
def operand (c : Opcode) (extra : U64) : U64 :=
  c.imm21Slice 0 16 <<< (c.imm21Slice 16 21 + extra)

end Opcode

/-! ## The instructions -/

/-- The enumerator `t0` as a number. -/
def t0Number : U64 :=
  BitVec.ofNat 64 RegMap.t0.val

def immuLoad16bOrShiftR0i1 (data : VmData M) : VmData M :=
  data.storeReg RegMap.t0
    (t0Number ||| data.code.imm21Slice 0 16 <<< data.code.imm21Slice 16 21)

def immuLoad16bOrShift32R0i1 (data : VmData M) : VmData M :=
  data.storeReg RegMap.t0
    (t0Number ||| data.code.imm21Slice 0 16 <<< (data.code.imm21Slice 16 21 + 32))

/-! ## Loading a constant -/

/-- The instruction word with the given opcode bits, immediate and amount. -/
def encode (op : BitVec 11) (imm : BitVec 16) (amount : BitVec 5) : U32 :=
  amount ++ imm ++ op

/-- Quarter `k` of a word, the lowest first. -/
def quarter (v : U64) (k : Nat) : BitVec 16 :=
  v.extractLsb' (16 * k) 16

/-- The four instructions with the quarters of `v` and the shifts 0, 16, 32 and 48. -/
def loadConstant (ops : Fin 4 → BitVec 11) (v : U64) (data : VmData M) : VmData M :=
  let data := immuLoad16bOrShiftR0i1 (data.decode (encode (ops 0) (quarter v 0) 0))
  let data := immuLoad16bOrShiftR0i1 (data.decode (encode (ops 1) (quarter v 1) 16))
  let data := immuLoad16bOrShift32R0i1 (data.decode (encode (ops 2) (quarter v 2) 0))
  immuLoad16bOrShift32R0i1 (data.decode (encode (ops 3) (quarter v 3) 16))

theorem toNat_encode (op : BitVec 11) (imm : BitVec 16) (amount : BitVec 5) :
    (encode op imm amount).toNat = (amount.toNat * 2 ^ 16 + imm.toNat) * 2 ^ 11 + op.toNat := by
  have hop := op.isLt
  have himm := imm.isLt
  rw [encode, BitVec.toNat_append, BitVec.toNat_append, ← Nat.shiftLeft_add_eq_or_of_lt himm,
    ← Nat.shiftLeft_add_eq_or_of_lt hop, Nat.shiftLeft_eq, Nat.shiftLeft_eq]

theorem imm21Slice_encode (op : BitVec 11) (imm : BitVec 16) (amount : BitVec 5) :
    (Opcode.mk (encode op imm amount)).imm21Slice 0 16 = imm.setWidth 64 ∧
      (Opcode.mk (encode op imm amount)).imm21Slice 16 21 = amount.setWidth 64 := by
  have hop := op.isLt
  have himm := imm.isLt
  have hamount := amount.isLt
  constructor
  · refine BitVec.eq_of_toNat_eq ?_
    rw [Opcode.toNat_imm21Slice _ (by decide), toNat_encode, BitVec.toNat_setWidth]
    omega
  · refine BitVec.eq_of_toNat_eq ?_
    rw [Opcode.toNat_imm21Slice _ (by decide), toNat_encode, BitVec.toNat_setWidth]
    omega

/-- The last of the four instructions decides, since none reads the register. -/
theorem load_loadConstant (ops : Fin 4 → BitVec 11) (v : U64) (data : VmData M) :
    (loadConstant ops v data).reg.load RegMap.t0 =
      t0Number ||| (quarter v 3).setWidth 64 <<< 48 := by
  have hslices := imm21Slice_encode (ops 3) (quarter v 3) 16
  have hamount : (16 : BitVec 5).setWidth 64 + 32 = 48#64 := rfl
  rw [loadConstant, immuLoad16bOrShift32R0i1, VmData.reg_storeReg, Reg.load_store_t0,
    VmData.code_decode, hslices.1, hslices.2, hamount]
  rfl

theorem toNat_quarter_three (v : U64) :
    ((quarter v 3).setWidth 64 <<< 48).toNat = v.toNat / 2 ^ 48 * 2 ^ 48 := by
  have hv := v.isLt
  have hwide : ((quarter v 3).setWidth 64).toNat = v.toNat / 2 ^ 48 := by
    rw [quarter, BitVec.toNat_setWidth, BitVec.extractLsb'_toNat, Nat.shiftRight_eq_div_pow]
    omega
  rw [Bits.toNat_shiftLeft_of_lt 48 (by omega), hwide]

theorem load_loadConstant_eq_iff (ops : Fin 4 → BitVec 11) (v : U64) (data : VmData M) :
    (loadConstant ops v data).reg.load RegMap.t0 = v ↔ v.setWidth 48 = 1#48 := by
  have hone : t0Number.toNat = 1 := rfl
  have hdvd : 2 ^ 48 ∣ ((quarter v 3).setWidth 64 <<< 48).toNat :=
    ⟨v.toNat / 2 ^ 48, (toNat_quarter_three v).trans (Nat.mul_comm _ _)⟩
  -- The shifted quarter has no bit in common with the number 1, so uniting them adds them.
  have hsum : (t0Number ||| (quarter v 3).setWidth 64 <<< 48).toNat =
      v.toNat / 2 ^ 48 * 2 ^ 48 + 1 := by
    rw [BitVec.or_comm, Bits.toNat_or_of_dvd 48 hdvd (by decide), toNat_quarter_three, hone]
  rw [load_loadConstant, ← BitVec.toNat_inj, hsum, ← BitVec.toNat_inj, BitVec.toNat_setWidth]
  have hlow : (1#48).toNat = 1 := rfl
  rw [hlow]
  omega

/-! ## What the table states -/

/-- `>t0< = (u)<t0> | operand`, and no other change. -/
def orsInto (data : VmData M) (operand : U64) : VmData M :=
  data.storeReg RegMap.t0 (data.reg.load RegMap.t0 ||| operand)

/-- The two instructions do what the table states, in every state, and four of them load every
constant into a cleared `t0`. -/
structure Tabled (M : Type) : Prop where
  shift (data : VmData M) : immuLoad16bOrShiftR0i1 data = orsInto data (data.code.operand 0)
  shift32 (data : VmData M) : immuLoad16bOrShift32R0i1 data = orsInto data (data.code.operand 32)
  constant (ops : Fin 4 → BitVec 11) (v : U64) (data : VmData M) :
    (loadConstant ops v (data.storeReg RegMap.t0 0)).reg.load RegMap.t0 = v

/-- Above bit 0 the operand has every bit that is set already, and bit 0 is set before or after. -/
def Covers (operand old : U64) : Prop :=
  (∀ i, 0 < i → old.getLsbD i = true → operand.getLsbD i = true) ∧
    (old.getLsbD 0 = true ∨ operand.getLsbD 0 = true)

theorem or_eq_or_iff (operand old : U64) :
    t0Number ||| operand = old ||| operand ↔ Covers operand old := by
  have hone : t0Number = 1#64 := rfl
  have hbit : ∀ i, t0Number.getLsbD i = decide (i = 0) := by
    intro i
    rw [hone, BitVec.getLsbD_one, decide_eq_true (by decide), Bool.true_and]
  constructor
  · -- Bit by bit: above bit 0 the left side has the bits of the operand only.
    intro h
    have hbits : ∀ i, (decide (i = 0) || operand.getLsbD i) =
        (old.getLsbD i || operand.getLsbD i) := by
      intro i
      rw [← hbit, ← BitVec.getLsbD_or, h, BitVec.getLsbD_or]
    constructor
    · intro i hpos hold
      simpa [hold, hpos.ne'] using hbits i
    · simpa using hbits 0
  · rintro ⟨hhigh, hlow⟩
    refine BitVec.eq_of_getLsbD_eq fun i _ => ?_
    rw [BitVec.getLsbD_or, BitVec.getLsbD_or, hbit]
    rcases Nat.eq_zero_or_pos i with rfl | hpos
    · simpa using hlow
    · cases hold : old.getLsbD i with
      | false => simp [hpos.ne']
      | true => simp [hhigh i hpos hold]

/-- Two stores to `t0` are the same exactly if the values are. -/
theorem storeReg_t0_inj (data : VmData M) (x y : U64) :
    data.storeReg RegMap.t0 x = data.storeReg RegMap.t0 y ↔ x = y := by
  constructor
  · intro h
    have hload := congrArg (fun d => d.reg.load RegMap.t0) h
    simpa using hload
  · rintro rfl
    rfl

/-- **The loads agree with the instruction table only where 1 and `t0` are united to the same
value.**  Four instructions load a number into a cleared `t0` if and only if its low 48 bits are
the number 1. -/
theorem immuLoad16bOr_iff :
    (∀ data : VmData M, immuLoad16bOrShiftR0i1 data = orsInto data (data.code.operand 0) ↔
      Covers (data.code.operand 0) (data.reg.load RegMap.t0)) ∧
    (∀ data : VmData M, immuLoad16bOrShift32R0i1 data = orsInto data (data.code.operand 32) ↔
      Covers (data.code.operand 32) (data.reg.load RegMap.t0)) ∧
    ∀ (ops : Fin 4 → BitVec 11) (v : U64) (data : VmData M),
      (loadConstant ops v (data.storeReg RegMap.t0 0)).reg.load RegMap.t0 = v ↔
        v.setWidth 48 = 1#48 := by
  -- What `t0` held before does not matter to the four loads.
  refine ⟨fun data => ?_, fun data => ?_, fun ops v data => load_loadConstant_eq_iff ops v _⟩
  · have hamount : data.code.imm21Slice 16 21 + 0 = data.code.imm21Slice 16 21 :=
      BitVec.add_zero _
    have hloads : immuLoad16bOrShiftR0i1 data =
        data.storeReg RegMap.t0 (t0Number ||| data.code.operand 0) := by
      rw [Opcode.operand, hamount]
      rfl
    rw [hloads, orsInto, storeReg_t0_inj, or_eq_or_iff]
  · have hloads : immuLoad16bOrShift32R0i1 data =
        data.storeReg RegMap.t0 (t0Number ||| data.code.operand 32) := rfl
    rw [hloads, orsInto, storeReg_t0_inj, or_eq_or_iff]

/-- A machine with all registers 0 and the instruction word 0. -/
def cleared : VmData Unit where
  ram := ()
  reg := { reg := fun _ => 0 }
  code := { code := 0 }

/-- The immediate 0 leaves 1 in a cleared `t0`. -/
theorem not_tabled_cleared : ¬ Tabled Unit := by
  intro htabled
  have hload := congrArg (fun d => d.reg.load RegMap.t0) (htabled.shift cleared)
  revert hload
  decide

end Vm
end Chenc
