import Chenc.Vm.CallFrames
import Chenc.Vm.LoadImmediate
import Chenc.Vm.PushPop

/-!
# NestedCode — code that leaves the stack as it was

Model of `nop__r0i1`, the two jumps, the loads of 21 bits and `pops_xs_xB_r4i1` of `vm/func.hpp`,
and of instructions in a row of which every push has its pop and every call its return.

* `Plain`, `Code` : instructions that leave the stack alone, and the rows;
* `Spares` : how far below `sp` something writes, and which registers it keeps;
* `Spares.trans`, `spares_saved`, `spares_called` : what follows for a row from its parts;
* `Code.Keeps` : the registers a row keeps, of which some only because it saves them;
* `exec_spares` : a row keeps `sp`, these registers, and the memory above.

Which instruction comes next is given with the row, since nothing in the source fetches one.
-/

namespace Chenc
namespace Vm

open Cells (Within)

variable {M : Type} [Memory M]

/-! ## Instructions -/

section Instructions

omit [Memory M]

def nopR0i1 (data : VmData M) : VmData M :=
  data

def jumpR0i1 (data : VmData M) : VmData M :=
  data.storeReg RegMap.pc (signExt 21 data.code.imm21 * 4)

-- As in `callR0i1`, `pc` stands for the enumerator.
def jumpOffsetR0i1 (data : VmData M) : VmData M :=
  data.storeReg RegMap.pc (pcNumber + signExt 21 data.code.imm21 * 4)

def immuLoad21bR0i1 (data : VmData M) : VmData M :=
  data.storeReg RegMap.t0 data.code.imm21

def immsLoad21bR0i1 (data : VmData M) : VmData M :=
  data.storeReg RegMap.t0 (signExt 21 data.code.imm21)

/-- The instructions that leave the stack alone. -/
inductive Plain
  | nop
  | jump
  | jumpOffset
  | immuLoad21b
  | immsLoad21b
  | immuLoad16bOrShift
  | immuLoad16bOrShift32
  deriving DecidableEq, Repr

def Plain.exec : Plain → VmData M → VmData M
  | .nop => nopR0i1
  | .jump => jumpR0i1
  | .jumpOffset => jumpOffsetR0i1
  | .immuLoad21b => immuLoad21bR0i1
  | .immsLoad21b => immsLoad21bR0i1
  | .immuLoad16bOrShift => immuLoad16bOrShiftR0i1
  | .immuLoad16bOrShift32 => immuLoad16bOrShift32R0i1

/-- The register that is written. -/
def Plain.target : Plain → Option RegIndex
  | .nop => none
  | .jump | .jumpOffset => some RegMap.pc
  | _ => some RegMap.t0

end Instructions

/-- `cc_store_reg(i, sign_ext<byte * 8>(cc_stack_pop_u(byte)))`. -/
def popSignedReg (byte : Nat) (data : VmData M) (i : RegIndex) : VmData M :=
  (data.stackPopU byte).2.storeReg i (signExt (byte * 8) (data.stackPopU byte).1)

/-- `pops_xs_xB_r4i1<Size, Byte>`, for a `Size` of at most 4. -/
def popsXsXBR4i1 (size byte : Nat) (data : VmData M) : VmData M :=
  let data := if 1 ≤ size then popSignedReg byte data data.code.reg0 else data
  let data := if 2 ≤ size then popSignedReg byte data data.code.reg1 else data
  let data := if 3 ≤ size then popSignedReg byte data data.code.reg2 else data
  if 4 ≤ size then popSignedReg byte data data.code.reg3 else data

theorem popSignedReg_eight (data : VmData M) (i : RegIndex) :
    popSignedReg 8 data i = popReg 8 data i := by
  simp [popSignedReg, popReg, signExt]

/-- Words of eight bytes have no sign to extend. -/
theorem popsXsXBR4i1_eight (size : Nat) (data : VmData M) :
    popsXsXBR4i1 size 8 data = popuXsXBR4i1 size 8 data := by
  simp only [popsXsXBR4i1, popuXsXBR4i1, popSignedReg_eight]

/-! ## Rows -/

/-- Instructions in a row, each with its word.  Up to four registers are saved around a body, and
a body is called. -/
inductive Code
  | done
  | plain (i : Plain) (word : U32) (rest : Code)
  | saved (size : Fin 5) (push : U32) (body : Code) (signed : Bool) (pop : U32) (rest : Code)
  | called (call : U32) (body : Code) (ret : U32) (rest : Code)

def popXsXBR4i1 (signed : Bool) (size byte : Nat) (data : VmData M) : VmData M :=
  if signed then popsXsXBR4i1 size byte data else popuXsXBR4i1 size byte data

def Code.exec : Code → VmData M → VmData M
  | .done, data => data
  | .plain i word rest, data => rest.exec (i.exec (data.decode word))
  | .saved size push body signed pop rest, data =>
      let data := body.exec (pushXsXBR4i1 size 8 (data.decode push))
      rest.exec (popXsXBR4i1 signed size 8 (data.decode pop))
  | .called call body ret rest, data =>
      let data := body.exec (callR0i1 (data.decode call))
      rest.exec (returnR0i1 (data.decode ret))

/-- The words below `sp` that are written. -/
def Code.depth : Code → Nat
  | .done => 0
  | .plain _ _ rest => rest.depth
  | .saved size _ body _ _ rest => max (size + body.depth) rest.depth
  | .called _ body _ rest => max (2 + body.depth) rest.depth

/-- Every pop into the register takes what a push of it has left, and if there is none the body
keeps the register. -/
def Restores (pushed popped : List RegIndex) (kept : Prop) (r : RegIndex) : Prop :=
  (∀ p ∈ popped.zip pushed.reverse, p.1 = r → p.2 = r) ∧ (kept ∨ r ∈ popped ∧ r ≠ RegMap.zero)

/-- The registers that come out as they went in. -/
def Code.Keeps : Code → RegIndex → Prop
  | .done, _ => True
  | .plain i _ rest, r => i.target ≠ some r ∧ rest.Keeps r
  | .saved size push body _ pop rest, r =>
      Restores ((Opcode.mk push).fields size) ((Opcode.mk pop).fields size) (body.Keeps r) r ∧
        rest.Keeps r
  | .called _ body _ rest, r => (r = RegMap.pc ∨ r = RegMap.fp ∨ body.Keeps r) ∧ rest.Keeps r

instance (pushed popped : List RegIndex) (kept : Prop) [Decidable kept] (r : RegIndex) :
    Decidable (Restores pushed popped kept r) :=
  inferInstanceAs (Decidable (_ ∧ _))

instance Code.decidableKeeps : (c : Code) → (r : RegIndex) → Decidable (c.Keeps r)
  | .done, _ => inferInstanceAs (Decidable True)
  | .plain _ _ rest, r =>
      have := decidableKeeps rest r
      inferInstanceAs (Decidable (_ ∧ _))
  | .saved _ _ body _ _ rest, r =>
      have := decidableKeeps body r
      have := decidableKeeps rest r
      inferInstanceAs (Decidable (_ ∧ _))
  | .called _ body _ rest, r =>
      have := decidableKeeps body r
      have := decidableKeeps rest r
      inferInstanceAs (Decidable (_ ∧ _))

/-- The stack pointer is neither pushed nor popped, and what is called keeps the frame pointer. -/
def Code.Orderly : Code → Prop
  | .done => True
  | .plain _ _ rest => rest.Orderly
  | .saved size push body _ pop rest =>
      RegMap.sp ∉ (Opcode.mk push).fields size ∧ RegMap.sp ∉ (Opcode.mk pop).fields size ∧
        body.Orderly ∧ rest.Orderly
  | .called _ body _ rest => body.Keeps RegMap.fp ∧ body.Orderly ∧ rest.Orderly

/-! ## What is spared -/

/-- `sp` and the registers `K` are as before, and so is the memory but for `n` words below `sp`. -/
structure Spares (n : Nat) (K : RegIndex → Prop) (before after : VmData M) : Prop where
  sp : after.reg.load RegMap.sp = before.reg.load RegMap.sp
  regs : ∀ r, r ≠ RegMap.sp → K r → after.reg.load r = before.reg.load r
  bytes : ∀ x, ¬ Within (before.reg.load RegMap.sp - BitVec.ofNat 64 (8 * n)) (8 * n) x →
    Memory.bytes after.ram x = Memory.bytes before.ram x

namespace Spares

variable {n m : Nat} {K L : RegIndex → Prop} {a b c : VmData M}

theorem trans (h : Spares n K a b) (h' : Spares m L b c) :
    Spares (max n m) (fun r => K r ∧ L r) a c where
  sp := h'.sp.trans h.sp
  regs r hr hkept := (h'.regs r hr hkept.2).trans (h.regs r hr hkept.1)
  bytes x hx := by
    have hfirst := h.bytes x fun hin => hx (hin.below_mono (by omega))
    have hsecond := h'.bytes x fun hin => hx ((h.sp ▸ hin).below_mono (by omega))
    exact hsecond.trans hfirst

/-- What lies on the stack stays there. -/
theorem onStack (h : Spares n K a b) {vs : List U64} (hstack : OnStack a vs)
    (hroom : 8 * (n + vs.length) ≤ 2 ^ 64) : OnStack b vs := by
  have hapart := Cells.apart_below (n := 8 * n) (k := 8 * vs.length) (a.reg.load RegMap.sp)
    (by omega)
  rw [OnStack, h.sp]
  exact Spells.congr hstack fun x hx => h.bytes x fun hin => hapart x hin hx

end Spares

theorem spares_plain (i : Plain) (word : U32) (data : VmData M) :
    Spares 0 (fun r => i.target ≠ some r) data (i.exec (data.decode word)) := by
  have hstore : ∀ (t : RegIndex) (val : U64), t ≠ RegMap.sp →
      Spares 0 (fun r => some t ≠ some r) data ((data.decode word).storeReg t val) := by
    intro t val ht
    refine ⟨Reg.load_store_of_ne _ ht.symm _, fun r _ hne => ?_, fun _ _ => rfl⟩
    exact Reg.load_store_of_ne _ (fun heq => hne (congrArg some heq.symm)) _
  cases i with
  | nop => exact ⟨rfl, fun _ _ _ => rfl, fun _ _ => rfl⟩
  | jump | jumpOffset => exact hstore RegMap.pc _ (by decide)
  | immuLoad21b | immsLoad21b | immuLoad16bOrShift | immuLoad16bOrShift32 =>
      exact hstore RegMap.t0 _ (by decide)

/-! ## Saved registers -/

/-- A row of pushes changes no byte but those of its words. -/
theorem bytes_pushes (regs : List RegIndex) (data : VmData M) {x : U64}
    (h : ¬ Within (data.reg.load RegMap.sp - BitVec.ofNat 64 (8 * regs.length))
      (8 * regs.length) x) :
    Memory.bytes (regs.foldl (pushReg 8) data).ram x = Memory.bytes data.ram x := by
  induction regs generalizing data with
  | nil => rfl
  | cons i regs ih =>
      have hlen : 8 * (i :: regs).length = 8 + 8 * regs.length := by
        rw [List.length_cons]
        omega
      rw [hlen] at h
      have hsp : (pushReg 8 data i).reg.load RegMap.sp = data.reg.load RegMap.sp - 8 :=
        load_sp_stackPush data _
      have hrest := ih (pushReg 8 data i) fun hin => h (Within.below_below (k := 8) (hsp ▸ hin))
      rw [List.foldl_cons, hrest]
      refine bytes_stackPush data _ fun hin => h ?_
      exact Within.below_mono (n := 8) hin (Nat.le_add_right 8 _)

theorem ram_pops (regs : List RegIndex) (data : VmData M) :
    (regs.foldl (popReg 8) data).ram = data.ram := by
  induction regs generalizing data with
  | nil => rfl
  | cons i regs ih => exact ih _

/-- One pop, also into `zero`. -/
theorem load_popReg {i : RegIndex} (hsp : i ≠ RegMap.sp) {data : VmData M} {v : U64}
    {vs : List U64} (h : OnStack data (v :: vs)) :
    OnStack (popReg 8 data i) vs ∧
      (popReg 8 data i).reg.load RegMap.sp = data.reg.load RegMap.sp + 8 ∧
      ∀ r, r ≠ RegMap.sp → (popReg 8 data i).reg.load r =
        if r = i ∧ r ≠ RegMap.zero then v else data.reg.load r := by
  by_cases hzero : i = RegMap.zero
  · -- The value goes nowhere.
    have hdropped : popReg 8 data i = (data.stackPopU 8).2 := by
      rw [popReg, VmData.storeReg, Reg.store, if_neg (not_not.2 hzero)]
    rw [hdropped]
    refine ⟨(onStack_pop h).2, Reg.load_store_self data.reg (i := RegMap.sp) (by decide) _, ?_⟩
    intro r hr
    rw [if_neg fun hboth => hboth.2 (hboth.1.trans hzero)]
    exact Reg.load_store_of_ne data.reg hr _
  · rcases popReg_spec hzero hsp h with ⟨hstack, hv, hstep, hothers⟩
    refine ⟨hstack, hstep, fun r hr => ?_⟩
    by_cases hri : r = i
    · rw [if_pos ⟨hri, hri ▸ hzero⟩, hri]
      exact hv
    · rw [if_neg fun hboth => hri hboth.1]
      exact hothers r hri hr

/-- A row of pops leaves `u` in a register if it is all that is popped into it, and is in it
before unless something is. -/
theorem load_pops {regs : List RegIndex} (hsp : RegMap.sp ∉ regs) {data : VmData M}
    {vs : List U64} (h : OnStack data vs) (hlen : vs.length = regs.length) :
    (regs.foldl (popReg 8) data).reg.load RegMap.sp =
        data.reg.load RegMap.sp + BitVec.ofNat 64 (8 * regs.length) ∧
      ∀ r u, r ≠ RegMap.sp → (∀ p ∈ regs.zip vs, p.1 = r → p.2 = u) →
        data.reg.load r = u ∨ r ∈ regs ∧ r ≠ RegMap.zero →
        (regs.foldl (popReg 8) data).reg.load r = u := by
  induction regs generalizing data vs with
  | nil =>
      refine ⟨(BitVec.add_zero _).symm, fun r u _ _ hor => ?_⟩
      exact hor.resolve_right fun hmem => absurd hmem.1 List.not_mem_nil
  | cons i regs ih =>
      rcases vs with _ | ⟨v, vs⟩
      · cases hlen
      · rw [List.mem_cons, not_or] at hsp
        rcases load_popReg (Ne.symm hsp.1) h with ⟨hstack, hstep, hload⟩
        rcases ih hsp.2 hstack (Nat.succ.inj hlen) with ⟨hrest, hregs⟩
        refine ⟨?_, fun r u hr hpairs hor => ?_⟩
        · rw [List.foldl_cons, hrest, hstep, List.length_cons, BitVec.add_assoc]
          exact congrArg _ (eight_add regs.length)
        · rw [List.zip_cons_cons, List.forall_mem_cons] at hpairs
          refine hregs r u hr hpairs.2 ?_
          rw [hload r hr]
          by_cases hhit : r = i ∧ r ≠ RegMap.zero
          · -- The register gets its value here, whatever is popped into it later.
            rw [if_pos hhit]
            exact .inl (hpairs.1 hhit.1.symm)
          · rw [if_neg hhit]
            refine hor.imp_right fun hmem => ⟨?_, hmem.2⟩
            exact (List.mem_cons.1 hmem.1).resolve_left fun heq => hhit ⟨heq, hmem.2⟩

theorem length_fields (c : Opcode) (size : Fin 5) : (c.fields size).length = size := by
  have hsize := size.isLt
  rw [Opcode.fields, List.length_take]
  exact Nat.min_eq_left (by simp; omega)

theorem popXsXBR4i1_eq (signed : Bool) (size : Nat) (data : VmData M) :
    popXsXBR4i1 signed size 8 data = (data.code.fields size).foldl (popReg 8) data := by
  rw [popXsXBR4i1, popsXsXBR4i1_eight, ite_self, popuXsXBR4i1_eq]

/-- Registers saved around a body. -/
theorem spares_saved {n : Nat} {K : RegIndex → Prop} {body : VmData M → VmData M}
    (hbody : ∀ data, Spares n K data (body data)) (size : Fin 5) (push : U32) (signed : Bool)
    (pop : U32) (hpush : RegMap.sp ∉ (Opcode.mk push).fields size)
    (hpop : RegMap.sp ∉ (Opcode.mk pop).fields size) (hroom : 8 * (size + n) ≤ 2 ^ 64)
    (data : VmData M) :
    Spares (size + n)
      (fun r => Restores ((Opcode.mk push).fields size) ((Opcode.mk pop).fields size) (K r) r) data
      (popXsXBR4i1 signed size 8 ((body (pushXsXBR4i1 size 8 (data.decode push))).decode pop)) := by
  have hlen := length_fields ⟨push⟩ size
  have hlen' := length_fields ⟨pop⟩ size
  rw [pushXsXBR4i1_eq, popXsXBR4i1_eq]
  generalize hregs : (Opcode.mk push).fields size = regs at *
  generalize hregs' : (Opcode.mk pop).fields size = regs' at *
  have hbefore : (data.decode push).code.fields size = regs := hregs
  rw [hbefore]
  have hpushed : Pushed regs (data.decode push) (regs.foldl (pushReg 8) (data.decode push)) [] :=
    pushed hpush trivial (by rw [List.length_nil, hlen]; omega)
  have hbytes := fun x => bytes_pushes regs (data.decode push) (x := x)
  rw [hlen] at hbytes
  generalize regs.foldl (pushReg 8) (data.decode push) = inner at hpushed hbytes
  have hspared := hbody inner
  have hsp : inner.reg.load RegMap.sp = data.reg.load RegMap.sp - BitVec.ofNat 64 (8 * size) :=
    hlen ▸ hpushed.sp
  -- The values are still on the stack behind the body, and the pops find them.
  have hstack : OnStack ((body inner).decode pop)
      ((regs.map data.reg.load).reverse ++ []) :=
    hspared.onStack hpushed.values (by simp [hlen]; omega)
  have hafter : ((body inner).decode pop).code.fields size = regs' := hregs'
  rw [List.append_nil] at hstack
  rw [hafter]
  rcases load_pops hpop hstack (by simp [hlen, hlen']) with ⟨hback, hload⟩
  rw [hlen'] at hback
  refine ⟨?_, fun r hr hrestores => ?_, fun x hx => ?_⟩
  · have hbody' : ((body inner).decode pop).reg.load RegMap.sp = inner.reg.load RegMap.sp :=
      hspared.sp
    rw [hback, hbody', hsp, BitVec.sub_add_cancel]
  · refine hload r _ hr ?_ (hrestores.2.imp_left fun hkept => ?_)
    · -- What is popped into the register is its own value.
      intro p hp hpr
      rw [← List.map_reverse, List.zip_map_right] at hp
      rcases List.mem_map.1 hp with ⟨q, hq, rfl⟩
      exact congrArg data.reg.load (hrestores.1 q hq hpr)
    · exact (hspared.regs r hr hkept).trans (hpushed.others r hr)
  · rw [Nat.mul_add] at hx
    have hinner := hspared.bytes x fun hin => hx (hsp ▸ hin).below_below
    rw [ram_pops]
    exact hinner.trans (hbytes x fun hin => hx (hin.below_mono (Nat.le_add_right _ _)))

/-! ## Calls -/

/-- A call changes `fp`, `sp` and `pc` only. -/
theorem load_callR0i1_of_ne (data : VmData M) {r : RegIndex} (hfp : r ≠ RegMap.fp)
    (hsp : r ≠ RegMap.sp) (hpc : r ≠ RegMap.pc) :
    (callR0i1 data).reg.load r = data.reg.load r := by
  have hsaved : data.saved.reg.load r = data.reg.load r :=
    (load_stackPush_of_ne _ 8 _ hsp).trans (load_stackPush_of_ne _ 8 _ hsp)
  rw [← hsaved]
  exact (Reg.load_store_of_ne _ hpc _).trans (Reg.load_store_of_ne data.saved.reg hfp _)

theorem load_returnR0i1_of_ne (data : VmData M) {r : RegIndex} (hfp : r ≠ RegMap.fp)
    (hsp : r ≠ RegMap.sp) (hpc : r ≠ RegMap.pc) :
    (returnR0i1 data).reg.load r = data.reg.load r := by
  have hpop : ∀ (d : VmData M) (i : RegIndex), r ≠ i →
      (popReg 8 d i).reg.load r = d.reg.load r := fun d i hi =>
    (Reg.load_store_of_ne _ hi _).trans (Reg.load_store_of_ne d.reg hsp _)
  rw [returnR0i1, hpop _ _ hpc, hpop _ _ hfp]
  exact Reg.load_store_of_ne data.reg hsp _

/-- A body that is called, and keeps the frame pointer. -/
theorem spares_called {n : Nat} {K : RegIndex → Prop} {body : VmData M → VmData M}
    (hbody : ∀ data, Spares n K data (body data)) (hfp : K RegMap.fp) (call ret : U32)
    (hroom : 8 * (2 + n) ≤ 2 ^ 64) (data : VmData M) :
    Spares (2 + n) (fun r => r = RegMap.pc ∨ r = RegMap.fp ∨ K r) data
      (returnR0i1 ((body (callR0i1 (data.decode call))).decode ret)) := by
  rcases frame_callR0i1 (data.decode call) with ⟨hentry, hframe⟩
  have hsp : (callR0i1 (data.decode call)).reg.load RegMap.sp =
      (data.decode call).suspended.base := by
    have hpc : RegMap.sp ≠ RegMap.pc := by decide
    have hfp : RegMap.sp ≠ RegMap.fp := by decide
    rw [← load_sp_saved]
    exact (Reg.load_store_of_ne _ hpc _).trans (Reg.load_store_of_ne _ hfp _)
  have hbytes := fun x => bytes_callR0i1 (data.decode call) (x := x)
  have hothers := fun r => load_callR0i1_of_ne (data.decode call) (r := r)
  generalize callR0i1 (data.decode call) = inner at hentry hframe hsp hbytes hothers
  have hspared := hbody inner
  -- The frame is still there behind the body, and the return takes it.
  have hstack : OnStack (body inner)
      [(data.decode call).suspended.fp, (data.decode call).suspended.pc] := by
    refine hspared.onStack ?_ (by simp; omega)
    rwa [OnStack, hsp]
  rw [OnStack, hspared.sp, hsp] at hstack
  have hchain : Chain ((body inner).decode ret).ram
      (((body inner).decode ret).reg.load RegMap.fp) [(data.decode call).suspended] :=
    ⟨(hspared.regs RegMap.fp (by decide) hfp).trans hentry, hstack, trivial⟩
  rcases suspended_returnR0i1 hchain with ⟨hsame, hram⟩
  refine ⟨congrArg Suspended.sp hsame, fun r hr hkept => ?_, fun x hx => ?_⟩
  · by_cases hrpc : r = RegMap.pc
    · rw [hrpc]
      exact congrArg Suspended.pc hsame
    · by_cases hrfp : r = RegMap.fp
      · rw [hrfp]
        exact congrArg Suspended.fp hsame
      · have hK := (hkept.resolve_left hrpc).resolve_left hrfp
        rw [load_returnR0i1_of_ne _ hrfp hr hrpc]
        exact (hspared.regs r hr hK).trans (hothers r hrfp hr hrpc)
  · rw [Nat.mul_add] at hx
    have hbase : inner.reg.load RegMap.sp = data.reg.load RegMap.sp - BitVec.ofNat 64 (8 * 2) := hsp
    have hinner := hspared.bytes x fun hin => hx (hbase ▸ hin).below_below
    rw [hram]
    refine hinner.trans (hbytes x fun hin => hx ?_)
    exact Within.below_mono (n := 8 * 2) hin (Nat.le_add_right _ _)

/-! ## Rows -/

/-- **The stack is left as it was.**  Orderly instructions in a row, of which every push has its pop
and every call its return, leave `sp` where it was, however deep they nest within the address space.
Above `sp` they write nothing, and below it no further than they push.  A register comes out as it
went in if nothing writes it, or if what is popped into it is what was pushed from it. -/
theorem exec_spares {c : Code} (hc : c.Orderly) (hroom : 8 * c.depth ≤ 2 ^ 64) (data : VmData M) :
    Spares c.depth c.Keeps data (c.exec data) := by
  induction c generalizing data with
  | done => exact ⟨rfl, fun _ _ _ => rfl, fun _ _ => rfl⟩
  | plain i word rest ih =>
      have hboth := (spares_plain i word data).trans (ih hc hroom (i.exec (data.decode word)))
      rwa [Nat.zero_max] at hboth
  | saved size push body signed pop rest ihbody ihrest =>
      rcases hc with ⟨hpush, hpop, hbody, hrest⟩
      rw [Code.depth] at hroom
      have hin := spares_saved (ihbody hbody (by omega)) size push signed pop hpush hpop
        (by omega) data
      exact hin.trans (ihrest hrest (by omega) _)
  | called call body ret rest ihbody ihrest =>
      rcases hc with ⟨hfp, hbody, hrest⟩
      rw [Code.depth] at hroom
      have hin := spares_called (ihbody hbody (by omega)) hfp call ret (by omega) data
      exact hin.trans (ihrest hrest (by omega) _)

/-- Saves `t0` and `t1` around a call whose body loads constants into `t0`, the first one within
another save.  The pop names the registers the other way round. -/
def twoSaved : Code :=
  .saved ⟨2, by decide⟩ (1 <<< 11 ||| 2 <<< 16)
    (.called 0
      (.saved ⟨1, by decide⟩ (1 <<< 11) (.plain .immuLoad21b (5 <<< 11) .done) false (1 <<< 11)
        (.plain .immsLoad21b (6 <<< 11) .done))
      0 .done)
    true (2 <<< 11 ||| 1 <<< 16) (.plain .jumpOffset 0 .done)

theorem exec_spares_twoSaved :
    (twoSaved.exec started).reg.load RegMap.sp = 8192 ∧
      (twoSaved.exec started).reg.load RegMap.t0 = 7 ∧
      (twoSaved.exec started).reg.load RegMap.t1 = 7 ∧
      ∀ x, ¬ Within 8152#64 40 x → (twoSaved.exec started).ram x = 0 := by
  have horderly : twoSaved.Orderly :=
    ⟨by decide, by decide, ⟨by decide +kernel, ⟨by decide, by decide, trivial, trivial⟩, trivial⟩,
      trivial⟩
  have hkept : twoSaved.Keeps RegMap.t0 ∧ twoSaved.Keeps RegMap.t1 := by decide +kernel
  have hspared := exec_spares horderly (by decide) started
  exact ⟨hspared.sp, hspared.regs RegMap.t0 (by decide) hkept.1,
    hspared.regs RegMap.t1 (by decide) hkept.2, hspared.bytes⟩

/-- Such a row is a piece of code as it stands between calls and returns, as long as the frames of
the open calls are out of its reach. -/
theorem step_exec {c : Code} (hc : c.Orderly) (hfp : c.Keeps RegMap.fp)
    (hroom : 8 * c.depth ≤ 2 ^ 64) {data : VmData M} {calls : List Suspended}
    (hapart : ∀ f ∈ calls, Cells.Apart
      (data.reg.load RegMap.sp - BitVec.ofNat 64 (8 * c.depth)) (8 * c.depth) f.base 16) :
    Step ⟨data, calls⟩ ⟨c.exec data, calls⟩ := by
  have hspared := exec_spares hc hroom data
  refine .code data (c.exec data) calls (fun _ => hspared.regs RegMap.fp (by decide) hfp) ?_
  exact fun f hf x hx => hspared.bytes x fun hin => hapart f hf x hin hx

end Vm
end Chenc
