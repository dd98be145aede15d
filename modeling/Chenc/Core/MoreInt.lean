import Chenc.Lib.Bits
import Chenc.Lib.ByteOrder

/-!
# MoreInt — signed integers of one to eight bytes

Model of `core/no_ailgn_int.hpp`: `no_ailgn_int<Bytes>` keeps the low bytes of a 64-bit word in an
array, in the byte order of the machine, and `more_int<Bytes>` reads them back with the sign
extended. The assignment operators of `more_int` work on the raw bytes, without the sign.

* `held_set`, `get_eq_signExtend` : what the array holds, and what `get` makes of it;
* `Assign.eval_congr` : the low bits of a result depend on the low bits of the operand only;
* `get_run` : a run on the raw bytes ends with the signed residue of the run on 64-bit integers.
-/

namespace Chenc
namespace Core

open ByteOrder

abbrev U8 : Type := BitVec 8
abbrev U64 : Type := BitVec 64

/-- An `i64`, as its bit pattern in two's complement. -/
abbrev I64 : Type := BitVec 64

/-- The template parameter `Bytes`, which a static assertion keeps in `[1, 8]`. -/
structure Bytes where
  count : Nat
  one_le : 1 ≤ count
  le_eight : count ≤ 8

theorem Bytes.bits_le (B : Bytes) : 8 * B.count ≤ 64 :=
  Nat.mul_le_mul_left 8 B.le_eight

/-- `constexpr_memcpy(dst + at, src + from, len)`, with the array `dst` after it. -/
def constexprMemcpy (dst : List U8) (at_ : Nat) (src : List U8) (from_ len : Nat) : List U8 :=
  dst.take at_ ++ (src.drop from_).take len ++ dst.drop (at_ + len)

/-- `no_ailgn_int<Bytes>`, that is its array `storage_.data_`. -/
structure NoAilgnInt (B : Bytes) where
  data : List U8
  length_data : data.length = B.count

namespace NoAilgnInt

variable {B : Bytes} (native : Endian)

/-- The default constructor. -/
def zero : NoAilgnInt B where
  data := List.replicate B.count 0
  length_data := List.length_replicate

/-- The bytes that `set` copies: the low ones of the word, wherever the machine has them. -/
def lowOffset (B : Bytes) : Endian → Nat
  | .little => 0
  | .big => 8 - B.count

def set (s : NoAilgnInt B) (val : U64) : NoAilgnInt B where
  data := constexprMemcpy s.data 0 (bytesOf (n := 8) native val) (lowOffset B native) B.count
  length_data := by
    have hle := B.le_eight
    have hlen := s.length_data
    cases native <;> simp [constexprMemcpy, lowOffset] <;> omega

def get (s : NoAilgnInt B) : U64 :=
  ofBytes native 8 (constexprMemcpy (List.replicate 8 0) (lowOffset B native) s.data 0 B.count)

/-- The word of `Bytes` bytes that the array holds. -/
def held (s : NoAilgnInt B) : BitVec (8 * B.count) :=
  ofBytes native B.count s.data

theorem get_eq (s : NoAilgnInt B) : s.get native = (s.held native).setWidth 64 := by
  have hle := B.le_eight
  have htake : s.data.take B.count = s.data := List.take_of_length_le s.length_data.le
  have hvalue : ∀ bs : List U8, bs.length = B.count →
      BitVec.ofNat 64 (Limbs.value bs) =
        (BitVec.ofNat (8 * B.count) (Limbs.value bs)).setWidth 64 := by
    intro bs hlen
    refine BitVec.eq_of_toNat_eq ?_
    have hlt := Limbs.value_lt bs
    rw [hlen] at hlt
    rw [BitVec.toNat_setWidth, BitVec.toNat_ofNat, BitVec.toNat_ofNat, Nat.mod_eq_of_lt hlt]
  cases native with
  | little =>
      have harray : constexprMemcpy (List.replicate 8 0) 0 s.data 0 B.count =
          s.data ++ List.replicate (8 - B.count) 0 := by
        simp [constexprMemcpy, htake, -List.reduceReplicate]
      rw [get, lowOffset, harray, held, ofBytes, ofBytes, Limbs.value_append_zeros]
      exact hvalue s.data s.length_data
  | big =>
      have harray : constexprMemcpy (List.replicate 8 0) (8 - B.count) s.data 0 B.count =
          List.replicate (8 - B.count) 0 ++ s.data := by
        simp [constexprMemcpy, htake, Nat.sub_add_cancel hle, -List.reduceReplicate]
      rw [get, lowOffset, harray, held, ofBytes, ofBytes, List.reverse_append,
        List.reverse_replicate, Limbs.value_append_zeros]
      exact hvalue s.data.reverse (s.data.length_reverse.trans s.length_data)

/-- `set` keeps the low bits of the word. -/
@[simp] theorem held_set (s : NoAilgnInt B) (val : U64) :
    (s.set native val).held native = val.setWidth (8 * B.count) := by
  have hle := B.le_eight
  have hdrop : s.data.drop B.count = [] := List.drop_of_length_le s.length_data.le
  have hvalue : BitVec.ofNat (8 * B.count)
      (Limbs.value ((Limbs.digits 8 8 val.toNat).take B.count)) = val.setWidth (8 * B.count) := by
    refine BitVec.eq_of_toNat_eq ?_
    have hlt : val.toNat < 2 ^ (8 * 8) := val.isLt
    rw [Limbs.value_take, Limbs.value_digits, Nat.mod_eq_of_lt hlt, BitVec.toNat_ofNat,
      BitVec.toNat_setWidth, Nat.mod_mod]
  cases native with
  | little =>
      have harray : (s.set .little val).data = (Limbs.digits 8 8 val.toNat).take B.count := by
        simp [set, constexprMemcpy, lowOffset, bytesOf, hdrop]
      rw [held, harray]
      exact hvalue
  | big =>
      have harray : (s.set .big val).data =
          ((Limbs.digits 8 8 val.toNat).take B.count).reverse := by
        have hkept : 8 - (8 - B.count) = B.count := Nat.sub_sub_self hle
        have hlen : ((Limbs.digits 8 8 val.toNat).take B.count).reverse.length ≤ B.count := by
          simp
        simp only [set, constexprMemcpy, lowOffset, bytesOf, List.take_zero, List.nil_append,
          Nat.zero_add, hdrop, List.append_nil, List.drop_reverse, Limbs.length_digits, hkept]
        exact List.take_of_length_le hlen
      rw [held, harray, ofBytes, List.reverse_reverse]
      exact hvalue

/-- The word held determines the array. -/
theorem held_injective {s t : NoAilgnInt B} (h : s.held native = t.held native) : s = t := by
  have hdata : s.data = t.data := by
    rw [← bytesOf_ofBytes native s.length_data, ← bytesOf_ofBytes native t.length_data]
    exact congrArg (bytesOf native) h
  cases s
  cases t
  cases hdata
  rfl

end NoAilgnInt

/-- `more_int<Bytes>`. -/
structure MoreInt (B : Bytes) where
  storage : NoAilgnInt B

namespace MoreInt

variable {B : Bytes} (native : Endian)

/-- The value, with the sign extended. -/
def get (m : MoreInt B) : I64 :=
  let val := m.storage.get native
  let shift := (8 - B.count) * 8
  (val <<< shift).sshiftRight shift

/-- The raw bits, without the sign. -/
def getRaw (m : MoreInt B) : U64 :=
  m.storage.get native

def set (m : MoreInt B) (val : I64) : MoreInt B where
  storage := m.storage.set native val

/-- `more_int(i64 val)`. -/
def ofI64 (val : I64) : MoreInt B :=
  set native { storage := NoAilgnInt.zero } val

/-! ## Assignment operators -/

def addAssign (m : MoreInt B) (v : I64) : MoreInt B :=
  m.set native (m.getRaw native + v)

def subAssign (m : MoreInt B) (v : I64) : MoreInt B :=
  m.set native (m.getRaw native - v)

def mulAssign (m : MoreInt B) (v : I64) : MoreInt B :=
  m.set native (m.getRaw native * v)

def andAssign (m : MoreInt B) (v : I64) : MoreInt B :=
  m.set native (m.getRaw native &&& v)

def orAssign (m : MoreInt B) (v : I64) : MoreInt B :=
  m.set native (m.getRaw native ||| v)

def xorAssign (m : MoreInt B) (v : I64) : MoreInt B :=
  m.set native (m.getRaw native ^^^ v)

def shlAssign (m : MoreInt B) (v : U64) : MoreInt B :=
  m.set native (m.getRaw native <<< v)

def preIncr (m : MoreInt B) : MoreInt B :=
  m.set native (m.getRaw native + 1)

/-- `operator++(int)`: the value returned, and the object after it. -/
def postIncr (m : MoreInt B) : MoreInt B × MoreInt B :=
  (m, m.set native (m.getRaw native + 1))

def preDecr (m : MoreInt B) : MoreInt B :=
  m.set native (m.getRaw native - 1)

/-- `operator--(int)`: the value returned, and the object after it. -/
def postDecr (m : MoreInt B) : MoreInt B × MoreInt B :=
  (m, m.set native (m.getRaw native - 1))

/-! ## What is held -/

/-- The word of `Bytes` bytes behind the object. -/
def held (m : MoreInt B) : BitVec (8 * B.count) :=
  m.storage.held native

@[simp] theorem held_set (m : MoreInt B) (val : I64) :
    (m.set native val).held native = val.setWidth (8 * B.count) :=
  NoAilgnInt.held_set native m.storage val

theorem getRaw_eq_setWidth (m : MoreInt B) : m.getRaw native = (m.held native).setWidth 64 :=
  NoAilgnInt.get_eq native m.storage

theorem get_eq_signExtend (m : MoreInt B) : m.get native = (m.held native).signExtend 64 := by
  have hshift : (8 - B.count) * 8 = 64 - 8 * B.count := by omega
  have hpos : 0 < 8 * B.count := Nat.mul_pos (by decide) B.one_le
  have hle := B.bits_le
  have hlow : (m.storage.get native).setWidth (8 * B.count) = m.held native := by
    rw [NoAilgnInt.get_eq, BitVec.setWidth_setWidth_of_le _ hle, BitVec.setWidth_eq]
    rfl
  rw [get, hshift, Bits.sshiftRight_shiftLeft _ hpos hle, hlow]

end MoreInt

/-! ## Runs of assignments -/

/-- An assignment operator with its operand. A shift by 64 or more is undefined. -/
inductive Assign
  | add (v : I64)
  | sub (v : I64)
  | mul (v : I64)
  | and (v : I64)
  | or (v : I64)
  | xor (v : I64)
  | shl (v : Fin 64)
  | preIncr
  | postIncr
  | preDecr
  | postDecr
  deriving DecidableEq, Repr

/-- The object after the operator. -/
def MoreInt.step {B : Bytes} (native : Endian) (m : MoreInt B) : Assign → MoreInt B
  | .add v => m.addAssign native v
  | .sub v => m.subAssign native v
  | .mul v => m.mulAssign native v
  | .and v => m.andAssign native v
  | .or v => m.orAssign native v
  | .xor v => m.xorAssign native v
  | .shl v => m.shlAssign native (BitVec.ofFin (v.castLE (by decide)))
  | .preIncr => m.preIncr native
  | .postIncr => (m.postIncr native).2
  | .preDecr => m.preDecr native
  | .postDecr => (m.postDecr native).2

def MoreInt.run {B : Bytes} (native : Endian) (m : MoreInt B) (ops : List Assign) : MoreInt B :=
  ops.foldl (MoreInt.step native) m

namespace Assign

/-- The operator on a 64-bit integer in two's complement. -/
def eval (x : I64) : Assign → I64
  | add v => x + v
  | sub v => x - v
  | mul v => x * v
  | and v => x &&& v
  | or v => x ||| v
  | xor v => x ^^^ v
  | shl v => x <<< v.val
  | preIncr => x + 1
  | postIncr => x + 1
  | preDecr => x - 1
  | postDecr => x - 1

def evalAll (x : I64) (ops : List Assign) : I64 :=
  ops.foldl eval x

/-- The low bits of a result depend on the low bits of the operand only. -/
theorem eval_congr {k : Nat} (hk : k ≤ 64) {x y : I64} (h : x.setWidth k = y.setWidth k)
    (op : Assign) : (op.eval x).setWidth k = (op.eval y).setWidth k := by
  have hadd : ∀ v : I64, (x + v).setWidth k = (y + v).setWidth k := by
    intro v
    rw [BitVec.setWidth_add _ _ hk, BitVec.setWidth_add _ _ hk, h]
  have hsub : ∀ v : I64, (x - v).setWidth k = (y - v).setWidth k := by
    intro v
    rw [BitVec.sub_eq_add_neg, BitVec.sub_eq_add_neg, hadd]
  cases op with
  | add v => exact hadd v
  | sub v => exact hsub v
  | mul v =>
      simp only [eval]
      rw [BitVec.setWidth_mul _ _ hk, BitVec.setWidth_mul _ _ hk, h]
  | and v => simp only [eval, BitVec.setWidth_and, h]
  | or v => simp only [eval, BitVec.setWidth_or, h]
  | xor v => simp only [eval, BitVec.setWidth_xor, h]
  | shl v =>
      -- A left shift moves bits up only: none comes down into the low `k`.
      simp only [eval]
      rw [BitVec.setWidth_shiftLeft_of_le hk, BitVec.setWidth_shiftLeft_of_le hk, h]
  | preIncr => exact hadd 1
  | postIncr => exact hadd 1
  | preDecr => exact hsub 1
  | postDecr => exact hsub 1

end Assign

namespace MoreInt

variable {B : Bytes} (native : Endian)

/-- Every operator computes on the raw bits. -/
theorem step_eq (m : MoreInt B) (op : Assign) :
    m.step native op = m.set native (op.eval (m.getRaw native)) := by
  cases op <;> rfl

theorem held_injective {m m' : MoreInt B} (h : m.held native = m'.held native) : m = m' :=
  congrArg mk (NoAilgnInt.held_injective native h)

/-- The raw bits and the value agree on the bytes of the object. -/
theorem getRaw_congr_get (m : MoreInt B) :
    (m.getRaw native).setWidth (8 * B.count) = (m.get native).setWidth (8 * B.count) := by
  have hle := B.bits_le
  rw [getRaw_eq_setWidth, get_eq_signExtend, BitVec.setWidth_setWidth_of_le _ hle,
    BitVec.setWidth_eq, Bits.setWidth_signExtend _ hle]

/-- The raw fast path stores what computing on the sign-extended value stores. -/
theorem step_eq_set_get (m : MoreInt B) (op : Assign) :
    m.step native op = m.set native (op.eval (m.get native)) := by
  -- The two operands differ above the bytes of the object, which are not stored.
  refine held_injective native ?_
  rw [step_eq, held_set, held_set]
  exact Assign.eval_congr B.bits_le (getRaw_congr_get native m) op

/-- One operator on the object and on a 64-bit integer with the same low bits. -/
theorem held_step {m : MoreInt B} {x : I64} (h : m.held native = x.setWidth (8 * B.count))
    (op : Assign) : (m.step native op).held native = (op.eval x).setWidth (8 * B.count) := by
  rw [step_eq, held_set]
  refine Assign.eval_congr B.bits_le ?_ op
  rw [getRaw_eq_setWidth, h, BitVec.setWidth_setWidth_of_le _ B.bits_le, BitVec.setWidth_eq]

theorem held_run {m : MoreInt B} {x : I64} (h : m.held native = x.setWidth (8 * B.count))
    (ops : List Assign) :
    (m.run native ops).held native = (Assign.evalAll x ops).setWidth (8 * B.count) := by
  induction ops generalizing m x with
  | nil => exact h
  | cons op ops ih => exact ih (held_step native h op)

theorem toInt_get (m : MoreInt B) : (m.get native).toInt = (m.held native).toInt := by
  rw [get_eq_signExtend, BitVec.toInt_signExtend_of_le B.bits_le]

/-- **Raw runs compute signed residues.**  A run of assignment operators on the raw bytes ends with
the signed residue of the same run on a 64-bit integer, and each operator stores what it would
store from the sign-extended value. -/
theorem get_run (start : I64) (ops : List Assign) :
    let m : MoreInt B := (ofI64 native start).run native ops
    (m.get native).toInt = (Assign.evalAll start ops).toInt.bmod (2 ^ (8 * B.count)) ∧
      -2 ^ (8 * B.count - 1) ≤ (m.get native).toInt ∧
      (m.get native).toInt < 2 ^ (8 * B.count - 1) ∧
      ∀ op, m.step native op = m.set native (op.eval (m.get native)) := by
  intro m
  have hheld : m.held native = (Assign.evalAll start ops).setWidth (8 * B.count) :=
    held_run native (held_set native _ start) ops
  have hvalue : (m.get native).toInt = (m.held native).toInt := toInt_get native m
  refine ⟨?_, ?_, ?_, step_eq_set_get native m⟩
  · -- The residue of the stored bits is that of all 64, as one modulus divides the other.
    have hdvd : 2 ^ (8 * B.count) ∣ 2 ^ 64 := Nat.pow_dvd_pow 2 B.bits_le
    rw [hvalue, hheld, BitVec.toInt_setWidth, BitVec.toInt_eq_toNat_bmod,
      Int.bmod_bmod_of_dvd hdvd]
  · rw [hvalue]
    exact BitVec.le_toInt _
  · rw [hvalue]
    exact BitVec.toInt_lt

-- Two bytes on a big-endian machine: `32767 + 1` wraps around.
example : ((ofI64 (B := ⟨2, by decide, by decide⟩) .big 32767).run .big [.preIncr]).get .big =
    -32768 := by
  decide

end MoreInt

end Core
end Chenc
