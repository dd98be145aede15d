import Chenc.Lib.CountedLoop
import Chenc.Lib.WhileLoop

/-!
# ArrayUint — unsigned integers of a fixed number of bits

Model of `array_uint` (`struct/detail/array_big_int.hpp`).

* `Width`, `ArrayUint` : the template parameter, and the array of blocks, least significant first;
* `fromUnsigned`, `fromSigned`, `convert`, `assign` : constructors and assignment;
* `beq`, `cmp` : `operator==` and `operator<=>`;
* `addTo`, `subTo`, `leftShiftTo`, `rightShiftTo` : the kernels, which read their operands while
  they write the result;
* the operators, each as the call of a kernel that it is.

Every access to a block is checked: `none` is an access outside the array.  An operand of a kernel
may be the object that receives the result (`Operand.same`), and is then read as it stands.
-/

namespace Chenc
namespace Struct

open CountedLoop (up down findUp findDown)
open WhileLoop (Flow)

abbrev U64 := BitVec 64

abbrev U128 := BitVec 128

/-- `Bits`, with the `static_assert`. -/
structure Width where
  bits : Nat
  pos : 0 < bits
  deriving DecidableEq

namespace Width

def blockSize (w : Width) : Nat :=
  (w.bits + 63) / 64

def backMask (w : Width) : U64 :=
  if w.bits % 64 = 0 then -1 else ((1 : U64) <<< (w.bits % 64)) - 1

/-- `std::max({Bits, OtherBits})`. -/
def max (v w : Width) : Width :=
  ⟨Nat.max v.bits w.bits, Nat.lt_of_lt_of_le v.pos (Nat.le_max_left ..)⟩

/-- The width of `array_uint<64>`. -/
def w64 : Width :=
  ⟨64, by decide⟩

/-- The width of `array_uint<128>`. -/
def w128 : Width :=
  ⟨128, by decide⟩

end Width

structure ArrayUint (w : Width) where
  data : List U64
  length_eq : data.length = w.blockSize

namespace ArrayUint

variable {w v A B R : Width}

/-- `data_[i]`. -/
def load (x : ArrayUint w) (i : Nat) : Option U64 :=
  x.data[i]?

/-- `data_[i] = block`. -/
def store (x : ArrayUint w) (i : Nat) (block : U64) : Option (ArrayUint w) :=
  if i < w.blockSize then some ⟨x.data.set i block, by rw [List.length_set, x.length_eq]⟩
  else none

def sanitize (x : ArrayUint w) : ArrayUint w :=
  if w.bits % 64 ≠ 0 then
    ⟨x.data.modify (w.blockSize - 1) (· &&& w.backMask), by rw [List.length_modify, x.length_eq]⟩
  else x

/-- `std::fill(data().begin() + first, data().begin() + last, block)`. -/
def fill (x : ArrayUint w) (first last : Nat) (block : U64) : Option (ArrayUint w) :=
  up (fun i x => x.store i block) (last - first) first x

/-! ## Operands -/

/-- An operand of width `A` for a result of width `R`. -/
inductive Operand (R : Width) : Width → Type
  | other {A : Width} (a : ArrayUint A) : Operand R A
  /-- The object that receives the result. -/
  | same : Operand R R

/-- How blocks are read while the result is being written. -/
abbrev Reader (R : Width) := ArrayUint R → Nat → Option U64

def Operand.load : Operand R A → Reader R
  | .other a, _, i => a.load i
  | .same, out, i => out.load i

/-- `std::copy` of `n` blocks, from `first` on to `dest` on. -/
def copy (read : Reader R) (first n dest : Nat) (out : ArrayUint R) : Option (ArrayUint R) :=
  up (fun k out => (read out (first + k)).bind (out.store (dest + k))) n 0 out

/-- `std::copy_backward` of the same blocks. -/
def copyBackward (read : Reader R) (first n dest : Nat) (out : ArrayUint R) :
    Option (ArrayUint R) :=
  down (fun k out => (read out (first + k)).bind (out.store (dest + k))) n 0 out

/-! ## Constructors and assignment -/

/-- `array_uint()`. -/
def zero : ArrayUint w :=
  ⟨List.replicate w.blockSize 0, List.length_replicate⟩

/-- `array_uint(T val)`, for an unsigned type of `k` bits. -/
def fromUnsigned {k : Nat} (val : BitVec k) : Option (ArrayUint w) := do
  let x ← (zero : ArrayUint w).store 0 (val.setWidth 64)
  some x.sanitize

/-- `array_uint(T val)`, for a signed type of `k` bits; `data_` is not initialised and holds
`before`. -/
def fromSigned {k : Nat} (before : ArrayUint w) (val : BitVec k) : Option (ArrayUint w) := do
  let x ← before.store 0 (val.signExtend 64)
  let x ← if val.toInt < 0 then x.fill 1 w.blockSize (-1) else x.fill 1 w.blockSize 0
  some x.sanitize

/-- `array_uint(const array_uint<OtherBits> &other)`. -/
def convert (other : ArrayUint v) : Option (ArrayUint w) := do
  let x ← copy (fun _ i => other.load i) 0 (min w.blockSize v.blockSize) 0 zero
  some x.sanitize

/-- `operator=(const array_uint<OtherBits> &val)`. -/
def assign (x : ArrayUint w) (val : ArrayUint v) : Option (ArrayUint w) := do
  let x ←
    if v.blockSize < w.blockSize then do
      let x ← copy (fun _ i => val.load i) 0 v.blockSize 0 x
      x.fill v.blockSize w.blockSize 0
    else copy (fun _ i => val.load i) 0 w.blockSize 0 x
  some x.sanitize

/-! ## Comparison -/

/-- `if (data_[i] != other.data()[i]) return false;`. -/
def differAt (x : ArrayUint w) (other : ArrayUint v) (i : Nat) : Option (Option Bool) := do
  let a ← x.load i
  let b ← other.load i
  some (if a ≠ b then some false else none)

/-- `if (data_[i] != 0) return r;`. -/
def nonzeroAt {ρ : Type} (r : ρ) (x : ArrayUint w) (i : Nat) : Option (Option ρ) := do
  let a ← x.load i
  some (if a ≠ 0 then some r else none)

/-- `operator==`. -/
def beq (x : ArrayUint w) (other : ArrayUint v) : Option Bool := do
  if v.blockSize < w.blockSize then
    if let some r ← findUp (differAt x other) v.blockSize 0 then
      return r
    if let some r ← findUp (nonzeroAt false x) (w.blockSize - v.blockSize) v.blockSize then
      return r
  else
    if let some r ← findUp (differAt x other) w.blockSize 0 then
      return r
    if let some r ← findUp (nonzeroAt false other) (v.blockSize - w.blockSize) w.blockSize then
      return r
  return true

/-- `if (data_[i] != other.data()[i]) return data_[i] <=> other.data()[i];`. -/
def orderAt (x : ArrayUint w) (other : ArrayUint v) (i : Nat) : Option (Option Ordering) := do
  let a ← x.load i
  let b ← other.load i
  some (if a ≠ b then some (compare a.toNat b.toNat) else none)

/-- `operator<=>`.  Its loops end before their index would fall below zero. -/
def cmp (x : ArrayUint w) (other : ArrayUint v) : Option Ordering := do
  if w.blockSize > v.blockSize then
    if let some r ← findDown (nonzeroAt .gt x) (w.blockSize - v.blockSize) v.blockSize then
      return r
  else if v.blockSize > w.blockSize then
    if let some r ← findDown (nonzeroAt .lt other) (v.blockSize - w.blockSize) w.blockSize then
      return r
  -- The last loop starts at the highest block of the left operand, whatever `other` has.
  if let some r ← findDown (orderAt x other) w.blockSize 0 then
    return r
  return .eq

/-! ## Addition -/

/-- A pass of the loop over the common blocks. -/
def addPass (a : Operand R A) (b : Operand R B) (i : Nat) :
    ArrayUint R × U64 → Option (ArrayUint R × U64)
  | (out, carry) => do
      let x ← a.load out i
      let y ← b.load out i
      let sum : U128 := x.setWidth 128 + y.setWidth 128 + carry.setWidth 128
      let out ← out.store i (sum.setWidth 64)
      some (out, (sum >>> 64).setWidth 64)

/-- A pass of the loop over the blocks that only the longer operand has. -/
def addLonger (srcMax : Nat) (src : Reader R) :
    Nat × ArrayUint R × U64 → Option (Flow (Nat × ArrayUint R × U64))
  | (i, out, carry) =>
      -- Once the carry is gone, the rest is copied.
      if carry = 0 then do
        let out ← copy src i (srcMax - i) i out
        some (.ret (srcMax, out, carry))
      else do
        let x ← src out i
        let sum : U128 := x.setWidth 128 + carry.setWidth 128
        let out ← out.store i (sum.setWidth 64)
        some (.next (i + 1, out, (sum >>> 64).setWidth 64))

/-- The last phase: the carry, and zeros above it. -/
def addFill (srcMax i : Nat) (out : ArrayUint R) (carry : U64) : Option (ArrayUint R) :=
  if R.blockSize > srcMax then
    if i < R.blockSize then do
      let out ← out.store i carry
      if i + 1 < R.blockSize then out.fill (i + 1) R.blockSize 0 else some out
    else some out
  else some out

def addTo (out : ArrayUint R) (a : Operand R A) (b : Operand R B) : Option (ArrayUint R) := do
  let common := min R.blockSize (min A.blockSize B.blockSize)
  let (out, carry) ← up (addPass a b) common 0 (out, 0)
  -- `src_max` is written with the same three counts as `common`.
  let srcMax := min R.blockSize (min A.blockSize B.blockSize)
  let (i, out, carry) ←
    if srcMax > common then
      let src : Reader R := if A.blockSize > B.blockSize then a.load else b.load
      WhileLoop.run (fun st => st.1 < srcMax) (addLonger srcMax src) (srcMax - common)
        (common, out, carry)
    else some (common, out, carry)
  let out ← addFill srcMax i out carry
  some out.sanitize

/-- `operator+=`; `other` may be the object itself. -/
def addAssign (x : ArrayUint w) (other : Operand w v) : Option (ArrayUint w) :=
  addTo x .same other

/-- `operator+=(T other)`. -/
def addAssignInt {k : Nat} (x : ArrayUint w) (other : BitVec k) : Option (ArrayUint w) := do
  let b : ArrayUint Width.w64 ← fromUnsigned other
  addTo x .same (.other b)

/-- `operator+`. -/
def add (x : ArrayUint w) (other : ArrayUint v) : Option (ArrayUint (w.max v)) :=
  addTo zero (.other x) (.other other)

/-- `operator+(u64 other)`, for a type `T` of the width `v`. -/
def addInt (v : Width) (x : ArrayUint w) (other : U64) : Option (ArrayUint (w.max v)) := do
  let b : ArrayUint Width.w64 ← fromUnsigned other
  addTo zero (.other x) (.other b)

/-- `array_uint<64>(1)`. -/
def one : Option (ArrayUint Width.w64) :=
  fromSigned zero (1 : BitVec 32)

/-- `operator++()`. -/
def preIncrement (x : ArrayUint w) : Option (ArrayUint w) := do
  let b ← one
  addTo x .same (.other b)

/-- `operator++(int)`: the object as it is left, and the result. -/
def postIncrement (x : ArrayUint w) : Option (ArrayUint w × ArrayUint w) := do
  let b ← one
  let result ← addTo zero (.other x) (.other b)
  some (x, result)

/-! ## Subtraction -/

/-- A pass of the loop over the common blocks. -/
def subPass (a : Operand R A) (b : Operand R B) (i : Nat) :
    ArrayUint R × U64 → Option (ArrayUint R × U64)
  | (out, borrow) => do
      let x ← a.load out i
      let y ← b.load out i
      let valA : U128 := x.setWidth 128
      let valB : U128 := y.setWidth 128 + borrow.setWidth 128
      let out ← out.store i ((valA - valB).setWidth 64)
      some (out, if valA < valB then 1 else 0)

/-- A pass of the loop over the blocks that `a` has left. -/
def subLonger (limit : Nat) (a : Operand R A) :
    Nat × ArrayUint R × U64 → Option (Flow (Nat × ArrayUint R × U64))
  | (i, out, borrow) =>
      -- Once the borrow is gone, the rest is copied.
      if borrow = 0 then do
        let out ← copy a.load i (limit - i) i out
        some (.ret (limit, out, borrow))
      else do
        let x ← a.load out i
        let out ← out.store i (x - borrow)
        some (.next (i + 1, out, if x < borrow then 1 else 0))

/-- The last phase: zeros, or ones while there is a borrow. -/
def subFill (i : Nat) (out : ArrayUint R) (borrow : U64) : Option (ArrayUint R) :=
  if i < R.blockSize then
    if borrow = 0 then out.fill i R.blockSize 0 else out.fill i R.blockSize (-1)
  else some out

/-- What follows the common blocks. -/
def subRest (a : Operand R A) (common : Nat) (out : ArrayUint R) (borrow : U64) :
    Option (ArrayUint R) :=
  if R.blockSize > common then
    if A.blockSize > common then do
      let limit := min R.blockSize A.blockSize
      let (i, out, borrow) ← WhileLoop.run (fun st => st.1 < limit) (subLonger limit a)
        (limit - common) (common, out, borrow)
      subFill i out borrow
    else subFill common out borrow
  else some out

def subTo (out : ArrayUint R) (a : Operand R A) (b : Operand R B) : Option (ArrayUint R) := do
  let common := min R.blockSize (min A.blockSize B.blockSize)
  let (out, borrow) ← up (subPass a b) common 0 (out, 0)
  let out ← subRest a common out borrow
  some out.sanitize

/-- `operator-=`; `other` may be the object itself. -/
def subAssign (x : ArrayUint w) (other : Operand w v) : Option (ArrayUint w) :=
  subTo x .same other

/-- `operator-=(T other)`. -/
def subAssignInt {k : Nat} (x : ArrayUint w) (other : BitVec k) : Option (ArrayUint w) := do
  let b : ArrayUint Width.w64 ← fromUnsigned other
  subTo x .same (.other b)

/-- `operator-`. -/
def sub (x : ArrayUint w) (other : ArrayUint v) : Option (ArrayUint (w.max v)) :=
  subTo zero (.other x) (.other other)

/-- `operator-(T other)`, for a type `T` of the width `v`. -/
def subInt (v : Width) (x : ArrayUint w) (other : BitVec v.bits) :
    Option (ArrayUint (w.max v)) := do
  let b : ArrayUint Width.w64 ← fromUnsigned other
  subTo zero (.other x) (.other b)

/-- `operator--()`. -/
def preDecrement (x : ArrayUint w) : Option (ArrayUint w) := do
  let b ← one
  subTo x .same (.other b)

/-- `operator--(int)`: the object as it is left, and the result. -/
def postDecrement (x : ArrayUint w) : Option (ArrayUint w × ArrayUint w) := do
  let b ← one
  let result ← subTo zero (.other x) (.other b)
  some (x, result)

/-! ## Shifts -/

/-- Where the blocks of the result and of a separate operand are, counted in blocks, and whether
the call is evaluated at compile time. -/
structure Layout where
  dst : Nat
  src : Nat
  constantEvaluated : Bool

/-- The address of the operand. -/
def Operand.address (lay : Layout) : Operand R A → Nat
  | .other _ => lay.src
  | .same => lay.dst

def isAliased (lay : Layout) (a : Operand R A) : Bool :=
  if lay.constantEvaluated then true
  else decide (lay.dst ≤ a.address lay + A.blockSize) &&
    decide (a.address lay ≤ lay.dst + R.blockSize)

/-- A shift by whole blocks. -/
def leftBlocks (lay : Layout) (a : Operand R A) (blockShift copyLen : Nat) (out : ArrayUint R) :
    Option (ArrayUint R) :=
  if copyLen > 0 then
    if isAliased lay a ∧ lay.dst + blockShift > a.address lay then
      copyBackward a.load 0 copyLen blockShift out
    else copy a.load 0 copyLen blockShift out
  else some out

/-- A pass of the loop from the low blocks up, which keeps the block read last. -/
def leftForward (a : Operand R A) (blockShift bitShift : Nat) (i : Nat) :
    ArrayUint R × U64 → Option (ArrayUint R × U64)
  | (out, prev) => do
      let cur ← a.load out i
      let out ← out.store (i + blockShift) ((cur <<< bitShift) ||| (prev >>> (64 - bitShift)))
      some (out, cur)

/-- The route for arrays that do not overlap. -/
def leftApart (a : Operand R A) (blockShift bitShift copyLen : Nat) (out : ArrayUint R) :
    Option (ArrayUint R) := do
  let (out, prev) ← up (leftForward a blockShift bitShift) copyLen 0 (out, 0)
  if copyLen + blockShift < R.blockSize then
    out.store (copyLen + blockShift) (prev >>> (64 - bitShift))
  else some out

/-- A pass of the loop from the high blocks down. -/
def leftBackward (a : Operand R A) (blockShift bitShift : Nat) (idx : Nat) (out : ArrayUint R) :
    Option (ArrayUint R) := do
  let cur ← a.load out idx
  let low : U64 ←
    if idx > 0 then (a.load out (idx - 1)).map fun x : U64 => x >>> (64 - bitShift) else some 0
  out.store (idx + blockShift) ((cur <<< bitShift) ||| low)

/-- The route for arrays that may overlap. -/
def leftOverlapped (a : Operand R A) (blockShift bitShift copyLen : Nat) (out : ArrayUint R) :
    Option (ArrayUint R) := do
  let out ← down (leftBackward a blockShift bitShift) copyLen 0 out
  -- The highest block that was moved is read once more, for the bits it shifts out.
  if copyLen + blockShift < R.blockSize then do
    let top ← a.load out (copyLen - 1)
    out.store (copyLen + blockShift) (top >>> (64 - bitShift))
  else some out

/-- The blocks that come from the operand. -/
def leftMove (lay : Layout) (a : Operand R A) (blockShift bitShift copyLen : Nat)
    (out : ArrayUint R) : Option (ArrayUint R) :=
  if bitShift = 0 then leftBlocks lay a blockShift copyLen out
  else if ¬ isAliased lay a then leftApart a blockShift bitShift copyLen out
  else leftOverlapped a blockShift bitShift copyLen out

/-- The low blocks are cleared. -/
def clearLow (blockShift : Nat) (out : ArrayUint R) : Option (ArrayUint R) :=
  if blockShift > 0 then out.fill 0 (min blockShift R.blockSize) 0 else some out

/-- The blocks from `first` on are cleared. -/
def clearHigh (first : Nat) (out : ArrayUint R) : Option (ArrayUint R) :=
  if R.blockSize > first then out.fill first R.blockSize 0 else some out

def leftShiftTo (lay : Layout) (out : ArrayUint R) (a : Operand R A) (shift : U64) :
    Option (ArrayUint R) :=
  -- Shifted out altogether; this route does not sanitize.
  if shift.toNat ≥ R.bits then out.fill 0 R.blockSize 0
  else do
    let blockShift := shift.toNat / 64
    let bitShift := shift.toNat % 64
    let copyLen :=
      if blockShift ≥ R.blockSize then 0 else min A.blockSize (R.blockSize - blockShift)
    let out ← leftMove lay a blockShift bitShift copyLen out
    let out ← clearLow blockShift out
    let out ← clearHigh (blockShift + copyLen + (if bitShift ≠ 0 then 1 else 0)) out
    some out.sanitize

/-- `operator<<=`. -/
def shiftLeftAssign (lay : Layout) (x : ArrayUint w) (shift : U64) : Option (ArrayUint w) :=
  leftShiftTo lay x .same shift

/-- `operator<<`. -/
def shiftLeft (lay : Layout) (x : ArrayUint w) (shift : U64) : Option (ArrayUint w) :=
  leftShiftTo lay zero (.other x) shift

/-- A pass of the loop that combines neighbouring blocks. -/
def rightPass (a : Operand R A) (blockShift bitShift : Nat) (i : Nat) (out : ArrayUint R) :
    Option (ArrayUint R) := do
  let srcIdx := i + blockShift
  let cur ← a.load out srcIdx
  let high : U64 ←
    if srcIdx + 1 < A.blockSize then
      (a.load out (srcIdx + 1)).map fun x : U64 => x <<< (64 - bitShift)
    else some 0
  out.store i ((cur >>> bitShift) ||| high)

/-- The blocks that come from the operand. -/
def rightMove (a : Operand R A) (blockShift bitShift copyLen : Nat) (out : ArrayUint R) :
    Option (ArrayUint R) :=
  if bitShift = 0 then
    if copyLen > 0 then copy a.load blockShift copyLen 0 out else some out
  else up (rightPass a blockShift bitShift) copyLen 0 out

def rightShiftTo (out : ArrayUint R) (a : Operand R A) (shift : U64) : Option (ArrayUint R) :=
  -- Shifted out altogether, by the width of the operand.
  if shift.toNat ≥ A.bits then out.fill 0 R.blockSize 0
  else do
    let blockShift := shift.toNat / 64
    let bitShift := shift.toNat % 64
    let copyLen := min (A.blockSize - blockShift) R.blockSize
    let out ← rightMove a blockShift bitShift copyLen out
    let out ← clearHigh copyLen out
    some out.sanitize

/-- `operator>>=`. -/
def shiftRightAssign (x : ArrayUint w) (shift : U64) : Option (ArrayUint w) :=
  rightShiftTo x .same shift

/-- `operator>>`. -/
def shiftRight (x : ArrayUint w) (shift : U64) : Option (ArrayUint w) :=
  rightShiftTo zero (.other x) shift

end ArrayUint

end Struct
end Chenc
