import Chenc.Lib.Limbs

/-!
# ByteOrder — words and their bytes in memory

A word of `n` bytes occupies `n` consecutive bytes of memory, the least significant one first or
last.

* `bytesOf`, `ofBytes` : the bytes of a word in memory order, and the word read back, with the
  round trip in both directions;
* `byteswap` : the word read in the opposite order, an involution.
-/

/-- `std::endian`. -/
inductive Endian
  | little
  | big
  deriving DecidableEq, Repr

namespace Endian

/-- The other byte order. -/
def opposite : Endian → Endian
  | little => big
  | big => little

@[simp] theorem opposite_opposite (e : Endian) : e.opposite.opposite = e := by
  cases e <;> rfl

theorem opposite_ne (e : Endian) : e.opposite ≠ e := by
  cases e <;> decide

end Endian

namespace ByteOrder

variable {n : Nat}

/-- The bytes of a word in memory order. -/
def bytesOf (e : Endian) (x : BitVec (8 * n)) : List (BitVec 8) :=
  match e with
  | .little => Limbs.digits 8 n x.toNat
  | .big => (Limbs.digits 8 n x.toNat).reverse

/-- The word whose bytes in memory order are `bs`. -/
def ofBytes (e : Endian) (n : Nat) (bs : List (BitVec 8)) : BitVec (8 * n) :=
  match e with
  | .little => BitVec.ofNat (8 * n) (Limbs.value bs)
  | .big => BitVec.ofNat (8 * n) (Limbs.value bs.reverse)

@[simp] theorem length_bytesOf (e : Endian) (x : BitVec (8 * n)) : (bytesOf e x).length = n := by
  cases e <;> simp [bytesOf]

theorem bytesOf_opposite (e : Endian) (x : BitVec (8 * n)) :
    bytesOf e.opposite x = (bytesOf e x).reverse := by
  cases e <;> simp [bytesOf, Endian.opposite]

theorem ofBytes_opposite (e : Endian) (bs : List (BitVec 8)) :
    ofBytes e.opposite n bs = ofBytes e n bs.reverse := by
  cases e <;> simp [ofBytes, Endian.opposite]

theorem ofBytes_bytesOf (e : Endian) (x : BitVec (8 * n)) : ofBytes e n (bytesOf e x) = x := by
  have hvalue : BitVec.ofNat (8 * n) (Limbs.value (Limbs.digits 8 n x.toNat)) = x := by
    rw [Limbs.value_digits, Nat.mod_eq_of_lt x.isLt, BitVec.ofNat_toNat, BitVec.setWidth_eq]
  cases e with
  | little => exact hvalue
  | big => simpa [ofBytes, bytesOf] using hvalue

theorem bytesOf_ofBytes (e : Endian) {bs : List (BitVec 8)} (h : bs.length = n) :
    bytesOf e (ofBytes e n bs) = bs := by
  subst h
  have hdigits : ∀ cs : List (BitVec 8), cs.length = bs.length →
      Limbs.digits 8 bs.length (BitVec.ofNat (8 * bs.length) (Limbs.value cs)).toNat = cs := by
    intro cs hlen
    rw [← hlen, BitVec.toNat_ofNat, Nat.mod_eq_of_lt (Limbs.value_lt cs), Limbs.digits_value]
  cases e with
  | little => exact hdigits bs rfl
  | big =>
      have hreverse := hdigits bs.reverse bs.length_reverse
      rw [bytesOf, ofBytes, hreverse, List.reverse_reverse]

/-- `std::byteswap`: the bytes of the word in the opposite order. -/
def byteswap (x : BitVec (8 * n)) : BitVec (8 * n) :=
  ofBytes .little n (bytesOf .big x)

@[simp] theorem byteswap_byteswap (x : BitVec (8 * n)) : byteswap (byteswap x) = x := by
  have hbytes : bytesOf .big (byteswap x) = bytesOf .little x := by
    have hread : byteswap x = ofBytes .big n (bytesOf .big x).reverse :=
      ofBytes_opposite .big (bytesOf .big x)
    rw [hread, bytesOf_ofBytes .big (by simp)]
    exact (bytesOf_opposite .big x).symm
  rw [byteswap, hbytes, ofBytes_bytesOf]

theorem byteswap_eq_iff (x y : BitVec (8 * n)) : byteswap x = y ↔ x = byteswap y := by
  constructor
  · rintro rfl
    rw [byteswap_byteswap]
  · rintro rfl
    rw [byteswap_byteswap]

end ByteOrder
