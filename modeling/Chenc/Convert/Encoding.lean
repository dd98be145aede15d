import Chenc.Lib.Bits
import Chenc.Convert.Utf32ToChar

/-!
# Encoding — the units `utf32ToChar` stores

* `numbers_utf32Units` : for code points up to `0x10FFFF` the stored units are the standard
  sequence of the output form;
* `ReplaceChar.isCharacter` : a replacement character is a standard character.
-/

namespace Chenc
namespace Convert

open Unicode

/-! ## Fields of a stored unit -/

/-- A continuation byte with the payload from bit `n` on. -/
theorem toNat_trailField (c : U32) (n : Nat) :
    (0x80#32 ||| (c >>> n &&& 0x3F#32)).toNat = 0x80 + c.toNat / 2 ^ n % 0x40 := by
  have hand : (c >>> n &&& 0x3F#32).toNat = c.toNat / 2 ^ n % 0x40 := by
    rw [Bits.toNat_and_low 6 rfl, Bits.toNat_ushiftRight]
    rfl
  rw [Bits.toNat_or_of_dvd 6 (by decide) (by omega), hand]
  rfl

theorem toNat_lowTrailField (c : U32) :
    (0x80#32 ||| (c &&& 0x3F#32)).toNat = 0x80 + c.toNat % 0x40 := by
  have h := toNat_trailField c 0
  rwa [BitVec.ushiftRight_zero, pow_zero, Nat.div_one] at h

/-- A lead unit: a marker above bit `k` and the payload from bit `n` on. -/
theorem toNat_leadField {m c : U32} (k n : Nat) (hm : 2 ^ k ∣ m.toNat)
    (hc : c.toNat / 2 ^ n < 2 ^ k) : (m ||| c >>> n).toNat = m.toNat + c.toNat / 2 ^ n := by
  rw [Bits.toNat_or_of_dvd k hm (by rwa [Bits.toNat_ushiftRight]), Bits.toNat_ushiftRight]

/-! ## Standard sequences -/

section Forms

variable {c : U32}

theorem numbers_utf8Units (signed : Bool) (hc : c.toNat ≤ 0x10FFFF) :
    numbers (utf32Units { form := .utf8, signed := signed } c) = encode .utf8 c.toNat := by
  have hlow := toNat_lowTrailField c
  have hmid := toNat_trailField c 6
  have htop := toNat_trailField c 12
  simp only [Nat.reducePow] at hmid htop
  have hif : ∀ n : Nat, n < 2 ^ 32 → (c ≤ BitVec.ofNat 32 n ↔ c.toNat < n + 1) := by
    intro n hn
    rw [BitVec.le_def, BitVec.toNat_ofNat]
    omega
  simp only [utf32Units, encode, hif 0x7F (by norm_num), hif 0x7FF (by norm_num),
    hif 0xFFFF (by norm_num), Nat.reduceAdd]
  -- The cut to eight bits loses nothing: every field was put together below `0x100`.
  split_ifs with h1 h2 h3
  all_goals
    simp only [numbers_cons, numbers_nil, CharType.ofU32, BitVec.toNat_setWidth, CharType.bits,
      CharType.size, Nat.reduceMul, Nat.reducePow, List.cons.injEq, and_true]
  · omega
  · have hlead := toNat_leadField (m := 0xC0#32) (c := c) 6 6 (by decide) (by omega)
    simp only [BitVec.toNat_ofNat, Nat.reducePow, Nat.reduceMod] at hlead
    omega
  · have hlead := toNat_leadField (m := 0xE0#32) (c := c) 5 12 (by decide) (by omega)
    simp only [BitVec.toNat_ofNat, Nat.reducePow, Nat.reduceMod] at hlead
    omega
  · have hlead := toNat_leadField (m := 0xF0#32) (c := c) 4 18 (by decide) (by omega)
    simp only [BitVec.toNat_ofNat, Nat.reducePow, Nat.reduceMod] at hlead
    omega

theorem numbers_utf16Units (signed : Bool) (hc : c.toNat ≤ 0x10FFFF) :
    numbers (utf32Units { form := .utf16, signed := signed } c) = encode .utf16 c.toNat := by
  have hif : c ≤ 0xFFFF#32 ↔ c.toNat < 0x10000 := by
    rw [BitVec.le_def, BitVec.toNat_ofNat]
    omega
  simp only [utf32Units, encode, hif]
  split_ifs with h1
  all_goals
    simp only [numbers_cons, numbers_nil, CharType.ofU32, BitVec.toNat_setWidth, CharType.bits,
      CharType.size, Nat.reduceMul, Nat.reducePow, List.cons.injEq, and_true]
  · omega
  · have hsub : (c - 0x10000#32).toNat = c.toNat - 0x10000 := by
      rw [BitVec.toNat_sub, BitVec.toNat_ofNat]
      omega
    have hhigh := toNat_leadField (m := 0xD800#32) (c := c - 0x10000#32) 10 10 (by decide)
      (by omega)
    have hlow : (0xDC00#32 ||| (c &&& 0x3FF#32)).toNat = 0xDC00 + c.toNat % 0x400 := by
      have hand : (c &&& 0x3FF#32).toNat = c.toNat % 0x400 := Bits.toNat_and_low 10 rfl
      rw [Bits.toNat_or_of_dvd 10 (by decide) (by omega), hand]
      rfl
    simp only [BitVec.toNat_ofNat, Nat.reducePow, Nat.reduceMod, hsub] at hhigh
    omega

/-- **Encoding.**  A code point in range is stored as its standard sequence. -/
theorem numbers_utf32Units (Out : CharType) (hc : c.toNat ≤ 0x10FFFF) :
    numbers (utf32Units Out c) = encode Out.form c.toNat := by
  rcases Out with ⟨form, signed⟩
  cases form with
  | utf8 => exact numbers_utf8Units signed hc
  | utf16 => exact numbers_utf16Units signed hc
  | utf32 =>
      simp only [utf32Units, CharType.ofU32, encode, numbers_cons, numbers_nil,
        BitVec.toNat_setWidth, List.cons.injEq, and_true]
      exact Nat.mod_eq_of_lt c.isLt

end Forms

/-- The static assertions admit standard characters only. -/
theorem ReplaceChar.isCharacter (r : ReplaceChar) : IsCharacter r.value.toNat := by
  have hrange := r.inRange
  have hsur := r.notSurrogate
  have hnon := r.notNonCharacter
  have hlow : (r.value &&& 0xFFFF#32).toNat = r.value.toNat % 0x10000 :=
    Bits.toNat_and_low 16 rfl
  simp only [BitVec.le_def, ← BitVec.toNat_inj, hlow, BitVec.toNat_ofNat] at hrange hsur hnon
  simp only [IsCharacter, IsSurrogate, IsNoncharacter]
  omega

end Convert
end Chenc
