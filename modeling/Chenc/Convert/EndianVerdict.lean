import Chenc.Convert.UtfEndian
import Chenc.Lib.Unicode

/-!
# EndianVerdict — which texts have their byte order recognised

What `utf_endian` says of well-formed text, as it stands in memory and with the bytes of every unit
swapped.

* `walk_le`, `walk_of_valid` : the UTF-32 score is the largest for valid units only;
* `utfEndian_utf32_text` : UTF-32 text in the byte order of the machine is always recognised, and
  swapped text unless its sample reads as characters either way;
* `latinWeight`, `pageWeight`, `mirrored` : what the characters of the sample weigh;
* `utfEndian_utf16_text` : which UTF-16 text of one unit a character is recognised.
-/

namespace Chenc
namespace Convert

open ByteOrder
open Unicode

/-! ## The verdict -/

section Verdicts

variable (native : Endian) (a b : Nat)

theorem verdict_eq_native_iff : (if a < b then native.opposite else native) = native ↔ b ≤ a := by
  split_ifs with hlt
  · exact iff_of_false native.opposite_ne (Nat.not_le.2 hlt)
  · exact iff_of_true rfl (Nat.le_of_not_lt hlt)

theorem verdict_eq_opposite_iff :
    (if a < b then native.opposite else native) = native.opposite ↔ a < b := by
  split_ifs with hlt
  · exact iff_of_true rfl hlt
  · exact iff_of_false native.opposite_ne.symm hlt

end Verdicts

/-! ## UTF-32 -/

theorem encodeAll_utf32 (cs : List Nat) : encodeAll .utf32 cs = cs := by
  induction cs with
  | nil => rfl
  | cons c cs ih =>
      rw [encodeAll_cons, ih]
      rfl

theorem toNat_byteswap_four (v : U32) :
    (byteswap (n := 4) v).toNat = v.toNat % 0x100 * 2 ^ 24 + v.toNat / 0x100 % 0x100 * 2 ^ 16 +
      v.toNat / 2 ^ 16 % 0x100 * 2 ^ 8 + v.toNat / 2 ^ 24 := by
  have hv := v.isLt
  have hbytes : bytesOf (n := 4) .big v =
      [BitVec.ofNat 8 (v.toNat / 2 ^ 24), BitVec.ofNat 8 (v.toNat / 2 ^ 16),
        BitVec.ofNat 8 (v.toNat / 0x100), BitVec.ofNat 8 v.toNat] := by
    simp [bytesOf, Limbs.digits, List.range_succ]
  have hvalue : Limbs.value [BitVec.ofNat 8 (v.toNat / 2 ^ 24), BitVec.ofNat 8 (v.toNat / 2 ^ 16),
      BitVec.ofNat 8 (v.toNat / 0x100), BitVec.ofNat 8 v.toNat] =
      v.toNat % 0x100 * 2 ^ 24 + v.toNat / 0x100 % 0x100 * 2 ^ 16 +
        v.toNat / 2 ^ 16 % 0x100 * 2 ^ 8 + v.toNat / 2 ^ 24 := by
    simp [Limbs.value, Nat.ofDigits]
    omega
  have hlt : Limbs.value [BitVec.ofNat 8 (v.toNat / 2 ^ 24), BitVec.ofNat 8 (v.toNat / 2 ^ 16),
      BitVec.ofNat 8 (v.toNat / 0x100), BitVec.ofNat 8 v.toNat] < 2 ^ (8 * 4) := Limbs.value_lt _
  rw [byteswap, hbytes, ofBytes, BitVec.toNat_ofNat, Nat.mod_eq_of_lt hlt, hvalue]

theorem isInvalidU32_iff (v : U32) :
    isInvalidU32 v = true ↔ IsSurrogate v.toNat ∨ 0x10FFFF < v.toNat := by
  simp [isInvalidU32, IsSurrogate, BitVec.le_def, BitVec.lt_def]

theorem walkUnit_of_valid {v : U32} (h : isInvalidU32 v = false) (score : Nat) :
    walkUnit score v = score + 10 := by
  have hle : v ≤ 0x10FFFF#32 := by
    rw [← Bool.not_eq_true, isInvalidU32_iff] at h
    exact BitVec.le_def.2 (Nat.le_of_not_lt fun hlt => h (.inr hlt))
  simp [walkUnit, h, hle]

theorem walkUnit_of_invalid {v : U32} (h : isInvalidU32 v = true) (score : Nat) :
    walkUnit score v ≤ score := by
  simp only [walkUnit, h, if_true, penalty]
  split_ifs <;> omega

/-- A score gains ten from each valid unit at most. -/
theorem walk_le (sample : List U32) (score : Nat) :
    sample.foldl walkUnit score ≤ score + 10 * sample.countP fun v => !isInvalidU32 v := by
  induction sample generalizing score with
  | nil => exact Nat.le_refl _
  | cons v sample ih =>
      rw [List.foldl_cons]
      cases h : isInvalidU32 v with
      | false =>
          rw [List.countP_cons_of_pos (by simp [h]), walkUnit_of_valid h]
          exact (ih _).trans (by omega)
      | true =>
          rw [List.countP_cons_of_neg (by simp [h])]
          exact (ih _).trans (Nat.add_le_add_right (walkUnit_of_invalid h score) _)

theorem walk_of_valid {sample : List U32} (h : ∀ v ∈ sample, isInvalidU32 v = false) (score : Nat) :
    sample.foldl walkUnit score = score + 10 * sample.length := by
  induction sample generalizing score with
  | nil => rfl
  | cons v sample ih =>
      rcases List.forall_mem_cons.1 h with ⟨hv, hsample⟩
      rw [List.foldl_cons, walkUnit_of_valid hv, ih hsample, List.length_cons]
      omega

/-- A sample with an invalid unit scores less. -/
theorem walk_lt_iff (sample : List U32) :
    walk sample < 10 * sample.length ↔ ∃ v ∈ sample, isInvalidU32 v = true := by
  constructor
  · intro hlt
    by_contra hnone
    have hvalid : ∀ v ∈ sample, isInvalidU32 v = false := fun v hv =>
      Bool.eq_false_iff.2 fun h => hnone ⟨v, hv, h⟩
    rw [walk, walk_of_valid hvalid, Nat.zero_add] at hlt
    exact lt_irrefl _ hlt
  · rintro ⟨v, hv, h⟩
    have hcount : sample.countP (fun v => !isInvalidU32 v) < sample.length := by
      refine Nat.lt_of_le_of_ne List.countP_le_length fun heq => ?_
      have hv' := List.countP_eq_length.1 heq v hv
      simp [h] at hv'
    have hle := walk_le sample 0
    rw [Nat.zero_add] at hle
    exact hle.trans_lt (by omega)

/-- With its bytes swapped the character is a code point, too, and no surrogate. -/
def Ambiguous (c : Nat) : Prop :=
  c % 0x100 = 0 ∧ c / 0x100 % 0x100 ≤ 0x10

instance (c : Nat) : Decidable (Ambiguous c) :=
  inferInstanceAs (Decidable (_ ∧ _))

theorem isInvalidU32_byteswap {v : U32} (h : v.toNat ≤ 0x10FFFF) :
    isInvalidU32 (byteswap (n := 4) v) = true ↔ ¬ Ambiguous v.toNat := by
  have hpage : v.toNat / 2 ^ 16 = v.toNat / 0x100 / 0x100 :=
    (Nat.div_div_eq_div_mul v.toNat 0x100 0x100).symm
  have htop : v.toNat / 2 ^ 24 = 0 := Nat.div_eq_of_lt (by omega)
  have hlow : v.toNat % 0x100 < 0x100 := Nat.mod_lt _ (by decide)
  have hhigh : v.toNat / 0x100 % 0x100 < 0x100 := Nat.mod_lt _ (by decide)
  have hplane : v.toNat / 0x100 / 0x100 ≤ 0x10 := by omega
  rw [isInvalidU32_iff, toNat_byteswap_four, IsSurrogate, Ambiguous, hpage, htop,
    Nat.mod_eq_of_lt (a := v.toNat / 0x100 / 0x100) (by omega)]
  -- Below the second byte the number is too small for a surrogate, and with it too large.
  rcases Nat.eq_zero_or_pos (v.toNat / 0x100 % 0x100) with hzero | hpos <;> omega

/-- **UTF-32 text.**  Well-formed text in the byte order of the machine is recognised.  With the
bytes of every unit swapped it is recognised if and only if one of its first 64 characters is no
character with its bytes swapped. -/
theorem utfEndian_utf32_text (signed : Bool) (native : Endian) {cs : List Nat} (hcs : IsText cs)
    (input : List (CharType.Unit { form := .utf32, signed := signed }))
    (h : numbers input = encodeAll .utf32 cs) :
    utfEndian _ native input = native ∧
      (utfEndian _ native (swapUnits input) = native.opposite ↔
        ∃ c ∈ cs.take 64, ¬ Ambiguous c) := by
  change List (BitVec 32) at input
  change input.map BitVec.toNat = _ at h
  rw [encodeAll_utf32] at h
  subst h
  have hchar : ∀ v ∈ input, IsCharacter v.toNat := fun v hv => hcs _ (List.mem_map_of_mem hv)
  have hvalid : ∀ v ∈ input.take 64, isInvalidU32 v = false := by
    intro v hv
    rw [← Bool.not_eq_true, isInvalidU32_iff]
    have hc := hchar v (List.mem_of_mem_take hv)
    exact fun hor => hor.elim hc.2.1 (Nat.not_lt.2 hc.1)
  have hwalk : walk (input.take 64) = 10 * (input.take 64).length := by
    rw [walk, walk_of_valid hvalid, Nat.zero_add]
  -- None of the units that the code takes for marks, but U+FEFF, is a character.
  have hhead : ∀ x : U32, ¬ IsCharacter x.toNat → input.head? ≠ some x := fun x hx heq =>
    hx (hchar x (List.mem_of_head? heq))
  have hlt := walk_lt_iff ((input.take 64).map (byteswap (n := 4)))
  rw [List.length_map] at hlt
  constructor
  · change utfEndianUtf32 native input = native
    rw [utfEndianUtf32_eq, scores_utf32, hwalk, if_neg (hhead 0xFEFF0000 (by decide))]
    by_cases hmark : input.head? = some 0x0000FEFF
    · rw [if_pos hmark]
    · rw [if_neg hmark]
      -- No score is above that of valid units.
      have hle : walk ((input.take 64).map (byteswap (n := 4))) ≤ 0 + 10 * _ := walk_le _ 0
      have hcount := List.countP_le_length (p := fun v => !isInvalidU32 v)
        (l := (input.take 64).map (byteswap (n := 4)))
      rw [List.length_map] at hcount
      have hwalks : walk ((input.take 64).map (byteswap (n := 4))) ≤
          10 * (input.take 64).length := by
        omega
      exact (verdict_eq_native_iff native _ _).2 hwalks
  · change utfEndianUtf32 native (input.map (byteswap (n := 4))) = _ ↔ _
    rw [utfEndianUtf32_swap, scores_utf32, hwalk, if_neg (hhead 0xFFFE0000 (by decide)),
      if_neg (hhead 0x0000FFFE (by decide)), ← List.map_take]
    refine (verdict_eq_opposite_iff native _ _).trans (hlt.trans ?_)
    simp only [List.mem_map, exists_exists_and_eq_and]
    refine exists_congr fun v => and_congr_right fun hv => ?_
    exact isInvalidU32_byteswap (hchar v (List.mem_of_mem_take hv)).1

/-- Letters in swapped order, and characters that are code points either way. -/
theorem utfEndian_utf32_text_letters :
    utfEndian { form := .utf32, signed := false } .little [0x20000000, 0x61000000] = .big ∧
      utfEndian { form := .utf32, signed := false } .little [0x00010000, 0x000A0000] = .little := by
  have hletters : IsText [0x20, 0x61] := by decide
  have hpages : IsText [0x100, 0xA00] := by decide
  refine ⟨(utfEndian_utf32_text false .little hletters [0x20, 0x61] rfl).2.2 (by decide), ?_⟩
  have hnot := mt (utfEndian_utf32_text false .little hpages [0x100, 0xA00] rfl).2.1 (by decide)
  revert hnot
  decide

/-! ## UTF-16 -/

/-- What a character of one byte weighs for the order it stands in. -/
def latinWeight (c : Nat) : Nat :=
  if 0 < c ∧ c < 0x100 then anchorWeight (BitVec.ofNat 8 c) else 0

/-- What a character weighs against it, whose low byte is zero. -/
def pageWeight (c : Nat) : Nat :=
  if 0x100 ≤ c ∧ c % 0x100 = 0 then anchorWeight (BitVec.ofNat 8 (c / 0x100)) else 0

/-- A surrogate with its bytes swapped. -/
def mirrored (c : Nat) : Bool :=
  decide (0xD8 ≤ c % 0x100 ∧ c % 0x100 ≤ 0xDF)

theorem encodeAll_utf16 {cs : List Nat} (h : ∀ c ∈ cs, c < 0x10000) : encodeAll .utf16 cs = cs := by
  induction cs with
  | nil => rfl
  | cons c cs ih =>
      rcases List.forall_mem_cons.1 h with ⟨hc, hcs⟩
      rw [encodeAll_cons, ih hcs, encode, if_pos hc]
      rfl

theorem isSurrogate_iff (v : U16) : isSurrogate v = true ↔ IsSurrogate v.toNat := by
  have hv := v.isLt
  have hmask : (0xF800 : U16).toNat = (2 ^ 5 - 1) * 2 ^ 11 := rfl
  rw [isSurrogate, beq_iff_eq, ← BitVec.toNat_inj, Bits.toNat_and_high 11 5 hmask hv, IsSurrogate]
  change _ = 0xD800 ↔ _
  omega

theorem highAnchor_eq (v : U16) : highAnchor v = latinWeight v.toNat := by
  have hv := v.isLt
  have hiff : (highIsZero v && !lowIsZero v) = true ↔ 0 < v.toNat ∧ v.toNat < 0x100 := by
    rw [Bool.and_eq_true, highIsZero_iff, Bool.not_eq_true', ← Bool.not_eq_true, lowIsZero_iff]
    omega
  rw [highAnchor, latinWeight, if_congr hiff rfl rfl, BitVec.ofNat_toNat]

theorem lowAnchor_eq (v : U16) : lowAnchor v = pageWeight v.toNat := by
  have hv := v.isLt
  have hiff : (lowIsZero v && !highIsZero v) = true ↔ 0x100 ≤ v.toNat ∧ v.toNat % 0x100 = 0 := by
    rw [Bool.and_eq_true, lowIsZero_iff, Bool.not_eq_true', ← Bool.not_eq_true, highIsZero_iff]
    omega
  have hbyte : (v >>> 8).setWidth 8 = BitVec.ofNat 8 (v.toNat / 0x100) := by
    refine BitVec.eq_of_toNat_eq ?_
    rw [BitVec.toNat_setWidth, Bits.toNat_ushiftRight, BitVec.toNat_ofNat]
    rfl
  rw [lowAnchor, pageWeight, if_congr hiff rfl rfl, hbyte]

theorem isMirrored_eq {v : U16} (h : ¬ IsSurrogate v.toNat) : isMirrored v = mirrored v.toNat := by
  have hv := v.isLt
  have hplain : isSurrogate v = false := by rwa [← Bool.not_eq_true, isSurrogate_iff]
  rw [isMirrored, hplain, Bool.not_false, Bool.true_and, Bool.eq_iff_iff, isSurrogate_iff,
    toNat_byteswap_two, mirrored, decide_eq_true_iff, IsSurrogate]
  omega

/-- The sums over the units of a text are those over its characters. -/
theorem sums_of_text (input : List U16) (h : ∀ v ∈ input, ¬ IsSurrogate v.toNat) :
    (input.map highAnchor).sum = ((input.map BitVec.toNat).map latinWeight).sum ∧
      (input.map lowAnchor).sum = ((input.map BitVec.toNat).map pageWeight).sum ∧
      input.countP isMirrored = (input.map BitVec.toNat).countP mirrored ∧
      input.countP isPlain = 0 ∧ input.countP isDouble = 0 := by
  have hnone : ∀ p : U16 → Bool, (∀ v, p v = true → isSurrogate v = true) →
      input.countP p = 0 := fun p hp => List.countP_eq_zero.2 fun v hv hpv =>
    h v hv ((isSurrogate_iff v).1 (hp v hpv))
  refine ⟨?_, ?_, ?_, hnone _ fun v hv => ?_, hnone _ fun v hv => ?_⟩
  · rw [List.map_map]
    exact congrArg List.sum (List.map_congr_left fun v _ => highAnchor_eq v)
  · rw [List.map_map]
    exact congrArg List.sum (List.map_congr_left fun v _ => lowAnchor_eq v)
  · rw [List.countP_map]
    refine List.countP_congr fun v hv => ?_
    rw [isMirrored_eq (h v hv), Function.comp_apply]
  · rw [isPlain, Bool.and_eq_true] at hv
    exact hv.1
  · rw [isDouble, Bool.and_eq_true] at hv
    exact hv.1

/-- U+FFFE is no character, so a text starts with the mark in its own order or not at all. -/
theorem hasMarkUtf16_iff_of_text {input : List U16} (h : ∀ v ∈ input, IsCharacter v.toNat) :
    HasMarkUtf16 input ↔ (input.map BitVec.toNat).head? = some 0xFEFF := by
  rcases input with _ | ⟨v, input⟩
  · simp [HasMarkUtf16]
  · have hfirst := h v List.mem_cons_self
    have hnot : v ≠ 0xFFFE#16 := by
      rintro rfl
      revert hfirst
      decide
    have hmark : HasMarkUtf16 (v :: input) ↔ v = 0xFEFF := by simp [HasMarkUtf16, hnot]
    rw [hmark, List.map_cons, List.head?_cons, Option.some.injEq, ← BitVec.toNat_inj]
    rfl

/-- **UTF-16 text of one unit a character.**  Unless a mark decides, well-formed text in the byte
order of the machine is recognised if and only if in its first 256 characters those whose low byte
is zero do not outweigh those of one byte.  With the bytes of every unit swapped, those that are
surrogates then count for the machine's order as well, and a tie is not recognised. -/
theorem utfEndian_utf16_text (signed : Bool) (native : Endian) {cs : List Nat} (hcs : IsText cs)
    (hbmp : ∀ c ∈ cs, c < 0x10000)
    (input : List (CharType.Unit { form := .utf16, signed := signed }))
    (h : numbers input = encodeAll .utf16 cs) :
    (utfEndian _ native input = native ↔ cs.head? = some 0xFEFF ∨
      ((cs.take 256).map pageWeight).sum ≤ ((cs.take 256).map latinWeight).sum) ∧
    (utfEndian _ native (swapUnits input) = native.opposite ↔ cs.head? = some 0xFEFF ∨
      8 * (cs.take 256).countP mirrored + ((cs.take 256).map pageWeight).sum <
        ((cs.take 256).map latinWeight).sum) := by
  change List (BitVec 16) at input
  change input.map BitVec.toNat = _ at h
  rw [encodeAll_utf16 hbmp] at h
  subst h
  have hchar : ∀ v ∈ input, IsCharacter v.toNat := fun v hv => hcs _ (List.mem_map_of_mem hv)
  have hhead := hasMarkUtf16_iff_of_text hchar
  rw [← hhead, ← List.map_take]
  change (utfEndianUtf16 native input = _ ↔ _) ∧
    (utfEndianUtf16 native (input.map (byteswap (n := 2))) = _ ↔ _)
  by_cases hmark : HasMarkUtf16 input
  · have hown : utfEndianUtf16 native input = native := by
      rcases input with _ | ⟨v, input⟩
      · rfl
      · have hv := List.head?_cons ▸ hhead.1 hmark
        rw [utfEndianUtf16, if_pos (BitVec.eq_of_toNat_eq (Option.some.inj hv))]
    refine ⟨iff_of_true hown (.inl hmark), iff_of_true ?_ (.inl hmark)⟩
    rw [utfEndianUtf16_swap_of_hasMark hmark, hown]
  · have hmark' : ¬ HasMarkUtf16 (input.map (byteswap (n := 2))) := by rwa [hasMarkUtf16_swap]
    rcases sums_of_text (input.take 256) fun v hv =>
      (hchar v (List.mem_of_mem_take hv)).2.1 with ⟨hhigh, hlow, hmirrored, hplain, hdouble⟩
    rw [utfEndianUtf16_of_not_hasMark native hmark, utfEndianUtf16_of_not_hasMark native hmark',
      verdict_eq_native_iff, verdict_eq_opposite_iff, (scores_utf16 native input).1,
      (scores_utf16 native input).2, (scores_utf16_swapped native input).1,
      (scores_utf16_swapped native input).2, hplain, hdouble, hhigh, hlow, hmirrored]
    simp only [hmark, false_or, Nat.mul_zero, Nat.zero_add, and_self]

/-- U+4E00 and a space in either order, and U+4E00 by itself. -/
theorem utfEndian_utf16_text_space :
    utfEndian { form := .utf16, signed := false } .little [0x4E00, 0x0020] = .little ∧
      utfEndian { form := .utf16, signed := false } .little [0x004E, 0x2000] = .big ∧
      utfEndian { form := .utf16, signed := false } .little [0x4E00] ≠ .little := by
  have hspaced : IsText [0x4E00, 0x20] := by decide
  have halone : IsText [0x4E00] := by decide
  have hboth := utfEndian_utf16_text false .little hspaced (by decide) [0x4E00, 0x20] rfl
  have hone := utfEndian_utf16_text false .little halone (by decide) [0x4E00] rfl
  exact ⟨hboth.1.2 (by decide), hboth.2.2 (by decide), mt hone.1.1 (by decide)⟩

end Convert
end Chenc
