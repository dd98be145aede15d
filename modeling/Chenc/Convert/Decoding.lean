import Chenc.Lib.Bits
import Chenc.Convert.CharToUtf32

/-!
# Decoding — what `charToUtf32` reads and accepts

Three facts about the decoder hold under every option:

* `charToUtf32_reads`  : it consumes the number of units its first unit announces, whatever the
  outcome, and reports `inTruncated` exactly when fewer are left;
* `charToUtf32_ascii`  : an ASCII unit is decoded to itself under every option;
* `charToUtf32_isSome` : with input bounds checked, or with the announced units present, it does
  not read past the end.

What strict mode accepts is the subject of `Convert.StrictDecoding`.
-/

namespace Chenc
namespace Convert

open Unicode

/-! ## Bytes and code points as numbers -/

theorem lead_two_iff (b : U8) : b &&& 0xE0#8 = 0xC0#8 ↔ 0xC0 ≤ b.toNat ∧ b.toNat < 0xE0 := by
  revert b
  decide +kernel

theorem lead_three_iff (b : U8) : b &&& 0xF0#8 = 0xE0#8 ↔ 0xE0 ≤ b.toNat ∧ b.toNat < 0xF0 := by
  revert b
  decide +kernel

theorem lead_four_iff (b : U8) : b &&& 0xF8#8 = 0xF0#8 ↔ 0xF0 ≤ b.toNat ∧ b.toNat < 0xF8 := by
  revert b
  decide +kernel

theorem trail_iff (b : U8) : b &&& 0xC0#8 = 0x80#8 ↔ 0x80 ≤ b.toNat ∧ b.toNat < 0xC0 := by
  revert b
  decide +kernel

theorem inSurrogates_iff (c : U32) : inSurrogates c ↔ IsSurrogate c.toNat := by
  simp [inSurrogates, IsSurrogate, BitVec.le_def]

theorem nonCharacter_mask_iff (c : U32) :
    c &&& 0xFFFE#32 = 0xFFFE#32 ↔ 0xFFFE ≤ c.toNat % 0x10000 := by
  rw [← BitVec.toNat_inj, BitVec.toNat_and]
  exact Bits.and_eq_high_iff c.toNat 15

theorem inNonCharacters_iff (c : U32) : inNonCharacters c ↔ IsNoncharacter c.toNat := by
  simp [inNonCharacters, IsNoncharacter, BitVec.le_def, nonCharacter_mask_iff]

/-- A payload of `k` low bits of a byte, moved up by `n` bits. -/
theorem toNat_payload {b m : U8} (k n : Nat) (hm : m.toNat = 2 ^ k - 1) (hkn : k + n ≤ 32) :
    ((b &&& m).setWidth 32 <<< n : U32).toNat = b.toNat % 2 ^ k * 2 ^ n := by
  have hand : ((b &&& m).setWidth 32).toNat = b.toNat % 2 ^ k := by
    have hlt : (b &&& m).toNat < 2 ^ 32 := Nat.lt_trans (b &&& m).isLt (by norm_num)
    rw [BitVec.toNat_setWidth, Nat.mod_eq_of_lt hlt, Bits.toNat_and_low k hm]
  have hfit : b.toNat % 2 ^ k * 2 ^ n < 2 ^ 32 :=
    calc
      b.toNat % 2 ^ k * 2 ^ n < 2 ^ k * 2 ^ n :=
          Nat.mul_lt_mul_of_pos_right (Nat.mod_lt _ (Nat.two_pow_pos k)) (Nat.two_pow_pos n)
      _ = 2 ^ (k + n) := (Nat.pow_add 2 k n).symm
      _ ≤ 2 ^ 32 := Nat.pow_le_pow_right (by norm_num) hkn
  rw [Bits.toNat_shiftLeft_of_lt n (by rw [hand]; exact hfit), hand]

theorem toNat_lowPayload {b m : U8} (k : Nat) (hm : m.toNat = 2 ^ k - 1) (hk : k ≤ 32) :
    ((b &&& m).setWidth 32 : U32).toNat = b.toNat % 2 ^ k := by
  simpa using toNat_payload (b := b) k 0 hm hk

theorem toNat_twoBytes (b0 b1 : U8) :
    ((b0 &&& 0x1F#8).setWidth 32 <<< 6 ||| (b1 &&& 0x3F#8).setWidth 32 : U32).toNat =
      b0.toNat % 0x20 * 0x40 + b1.toNat % 0x40 := by
  have h0 := toNat_payload (b := b0) (m := 0x1F#8) 5 6 rfl (by norm_num)
  have h1 := toNat_lowPayload (b := b1) (m := 0x3F#8) 6 rfl (by norm_num)
  rw [Bits.toNat_or_of_dvd 6 (by omega) (by omega), h0, h1]
  norm_num

theorem toNat_threeBytes (b0 b1 b2 : U8) :
    ((b0 &&& 0x0F#8).setWidth 32 <<< 12 ||| (b1 &&& 0x3F#8).setWidth 32 <<< 6 |||
        (b2 &&& 0x3F#8).setWidth 32 : U32).toNat =
      b0.toNat % 0x10 * 0x1000 + b1.toNat % 0x40 * 0x40 + b2.toNat % 0x40 := by
  have h0 := toNat_payload (b := b0) (m := 0x0F#8) 4 12 rfl (by norm_num)
  have h1 := toNat_payload (b := b1) (m := 0x3F#8) 6 6 rfl (by norm_num)
  have h2 := toNat_lowPayload (b := b2) (m := 0x3F#8) 6 rfl (by norm_num)
  -- The fields do not overlap, so each union is a sum; the high union is taken first.
  have hhigh := Bits.toNat_or_of_dvd 12 (a := (b0 &&& 0x0F#8).setWidth 32 <<< 12)
    (b := (b1 &&& 0x3F#8).setWidth 32 <<< 6) (by omega) (by omega)
  rw [Bits.toNat_or_of_dvd 6 (by omega) (by omega), hhigh, h0, h1, h2]
  norm_num

theorem toNat_fourBytes (b0 b1 b2 b3 : U8) :
    ((b0 &&& 0x07#8).setWidth 32 <<< 18 ||| (b1 &&& 0x3F#8).setWidth 32 <<< 12 |||
        (b2 &&& 0x3F#8).setWidth 32 <<< 6 ||| (b3 &&& 0x3F#8).setWidth 32 : U32).toNat =
      b0.toNat % 0x08 * 0x40000 + b1.toNat % 0x40 * 0x1000 + b2.toNat % 0x40 * 0x40 +
        b3.toNat % 0x40 := by
  have h0 := toNat_payload (b := b0) (m := 0x07#8) 3 18 rfl (by norm_num)
  have h1 := toNat_payload (b := b1) (m := 0x3F#8) 6 12 rfl (by norm_num)
  have h2 := toNat_payload (b := b2) (m := 0x3F#8) 6 6 rfl (by norm_num)
  have h3 := toNat_lowPayload (b := b3) (m := 0x3F#8) 6 rfl (by norm_num)
  -- As above, from the high union down.
  have hhigh := Bits.toNat_or_of_dvd 18 (a := (b0 &&& 0x07#8).setWidth 32 <<< 18)
    (b := (b1 &&& 0x3F#8).setWidth 32 <<< 12) (by omega) (by omega)
  have hmid := Bits.toNat_or_of_dvd 12
    (a := (b0 &&& 0x07#8).setWidth 32 <<< 18 ||| (b1 &&& 0x3F#8).setWidth 32 <<< 12)
    (b := (b2 &&& 0x3F#8).setWidth 32 <<< 6) (by omega) (by omega)
  rw [Bits.toNat_or_of_dvd 6 (by omega) (by omega), hmid, hhigh, h0, h1, h2, h3]
  norm_num

theorem toNat_pair {h l : Nat} {a : U32} {b : U16} (ha : a.toNat = 0xD800 + h)
    (hb : b.toNat = 0xDC00 + l) (hh : h < 0x400) (hl : l < 0x400) :
    (((a &&& 0x03FF#32) <<< 10 ||| (b &&& 0x03FF#16).setWidth 32) + 0x10000#32 : U32).toNat =
      h * 0x400 + l + 0x10000 := by
  have h0 : (a &&& 0x03FF#32).toNat = h := by
    rw [Bits.toNat_and_low 10 rfl, ha]
    omega
  have h1 : ((b &&& 0x03FF#16).setWidth 32).toNat = l := by
    rw [BitVec.toNat_setWidth, Bits.toNat_and_low 10 rfl, hb]
    omega
  have hs : ((a &&& 0x03FF#32) <<< 10).toNat = h * 2 ^ 10 := by
    rw [Bits.toNat_shiftLeft_of_lt 10 (by rw [h0]; omega), h0]
  rw [BitVec.toNat_add, Bits.toNat_or_of_dvd 10 (by omega) (by omega), hs, h1]
  simp only [BitVec.toNat_ofNat]
  omega

/-! ## Units consumed -/

/-- The accounting of one decoding outcome: `k` units announced, `left` units available. -/
structure Reads (k left : Nat) (p : ErrorT × CharResult) : Prop where
  input : p.2.inputBlock = k
  output : p.2.outputBlock = 0
  truncated : p.1 = .inTruncated ↔ left < k
  notOverflow : p.1 ≠ .outOverflow

/-- Errors found in a sequence that is there in full. -/
def ErrorT.IsContent (e : ErrorT) : Prop :=
  e ≠ .inTruncated ∧ e ≠ .outOverflow

theorem Reads.of_content {k left : Nat} {e : ErrorT} {r : CharResult} (hk : k ≤ left)
    (he : e.IsContent) (hin : r.inputBlock = k) (hout : r.outputBlock = 0) :
    Reads k left (e, r) :=
  ⟨hin, hout, ⟨fun h => absurd h he.1, fun h => absurd h (by omega)⟩, he.2⟩

theorem Reads.of_truncated {k left : Nat} {r : CharResult} (hk : left < k)
    (hin : r.inputBlock = k) (hout : r.outputBlock = 0) : Reads k left (.inTruncated, r) :=
  ⟨hin, hout, ⟨fun _ => hk, fun _ => rfl⟩, by simp⟩

theorem deliver_reads {k left : Nat} {e : ErrorT} (hk : k ≤ left) (he : e.IsContent) (c : U32) :
    Reads k left (({} : CharResult).deliver k e c) := by
  unfold CharResult.deliver
  split_ifs
  · exact .of_content hk (by simp [ErrorT.IsContent]) (by simp [CharResult.takeInput]) rfl
  · exact .of_content hk he (by simp [CharResult.takeInput]) rfl

theorem twoByteError_isContent (o : Options) (c : U32) : (twoByteError o c).IsContent := by
  unfold twoByteError ErrorT.IsContent
  split_ifs <;> simp

theorem threeByteError_isContent (o : Options) (c : U32) : (threeByteError o c).IsContent := by
  unfold threeByteError ErrorT.IsContent
  split_ifs <;> simp

theorem fourByteError_isContent (o : Options) (c : U32) : (fourByteError o c).IsContent := by
  unfold fourByteError ErrorT.IsContent
  split_ifs <;> simp

theorem bmpError_isContent (o : Options) (c : U32) : (bmpError o c).IsContent := by
  unfold bmpError ErrorT.IsContent
  split_ifs <;> simp

theorem pairError_isContent (o : Options) (c : U32) : (pairError o c).IsContent := by
  unfold pairError ErrorT.IsContent
  split_ifs <;> simp

theorem utf32Error_isContent (o : Options) (c : U32) : (utf32Error o c).IsContent := by
  unfold utf32Error ErrorT.IsContent
  split_ifs <;> simp

section Reads

variable {o : Options} {In : CharType} {s : List In.Unit} {p : ErrorT × CharResult}

theorem utf8TwoBytes_reads (h : utf8TwoBytes o s {} = some p) : Reads 2 s.length p := by
  rcases utf8TwoBytes_cases h with ⟨hlen, rfl⟩ | ⟨u0, u1, t, rfl⟩
  · exact .of_truncated (Nat.lt_succ_of_le hlen) rfl rfl
  · -- The sequence is there: the source check, then the checks of the code point.
    simp only [utf8TwoBytes_cons] at h
    split_ifs at h
    · cases h
      exact .of_content (by simp) (by simp [ErrorT.IsContent]) rfl rfl
    · cases h
      exact deliver_reads (by simp) (twoByteError_isContent o _) _

theorem utf8ThreeBytes_reads (h : utf8ThreeBytes o s {} = some p) : Reads 3 s.length p := by
  rcases utf8ThreeBytes_cases h with ⟨hlen, rfl⟩ | ⟨u0, u1, u2, t, rfl⟩
  · exact .of_truncated (Nat.lt_succ_of_le hlen) rfl rfl
  · simp only [utf8ThreeBytes_cons] at h
    split_ifs at h
    · cases h
      exact .of_content (by simp) (by simp [ErrorT.IsContent]) rfl rfl
    · cases h
      exact deliver_reads (by simp) (threeByteError_isContent o _) _

theorem utf8FourBytes_reads (h : utf8FourBytes o s {} = some p) : Reads 4 s.length p := by
  rcases utf8FourBytes_cases h with ⟨hlen, rfl⟩ | ⟨u0, u1, u2, u3, t, rfl⟩
  · exact .of_truncated (Nat.lt_succ_of_le hlen) rfl rfl
  · simp only [utf8FourBytes_cons] at h
    split_ifs at h
    · cases h
      exact .of_content (by simp) (by simp [ErrorT.IsContent]) rfl rfl
    · cases h
      exact deliver_reads (by simp) (fourByteError_isContent o _) _

theorem utf8ToUtf32_reads {u : In.Unit} (h : utf8ToUtf32 o (u :: s) {} = some p) :
    Reads (leadLength .utf8 (u.setWidth 8 : U8).toNat) (u :: s).length p := by
  simp only [utf8ToUtf32, List.getElem?_cons_zero, Option.bind_eq_bind, Option.bind_some,
    lead_two_iff, lead_three_iff, lead_four_iff, BitVec.lt_def, BitVec.toNat_ofNat] at h
  simp only [leadLength]
  -- The source tests the classes of lead bytes in the order of `leadLength`.
  split_ifs at h with h1 h2 h3 h4
  · cases h
    rw [if_pos (by omega)]
    exact .of_content (by simp) (by simp [ErrorT.IsContent]) rfl rfl
  · rw [if_neg (by omega), if_pos (by omega)]
    exact utf8TwoBytes_reads h
  · rw [if_neg (by omega), if_neg (by omega), if_pos (by omega)]
    exact utf8ThreeBytes_reads h
  · rw [if_neg (by omega), if_neg (by omega), if_neg (by omega), if_pos (by omega)]
    exact utf8FourBytes_reads h
  · -- A trail byte or a byte from `0xF8` on accounts for itself alone.
    cases h
    have hone : leadLength .utf8 (u.setWidth 8 : U8).toNat = 1 := by
      simp only [leadLength]
      split_ifs <;> omega
    simp only [leadLength] at hone
    rw [hone]
    exact .of_content (by simp) (by simp [ErrorT.IsContent]) rfl rfl

theorem utf16ToUtf32_reads {u : In.Unit} (h : utf16ToUtf32 o (u :: s) {} = some p) :
    Reads (leadLength .utf16 (In.toU32 u).toNat) (u :: s).length p := by
  simp only [utf16ToUtf32, List.getElem?_cons_zero, Option.bind_eq_bind, Option.bind_some,
    BitVec.lt_def, BitVec.le_def, BitVec.toNat_ofNat] at h
  simp only [leadLength]
  split_ifs at h with h1 h2 h3
  · -- Not a surrogate.
    cases h
    rw [if_neg (by omega)]
    exact deliver_reads (by simp) (bmpError_isContent o _) _
  · -- A high surrogate at the end of the text.
    cases h
    rw [if_pos (by omega)]
    exact .of_truncated (Nat.lt_succ_of_le h3) rfl rfl
  · -- A high surrogate with a unit behind it.
    rcases s with _ | ⟨u1, t⟩
    · simp at h3
    · rw [if_pos (by omega)]
      simp only [List.getElem?_cons_zero, List.getElem?_cons_succ, Option.bind_some] at h
      split_ifs at h
      · cases h
        exact .of_content (by simp) (by simp [ErrorT.IsContent]) rfl rfl
      · cases h
        exact deliver_reads (by simp) (pairError_isContent o _) _
  · -- A low surrogate on its own.
    cases h
    rw [if_neg (by omega)]
    exact .of_content (by simp) (by simp [ErrorT.IsContent]) rfl rfl

/-- The number of units the first unit announces. -/
def CharType.announced (In : CharType) (u : In.Unit) : Nat :=
  match In.form with
  | .utf8 => leadLength .utf8 (u.setWidth 8 : U8).toNat
  | .utf16 => leadLength .utf16 (In.toU32 u).toNat
  | .utf32 => 1

theorem CharType.announced_pos (In : CharType) (u : In.Unit) : 0 < In.announced u := by
  unfold CharType.announced
  split
  · exact leadLength_pos _ _
  · exact leadLength_pos _ _
  · exact Nat.one_pos

/-- **Consumption.**  Whatever the outcome, the first unit alone decides how many units it
accounts for. -/
theorem charToUtf32_reads {u : In.Unit} (h : charToUtf32 o In (u :: s) {} = some p) :
    Reads (In.announced u) (u :: s).length p := by
  have hlen : ¬ o.truncates 0 (u :: s).length := by simp [Options.truncates]
  rw [charToUtf32, if_neg hlen] at h
  unfold CharType.announced
  cases hf : In.form with
  | utf8 =>
      simp only [hf] at h
      exact utf8ToUtf32_reads h
  | utf16 =>
      simp only [hf] at h
      exact utf16ToUtf32_reads h
  | utf32 =>
      simp only [hf, utf32ToUtf32, List.getElem?_cons_zero, Option.bind_eq_bind,
        Option.bind_some] at h
      cases h
      exact deliver_reads (by simp) (utf32Error_isContent o _) _

end Reads

/-! ## Outcomes exist -/

section Total

variable {o : Options} {In : CharType} (s : List In.Unit)

/-- Past the bound check of a branch its units are there, in the mode without the check by
assumption. -/
theorem Options.available {k left : Nat} (ht : ¬ o.truncates k left)
    (h : o.inputMode = .normal ∨ k + 1 ≤ left) : k + 1 ≤ left := by
  rcases h with hin | hle
  · exact Nat.lt_of_not_le fun hle => ht ⟨hin, hle⟩
  · exact hle

theorem utf8TwoBytes_isSome (h : o.inputMode = .normal ∨ 2 ≤ s.length) :
    (utf8TwoBytes o s {}).isSome := by
  by_cases ht : o.truncates 1 s.length
  · simp [utf8TwoBytes, ht]
  · have hlen : 2 ≤ s.length := Options.available ht h
    rcases s with _ | ⟨u0, _ | ⟨u1, t⟩⟩
    · simp at hlen
    · simp at hlen
    · rw [utf8TwoBytes_cons]
      rfl

theorem utf8ThreeBytes_isSome (h : o.inputMode = .normal ∨ 3 ≤ s.length) :
    (utf8ThreeBytes o s {}).isSome := by
  by_cases ht : o.truncates 2 s.length
  · simp [utf8ThreeBytes, ht]
  · have hlen : 3 ≤ s.length := Options.available ht h
    rcases s with _ | ⟨u0, _ | ⟨u1, _ | ⟨u2, t⟩⟩⟩
    · simp at hlen
    · simp at hlen
    · simp at hlen
    · rw [utf8ThreeBytes_cons]
      rfl

theorem utf8FourBytes_isSome (h : o.inputMode = .normal ∨ 4 ≤ s.length) :
    (utf8FourBytes o s {}).isSome := by
  by_cases ht : o.truncates 3 s.length
  · simp [utf8FourBytes, ht]
  · have hlen : 4 ≤ s.length := Options.available ht h
    rcases s with _ | ⟨u0, _ | ⟨u1, _ | ⟨u2, _ | ⟨u3, t⟩⟩⟩⟩
    · simp at hlen
    · simp at hlen
    · simp at hlen
    · simp at hlen
    · rw [utf8FourBytes_cons]
      rfl

theorem utf8ToUtf32_isSome {u : In.Unit}
    (h : o.inputMode = .normal ∨ leadLength .utf8 (u.setWidth 8 : U8).toNat ≤ (u :: s).length) :
    (utf8ToUtf32 o (u :: s) {}).isSome := by
  simp only [utf8ToUtf32, List.getElem?_cons_zero, Option.bind_eq_bind, Option.bind_some,
    lead_two_iff, lead_three_iff, lead_four_iff, BitVec.lt_def, BitVec.toNat_ofNat]
  simp only [leadLength] at h
  split_ifs with h1 h2 h3 h4
  · rfl
  · rw [if_neg (by omega), if_pos (by omega)] at h
    exact utf8TwoBytes_isSome _ h
  · rw [if_neg (by omega), if_neg (by omega), if_pos (by omega)] at h
    exact utf8ThreeBytes_isSome _ h
  · rw [if_neg (by omega), if_neg (by omega), if_neg (by omega), if_pos (by omega)] at h
    exact utf8FourBytes_isSome _ h
  · rfl

/-- No decoding reads past the end if input bounds are checked or the announced units are
there. -/
theorem charToUtf32_isSome {u : In.Unit}
    (h : o.inputMode = .normal ∨ In.announced u ≤ (u :: s).length) :
    (charToUtf32 o In (u :: s) {}).isSome := by
  have hlen : ¬ o.truncates 0 (u :: s).length := by simp [Options.truncates]
  rw [charToUtf32, if_neg hlen]
  unfold CharType.announced at h
  cases hf : In.form with
  | utf8 =>
      simp only [hf] at h
      exact utf8ToUtf32_isSome s h
  | utf16 =>
      -- The bound check of this branch is there in both input modes.
      simp only [utf16ToUtf32, List.getElem?_cons_zero, Option.bind_eq_bind, Option.bind_some]
      split_ifs with h1 h2 h3
      · rfl
      · rfl
      · rcases s with _ | ⟨u1, t⟩
        · simp at h3
        · simp only [List.getElem?_cons_zero, List.getElem?_cons_succ, Option.bind_some]
          split_ifs <;> rfl
      · rfl
  | utf32 => rfl

end Total

/-! ## ASCII -/

/-- Sign extension does not show on ASCII units. -/
theorem CharType.toNat_toU32_ascii (In : CharType) {u : In.Unit} (hu : u.toNat < 0x80) :
    (In.toU32 u).toNat = u.toNat := by
  have hbits : 8 ≤ In.bits := by
    simp only [CharType.bits, CharType.size]
    split <;> norm_num
  have hpow : 2 ^ 8 ≤ 2 ^ In.bits := Nat.pow_le_pow_right (by norm_num) hbits
  have hset : (u.setWidth 32).toNat = u.toNat := by
    rw [BitVec.toNat_setWidth]
    exact Nat.mod_eq_of_lt (by omega)
  unfold CharType.toU32
  split_ifs
  · -- Signed units: the sign bit of an ASCII unit is clear.
    have hmsb : u.msb = false := BitVec.msb_eq_false_iff_two_mul_lt.2 (by omega)
    rw [BitVec.signExtend_eq_setWidth_of_msb_false hmsb, hset]
  · exact hset

/-- An ASCII unit is decoded to itself under every option. -/
theorem charToUtf32_ascii (o : Options) {In : CharType} {u : In.Unit} (hu : u.toNat < 0x80)
    (s : List In.Unit) :
    charToUtf32 o In (u :: s) {} =
      some (.none, { inputBlock := 1, unicode := In.toU32 u }) := by
  have hlen : ¬ o.truncates 0 (u :: s).length := by simp [Options.truncates]
  have hnat := In.toNat_toU32_ascii hu
  rw [charToUtf32, if_neg hlen]
  cases hf : In.form with
  | utf8 =>
      have hlt : (u.setWidth 8 : U8) < 0x80#8 := by
        rw [BitVec.lt_def, BitVec.toNat_setWidth, BitVec.toNat_ofNat]
        omega
      simp [utf8ToUtf32, hlt, CharResult.takeInput]
  | utf16 =>
      -- The unit is below the surrogates, and the noncharacters lie higher.
      have hnc : ¬ inNonCharacters (In.toU32 u) := by
        rw [inNonCharacters_iff, hnat, IsNoncharacter]
        omega
      have hlt : (In.toU32 u).toNat < 0xD800 := by omega
      simp [utf16ToUtf32, BitVec.lt_def, hlt, bmpError, hnc, CharResult.deliver,
        CharResult.takeInput]
  | utf32 =>
      -- None of the three checks of this branch concerns a value this small.
      have hs : ¬ inSurrogates (In.toU32 u) := by
        rw [inSurrogates_iff, hnat, IsSurrogate]
        omega
      have hnc : ¬ inNonCharacters (In.toU32 u) := by
        rw [inNonCharacters_iff, hnat, IsNoncharacter]
        omega
      have hmax : ¬ 0x10FFFF < (In.toU32 u).toNat := by omega
      simp [utf32ToUtf32, BitVec.lt_def, utf32Error, hs, hnc, hmax, CharResult.deliver,
        CharResult.takeInput]

end Convert
end Chenc
