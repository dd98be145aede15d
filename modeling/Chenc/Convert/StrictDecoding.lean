import Chenc.Convert.Decoding

/-!
# StrictDecoding — strict mode accepts exactly the standard sequences

For unsigned units of any encoding form, `charToUtf32` in strict mode delivers a character `c`
with `k` units read if and only if `c` is a code point that may stand in text and the input
starts with its standard sequence, which has `k` units (`charToUtf32_strict_iff`).
-/

namespace Chenc
namespace Convert

open Unicode

theorem deliver_eq_none {r cr : CharResult} {k : Nat} {e : ErrorT} {c : U32}
    (h : r.deliver k e c = (.none, cr)) : e = .none ∧ cr = { r.takeInput k with unicode := c } := by
  unfold CharResult.deliver at h
  split_ifs at h with he
  · cases h
    exact ⟨he, rfl⟩
  · exact absurd (congrArg Prod.fst h) he

theorem deliver_of_none (r : CharResult) (k : Nat) (c : U32) :
    r.deliver k .none c = (.none, { r.takeInput k with unicode := c }) := rfl

theorem CharType.bits_le (In : CharType) : In.bits ≤ 32 := by
  simp only [CharType.bits, CharType.size]
  split <;> norm_num

/-- The value of an unsigned unit as `u32`. -/
theorem CharType.toNat_toU32 {In : CharType} (hs : In.signed = false) (u : In.Unit) :
    (In.toU32 u).toNat = u.toNat := by
  have hpow : 2 ^ In.bits ≤ 2 ^ 32 := Nat.pow_le_pow_right (by norm_num) In.bits_le
  rw [CharType.toU32, hs, if_neg (by simp), BitVec.toNat_setWidth]
  exact Nat.mod_eq_of_lt (lt_of_lt_of_le u.isLt hpow)

/-- No width from that of the type on cuts a unit off. -/
theorem toNat_setWidth_ofForm {f : Form} (u : (CharType.ofForm f).Unit) {w : Nat}
    (hw : (CharType.ofForm f).bits ≤ w) : (u.setWidth w).toNat = u.toNat := by
  rw [BitVec.toNat_setWidth]
  exact Nat.mod_eq_of_lt (lt_of_lt_of_le u.isLt (Nat.pow_le_pow_right (by norm_num) hw))

theorem announced_ofForm {f : Form} (u : (CharType.ofForm f).Unit) :
    (CharType.ofForm f).announced u = leadLength f u.toNat := by
  cases f with
  | utf8 =>
      change leadLength .utf8 (u.setWidth 8 : U8).toNat = _
      rw [toNat_setWidth_ofForm u (by decide)]
  | utf16 =>
      change leadLength .utf16 ((CharType.ofForm .utf16).toU32 u).toNat = _
      rw [CharType.toNat_toU32 rfl]
  | utf32 => rfl

/-! ## Checks that pass -/

section Checks

variable {o : Options} (ho : o.charMode = .strict) (c : U32)

include ho

theorem twoByteError_eq_none : twoByteError o c = .none ↔ 0x80 ≤ c.toNat := by
  simp [twoByteError, ho, BitVec.lt_def]

theorem threeByteError_eq_none (hc : c.toNat < 0x10000) :
    threeByteError o c = .none ↔ 0x800 ≤ c.toNat ∧ IsCharacter c.toNat := by
  simp only [threeByteError, ho, if_true, inSurrogates_iff, inNonCharacters_iff, BitVec.lt_def,
    IsCharacter, BitVec.toNat_ofNat]
  split_ifs <;> simp_all
  omega

theorem fourByteError_eq_none :
    fourByteError o c = .none ↔ 0x10000 ≤ c.toNat ∧ IsCharacter c.toNat := by
  simp only [fourByteError, ho, if_true, inSurrogates_iff, inNonCharacters_iff, BitVec.lt_def,
    IsCharacter, BitVec.toNat_ofNat]
  split_ifs <;> simp_all

theorem bmpError_eq_none : bmpError o c = .none ↔ ¬ IsNoncharacter c.toNat := by
  simp [bmpError, ho, inNonCharacters_iff]

theorem pairError_eq_none (hc : 0x10000 ≤ c.toNat) (hmax : c.toNat ≤ 0x10FFFF) :
    pairError o c = .none ↔ IsCharacter c.toNat := by
  -- A pair is never a surrogate, and only the plane ends are noncharacters this high.
  have hsur : ¬ IsSurrogate c.toNat := by
    unfold IsSurrogate
    omega
  have hnon : IsNoncharacter c.toNat ↔ 0xFFFE ≤ c.toNat % 0x10000 := by
    unfold IsNoncharacter
    omega
  simp only [pairError, ho, if_true, inSurrogates_iff, nonCharacter_mask_iff, BitVec.lt_def,
    IsCharacter, BitVec.toNat_ofNat, hnon]
  split_ifs <;> simp_all
  omega

theorem utf32Error_eq_none : utf32Error o c = .none ↔ IsCharacter c.toNat := by
  simp only [utf32Error, ho, if_true, inSurrogates_iff, inNonCharacters_iff, BitVec.lt_def,
    IsCharacter, BitVec.toNat_ofNat]
  split_ifs <;> simp_all

end Checks

/-! ## Soundness: what is accepted is a standard sequence -/

/-- The bytes of UTF-8 input. -/
def bytes {In : CharType} (s : List In.Unit) : List Nat :=
  s.map fun u => (u.setWidth 8 : U8).toNat

section Sound

variable {o : Options} (ho : o.charMode = .strict) {In : CharType} {s : List In.Unit}
  {cr : CharResult}

include ho

theorem utf8TwoBytes_sound (h : utf8TwoBytes o s {} = some (.none, cr)) :
    IsCharacter cr.unicode.toNat ∧ encode .utf8 cr.unicode.toNat <+: bytes s := by
  rcases utf8TwoBytes_cases h with ⟨-, hp⟩ | ⟨u0, u1, t, rfl⟩
  · simp at hp
  · simp only [utf8TwoBytes_cons] at h
    split_ifs at h with hsrc
    · simp at h
    · rcases deliver_eq_none (Option.some.inj h) with ⟨he, rfl⟩
      rw [twoByteError_eq_none ho, toNat_twoBytes] at he
      -- The two bytes are numbers from here on.
      simp only [Options.checksSource, ho, true_or, true_and, ne_eq, not_or, not_not,
        lead_two_iff, trail_iff] at hsrc
      simp only [toNat_twoBytes, bytes, List.map_cons]
      generalize (u0.setWidth 8 : U8).toNat = n0 at *
      generalize (u1.setWidth 8 : U8).toNat = n1 at *
      have henc : encode .utf8 (n0 % 0x20 * 0x40 + n1 % 0x40) = [n0, n1] := by
        simp only [encode]
        rw [if_neg (by omega), if_pos (by omega)]
        simp only [List.cons.injEq, and_true]
        omega
      refine ⟨?_, by simp [henc]⟩
      simp only [IsCharacter, IsSurrogate, IsNoncharacter]
      omega

theorem utf8ThreeBytes_sound (h : utf8ThreeBytes o s {} = some (.none, cr)) :
    IsCharacter cr.unicode.toNat ∧ encode .utf8 cr.unicode.toNat <+: bytes s := by
  rcases utf8ThreeBytes_cases h with ⟨-, hp⟩ | ⟨u0, u1, u2, t, rfl⟩
  · simp at hp
  · simp only [utf8ThreeBytes_cons] at h
    split_ifs at h with hsrc
    · simp at h
    · rcases deliver_eq_none (Option.some.inj h) with ⟨he, rfl⟩
      -- Three bytes stay below `0x10000`, so the range check that is missing is not missed.
      rw [threeByteError_eq_none ho _ (by rw [toNat_threeBytes]; omega),
        toNat_threeBytes] at he
      simp only [Options.checksSource, ho, true_or, true_and, ne_eq, not_or, not_not,
        lead_three_iff, trail_iff] at hsrc
      simp only [toNat_threeBytes, bytes, List.map_cons]
      generalize (u0.setWidth 8 : U8).toNat = n0 at *
      generalize (u1.setWidth 8 : U8).toNat = n1 at *
      generalize (u2.setWidth 8 : U8).toNat = n2 at *
      have henc : encode .utf8 (n0 % 0x10 * 0x1000 + n1 % 0x40 * 0x40 + n2 % 0x40) =
          [n0, n1, n2] := by
        simp only [encode]
        rw [if_neg (by omega), if_neg (by omega), if_pos (by omega)]
        simp only [List.cons.injEq, and_true]
        omega
      exact ⟨he.2, by simp [henc]⟩

theorem utf8FourBytes_sound (h : utf8FourBytes o s {} = some (.none, cr)) :
    IsCharacter cr.unicode.toNat ∧ encode .utf8 cr.unicode.toNat <+: bytes s := by
  rcases utf8FourBytes_cases h with ⟨-, hp⟩ | ⟨u0, u1, u2, u3, t, rfl⟩
  · simp at hp
  · simp only [utf8FourBytes_cons] at h
    split_ifs at h with hsrc
    · simp at h
    · rcases deliver_eq_none (Option.some.inj h) with ⟨he, rfl⟩
      rw [fourByteError_eq_none ho, toNat_fourBytes] at he
      simp only [Options.checksSource, ho, true_or, true_and, ne_eq, not_or, not_not,
        lead_four_iff, trail_iff] at hsrc
      simp only [toNat_fourBytes, bytes, List.map_cons]
      generalize (u0.setWidth 8 : U8).toNat = n0 at *
      generalize (u1.setWidth 8 : U8).toNat = n1 at *
      generalize (u2.setWidth 8 : U8).toNat = n2 at *
      generalize (u3.setWidth 8 : U8).toNat = n3 at *
      have henc : encode .utf8 (n0 % 0x08 * 0x40000 + n1 % 0x40 * 0x1000 +
          n2 % 0x40 * 0x40 + n3 % 0x40) = [n0, n1, n2, n3] := by
        simp only [encode]
        rw [if_neg (by omega), if_neg (by omega), if_neg (by omega)]
        simp only [List.cons.injEq, and_true]
        omega
      exact ⟨he.2, by simp [henc]⟩

theorem utf8ToUtf32_sound (hbyte : ∀ u : In.Unit, (u.setWidth 8 : U8).toNat = u.toNat)
    (hs : In.signed = false) (h : utf8ToUtf32 o s {} = some (.none, cr)) :
    IsCharacter cr.unicode.toNat ∧ encode .utf8 cr.unicode.toNat <+: bytes s := by
  rcases s with _ | ⟨u, t⟩
  · simp [utf8ToUtf32] at h
  · simp only [utf8ToUtf32, List.getElem?_cons_zero, Option.bind_eq_bind, Option.bind_some] at h
    split_ifs at h with h1
    · -- One byte: nothing below `0x80` is excluded from text.
      cases h
      have hlt : u.toNat < 0x80 := by
        rw [← hbyte u]
        exact h1
      simp only [CharType.toNat_toU32 hs, bytes, List.map_cons, hbyte]
      have henc : encode .utf8 u.toNat = [u.toNat] := by simp [encode, hlt]
      refine ⟨?_, by simp [henc]⟩
      simp only [IsCharacter, IsSurrogate, IsNoncharacter]
      omega
    · exact utf8TwoBytes_sound ho h
    · exact utf8ThreeBytes_sound ho h
    · exact utf8FourBytes_sound ho h
    · simp at h

theorem utf16ToUtf32_sound (hword : ∀ u : In.Unit, (u.setWidth 16 : U16).toNat = u.toNat)
    (hs : In.signed = false) (h : utf16ToUtf32 o s {} = some (.none, cr)) :
    IsCharacter cr.unicode.toNat ∧ encode .utf16 cr.unicode.toNat <+: numbers s := by
  rcases s with _ | ⟨u, t⟩
  · simp [utf16ToUtf32] at h
  · have hu := CharType.toNat_toU32 hs u
    have hlt16 : u.toNat < 0x10000 := by
      rw [← hword u]
      exact (u.setWidth 16 : U16).isLt
    simp only [utf16ToUtf32, List.getElem?_cons_zero, Option.bind_eq_bind, Option.bind_some,
      BitVec.lt_def, BitVec.le_def, BitVec.toNat_ofNat, hu] at h
    split_ifs at h with h1 h2 h3
    · -- One unit, and the first test has excluded the surrogates.
      rcases deliver_eq_none (Option.some.inj h) with ⟨he, rfl⟩
      rw [bmpError_eq_none ho, hu] at he
      simp only [hu, numbers_cons]
      refine ⟨⟨by omega, by simp only [IsSurrogate]; omega, he⟩, ?_⟩
      simp [encode, hlt16]
    · simp at h
    · rcases t with _ | ⟨u1, t⟩
      · simp at h3
      · simp only [List.getElem?_cons_zero, List.getElem?_cons_succ, Option.bind_some] at h
        split_ifs at h with hsrc
        · simp at h
        · rcases deliver_eq_none (Option.some.inj h) with ⟨he, rfl⟩
          simp only [Options.checksSource, ho, true_or, true_and, not_or, hword] at hsrc
          have hval := toNat_pair (h := u.toNat - 0xD800) (l := u1.toNat - 0xDC00)
            (a := In.toU32 u) (b := (u1.setWidth 16 : U16)) (by rw [hu]; omega)
            (by rw [hword]; omega) (by omega) (by omega)
          rw [pairError_eq_none ho _ (by rw [hval]; omega) (by rw [hval]; omega)] at he
          refine ⟨he, ?_⟩
          simp only [hval, numbers_cons]
          have henc : encode .utf16 ((u.toNat - 0xD800) * 0x400 + (u1.toNat - 0xDC00) + 0x10000) =
              [u.toNat, u1.toNat] := by
            simp only [encode]
            rw [if_neg (by omega)]
            simp only [List.cons.injEq, and_true]
            omega
          simp [henc]
    · simp at h

theorem utf32ToUtf32_sound (hs : In.signed = false)
    (h : utf32ToUtf32 o s {} = some (.none, cr)) :
    IsCharacter cr.unicode.toNat ∧ encode .utf32 cr.unicode.toNat <+: numbers s := by
  rcases s with _ | ⟨u, t⟩
  · simp [utf32ToUtf32] at h
  · simp only [utf32ToUtf32, List.getElem?_cons_zero, Option.bind_eq_bind, Option.bind_some] at h
    rcases deliver_eq_none (Option.some.inj h) with ⟨he, rfl⟩
    rw [utf32Error_eq_none ho] at he
    refine ⟨he, ?_⟩
    simp [encode, CharType.toNat_toU32 hs]

end Sound

/-! ## Completeness: every standard sequence that passes the checks is accepted -/

theorem toNat_ofNat_codePoint {c : Nat} (hc : c ≤ 0x10FFFF) : (BitVec.ofNat 32 c).toNat = c := by
  rw [BitVec.toNat_ofNat]
  omega

/-- The checks of every encoding form let the code point through. -/
structure Options.Admits (o : Options) (c : Nat) : Prop where
  range : c ≤ 0x10FFFF
  twoByte : 0x80 ≤ c → twoByteError o (BitVec.ofNat 32 c) = .none
  threeByte : 0x800 ≤ c → c < 0x10000 → threeByteError o (BitVec.ofNat 32 c) = .none
  fourByte : 0x10000 ≤ c → fourByteError o (BitVec.ofNat 32 c) = .none
  bmp : bmpError o (BitVec.ofNat 32 c) = .none
  pair : 0x10000 ≤ c → pairError o (BitVec.ofNat 32 c) = .none
  utf32 : utf32Error o (BitVec.ofNat 32 c) = .none

/-- Strict mode admits the characters. -/
theorem Options.admits_strict {o : Options} (ho : o.charMode = .strict) {c : Nat}
    (hc : IsCharacter c) : o.Admits c := by
  have hofNat := toNat_ofNat_codePoint hc.1
  refine ⟨hc.1, ?_, ?_, ?_, ?_, ?_, ?_⟩
  · intro hmin
    rwa [twoByteError_eq_none ho, hofNat]
  · intro hmin hmax
    rw [threeByteError_eq_none ho _ (by rwa [hofNat]), hofNat]
    exact ⟨hmin, hc⟩
  · intro hmin
    rw [fourByteError_eq_none ho, hofNat]
    exact ⟨hmin, hc⟩
  · rw [bmpError_eq_none ho, hofNat]
    exact hc.2.2
  · intro hmin
    rwa [pairError_eq_none ho _ (by rwa [hofNat]) (by rw [hofNat]; exact hc.1), hofNat]
  · rwa [utf32Error_eq_none ho, hofNat]

section Complete

variable {o : Options} {In : CharType} {s : List In.Unit} {c : Nat} (hadm : o.Admits c)

include hadm

omit hadm in
theorem utf8_oneByte_complete (hs : In.signed = false) (h1 : c < 0x80) {r : List Nat}
    (hbyte : ∀ u : In.Unit, (u.setWidth 8 : U8).toNat = u.toNat)
    (hr : [c] ++ r = numbers s) :
    utf8ToUtf32 o s {} = some (.none, { inputBlock := 1, unicode := BitVec.ofNat 32 c }) := by
  rcases s with _ | ⟨u0, t⟩
  · simp at hr
  · simp only [numbers_cons, List.cons_append, List.nil_append, List.cons.injEq] at hr
    have hlead : (u0.setWidth 8 : U8) < 0x80#8 := by
      rw [BitVec.lt_def, hbyte, BitVec.toNat_ofNat]
      omega
    have hval : In.toU32 u0 = BitVec.ofNat 32 c := by
      apply BitVec.eq_of_toNat_eq
      rw [CharType.toNat_toU32 hs, BitVec.toNat_ofNat]
      omega
    simp [utf8ToUtf32, hlead, hval, CharResult.takeInput]

theorem utf8_twoBytes_complete (h1 : ¬ c < 0x80) (h2 : c < 0x800) {r : List Nat}
    (hbyte : ∀ u : In.Unit, (u.setWidth 8 : U8).toNat = u.toNat)
    (hr : [0xC0 + c / 0x40, 0x80 + c % 0x40] ++ r = numbers s) :
    utf8ToUtf32 o s {} = some (.none, { inputBlock := 2, unicode := BitVec.ofNat 32 c }) := by
  rcases s with _ | ⟨u0, _ | ⟨u1, t⟩⟩
  · simp at hr
  · simp at hr
  · simp only [numbers_cons, List.cons_append, List.nil_append, List.cons.injEq] at hr
    have hb0 := (hbyte u0).trans hr.1.symm
    have hb1 := (hbyte u1).trans hr.2.1.symm
    have hofNat := toNat_ofNat_codePoint hadm.range
    have hval : (((u0.setWidth 8 : U8) &&& 0x1F#8).setWidth 32 <<< 6 |||
        ((u1.setWidth 8 : U8) &&& 0x3F#8).setWidth 32 : U32) = BitVec.ofNat 32 c := by
      apply BitVec.eq_of_toNat_eq
      rw [toNat_twoBytes, hofNat]
      omega
    -- The lead byte fails the ASCII test and passes that of its class.
    have hone : ¬ (u0.setWidth 8 : U8) < 0x80#8 := by
      rw [BitVec.lt_def, BitVec.toNat_ofNat]
      omega
    have hlead : (u0.setWidth 8 : U8) &&& 0xE0#8 = 0xC0#8 := (lead_two_iff _).2 (by omega)
    have htrail : (u1.setWidth 8 : U8) &&& 0xC0#8 = 0x80#8 := (trail_iff _).2 (by omega)
    have herr := hadm.twoByte (by omega)
    simp only [utf8ToUtf32, utf8TwoBytes_cons, List.getElem?_cons_zero, Option.bind_eq_bind,
      Option.bind_some, if_neg hone, hlead, htrail, ne_eq, not_true, or_false, and_false,
      if_true, if_false, hval, herr, deliver_of_none, CharResult.takeInput]

theorem utf8_threeBytes_complete (h2 : ¬ c < 0x800) (h3 : c < 0x10000) {r : List Nat}
    (hbyte : ∀ u : In.Unit, (u.setWidth 8 : U8).toNat = u.toNat)
    (hr : [0xE0 + c / 0x1000, 0x80 + c / 0x40 % 0x40, 0x80 + c % 0x40] ++ r = numbers s) :
    utf8ToUtf32 o s {} = some (.none, { inputBlock := 3, unicode := BitVec.ofNat 32 c }) := by
  rcases s with _ | ⟨u0, _ | ⟨u1, _ | ⟨u2, t⟩⟩⟩
  · simp at hr
  · simp at hr
  · simp at hr
  · simp only [numbers_cons, List.cons_append, List.nil_append, List.cons.injEq] at hr
    have hb0 := (hbyte u0).trans hr.1.symm
    have hb1 := (hbyte u1).trans hr.2.1.symm
    have hb2 := (hbyte u2).trans hr.2.2.1.symm
    have hofNat := toNat_ofNat_codePoint hadm.range
    have hval : (((u0.setWidth 8 : U8) &&& 0x0F#8).setWidth 32 <<< 12 |||
        ((u1.setWidth 8 : U8) &&& 0x3F#8).setWidth 32 <<< 6 |||
        ((u2.setWidth 8 : U8) &&& 0x3F#8).setWidth 32 : U32) = BitVec.ofNat 32 c := by
      apply BitVec.eq_of_toNat_eq
      rw [toNat_threeBytes, hofNat]
      omega
    -- The lead byte fails the two tests before that of its class.
    have hone : ¬ (u0.setWidth 8 : U8) < 0x80#8 := by
      rw [BitVec.lt_def, BitVec.toNat_ofNat]
      omega
    have htwo : ¬ (u0.setWidth 8 : U8) &&& 0xE0#8 = 0xC0#8 := by
      rw [lead_two_iff]
      omega
    have hlead : (u0.setWidth 8 : U8) &&& 0xF0#8 = 0xE0#8 := (lead_three_iff _).2 (by omega)
    have htrail1 : (u1.setWidth 8 : U8) &&& 0xC0#8 = 0x80#8 := (trail_iff _).2 (by omega)
    have htrail2 : (u2.setWidth 8 : U8) &&& 0xC0#8 = 0x80#8 := (trail_iff _).2 (by omega)
    have herr := hadm.threeByte (by omega) h3
    simp only [utf8ToUtf32, utf8ThreeBytes_cons, List.getElem?_cons_zero, Option.bind_eq_bind,
      Option.bind_some, if_neg hone, if_neg htwo, hlead, htrail1, htrail2, ne_eq, not_true,
      or_false, and_false, if_true, if_false, hval, herr, deliver_of_none, CharResult.takeInput]

theorem utf8_fourBytes_complete (h3 : ¬ c < 0x10000) {r : List Nat}
    (hbyte : ∀ u : In.Unit, (u.setWidth 8 : U8).toNat = u.toNat)
    (hr : [0xF0 + c / 0x40000, 0x80 + c / 0x1000 % 0x40, 0x80 + c / 0x40 % 0x40,
      0x80 + c % 0x40] ++ r = numbers s) :
    utf8ToUtf32 o s {} = some (.none, { inputBlock := 4, unicode := BitVec.ofNat 32 c }) := by
  rcases s with _ | ⟨u0, _ | ⟨u1, _ | ⟨u2, _ | ⟨u3, t⟩⟩⟩⟩
  · simp at hr
  · simp at hr
  · simp at hr
  · simp at hr
  · simp only [numbers_cons, List.cons_append, List.nil_append, List.cons.injEq] at hr
    have hmax := hadm.range
    have hb0 := (hbyte u0).trans hr.1.symm
    have hb1 := (hbyte u1).trans hr.2.1.symm
    have hb2 := (hbyte u2).trans hr.2.2.1.symm
    have hb3 := (hbyte u3).trans hr.2.2.2.1.symm
    have hofNat := toNat_ofNat_codePoint hadm.range
    have hval : (((u0.setWidth 8 : U8) &&& 0x07#8).setWidth 32 <<< 18 |||
        ((u1.setWidth 8 : U8) &&& 0x3F#8).setWidth 32 <<< 12 |||
        ((u2.setWidth 8 : U8) &&& 0x3F#8).setWidth 32 <<< 6 |||
        ((u3.setWidth 8 : U8) &&& 0x3F#8).setWidth 32 : U32) = BitVec.ofNat 32 c := by
      apply BitVec.eq_of_toNat_eq
      rw [toNat_fourBytes, hofNat]
      omega
    -- The lead byte fails the three tests before that of its class.
    have hone : ¬ (u0.setWidth 8 : U8) < 0x80#8 := by
      rw [BitVec.lt_def, BitVec.toNat_ofNat]
      omega
    have htwo : ¬ (u0.setWidth 8 : U8) &&& 0xE0#8 = 0xC0#8 := by
      rw [lead_two_iff]
      omega
    have hthree : ¬ (u0.setWidth 8 : U8) &&& 0xF0#8 = 0xE0#8 := by
      rw [lead_three_iff]
      omega
    have hlead : (u0.setWidth 8 : U8) &&& 0xF8#8 = 0xF0#8 := (lead_four_iff _).2 (by omega)
    have htrail1 : (u1.setWidth 8 : U8) &&& 0xC0#8 = 0x80#8 := (trail_iff _).2 (by omega)
    have htrail2 : (u2.setWidth 8 : U8) &&& 0xC0#8 = 0x80#8 := (trail_iff _).2 (by omega)
    have htrail3 : (u3.setWidth 8 : U8) &&& 0xC0#8 = 0x80#8 := (trail_iff _).2 (by omega)
    have herr := hadm.fourByte (by omega)
    simp only [utf8ToUtf32, utf8FourBytes_cons, List.getElem?_cons_zero, Option.bind_eq_bind,
      Option.bind_some, if_neg hone, if_neg htwo, if_neg hthree, hlead, htrail1, htrail2, htrail3,
      ne_eq, not_true, or_false, and_false, if_true, if_false, hval, herr, deliver_of_none,
      CharResult.takeInput]

theorem utf8ToUtf32_complete (hbyte : ∀ u : In.Unit, (u.setWidth 8 : U8).toNat = u.toNat)
    (hs : In.signed = false) (h : encode .utf8 c <+: numbers s) :
    utf8ToUtf32 o s {} =
      some (.none, { inputBlock := (encode .utf8 c).length, unicode := BitVec.ofNat 32 c }) := by
  rcases h with ⟨r, hr⟩
  simp only [encode] at hr ⊢
  split_ifs at hr ⊢ with h1 h2 h3
  · exact utf8_oneByte_complete hs h1 hbyte hr
  · exact utf8_twoBytes_complete hadm h1 h2 hbyte hr
  · exact utf8_threeBytes_complete hadm h2 h3 hbyte hr
  · exact utf8_fourBytes_complete hadm h3 hbyte hr

theorem utf16ToUtf32_complete (hsur : ¬ IsSurrogate c)
    (hword : ∀ u : In.Unit, (u.setWidth 16 : U16).toNat = u.toNat) (hs : In.signed = false)
    (h : encode .utf16 c <+: numbers s) :
    utf16ToUtf32 o s {} =
      some (.none, { inputBlock := (encode .utf16 c).length, unicode := BitVec.ofNat 32 c }) := by
  have hofNat := toNat_ofNat_codePoint hadm.range
  have hmax := hadm.range
  rcases h with ⟨r, hr⟩
  by_cases h1 : c < 0x10000
  · -- One unit, and not a surrogate.
    simp only [encode, if_pos h1] at hr ⊢
    rcases s with _ | ⟨u0, t⟩
    · simp at hr
    · simp only [numbers_cons, List.cons_append, List.nil_append, List.cons.injEq] at hr
      have hval : In.toU32 u0 = BitVec.ofNat 32 c := by
        apply BitVec.eq_of_toNat_eq
        rw [CharType.toNat_toU32 hs, hofNat, hr.1]
      have hbmp : BitVec.ofNat 32 c < 0xD800#32 ∨ 0xDFFF#32 < BitVec.ofNat 32 c := by
        simp only [BitVec.lt_def, hofNat, BitVec.toNat_ofNat]
        simp only [IsSurrogate] at hsur
        omega
      have herr := hadm.bmp
      simp only [utf16ToUtf32, List.getElem?_cons_zero, Option.bind_eq_bind, Option.bind_some,
        hval, if_pos hbmp, herr, deliver_of_none, CharResult.takeInput]
      rfl
  · -- A pair: the first unit is a high surrogate, the second a low one.
    simp only [encode, if_neg h1] at hr ⊢
    rcases s with _ | ⟨u0, _ | ⟨u1, t⟩⟩
    · simp at hr
    · simp at hr
    · simp only [numbers_cons, List.cons_append, List.nil_append, List.cons.injEq] at hr
      have hu0 := (CharType.toNat_toU32 hs u0).trans hr.1.symm
      have hu1 := (hword u1).trans hr.2.1.symm
      have hval : ((In.toU32 u0 &&& 0x03FF#32) <<< 10 |||
          ((u1.setWidth 16 : U16) &&& 0x03FF#16).setWidth 32) + 0x10000#32 =
          BitVec.ofNat 32 c := by
        apply BitVec.eq_of_toNat_eq
        rw [toNat_pair hu0 hu1 (by omega) (by omega), hofNat]
        omega
      have hnot : ¬ (In.toU32 u0 < 0xD800#32 ∨ 0xDFFF#32 < In.toU32 u0) := by
        simp only [BitVec.lt_def, hu0, BitVec.toNat_ofNat]
        omega
      have hhigh : In.toU32 u0 ≤ 0xDBFF#32 := by
        simp only [BitVec.le_def, hu0, BitVec.toNat_ofNat]
        omega
      have hlow : ¬ ((u1.setWidth 16 : U16) < 0xDC00#16 ∨ 0xDFFF#16 < (u1.setWidth 16 : U16)) := by
        simp only [BitVec.lt_def, hu1, BitVec.toNat_ofNat]
        omega
      have herr := hadm.pair (by omega)
      have hlen : ¬ (u0 :: u1 :: t).length ≤ 1 := by simp
      simp only [utf16ToUtf32, List.getElem?_cons_zero, List.getElem?_cons_succ,
        Option.bind_eq_bind, Option.bind_some, if_neg hnot, if_pos hhigh, if_neg hlen, hlow,
        and_false, if_false, hval, herr, deliver_of_none, CharResult.takeInput]
      rfl

theorem utf32ToUtf32_complete (hs : In.signed = false) (h : encode .utf32 c <+: numbers s) :
    utf32ToUtf32 o s {} =
      some (.none, { inputBlock := (encode .utf32 c).length, unicode := BitVec.ofNat 32 c }) := by
  have hofNat := toNat_ofNat_codePoint hadm.range
  rcases h with ⟨r, hr⟩
  rcases s with _ | ⟨u0, t⟩
  · simp [encode] at hr
  · simp only [encode, numbers_cons, List.cons_append, List.nil_append, List.cons.injEq] at hr
    have hval : In.toU32 u0 = BitVec.ofNat 32 c := by
      apply BitVec.eq_of_toNat_eq
      rw [CharType.toNat_toU32 hs, hofNat, hr.1]
    have herr := hadm.utf32
    simp [utf32ToUtf32, hval, herr, deliver_of_none, CharResult.takeInput, encode]

end Complete

/-- **Completeness.**  An admitted code point is delivered where its standard sequence starts the
input.  A surrogate has no sequence in UTF-16. -/
theorem charToUtf32_of_admits {o : Options} {c : Nat} (hadm : o.Admits c) {f : Form}
    (hsur : f = .utf16 → ¬ IsSurrogate c) {u : (CharType.ofForm f).Unit}
    {s : List (CharType.ofForm f).Unit} (hpre : encode f c <+: numbers (u :: s)) :
    charToUtf32 o (CharType.ofForm f) (u :: s) {} =
      some (.none, { inputBlock := (encode f c).length, unicode := BitVec.ofNat 32 c }) := by
  have hlen : ¬ o.truncates 0 (u :: s).length := by simp [Options.truncates]
  rw [charToUtf32, if_neg hlen]
  cases f with
  | utf8 => exact utf8ToUtf32_complete hadm (fun u => toNat_setWidth_ofForm u (by decide)) rfl hpre
  | utf16 =>
      exact utf16ToUtf32_complete hadm (hsur rfl) (fun u => toNat_setWidth_ofForm u (by decide))
        rfl hpre
  | utf32 => exact utf32ToUtf32_complete hadm rfl hpre

/-! ## The decoder in strict mode -/

/-- **Acceptance.**  In strict mode a character is delivered exactly when its standard sequence
starts the input, and then that sequence is what is consumed. -/
theorem charToUtf32_strict_iff {o : Options} (ho : o.charMode = .strict) {f : Form}
    {u : (CharType.ofForm f).Unit} {s : List (CharType.ofForm f).Unit} {cr : CharResult} :
    charToUtf32 o (CharType.ofForm f) (u :: s) {} = some (.none, cr) ↔
      ∃ c, IsCharacter c ∧ encode f c <+: numbers (u :: s) ∧
        cr = { inputBlock := (encode f c).length, unicode := BitVec.ofNat 32 c } := by
  have hlen : ¬ o.truncates 0 (u :: s).length := by simp [Options.truncates]
  have hcomplete : ∀ c, IsCharacter c → encode f c <+: numbers (u :: s) →
      charToUtf32 o (CharType.ofForm f) (u :: s) {} =
        some (.none, { inputBlock := (encode f c).length, unicode := BitVec.ofNat 32 c }) :=
    fun c hc hpre => charToUtf32_of_admits (Options.admits_strict ho hc) (fun _ => hc.2.1) hpre
  constructor
  · intro h
    have hsound : IsCharacter cr.unicode.toNat ∧
        encode f cr.unicode.toNat <+: numbers (u :: s) := by
      rw [charToUtf32, if_neg hlen] at h
      cases f with
      | utf8 =>
          have hbyte : ∀ u : (CharType.ofForm .utf8).Unit, (u.setWidth 8 : U8).toNat = u.toNat :=
            fun u => toNat_setWidth_ofForm u (by decide)
          have hnum : bytes (u :: s) = numbers (u :: s) :=
            List.map_congr_left fun u _ => hbyte u
          rw [← hnum]
          exact utf8ToUtf32_sound ho hbyte rfl h
      | utf16 =>
          exact utf16ToUtf32_sound ho (fun u => toNat_setWidth_ofForm u (by decide)) rfl h
      | utf32 => exact utf32ToUtf32_sound ho rfl h
    -- Soundness gives the sequence; completeness says how it has been read.
    refine ⟨cr.unicode.toNat, hsound.1, hsound.2, ?_⟩
    rw [hcomplete _ hsound.1 hsound.2] at h
    exact (congrArg Prod.snd (Option.some.inj h)).symm
  · rintro ⟨c, hc, hpre, rfl⟩
    exact hcomplete c hc hpre

end Convert
end Chenc
