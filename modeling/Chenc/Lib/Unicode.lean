import Mathlib.Tactic
import Mathlib.Data.List.Infix

/-!
# Unicode — code points and their standard encoding forms

This file fixes, once and arithmetically, what a converter between encoding forms is judged
against.  Code points and code units are natural numbers here:

* `IsCharacter c` : `c` is a code point that is neither a surrogate nor a noncharacter;
* `encode f c`    : the shortest well-formed sequence of code units of `c` in the form `f`;
* `leadLength`    : the sequence length a lead unit announces, and `IsTrail` for the units
  that cannot lead a sequence.

The facts used downstream are that sequences announce their own length (`encode_shape`), that
a character is determined by any text its sequence starts (`encode_unique`), that a text has at
most one longest well-formed beginning (`isPrefix_of_stuck`), which texts more units could complete
(`Completable`), and how a reader that trusts lead units alone falls back into step (`owed`).
-/

namespace Unicode

/-! ## Code points -/

/-- Code points reserved for UTF-16 pairs. -/
def IsSurrogate (c : Nat) : Prop :=
  0xD800 ≤ c ∧ c ≤ 0xDFFF

/-- The 66 code points that are never assigned to characters. -/
def IsNoncharacter (c : Nat) : Prop :=
  (0xFDD0 ≤ c ∧ c ≤ 0xFDEF) ∨ 0xFFFE ≤ c % 0x10000

/-- Code points that may stand in interchanged text. -/
def IsCharacter (c : Nat) : Prop :=
  c ≤ 0x10FFFF ∧ ¬ IsSurrogate c ∧ ¬ IsNoncharacter c

instance (c : Nat) : Decidable (IsSurrogate c) := by
  unfold IsSurrogate
  infer_instance

instance (c : Nat) : Decidable (IsNoncharacter c) := by
  unfold IsNoncharacter
  infer_instance

instance (c : Nat) : Decidable (IsCharacter c) := by
  unfold IsCharacter
  infer_instance

/-! ## Encoding forms -/

inductive Form
  | utf8
  | utf16
  | utf32
  deriving DecidableEq, Repr

/-- The shortest sequence of code units for `c`. -/
def encode : Form → Nat → List Nat
  | .utf8, c =>
      if c < 0x80 then
        [c]
      else if c < 0x800 then
        [0xC0 + c / 0x40, 0x80 + c % 0x40]
      else if c < 0x10000 then
        [0xE0 + c / 0x1000, 0x80 + c / 0x40 % 0x40, 0x80 + c % 0x40]
      else
        [0xF0 + c / 0x40000, 0x80 + c / 0x1000 % 0x40, 0x80 + c / 0x40 % 0x40, 0x80 + c % 0x40]
  | .utf16, c =>
      if c < 0x10000 then
        [c]
      else
        [0xD800 + (c - 0x10000) / 0x400, 0xDC00 + (c - 0x10000) % 0x400]
  | .utf32, c => [c]

def encodeAll (f : Form) (cs : List Nat) : List Nat :=
  cs.flatMap (encode f)

@[simp] theorem encodeAll_nil (f : Form) : encodeAll f [] = [] := rfl

@[simp] theorem encodeAll_cons (f : Form) (c : Nat) (cs : List Nat) :
    encodeAll f (c :: cs) = encode f c ++ encodeAll f cs := rfl

@[simp] theorem encodeAll_append (f : Form) (cs ds : List Nat) :
    encodeAll f (cs ++ ds) = encodeAll f cs ++ encodeAll f ds := by
  simp [encodeAll]

/-- Below the surrogate pairs UTF-16 is the code points themselves. -/
theorem encodeAll_utf16_of_lt {cs : List Nat} (h : ∀ c ∈ cs, c < 0x10000) :
    encodeAll .utf16 cs = cs := by
  induction cs with
  | nil => rfl
  | cons c cs ih =>
      rcases List.forall_mem_cons.1 h with ⟨hc, hcs⟩
      rw [encodeAll_cons, ih hcs, encode, if_pos hc, List.singleton_append]

/-- On Lean's own scalar values, `encode .utf8` is the encoder of the core library. -/
theorem encode_utf8_eq_utf8EncodeChar (c : Char) :
    encode .utf8 c.val.toNat = (String.utf8EncodeChar c).map UInt8.toNat := by
  have hc : c.val.toNat < 0x110000 := by
    rcases c.valid with h | h
    · exact Nat.lt_trans h (by decide)
    · exact h.2
  simp only [encode, String.utf8EncodeChar]
  -- Both definitions split at the same bounds, so the mixed cases are empty.
  split_ifs <;> first | omega | skip
  all_goals
    simp only [List.map_cons, List.map_nil, UInt8.toNat_ofNat', List.cons.injEq, and_true]
    omega

theorem encode_length_pos (f : Form) (c : Nat) : 0 < (encode f c).length := by
  cases f with
  | utf8 =>
      simp only [encode]
      split_ifs <;> simp
  | utf16 =>
      simp only [encode]
      split_ifs <;> simp
  | utf32 => simp [encode]

theorem encode_length_le_four (f : Form) (c : Nat) : (encode f c).length ≤ 4 := by
  cases f with
  | utf8 =>
      simp only [encode]
      split_ifs <;> simp
  | utf16 =>
      simp only [encode]
      split_ifs <;> simp
  | utf32 => simp [encode]

/-- Between two encoding forms a text grows at most fourfold. -/
theorem encodeAll_length_le (f g : Form) (cs : List Nat) :
    (encodeAll g cs).length ≤ 4 * (encodeAll f cs).length := by
  induction cs with
  | nil => simp
  | cons c cs ih =>
      have hf := encode_length_pos f c
      have hg := encode_length_le_four g c
      simp only [encodeAll_cons, List.length_append]
      omega

/-! ## Lead and trail units -/

/-- The length of the sequence announced by its first unit. -/
def leadLength : Form → Nat → Nat
  | .utf8, u =>
      if u < 0xC0 then 1
      else if u < 0xE0 then 2
      else if u < 0xF0 then 3
      else if u < 0xF8 then 4
      else 1
  | .utf16, u => if 0xD800 ≤ u ∧ u ≤ 0xDBFF then 2 else 1
  | .utf32, _ => 1

/-- Units that continue a sequence and never start one. -/
def IsTrail : Form → Nat → Prop
  | .utf8, u => 0x80 ≤ u ∧ u < 0xC0
  | .utf16, u => 0xDC00 ≤ u ∧ u ≤ 0xDFFF
  | .utf32, _ => False

theorem leadLength_pos (f : Form) (u : Nat) : 0 < leadLength f u := by
  cases f with
  | utf8 =>
      simp only [leadLength]
      split_ifs <;> omega
  | utf16 =>
      simp only [leadLength]
      split_ifs <;> omega
  | utf32 => exact Nat.one_pos

theorem leadLength_of_isTrail {f : Form} {u : Nat} (h : IsTrail f u) : leadLength f u = 1 := by
  cases f with
  | utf8 =>
      simp only [IsTrail] at h
      simp [leadLength, h.2]
  | utf16 =>
      simp only [IsTrail] at h
      simp only [leadLength]
      split_ifs <;> omega
  | utf32 => rfl

/-- A sequence announces its own length, and only its first unit can lead. -/
theorem encode_shape (f : Form) {c : Nat} (hc : IsCharacter c) :
    ∃ u t, encode f c = u :: t ∧ leadLength f u = t.length + 1 ∧ ¬ IsTrail f u ∧
      ∀ w ∈ t, IsTrail f w := by
  rcases hc with ⟨hmax, hsur, -⟩
  simp only [IsSurrogate] at hsur
  cases f with
  | utf8 =>
      simp only [encode]
      split_ifs
      all_goals
        refine ⟨_, _, rfl, ?_, ?_, ?_⟩
        · simp only [leadLength, List.length_cons, List.length_nil]
          split_ifs <;> omega
        · simp only [IsTrail]
          omega
        · simp only [IsTrail, List.forall_mem_cons, List.not_mem_nil, false_imp_iff,
            implies_true, and_true]
          try omega
  | utf16 =>
      simp only [encode]
      split_ifs
      all_goals
        refine ⟨_, _, rfl, ?_, ?_, ?_⟩
        · simp only [leadLength, List.length_cons, List.length_nil]
          split_ifs <;> omega
        · simp only [IsTrail]
          omega
        · simp only [IsTrail, List.forall_mem_cons, List.not_mem_nil, false_imp_iff,
            implies_true, and_true]
          try omega
  | utf32 =>
      exact ⟨c, [], rfl, rfl, by simp [IsTrail], by simp⟩

/-! ## Unique reading -/

theorem encode_injective (f : Form) {c d : Nat} (hc : IsCharacter c) (hd : IsCharacter d)
    (h : encode f c = encode f d) : c = d := by
  have hc' := hc.1
  have hd' := hd.1
  cases f with
  | utf8 =>
      simp only [encode] at h
      split_ifs at h <;>
        simp only [List.cons.injEq, and_true, reduceCtorEq, and_false] at h <;> omega
  | utf16 =>
      simp only [encode] at h
      split_ifs at h <;>
        simp only [List.cons.injEq, and_true, reduceCtorEq, and_false] at h <;> omega
  | utf32 =>
      simpa [encode] using h

/-- Two characters whose sequences start the same text are equal. -/
theorem encode_unique (f : Form) {c d : Nat} {s : List Nat} (hc : IsCharacter c)
    (hd : IsCharacter d) (hcs : encode f c <+: s) (hds : encode f d <+: s) : c = d := by
  rcases encode_shape f hc with ⟨u, t, hu, hlu, -, -⟩
  rcases encode_shape f hd with ⟨v, r, hv, hlv, -, -⟩
  have huv : u = v := by
    rw [hu] at hcs
    rw [hv] at hds
    rcases hcs with ⟨_, rfl⟩
    rcases hds with ⟨_, h⟩
    exact (List.cons.inj h).1.symm
  -- The common first unit announces one length for both.
  have hlen : (encode f c).length = (encode f d).length := by
    rw [hu, hv, List.length_cons, List.length_cons, ← hlu, ← hlv, huv]
  have heq : encode f c = encode f d :=
    (List.prefix_of_prefix_length_le hcs hds hlen.le).eq_of_length hlen
  exact encode_injective f hc hd heq

/-- Where no character starts what is left of a text, the part read is its longest
well-formed beginning. -/
theorem isPrefix_of_stuck (f : Form) {cs ds t : List Nat}
    (hcs : ∀ c ∈ cs, IsCharacter c) (hds : ∀ d ∈ ds, IsCharacter d)
    (hstuck : ∀ c, IsCharacter c → ¬ encode f c <+: t)
    (h : encodeAll f ds <+: encodeAll f cs ++ t) : ds <+: cs := by
  induction cs generalizing ds with
  | nil =>
      cases ds with
      | nil => exact List.nil_prefix
      | cons d ds =>
          -- Everything has been read, and `d` would start the rest.
          exfalso
          exact hstuck d (hds d (by simp)) ((List.prefix_append _ _).trans h)
  | cons c cs ih =>
      cases ds with
      | nil => exact List.nil_prefix
      | cons d ds =>
          -- Both texts start with the same character, which is taken off.
          have hd : IsCharacter d := hds d (by simp)
          have hc : IsCharacter c := hcs c (by simp)
          have hdc : d = c := by
            refine encode_unique f hd hc ((List.prefix_append _ _).trans h) ?_
            simp
          subst hdc
          have htail : encodeAll f ds <+: encodeAll f cs ++ t := by
            simpa [List.append_assoc, List.prefix_append_right_inj] using h
          have := ih (fun c hc => hcs c (by simp [hc])) (fun d hd => hds d (by simp [hd])) htail
          simpa using this

theorem encodeAll_isPrefix (f : Form) {cs ds : List Nat} (h : ds <+: cs) :
    encodeAll f ds <+: encodeAll f cs := by
  rcases h with ⟨es, rfl⟩
  simp

theorem not_encode_isPrefix_nil (f : Form) (c : Nat) : ¬ encode f c <+: [] := by
  intro h
  have hpos := encode_length_pos f c
  rw [List.prefix_nil.1 h] at hpos
  exact absurd hpos (by simp)

theorem encodeAll_injective (f : Form) {cs ds : List Nat} (hcs : ∀ c ∈ cs, IsCharacter c)
    (hds : ∀ d ∈ ds, IsCharacter d) (h : encodeAll f cs = encodeAll f ds) : cs = ds := by
  have hstuck : ∀ c, IsCharacter c → ¬ encode f c <+: [] := fun c _ =>
    not_encode_isPrefix_nil f c
  have hdc : ds <+: cs := isPrefix_of_stuck f hcs hds hstuck (by simp [h])
  have hcd : cs <+: ds := isPrefix_of_stuck f hds hcs hstuck (by simp [h])
  exact hcd.eq_of_length_le hdc.length_le

/-! ## Texts -/

/-- Code points that may all stand in interchanged text. -/
def IsText (cs : List Nat) : Prop :=
  ∀ c ∈ cs, IsCharacter c

instance (cs : List Nat) : Decidable (IsText cs) := by
  unfold IsText
  infer_instance

/-- A concatenation of standard sequences. -/
def WellFormed (f : Form) (s : List Nat) : Prop :=
  ∃ cs, IsText cs ∧ s = encodeAll f cs

/-- `cs` is what the longest well-formed beginning of `s` says. -/
def LongestText (f : Form) (s cs : List Nat) : Prop :=
  IsText cs ∧ encodeAll f cs <+: s ∧
    ∀ p, WellFormed f p → p <+: s → p <+: encodeAll f cs

@[simp] theorem isText_nil : IsText [] := by
  simp [IsText]

@[simp] theorem isText_cons {c : Nat} {cs : List Nat} :
    IsText (c :: cs) ↔ IsCharacter c ∧ IsText cs := by
  simp [IsText]

theorem isText_append {cs ds : List Nat} : IsText (cs ++ ds) ↔ IsText cs ∧ IsText ds := by
  simp [IsText, or_imp, forall_and]

theorem longestText_of_stuck (f : Form) {cs t : List Nat} (hcs : IsText cs)
    (hstuck : ∀ c, IsCharacter c → ¬ encode f c <+: t) :
    LongestText f (encodeAll f cs ++ t) cs := by
  refine ⟨hcs, List.prefix_append _ _, ?_⟩
  rintro p ⟨ds, hds, rfl⟩ hpre
  exact encodeAll_isPrefix f (isPrefix_of_stuck f hcs hds hstuck hpre)

/-- A text that goes on where no character starts is not well formed. -/
theorem not_wellFormed_of_stuck (f : Form) {cs t : List Nat} (hcs : IsText cs) (ht : t ≠ [])
    (hstuck : ∀ c, IsCharacter c → ¬ encode f c <+: t) :
    ¬ WellFormed f (encodeAll f cs ++ t) := by
  intro hw
  have hpre := (longestText_of_stuck f hcs hstuck).2.2 _ hw (List.prefix_refl _)
  have hlen := hpre.length_le
  rw [List.length_append] at hlen
  have hpos := List.length_pos_iff.2 ht
  omega

/-! ## Sequences cut off -/

/-- `s` is the beginning of the sequence of a character, and not all of it. -/
def Completable (f : Form) (s : List Nat) : Prop :=
  ∃ c, IsCharacter c ∧ s <+: encode f c ∧ s ≠ encode f c

/-- Such a beginning is shorter than its first unit announces, and goes on with trail units. -/
theorem Completable.cut {f : Form} {u : Nat} {s : List Nat} (h : Completable f (u :: s)) :
    (u :: s).length < leadLength f u ∧ ∀ w ∈ s, IsTrail f w := by
  rcases h with ⟨c, hc, hpre, hne⟩
  rcases encode_shape f hc with ⟨v, t, hvt, hlead, -, htrail⟩
  rw [hvt] at hpre hne
  rcases List.cons_prefix_cons.1 hpre with ⟨rfl, hst⟩
  constructor
  · have hlen : s.length ≠ t.length := by
      intro heq
      exact hne (congrArg _ (hst.eq_of_length heq))
    have hle := hst.length_le
    rw [List.length_cons]
    omega
  · intro w hw
    exact htrail w (hst.subset hw)

/-- Every high surrogate starts the pair of a character. -/
theorem completable_utf16_iff {u : Nat} {s : List Nat} :
    Completable .utf16 (u :: s) ↔ (u :: s).length < leadLength .utf16 u := by
  constructor
  · intro h
    exact h.cut.1
  · intro hlen
    simp only [leadLength, List.length_cons] at hlen
    split_ifs at hlen with hhigh
    · -- The pair with the lowest low surrogate is no noncharacter.
      have hnil : s = [] := List.length_eq_zero_iff.1 (by omega)
      have hlarge : ¬ 0x10000 + (u - 0xD800) * 0x400 < 0x10000 := by omega
      have hlead : 0xD800 + (0x10000 + (u - 0xD800) * 0x400 - 0x10000) / 0x400 = u := by omega
      refine ⟨0x10000 + (u - 0xD800) * 0x400, ?_, ?_, ?_⟩
      · simp only [IsCharacter, IsSurrogate, IsNoncharacter]
        omega
      · simp only [encode, if_neg hlarge, hlead, hnil]
        exact List.cons_prefix_cons.2 ⟨rfl, List.nil_prefix⟩
      · simp [encode, hnil]
    · omega

/-- Where all announced units are there, more units make no difference to what starts the text. -/
theorem isPrefix_of_announced {f : Form} {c u : Nat} {s t : List Nat} (hc : IsCharacter c)
    (hlen : leadLength f u ≤ (u :: s).length) (h : encode f c <+: u :: s ++ t) :
    encode f c <+: u :: s := by
  rcases encode_shape f hc with ⟨v, r, hvr, hlead, -, -⟩
  have huv : v = u := by
    rw [hvr] at h
    exact (List.cons_prefix_cons.1 h).1
  refine List.prefix_of_prefix_length_le h (List.prefix_append _ _) ?_
  rw [hvr, List.length_cons, ← hlead, huv]
  exact hlen

/-! ## Reading by lead units -/

/-- Units still owed by the last announced sequence after reading a text, when `k` were owed
before it and every sequence takes the length its lead unit announces. -/
def owed (f : Form) : Nat → List Nat → Nat
  | k, [] => k
  | 0, u :: s => owed f (leadLength f u - 1) s
  | k + 1, _ :: s => owed f k s

theorem owed_eq (f : Form) (k : Nat) (s : List Nat) :
    owed f k s = if k ≤ s.length then owed f 0 (s.drop k) else k - s.length := by
  induction s generalizing k with
  | nil =>
      cases k <;> simp [owed]
  | cons u s ih =>
      cases k with
      | zero => simp
      | succ k =>
          simp only [owed, ih k, List.length_cons, List.drop_succ_cons]
          split_ifs <;> omega

/-- One sequence read at its lead unit. -/
theorem owed_cons (f : Form) (u : Nat) (s : List Nat) :
    owed f 0 (u :: s) =
      if leadLength f u ≤ s.length + 1 then owed f 0 ((u :: s).drop (leadLength f u))
      else leadLength f u - (s.length + 1) := by
  have hpos := leadLength_pos f u
  rcases hk : leadLength f u with _ | k
  · omega
  · simp only [owed, hk, Nat.add_sub_cancel, owed_eq f k s, List.drop_succ_cons]
    split_ifs <;> omega

end Unicode
