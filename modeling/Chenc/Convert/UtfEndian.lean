import Chenc.Convert.Options
import Chenc.Lib.Bits
import Chenc.Lib.ByteOrder

/-!
# UtfEndian — guessing the byte order of a text

Model of `convert/detail/utf_endian.hpp`, for either byte order of the machine. A byte order mark in
front decides, and otherwise two scores over a sample of the units.

* `scores_utf16`, `scores_utf16_swapped` : the UTF-16 scores as sums over the sample, as it stands
  and with the bytes of every unit swapped;
* `utf16Symmetric_iff` : which UTF-16 buffers are classified the other way round with their bytes
  swapped;
* `scores_utf32` : the two UTF-32 scores are one walk, over the sample as it stands and with its
  bytes swapped;
* `utf32Symmetric_iff` : which UTF-32 buffers are, and obey their byte order mark.
-/

namespace Chenc
namespace Convert

open ByteOrder

/-- `std::byteswap` of a code unit. -/
def swapUnit {T : CharType} (u : T.Unit) : T.Unit :=
  byteswap (n := T.size) u

/-- The buffer with the bytes of every unit swapped. -/
def swapUnits {T : CharType} (input : List T.Unit) : List T.Unit :=
  input.map swapUnit

/-! ## UTF-16 -/

/-- `(v & 0xF800) == 0xD800`. -/
def isSurrogate (v : U16) : Bool :=
  v &&& 0xF800 == 0xD800

def lowIsZero (v : U16) : Bool :=
  v &&& 0x00FF == 0

def highIsZero (v : U16) : Bool :=
  v &&& 0xFF00 == 0

/-- The weight of an anchor: a space, a line feed, a carriage return and a tabulator count more. -/
def anchorWeight (otherByte : U8) : Nat :=
  if otherByte = 0x20 ∨ otherByte = 0x0A ∨ otherByte = 0x0D ∨ otherByte = 0x09 then 16 else 1

/-- `score_le` and `score_be`. -/
structure Scores where
  le : Nat := 0
  be : Nat := 0
  deriving DecidableEq, Repr

namespace Scores

def get (s : Scores) : Endian → Nat
  | .little => s.le
  | .big => s.be

/-- `score += k` for the score of one byte order. -/
def add (s : Scores) (e : Endian) (k : Nat) : Scores :=
  match e with
  | .little => { s with le := s.le + k }
  | .big => { s with be := s.be + k }

@[simp] theorem get_add (s : Scores) (e f : Endian) (k : Nat) :
    (s.add e k).get f = s.get f + if f = e then k else 0 := by
  cases e <;> cases f <;> rfl

end Scores

/-- The surrogate check of one unit. -/
def scoreSurrogate (native : Endian) (s : Scores) (val : U16) : Scores :=
  if isSurrogate val then
    if isSurrogate (byteswap (n := 2) val) then s.add native.opposite 32
    else s.add native 8
  else s

/-- The anchor of one unit, whose other byte is zero. -/
def scoreAnchor (native : Endian) (s : Scores) (val : U16) : Scores :=
  if lowIsZero val ^^ highIsZero val then
    let otherByte : U8 :=
      if highIsZero val then (val &&& 0xFF).setWidth 8 else (val >>> 8).setWidth 8
    let weight := anchorWeight otherByte
    match native with
    | .little => if highIsZero val then s.add .little weight else s.add .big weight
    | .big => if lowIsZero val then s.add .little weight else s.add .big weight
  else s

def scoreUnitUtf16 (native : Endian) (s : Scores) (val : U16) : Scores :=
  scoreAnchor native (scoreSurrogate native s val) val

/-- The scores of a buffer, over its first 256 units. -/
def scoresUtf16 (native : Endian) (input : List U16) : Scores :=
  (input.take 256).foldl (scoreUnitUtf16 native) {}

def utfEndianUtf16 (native : Endian) (input : List U16) : Endian :=
  match input with
  | [] => native
  | first :: _ =>
      if first = 0xFEFF then native
      else if first = 0xFFFE then native.opposite
      else
        let s := scoresUtf16 native input
        if s.be < s.le then .little
        else if s.le < s.be then .big
        else native

/-! ## UTF-32 -/

/-- `is_invalid_u32`. -/
def isInvalidU32 (v : U32) : Bool :=
  (0xD800#32 ≤ v && v ≤ 0xDFFF#32) || 0x10FFFF#32 < v

/-- `score_native` and `score_swapped`. -/
structure OrderScores where
  native : Nat := 0
  swapped : Nat := 0
  deriving DecidableEq, Repr

/-- `(score > 20) ? score - 20 : 0`. -/
def penalty (score : Nat) : Nat :=
  if 20 < score then score - 20 else 0

/-- The checks of one unit, in the order of the source. -/
def scoreUnitUtf32 (s : OrderScores) (val : U32) : OrderScores :=
  let s := if val ≤ 0x10FFFF#32 then { s with native := s.native + 10 } else s
  let s := if byteswap (n := 4) val ≤ 0x10FFFF#32 then { s with swapped := s.swapped + 10 } else s
  let s := if isInvalidU32 val then { s with native := penalty s.native } else s
  if isInvalidU32 (byteswap (n := 4) val) then { s with swapped := penalty s.swapped } else s

/-- The scores of a buffer, over its first 64 units. -/
def scoresUtf32 (input : List U32) : OrderScores :=
  (input.take 64).foldl scoreUnitUtf32 {}

def utfEndianUtf32 (native : Endian) (input : List U32) : Endian :=
  match input with
  | [] => native
  | first :: _ =>
      if first = 0x0000FEFF then native
      else if first = 0xFEFF0000 then native.opposite
      else
        let s := scoresUtf32 input
        if s.swapped < s.native then native
        else if s.native < s.swapped then native.opposite
        else native

/-! ## All encoding forms -/

/-- `utf_endian`. The casts to `u16` and `u32` keep the bits of a unit. -/
def utfEndian (T : CharType) (native : Endian) (input : List T.Unit) : Endian :=
  match T with
  | { form := .utf8, signed := _ } => native
  | { form := .utf16, signed := _ } => utfEndianUtf16 native input
  | { form := .utf32, signed := _ } => utfEndianUtf32 native input

/-! ## The UTF-16 scores as sums -/

/-- A surrogate as it stands, but not with its bytes swapped. -/
def isPlain (v : U16) : Bool :=
  isSurrogate v && !isSurrogate (byteswap (n := 2) v)

/-- A surrogate either way. -/
def isDouble (v : U16) : Bool :=
  isSurrogate v && isSurrogate (byteswap (n := 2) v)

/-- A surrogate with its bytes swapped, but not as it stands. -/
def isMirrored (v : U16) : Bool :=
  !isSurrogate v && isSurrogate (byteswap (n := 2) v)

/-- The weight of a unit whose high byte alone is zero. -/
def highAnchor (v : U16) : Nat :=
  if highIsZero v && !lowIsZero v then anchorWeight (v.setWidth 8) else 0

/-- The weight of a unit whose low byte alone is zero. -/
def lowAnchor (v : U16) : Nat :=
  if lowIsZero v && !highIsZero v then anchorWeight ((v >>> 8).setWidth 8) else 0

theorem get_scoreSurrogate (native : Endian) (s : Scores) (v : U16) :
    (scoreSurrogate native s v).get native = s.get native + (if isPlain v then 8 else 0) ∧
      (scoreSurrogate native s v).get native.opposite =
        s.get native.opposite + (if isDouble v then 32 else 0) := by
  have hne := native.opposite_ne
  cases hval : isSurrogate v <;> cases hswap : isSurrogate (byteswap (n := 2) v) <;>
    simp [scoreSurrogate, isPlain, isDouble, hval, hswap, hne, hne.symm]

theorem get_scoreAnchor (native : Endian) (s : Scores) (v : U16) :
    (scoreAnchor native s v).get native = s.get native + highAnchor v ∧
      (scoreAnchor native s v).get native.opposite = s.get native.opposite + lowAnchor v := by
  have hlow : ∀ b : U8, b &&& 255#8 = b := fun _ => BitVec.and_allOnes
  cases hzero : lowIsZero v <;> cases hhigh : highIsZero v <;> cases native <;>
    simp [scoreAnchor, highAnchor, lowAnchor, Endian.opposite, hzero, hhigh, hlow]

/-- A fold whose steps add a gain to a measure. -/
theorem foldl_gain {σ α : Type} {step : σ → α → σ} (measure : σ → Nat) (gain : α → Nat)
    (hstep : ∀ s x, measure (step s x) = measure s + gain x) (s : σ) (xs : List α) :
    measure (xs.foldl step s) = measure s + (xs.map gain).sum := by
  induction xs generalizing s with
  | nil => rfl
  | cons x xs ih =>
      rw [List.foldl_cons, ih, hstep, List.map_cons, List.sum_cons, Nat.add_assoc]

theorem sum_map_ite {α : Type} (p : α → Bool) (k : Nat) (gain : α → Nat) (xs : List α) :
    (xs.map fun x => (if p x then k else 0) + gain x).sum =
      k * xs.countP p + (xs.map gain).sum := by
  induction xs with
  | nil => rfl
  | cons x xs ih =>
      rw [List.map_cons, List.sum_cons, ih, List.map_cons, List.sum_cons]
      cases hx : p x
      · rw [List.countP_cons_of_neg (by simp [hx])]
        simp only [Bool.false_eq_true, if_false]
        omega
      · rw [List.countP_cons_of_pos hx, Nat.mul_succ]
        simp only [if_true]
        omega

/-- The scores for the byte order of the machine and for the other one. -/
theorem scores_utf16 (native : Endian) (input : List U16) :
    (scoresUtf16 native input).get native =
        8 * (input.take 256).countP isPlain + ((input.take 256).map highAnchor).sum ∧
      (scoresUtf16 native input).get native.opposite =
        32 * (input.take 256).countP isDouble + ((input.take 256).map lowAnchor).sum := by
  have hzero : ∀ e, Scores.get {} e = 0 := by
    intro e
    cases e <;> rfl
  constructor
  · -- The machine's own order gains from plain surrogates and from high bytes that are zero.
    have hstep : ∀ s v, (scoreUnitUtf16 native s v).get native =
        s.get native + ((if isPlain v then 8 else 0) + highAnchor v) := by
      intro s v
      rw [scoreUnitUtf16, (get_scoreAnchor native _ v).1, (get_scoreSurrogate native s v).1,
        Nat.add_assoc]
    have hrun := foldl_gain (fun s : Scores => s.get native) _ hstep {} (input.take 256)
    rwa [sum_map_ite, hzero, Nat.zero_add] at hrun
  · -- The other order gains from units that are surrogates either way.
    have hstep : ∀ s v, (scoreUnitUtf16 native s v).get native.opposite =
        s.get native.opposite + ((if isDouble v then 32 else 0) + lowAnchor v) := by
      intro s v
      rw [scoreUnitUtf16, (get_scoreAnchor native _ v).2, (get_scoreSurrogate native s v).2,
        Nat.add_assoc]
    have hrun := foldl_gain (fun s : Scores => s.get native.opposite) _ hstep {} (input.take 256)
    rwa [sum_map_ite, hzero, Nat.zero_add] at hrun

/-! ## UTF-16 with the bytes of every unit swapped -/

theorem toNat_byteswap_two (v : U16) :
    (byteswap (n := 2) v).toNat = v.toNat % 256 * 256 + v.toNat / 256 := by
  have hv := v.isLt
  have hbytes : bytesOf (n := 2) .big v =
      [BitVec.ofNat 8 (v.toNat / 256), BitVec.ofNat 8 v.toNat] := by
    simp [bytesOf, Limbs.digits, List.range_succ]
  have hvalue : Limbs.value [BitVec.ofNat 8 (v.toNat / 256), BitVec.ofNat 8 v.toNat] =
      v.toNat % 256 * 256 + v.toNat / 256 := by
    simp [Limbs.value, Nat.ofDigits]
    omega
  rw [byteswap, hbytes, ofBytes, hvalue, BitVec.toNat_ofNat]
  omega

theorem lowIsZero_iff (v : U16) : lowIsZero v = true ↔ v.toNat % 256 = 0 := by
  rw [lowIsZero, beq_iff_eq, ← BitVec.toNat_inj, Bits.toNat_and_low 8 rfl]
  rfl

theorem highIsZero_iff (v : U16) : highIsZero v = true ↔ v.toNat / 256 = 0 := by
  rw [highIsZero, beq_iff_eq, Bits.and_high_eq_zero_iff 8 (by decide),
    Nat.div_eq_zero_iff_lt (by decide)]
  norm_num

theorem lowIsZero_byteswap (v : U16) : lowIsZero (byteswap (n := 2) v) = highIsZero v := by
  have hv := v.isLt
  rw [Bool.eq_iff_iff, lowIsZero_iff, highIsZero_iff, toNat_byteswap_two]
  omega

theorem highIsZero_byteswap (v : U16) : highIsZero (byteswap (n := 2) v) = lowIsZero v := by
  rw [← lowIsZero_byteswap, byteswap_byteswap]

theorem lowAnchor_byteswap (v : U16) : lowAnchor (byteswap (n := 2) v) = highAnchor v := by
  have hv := v.isLt
  have hhigh : (v.toNat % 256 * 256 + v.toNat / 256) / 2 ^ 8 = v.toNat % 256 := by
    norm_num
    omega
  have hbyte : ((byteswap (n := 2) v) >>> 8).setWidth 8 = v.setWidth 8 := by
    refine BitVec.eq_of_toNat_eq ?_
    rw [BitVec.toNat_setWidth, BitVec.toNat_setWidth, Bits.toNat_ushiftRight, toNat_byteswap_two,
      hhigh]
    exact Nat.mod_mod _ _
  rw [lowAnchor, highAnchor, lowIsZero_byteswap, highIsZero_byteswap, hbyte]

theorem highAnchor_byteswap (v : U16) : highAnchor (byteswap (n := 2) v) = lowAnchor v := by
  rw [← lowAnchor_byteswap, byteswap_byteswap]

theorem isPlain_byteswap (v : U16) : isPlain (byteswap (n := 2) v) = isMirrored v := by
  rw [isPlain, isMirrored, byteswap_byteswap, Bool.and_comm]

theorem isDouble_byteswap (v : U16) : isDouble (byteswap (n := 2) v) = isDouble v := by
  rw [isDouble, isDouble, byteswap_byteswap, Bool.and_comm]

/-- The scores with the bytes of every unit swapped: the anchors change sides, a unit that is a
surrogate either way does not, and of the others those count that were not surrogates before. -/
theorem scores_utf16_swapped (native : Endian) (input : List U16) :
    (scoresUtf16 native (input.map (byteswap (n := 2)))).get native =
        8 * (input.take 256).countP isMirrored + ((input.take 256).map lowAnchor).sum ∧
      (scoresUtf16 native (input.map (byteswap (n := 2)))).get native.opposite =
        32 * (input.take 256).countP isDouble + ((input.take 256).map highAnchor).sum := by
  have hplain : isPlain ∘ byteswap (n := 2) = isMirrored := funext isPlain_byteswap
  have hdouble : isDouble ∘ byteswap (n := 2) = isDouble := funext isDouble_byteswap
  have hhigh : highAnchor ∘ byteswap (n := 2) = lowAnchor := funext highAnchor_byteswap
  have hlow : lowAnchor ∘ byteswap (n := 2) = highAnchor := funext lowAnchor_byteswap
  rcases scores_utf16 native (input.map (byteswap (n := 2))) with ⟨hnative, hopposite⟩
  rw [← List.map_take, List.countP_map, List.map_map] at hnative hopposite
  rw [hplain, hhigh] at hnative
  rw [hdouble, hlow] at hopposite
  exact ⟨hnative, hopposite⟩

/-! ## Symmetry of the UTF-16 verdict -/

/-- The buffer starts with a byte order mark, in one order or the other. -/
def HasMarkUtf16 (input : List U16) : Prop :=
  input.head? = some 0xFEFF ∨ input.head? = some 0xFFFE

/-- Swapping the bytes of every unit turns the verdict around, unless there is no mark and the two
scores are equal; both verdicts are the byte order of the machine then. -/
structure Utf16Symmetric (signed : Bool) (native : Endian)
    (input : List (CharType.Unit { form := .utf16, signed := signed })) : Prop where
  opposite : HasMarkUtf16 input ∨ (scoresUtf16 native input).le ≠ (scoresUtf16 native input).be →
    utfEndian _ native (swapUnits input) = (utfEndian _ native input).opposite
  tie : ¬ HasMarkUtf16 input → (scoresUtf16 native input).le = (scoresUtf16 native input).be →
    utfEndian _ native input = native ∧ utfEndian _ native (swapUnits input) = native

/-- The sample outweighs its surrogates of both kinds as it stands exactly if it does so with its
bytes swapped. -/
def Utf16Balanced (input : List U16) : Prop :=
  let sample := input.take 256
  let high := (sample.map highAnchor).sum
  let low := (sample.map lowAnchor).sum
  32 * sample.countP isDouble + low < 8 * sample.countP isPlain + high ↔
    8 * sample.countP isMirrored + low < 32 * sample.countP isDouble + high

/-- The verdict from two scores, in terms of the machine's byte order. -/
theorem utfEndianUtf16_of_not_hasMark (native : Endian) {input : List U16}
    (h : ¬ HasMarkUtf16 input) :
    utfEndianUtf16 native input =
      if (scoresUtf16 native input).get native < (scoresUtf16 native input).get native.opposite
      then native.opposite else native := by
  rcases input with _ | ⟨first, rest⟩
  · cases native <;> rfl
  · -- No mark, so the scores decide, and a tie goes to the machine's order.
    have hnative : first ≠ 0xFEFF := fun heq => h (Or.inl (congrArg some heq))
    have hswapped : first ≠ 0xFFFE := fun heq => h (Or.inr (congrArg some heq))
    rw [utfEndianUtf16, if_neg hnative, if_neg hswapped]
    rcases lt_trichotomy (scoresUtf16 native (first :: rest)).le
      (scoresUtf16 native (first :: rest)).be with hlt | heq | hlt
    · cases native <;> simp [Scores.get, Endian.opposite, hlt, hlt.not_gt]
    · cases native <;> simp [Scores.get, Endian.opposite, heq]
    · cases native <;> simp [Scores.get, Endian.opposite, hlt, hlt.not_gt]

theorem head?_swap {n : Nat} (input : List (BitVec (8 * n))) (x : BitVec (8 * n)) :
    (input.map byteswap).head? = some x ↔ input.head? = some (byteswap x) := by
  rcases input with _ | ⟨first, rest⟩
  · simp
  · simp [byteswap_eq_iff]

theorem hasMarkUtf16_swap (input : List U16) :
    HasMarkUtf16 (input.map (byteswap (n := 2))) ↔ HasMarkUtf16 input := by
  have hmark : byteswap (n := 2) 0xFEFF = 0xFFFE := by decide
  have hswapped : byteswap (n := 2) 0xFFFE = 0xFEFF := by decide
  have hfirst := head?_swap (n := 2) input 0xFEFF
  have hsecond := head?_swap (n := 2) input 0xFFFE
  rw [hmark] at hfirst
  rw [hswapped] at hsecond
  exact (or_congr hfirst hsecond).trans or_comm

/-- A mark decides for both orders. -/
theorem utfEndianUtf16_swap_of_hasMark {native : Endian} {input : List U16}
    (h : HasMarkUtf16 input) :
    utfEndianUtf16 native (input.map (byteswap (n := 2))) =
      (utfEndianUtf16 native input).opposite := by
  have hmark : byteswap (n := 2) 0xFEFF = 0xFFFE := by decide
  have hswapped : byteswap (n := 2) 0xFFFE = 0xFEFF := by decide
  rcases input with _ | ⟨first, rest⟩
  · simp [HasMarkUtf16] at h
  · rcases h with h | h
    · cases h
      rw [List.map_cons, hmark]
      rfl
    · cases h
      rw [List.map_cons, hswapped]
      exact (Endian.opposite_opposite native).symm

/-- Two verdicts, from scores `a` against `b` and from scores `c` against `d`. -/
theorem verdicts_iff (native : Endian) (a b c d : Nat) :
    (if a = b then
      (if a < b then native.opposite else native) = native ∧
        (if c < d then native.opposite else native) = native
    else (if c < d then native.opposite else native) =
      (if a < b then native.opposite else native).opposite) ↔ (b < a ↔ c < d) := by
  have hne := native.opposite_ne
  rcases lt_trichotomy a b with hlt | rfl | hlt
  · by_cases hcd : c < d <;> simp [hlt, hlt.ne, hlt.not_gt, hcd, hne]
  · by_cases hcd : c < d <;> simp [hcd, hne]
  · by_cases hcd : c < d <;> simp [hlt, hlt.ne', hlt.not_gt, hcd, hne.symm]

/-- **Which UTF-16 buffers are classified the other way round with their bytes swapped.**  Those
with a byte order mark, and those whose sample weighs the same against its surrogates either way:
a unit that is a surrogate only with its bytes swapped is not counted as it stands. -/
theorem utf16Symmetric_iff (signed : Bool) (native : Endian)
    (input : List (CharType.Unit { form := .utf16, signed := signed })) :
    Utf16Symmetric signed native input ↔ HasMarkUtf16 input ∨ Utf16Balanced input := by
  have hequal : (scoresUtf16 native input).le = (scoresUtf16 native input).be ↔
      (scoresUtf16 native input).get native = (scoresUtf16 native input).get native.opposite := by
    cases native
    · exact Iff.rfl
    · exact eq_comm
  by_cases hmark : HasMarkUtf16 input
  · refine iff_of_true ⟨fun _ => utfEndianUtf16_swap_of_hasMark hmark, ?_⟩ (Or.inl hmark)
    intro hnone
    exact absurd hmark hnone
  · have hswapped : ¬ HasMarkUtf16 (input.map (byteswap (n := 2))) := by
      rwa [hasMarkUtf16_swap]
    have hverdict := utfEndianUtf16_of_not_hasMark native hmark
    have hverdict' := utfEndianUtf16_of_not_hasMark native hswapped
    rw [(scores_utf16 native input).1, (scores_utf16 native input).2] at hverdict hequal
    rw [(scores_utf16_swapped native input).1, (scores_utf16_swapped native input).2] at hverdict'
    have hbalanced : HasMarkUtf16 input ∨ Utf16Balanced input ↔ Utf16Balanced input :=
      or_iff_right hmark
    have hsymmetric : Utf16Symmetric signed native input ↔
        if (scoresUtf16 native input).le = (scoresUtf16 native input).be then
          utfEndianUtf16 native input = native ∧
            utfEndianUtf16 native (input.map (byteswap (n := 2))) = native
        else utfEndianUtf16 native (input.map (byteswap (n := 2))) =
          (utfEndianUtf16 native input).opposite := by
      split_ifs with htie
      · refine ⟨fun hsym => hsym.tie hmark htie, fun hverdicts => ⟨fun hsplit => ?_, ?_⟩⟩
        · exact absurd htie (hsplit.resolve_left hmark)
        · exact fun _ _ => hverdicts
      · refine ⟨fun hsym => hsym.opposite (Or.inr htie), fun hverdicts => ⟨?_, fun _ heq => ?_⟩⟩
        · exact fun _ => hverdicts
        · exact absurd heq htie
    -- Both sides now speak of the four sums.
    rw [hbalanced, hsymmetric, Utf16Balanced, hverdict, hverdict', if_congr hequal rfl rfl]
    exact verdicts_iff native _ _ _ _

/-- The smiling face U+1F600, which is taken for native either way. -/
theorem not_utf16Symmetric_pair : ¬ Utf16Symmetric false .little [0xD83D, 0xDE00] := by
  intro hsym
  have hverdict := hsym.opposite (Or.inr (by decide))
  revert hverdict
  decide

/-! ## The UTF-32 scores -/

/-- One unit in a score for one byte order. -/
def walkUnit (score : Nat) (v : U32) : Nat :=
  let score := if v ≤ 0x10FFFF#32 then score + 10 else score
  if isInvalidU32 v then penalty score else score

/-- The score of a sample for the byte order it stands in. -/
def walk (sample : List U32) : Nat :=
  sample.foldl walkUnit 0

theorem scoreUnitUtf32_eq (s : OrderScores) (v : U32) :
    scoreUnitUtf32 s v =
      { native := walkUnit s.native v, swapped := walkUnit s.swapped (byteswap (n := 4) v) } := by
  by_cases hv : v ≤ 0x10FFFF#32 <;> by_cases hswap : byteswap (n := 4) v ≤ 0x10FFFF#32 <;>
    cases hbad : isInvalidU32 v <;> cases hbad' : isInvalidU32 (byteswap (n := 4) v) <;>
    simp [scoreUnitUtf32, walkUnit, hv, hswap, hbad, hbad']

theorem foldl_scoreUnitUtf32 (sample : List U32) (s : OrderScores) :
    sample.foldl scoreUnitUtf32 s =
      { native := sample.foldl walkUnit s.native
        swapped := (sample.map (byteswap (n := 4))).foldl walkUnit s.swapped } := by
  induction sample generalizing s with
  | nil => rfl
  | cons v sample ih => rw [List.foldl_cons, scoreUnitUtf32_eq, ih]; rfl

/-- The two scores are one walk, over the sample and over the sample with its bytes swapped. -/
theorem scores_utf32 (input : List U32) :
    scoresUtf32 input =
      { native := walk (input.take 64)
        swapped := walk ((input.take 64).map (byteswap (n := 4))) } :=
  foldl_scoreUnitUtf32 (input.take 64) {}

/-- Swapping the bytes of every unit exchanges the two scores. -/
theorem scores_utf32_swapped (input : List U32) :
    scoresUtf32 (input.map (byteswap (n := 4))) =
      { native := walk ((input.take 64).map (byteswap (n := 4)))
        swapped := walk (input.take 64) } := by
  have hswap : byteswap (n := 4) ∘ byteswap (n := 4) = id := funext byteswap_byteswap
  rw [scores_utf32, ← List.map_take, List.map_map, hswap, List.map_id]

/-! ## Symmetry of the UTF-32 verdict -/

/-- A byte order mark decides whatever follows, and swapping the bytes of every unit turns the
verdict around, unless there is no mark and the two scores are equal. -/
@[mk_iff utf32Symmetric_def]
structure Utf32Symmetric (signed : Bool) (native : Endian)
    (input : List (CharType.Unit { form := .utf32, signed := signed })) : Prop where
  nativeMark : input.head? = some 0x0000FEFF → utfEndian _ native input = native
  swappedMark : input.head? = some 0xFFFE0000 → utfEndian _ native input = native.opposite
  opposite : input.head? = some 0x0000FEFF ∨ input.head? = some 0xFFFE0000 ∨
      (scoresUtf32 input).native ≠ (scoresUtf32 input).swapped →
    utfEndian _ native (swapUnits input) = (utfEndian _ native input).opposite

/-- The walk over the sample agrees with what the first unit says: with the mark U+FEFF in either
order, and against the constants that stand for the mark in the code, U+FFFE and `0xFEFF0000`. -/
@[mk_iff utf32Agrees_def]
structure Utf32Agrees (input : List U32) : Prop where
  mark : input.head? = some 0x0000FEFF →
    walk ((input.take 64).map (byteswap (n := 4))) < walk (input.take 64)
  swappedMark : input.head? = some 0xFFFE0000 →
    walk (input.take 64) < walk ((input.take 64).map (byteswap (n := 4)))
  constant : input.head? = some 0xFEFF0000 →
    walk (input.take 64) ≤ walk ((input.take 64).map (byteswap (n := 4)))
  swappedConstant : input.head? = some 0x0000FFFE →
    walk ((input.take 64).map (byteswap (n := 4))) ≤ walk (input.take 64)

/-- The verdict from the first unit and the scores. -/
theorem utfEndianUtf32_eq (native : Endian) (input : List U32) :
    utfEndianUtf32 native input =
      if input.head? = some 0x0000FEFF then native
      else if input.head? = some 0xFEFF0000 then native.opposite
      else if (scoresUtf32 input).native < (scoresUtf32 input).swapped then native.opposite
      else native := by
  rcases input with _ | ⟨first, rest⟩
  · rfl
  · simp only [utfEndianUtf32, List.head?_cons, Option.some.injEq]
    rcases lt_trichotomy (scoresUtf32 (first :: rest)).native
      (scoresUtf32 (first :: rest)).swapped with hlt | heq | hlt
    · simp only [if_neg hlt.not_gt, if_pos hlt]
    · simp only [heq, lt_irrefl, if_false]
    · simp only [if_pos hlt, if_neg hlt.not_gt]

/-- The verdict with the bytes of every unit swapped. -/
theorem utfEndianUtf32_swap (native : Endian) (input : List U32) :
    utfEndianUtf32 native (input.map (byteswap (n := 4))) =
      if input.head? = some 0xFFFE0000 then native
      else if input.head? = some 0x0000FFFE then native.opposite
      else if (scoresUtf32 input).swapped < (scoresUtf32 input).native then native.opposite
      else native := by
  have hmark : byteswap (n := 4) 0x0000FEFF = 0xFFFE0000 := by decide
  have hconstant : byteswap (n := 4) 0xFEFF0000 = 0x0000FFFE := by decide
  have hfirst := head?_swap (n := 4) input 0x0000FEFF
  have hsecond := head?_swap (n := 4) input 0xFEFF0000
  rw [hmark] at hfirst
  rw [hconstant] at hsecond
  rw [utfEndianUtf32_eq, if_congr hfirst rfl (if_congr hsecond rfl rfl), scores_utf32_swapped,
    scores_utf32]

/-- Both verdicts, from the first unit and the scores `n` and `w`. -/
theorem marks_iff (native : Endian) (first : Option U32) (n w : Nat) :
    let own := if first = some 0x0000FEFF#32 then native
      else if first = some 0xFEFF0000#32 then native.opposite
      else if n < w then native.opposite else native
    let other := if first = some 0xFFFE0000#32 then native
      else if first = some 0x0000FFFE#32 then native.opposite
      else if w < n then native.opposite else native
    (first = some 0x0000FEFF#32 → own = native) ∧
      (first = some 0xFFFE0000#32 → own = native.opposite) ∧
      (first = some 0x0000FEFF#32 ∨ first = some 0xFFFE0000#32 ∨ n ≠ w → other = own.opposite) ↔
    (first = some 0x0000FEFF#32 → w < n) ∧ (first = some 0xFFFE0000#32 → n < w) ∧
      (first = some 0xFEFF0000#32 → n ≤ w) ∧ (first = some 0x0000FFFE#32 → w ≤ n) := by
  have hne := native.opposite_ne
  by_cases hmark : first = some 0x0000FEFF#32
  · simp [hmark, hne.symm]
  -- The mark in swapped order is recognised in neither buffer: the scores have to agree with it.
  by_cases hswapped : first = some 0xFFFE0000#32
  · by_cases hlt : n < w <;> simp [hswapped, hlt, hne.symm]
  -- The constants of the code decide one buffer, and the scores the other.
  by_cases hconstant : first = some 0xFEFF0000#32
  · rcases lt_trichotomy n w with hlt | rfl | hlt
    · simp [hconstant, hlt, hlt.not_gt, hlt.le]
    · simp [hconstant]
    · simp [hconstant, hlt, hlt.ne', hlt.not_ge, hne]
  by_cases hswapped' : first = some 0x0000FFFE#32
  · rcases lt_trichotomy n w with hlt | rfl | hlt
    · simp [hswapped', hlt, hlt.ne, hlt.not_ge, hne]
    · simp [hswapped']
    · simp [hswapped', hlt, hlt.not_gt, hlt.le]
  rcases lt_trichotomy n w with hlt | rfl | hlt
  · simp [hmark, hswapped, hconstant, hswapped', hlt, hlt.not_gt]
  · simp [hmark, hswapped, hconstant, hswapped']
  · simp [hmark, hswapped, hconstant, hswapped', hlt, hlt.not_gt]

/-- **Which UTF-32 buffers obey their byte order mark and are classified the other way round with
their bytes swapped.**  All whose first unit is none of U+FEFF, U+FFFE and their swapped forms; of
the others those whose scores agree with the first unit anyway. -/
theorem utf32Symmetric_iff (signed : Bool) (native : Endian)
    (input : List (CharType.Unit { form := .utf32, signed := signed })) :
    Utf32Symmetric signed native input ↔ Utf32Agrees input := by
  have hsymmetric : Utf32Symmetric signed native input ↔ _ := utf32Symmetric_def _ _ _
  rw [hsymmetric, utf32Agrees_def]
  change (_ → utfEndianUtf32 native input = native) ∧
    (_ → utfEndianUtf32 native input = native.opposite) ∧
    (_ → utfEndianUtf32 native (input.map (byteswap (n := 4))) =
      (utfEndianUtf32 native input).opposite) ↔ _
  rw [utfEndianUtf32_eq, utfEndianUtf32_swap, scores_utf32]
  exact marks_iff native _ _ _

/-- A mark in swapped order, followed by text in native order. -/
theorem not_utf32Symmetric_swappedMark :
    ¬ Utf32Symmetric false .little [0xFFFE0000, 0x00000041, 0x00000042] := by
  intro hsym
  have hverdict := hsym.swappedMark rfl
  revert hverdict
  decide

end Convert
end Chenc
