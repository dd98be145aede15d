import Mathlib.Tactic
import Chenc.Lib.Bits

/-!
# Lanes — several small words in one machine word

`pack n us` puts the words `us` side by side into `n` bits, the first in the low bits.

* `pack_and` : a bitwise operation on packed words works lane by lane;
* `toNat_pack_cons` : the value of a packed word;
* `and_pack_replicate_eq_zero_iff` : one test against a repeated mask tests every lane.
-/

namespace Lanes

variable {n w : Nat}

def pack (n : Nat) {w : Nat} : List (BitVec w) → BitVec n
  | [] => 0#n
  | u :: us => u.setWidth n ||| pack n us <<< w

theorem pack_and (us ms : List (BitVec w)) (h : us.length = ms.length) :
    pack n us &&& pack n ms = pack n (List.zipWith (· &&& ·) us ms) := by
  induction us generalizing ms with
  | nil => simp [pack]
  | cons u us ih =>
      rcases ms with _ | ⟨m, ms⟩
      · simp at h
      · have htail := ih ms (by simpa using h)
        simp only [List.zipWith_cons_cons, pack, ← htail]
        ext i hi
        -- Bit `i` belongs to the first lane or to the packed rest, never to both.
        by_cases hiw : i < w
        · simp [BitVec.getElem_or, BitVec.getElem_and, BitVec.getElem_shiftLeft, hiw]
        · have hu : u.getLsbD i = false := BitVec.getLsbD_of_ge u i (by omega)
          have hm : m.getLsbD i = false := BitVec.getLsbD_of_ge m i (by omega)
          simp [BitVec.getElem_or, BitVec.getElem_and, BitVec.getElem_shiftLeft, hiw, hu, hm]

/-- Adding a lane below a packed word that leaves room for it. -/
theorem toNat_pack_cons_of_lt (u : BitVec w) (us : List (BitVec w))
    (hlt : (pack n us).toNat < 2 ^ (us.length * w)) (hfit : (us.length + 1) * w ≤ n) :
    (pack n (u :: us)).toNat = u.toNat + (pack n us).toNat * 2 ^ w := by
  -- The rest of the word keeps all its bits when it is moved up by a lane.
  have hmul : (pack n us).toNat * 2 ^ w < 2 ^ n :=
    calc
      (pack n us).toNat * 2 ^ w < 2 ^ (us.length * w) * 2 ^ w :=
          Nat.mul_lt_mul_of_pos_right hlt (Nat.two_pow_pos w)
      _ = 2 ^ ((us.length + 1) * w) := by rw [← Nat.pow_add, Nat.add_mul, Nat.one_mul]
      _ ≤ 2 ^ n := Nat.pow_le_pow_right (by norm_num) hfit
  have hwn : w ≤ n := le_trans (Nat.le_mul_of_pos_left w (Nat.succ_pos _)) hfit
  have hshift := Bits.toNat_shiftLeft_of_lt w hmul
  have hset : (u.setWidth n).toNat = u.toNat := by
    rw [BitVec.toNat_setWidth]
    exact Nat.mod_eq_of_lt (lt_of_lt_of_le u.isLt (Nat.pow_le_pow_right (by norm_num) hwn))
  have hdvd : 2 ^ w ∣ (pack n us <<< w).toNat := by
    rw [hshift]
    exact Dvd.intro_left _ rfl
  have hlow : (u.setWidth n).toNat < 2 ^ w := by
    rw [hset]
    exact u.isLt
  rw [pack, BitVec.or_comm, Bits.toNat_or_of_dvd w hdvd hlow, hshift, hset, Nat.add_comm]

theorem toNat_pack_lt (us : List (BitVec w)) (hfit : us.length * w ≤ n) :
    (pack n us).toNat < 2 ^ (us.length * w) := by
  induction us with
  | nil => simp [pack]
  | cons u us ih =>
      rw [List.length_cons] at hfit ⊢
      have hlt := ih (le_trans (Nat.mul_le_mul_right w (Nat.le_succ _)) hfit)
      have hu := u.isLt
      rw [toNat_pack_cons_of_lt u us hlt hfit]
      calc
        u.toNat + (pack n us).toNat * 2 ^ w < 2 ^ w + (pack n us).toNat * 2 ^ w := by omega
        _ = ((pack n us).toNat + 1) * 2 ^ w := by ring
        _ ≤ 2 ^ (us.length * w) * 2 ^ w := Nat.mul_le_mul_right _ hlt
        _ = 2 ^ ((us.length + 1) * w) := by rw [← Nat.pow_add, Nat.add_mul, Nat.one_mul]

theorem toNat_pack_cons (u : BitVec w) (us : List (BitVec w)) (hfit : (us.length + 1) * w ≤ n) :
    (pack n (u :: us)).toNat = u.toNat + (pack n us).toNat * 2 ^ w :=
  toNat_pack_cons_of_lt u us
    (toNat_pack_lt us (le_trans (Nat.mul_le_mul_right w (Nat.le_succ _)) hfit)) hfit

theorem pack_eq_zero_iff (us : List (BitVec w)) (hfit : us.length * w ≤ n) :
    pack n us = 0#n ↔ ∀ u ∈ us, u = 0#w := by
  induction us with
  | nil => simp [pack]
  | cons u us ih =>
      rw [List.length_cons] at hfit
      have htail := ih (le_trans (Nat.mul_le_mul_right w (Nat.le_succ _)) hfit)
      rw [List.forall_mem_cons, ← htail, ← BitVec.toNat_inj, ← BitVec.toNat_inj,
        ← BitVec.toNat_inj, toNat_pack_cons u us hfit]
      simp [Nat.add_eq_zero_iff]

/-- **Testing all lanes at once.** -/
theorem and_pack_replicate_eq_zero_iff (us : List (BitVec w)) (m : BitVec w)
    (hfit : us.length * w ≤ n) :
    pack n us &&& pack n (List.replicate us.length m) = 0#n ↔ ∀ u ∈ us, u &&& m = 0#w := by
  have hlanes : List.zipWith (· &&& ·) us (List.replicate us.length m) =
      us.map fun u => u &&& m := by
    clear hfit
    induction us with
    | nil => rfl
    | cons u us ih => simpa [List.replicate_succ] using ih
  rw [pack_and _ _ (by simp), hlanes, pack_eq_zero_iff _ (by simpa using hfit)]
  simp

/-- A mask of all bits from `k` on tests for values below `2^k`. -/
theorem and_high_eq_zero_iff {u m : BitVec w} (k : Nat)
    (hm : ∀ i < w, m.getLsbD i = decide (k ≤ i)) : u &&& m = 0#w ↔ u.toNat < 2 ^ k := by
  constructor
  · intro h
    -- No bit from `k` on is set, be it inside the word or past its end.
    refine Nat.lt_pow_two_of_testBit _ fun i hi => ?_
    by_cases hiw : i < w
    · have hbit := congrArg (fun x : BitVec w => x.getLsbD i) h
      have hclear : u.getLsbD i = false := by
        simpa [hm i hiw, hi] using hbit
      exact hclear
    · exact Nat.testBit_lt_two_pow
        (lt_of_lt_of_le u.isLt (Nat.pow_le_pow_right (by norm_num) (by omega)))
  · intro h
    ext i hi
    rw [BitVec.getElem_and, BitVec.getElem_zero, ← BitVec.getLsbD_eq_getElem,
      ← BitVec.getLsbD_eq_getElem, hm i hi]
    by_cases hik : k ≤ i
    · have hbit : u.getLsbD i = false :=
        Nat.testBit_lt_two_pow (lt_of_lt_of_le h (Nat.pow_le_pow_right (by norm_num) hik))
      rw [hbit, Bool.false_and]
    · rw [decide_eq_false hik, Bool.and_false]

end Lanes
