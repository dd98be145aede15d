import Chenc.Struct.ArrayDifference
import Chenc.Struct.ArrayOrder

/-!
# ArrayShift — the shifts multiply and divide by powers of two

* `blockOf` : the blocks of a number, whatever array it is in;
* `leftForward_spec`, `leftBackward_spec`, `leftBlocks_spec` : the three loops of the left shift,
  of which the last two may run over their own operand;
* `leftShiftTo_correct` : on every route the left shift leaves `a * 2 ^ shift`, as far as it fits;
* `rightShiftTo_correct` : the right shift leaves `a / 2 ^ shift`, as far as it fits.
-/

namespace Chenc
namespace Struct
namespace ArrayUint

open CountedLoop (up down up_rule down_rule)

variable {w A R : Width}

/-- Block `i` of a number. -/
def blockOf (n i : Nat) : Nat :=
  n / 2 ^ (64 * i) % 2 ^ 64

section BlockOf

variable (n : Nat) {i j : Nat}

theorem blockOf_num (x : ArrayUint w) (i : Nat) : blockOf x.num i = x.block i :=
  (x.block_eq i).symm

theorem blockOf_of_lt (h : n < 2 ^ (64 * i)) : blockOf n i = 0 := by
  rw [blockOf, Nat.div_eq_of_lt h, Nat.zero_mod]

/-- A shift by whole blocks. -/
theorem blockOf_shift (h : j ≤ i) : blockOf (n * 2 ^ (64 * j)) i = blockOf n (i - j) := by
  have hpow : 2 ^ (64 * i) = 2 ^ (64 * (i - j)) * 2 ^ (64 * j) := by
    rw [← Nat.pow_add, ← Nat.mul_add, Nat.sub_add_cancel h]
  rw [blockOf, hpow, Nat.mul_div_mul_right _ _ (Nat.two_pow_pos _), blockOf]

theorem blockOf_shift_of_lt (h : i < j) : blockOf (n * 2 ^ (64 * j)) i = 0 := by
  have hpow : 2 ^ (64 * j) = 2 ^ (64 * (j - i - 1)) * 2 ^ 64 * 2 ^ (64 * i) := by
    rw [← Nat.pow_add, ← Nat.pow_add]
    congr 1
    omega
  rw [blockOf, hpow, ← Nat.mul_assoc, Nat.mul_div_cancel _ (Nat.two_pow_pos _), ← Nat.mul_assoc,
    Nat.mul_mod_left]

end BlockOf

/-! ## The loops of the left shift -/

section Left

variable {a : Operand R A} {out : ArrayUint R} {blockShift bitShift n : Nat}

/-- The blocks from `blockShift` on are the low blocks of `m`, as many as `n` and as there is
room for. -/
def Holds (y : ArrayUint R) (blockShift n m : Nat) : Prop :=
  ∀ j, blockShift ≤ j → j < blockShift + n → j < R.blockSize →
    y.block j = blockOf m (j - blockShift)

/-- What the passes so far have written: `n` blocks from `first` on. -/
def Moved (out y : ArrayUint R) (blockShift first n m : Nat) : Prop :=
  ∀ j, y.block j =
    if blockShift + first ≤ j ∧ j < blockShift + n then blockOf m (j - blockShift) else out.block j

/-- A block of the shifted number from the two blocks it takes its bits from. -/
theorem toNat_leftBlock {x : ArrayUint w} {i : Nat} (cur prev : U64) (hbit : bitShift < 64)
    (hcur : cur.toNat = x.block i) (hprev : prev.toNat = if i = 0 then 0 else x.block (i - 1)) :
    ((cur <<< bitShift) ||| (prev >>> (64 - bitShift))).toNat = blockOf (x.num * 2 ^ bitShift) i :=
  Limbs.limb_shiftLeft hbit.le hcur hprev

/-- A block written at its place. -/
theorem Moved.store {y z : ArrayUint R} {first m b : Nat} (h : Moved out y blockShift 0 first m)
    (hz : ∀ j, z.block j = if j = first + blockShift then b else y.block j)
    (hb : b = blockOf m first) : Moved out z blockShift 0 (first + 1) m := by
  intro j
  rw [hz j, h j, hb]
  split_ifs with hj <;> first | rfl | omega | rw [hj, Nat.add_sub_cancel]

theorem leftForward_spec (out : ArrayUint R) (ha : a.Apart) (hbit : bitShift < 64)
    (hA : n ≤ A.blockSize) (hR : n + blockShift ≤ R.blockSize) :
    ∃ y prev, up (leftForward a blockShift bitShift) n 0 (out, 0#64) = some (y, prev) ∧
      prev.toNat = (if n = 0 then 0 else (a.get out).block (n - 1)) ∧
      Moved out y blockShift 0 n ((a.get out).num * 2 ^ bitShift) := by
  have hrule := up_rule (f := leftForward a blockShift bitShift)
    (I := fun k st => st.2.toNat = (if k = 0 then 0 else (a.get out).block (k - 1)) ∧
      Moved out st.1 blockShift 0 k ((a.get out).num * 2 ^ bitShift))
    (n := n) (i := 0) (s := (out, 0#64))
    ⟨rfl, fun j => by rw [if_neg (by omega)]⟩
    (fun k st _ hk hI => by
      rcases hI with ⟨hprev, hmoved⟩
      rcases a.load_of_lt st.1 (i := k) (by omega) with ⟨cur, hload, hcur⟩
      rw [Operand.get_of_apart ha out] at hcur
      rcases st.1.store_spec (i := k + blockShift) (by omega)
        ((cur <<< bitShift) ||| (st.2 >>> (64 - bitShift))) with ⟨z, hz, hblock⟩
      refine ⟨(z, cur), by simp [leftForward, hload, hz], ?_, ?_⟩
      · rw [if_neg (Nat.succ_ne_zero k), Nat.add_sub_cancel, hcur]
      · exact hmoved.store hblock (toNat_leftBlock cur _ hbit hcur hprev))
  rw [Nat.zero_add] at hrule
  rcases hrule with ⟨⟨y, prev⟩, hrun, hprev, hmoved⟩
  exact ⟨y, prev, hrun, hprev, hmoved⟩

/-- From the top down no block is read after it has been written, even in place. -/
theorem leftBackward_spec (a : Operand R A) (out : ArrayUint R) (hbit : bitShift < 64)
    (hA : n ≤ A.blockSize) (hR : n + blockShift ≤ R.blockSize) :
    ∃ y, down (leftBackward a blockShift bitShift) n 0 out = some y ∧
      Moved out y blockShift 0 n ((a.get out).num * 2 ^ bitShift) := by
  refine down_rule (f := leftBackward a blockShift bitShift)
    (I := fun k y => Moved out y blockShift k n ((a.get out).num * 2 ^ bitShift))
    (n := n) (i := 0) (s := out) (fun j => by rw [if_neg (by omega)]) ?_
  intro k y _ hk hmoved
  have hkeep : ∀ i, i ≤ k → (a.get y).block i = (a.get out).block i := fun i hi =>
    a.get_block (by rw [hmoved i, if_neg (by omega)])
  rcases a.load_of_lt y (i := k) (by omega) with ⟨cur, hload, hcur⟩
  rw [hkeep k le_rfl] at hcur
  -- The bits from the block below; there is none below block zero.
  have hlow : ∃ prev : U64, prev.toNat = (if k = 0 then 0 else (a.get out).block (k - 1)) ∧
      leftBackward a blockShift bitShift k y =
        y.store (k + blockShift) ((cur <<< bitShift) ||| (prev >>> (64 - bitShift))) := by
    by_cases hpos : k > 0
    · rcases a.load_of_lt y (i := k - 1) (by omega) with ⟨prev, hload', hprev⟩
      rw [hkeep _ (Nat.sub_le k 1)] at hprev
      exact ⟨prev, by rw [hprev, if_neg hpos.ne'], by simp [leftBackward, hload, hload', hpos]⟩
    · refine ⟨0, by rw [if_pos (Nat.eq_zero_of_not_pos hpos)]; rfl, ?_⟩
      simp [leftBackward, hload, hpos]
  rcases hlow with ⟨prev, hprev, hrun⟩
  rcases y.store_spec (i := k + blockShift) (by omega)
    ((cur <<< bitShift) ||| (prev >>> (64 - bitShift))) with ⟨z, hz, hblock⟩
  refine ⟨z, hrun.trans hz, fun j => ?_⟩
  rw [hblock j, hmoved j, toNat_leftBlock cur prev hbit hcur hprev]
  split_ifs with hj <;> first | rfl | omega | rw [hj, Nat.add_sub_cancel]

theorem copyBackward_spec (a : Operand R A) (out : ArrayUint R) (hA : n ≤ A.blockSize)
    (hR : n + blockShift ≤ R.blockSize) :
    ∃ y, copyBackward a.load 0 n blockShift out = some y ∧
      Moved out y blockShift 0 n (a.get out).num := by
  refine down_rule (f := fun k out => (a.load out (0 + k)).bind
      (ArrayUint.store out (blockShift + k)))
    (I := fun k y => Moved out y blockShift k n (a.get out).num)
    (n := n) (i := 0) (s := out) (fun j => by rw [if_neg (by omega)]) ?_
  intro k y _ hk hmoved
  rcases a.load_of_lt y (i := 0 + k) (by omega) with ⟨b, hload, hnum⟩
  have hkeep : (a.get y).block (0 + k) = (a.get out).block (0 + k) :=
    a.get_block (by rw [hmoved, if_neg (by omega)])
  rcases y.store_spec (i := blockShift + k) (by omega) b with ⟨z, hz, hblock⟩
  refine ⟨z, by rw [hload, Option.bind_some, hz], fun j => ?_⟩
  rw [hblock j, hmoved j, hnum, hkeep, Nat.zero_add]
  split_ifs with hj <;>
    first | rfl | omega | rw [hj, Nat.add_sub_cancel_left, blockOf_num]

/-! ## The routes of the left shift -/

/-- In place the arrays overlap. -/
theorem apart_of_not_aliased {lay : Layout} (h : ¬ isAliased lay a) : a.Apart := by
  cases a with
  | other a => trivial
  | same =>
      refine absurd ?_ h
      unfold isAliased
      split_ifs
      · rfl
      · simp [Operand.address]

theorem leftBlocks_spec (lay : Layout) (hA : n ≤ A.blockSize)
    (hR : n + blockShift ≤ R.blockSize) :
    ∃ y, leftBlocks lay a blockShift n out = some y ∧ Holds y blockShift n (a.get out).num := by
  unfold leftBlocks
  split_ifs with hn halias
  · rcases copyBackward_spec a out hA hR with ⟨y, hy, hmoved⟩
    refine ⟨y, hy, fun j hj hlt _ => ?_⟩
    rw [hmoved j, if_pos ⟨hj, hlt⟩]
  · -- Upwards only out of another array, or onto itself.
    have hsafe : a.Apart ∨ blockShift ≤ 0 := by
      rw [not_and_or] at halias
      rcases halias with hno | hle
      · exact .inl (apart_of_not_aliased hno)
      · cases a with
        | other a => exact .inl trivial
        | same =>
            simp only [Operand.address] at hle
            exact .inr (by omega)
    rcases copy_move_spec a out 0 n blockShift (by omega) (by omega) hsafe with ⟨y, hy, hblock⟩
    refine ⟨y, hy, fun j hj hlt _ => ?_⟩
    rw [hblock j, if_pos ⟨hj, hlt⟩, Nat.zero_add, blockOf_num]
  · exact ⟨out, rfl, fun j hj hlt _ => by omega⟩

/-- The block above the last one that was moved takes the bits shifted out of it. -/
theorem Moved.holds_succ {y z : ArrayUint R} {m : Nat} (h : Moved out y blockShift 0 n m)
    (hz : n + blockShift < R.blockSize → ∀ j, z.block j =
      if j = n + blockShift then blockOf m n else y.block j)
    (hfull : ¬ n + blockShift < R.blockSize → z = y) : Holds z blockShift (n + 1) m := by
  intro j hj hlt hR
  by_cases hroom : n + blockShift < R.blockSize
  · rw [hz hroom j, h j]
    split_ifs with hjn <;> first | rfl | omega | rw [hjn, Nat.add_sub_cancel]
  · rw [hfull hroom, h j, if_pos ⟨hj, by omega⟩]

theorem leftApart_spec (ha : a.Apart) (hbit : bitShift < 64)
    (hn : n = min A.blockSize (R.blockSize - blockShift)) (hR : n + blockShift ≤ R.blockSize) :
    ∃ y, leftApart a blockShift bitShift n out = some y ∧
      Holds y blockShift (n + 1) ((a.get out).num * 2 ^ bitShift) := by
  rcases leftForward_spec out ha hbit (by omega) hR with ⟨y, prev, hrun, hprev, hmoved⟩
  by_cases hlt : n + blockShift < R.blockSize
  · -- The operand has no block `n`.
    have hnone : (a.get out).block n = 0 := block_of_le _ _ (by omega)
    have htop := toNat_leftBlock 0#64 prev hbit hnone.symm hprev
    rcases y.store_spec hlt (prev >>> (64 - bitShift)) with ⟨z, hz, hblock⟩
    rw [BitVec.zero_shiftLeft, BitVec.zero_or] at htop
    rw [htop] at hblock
    exact ⟨z, by simp [leftApart, hrun, hlt, hz],
      hmoved.holds_succ (fun _ => hblock) fun hno => absurd hlt hno⟩
  · exact ⟨y, by simp [leftApart, hrun, hlt],
      hmoved.holds_succ (fun h => absurd h hlt) fun _ => rfl⟩

theorem leftOverlapped_spec (hbit : bitShift < 64)
    (hn : n = min A.blockSize (R.blockSize - blockShift)) (hlt' : blockShift < R.blockSize) :
    ∃ y, leftOverlapped a blockShift bitShift n out = some y ∧
      Holds y blockShift (n + 1) ((a.get out).num * 2 ^ bitShift) := by
  have hpos := A.blockSize_pos
  have hroom : n + blockShift ≤ R.blockSize := by
    omega
  rcases leftBackward_spec a out hbit (by omega) hroom with ⟨y, hrun, hmoved⟩
  by_cases hlt : n + blockShift < R.blockSize
  · -- There is room above, so the operand is another array.
    have hapart : a.Apart := by
      cases a with
      | other a => trivial
      | same => omega
    rcases a.load_of_lt y (i := n - 1) (by omega) with ⟨top, hload, hnum⟩
    rw [Operand.get_of_apart hapart out] at hnum
    have hnone : (a.get out).block n = 0 := block_of_le _ _ (by omega)
    have htop := toNat_leftBlock 0#64 top hbit hnone.symm (by rw [hnum, if_neg (by omega)])
    rcases y.store_spec hlt (top >>> (64 - bitShift)) with ⟨z, hz, hblock⟩
    rw [BitVec.zero_shiftLeft, BitVec.zero_or] at htop
    rw [htop] at hblock
    exact ⟨z, by simp [leftOverlapped, hrun, hlt, hload, hz],
      hmoved.holds_succ (fun _ => hblock) fun hno => absurd hlt hno⟩
  · exact ⟨y, by simp [leftOverlapped, hrun, hlt],
      hmoved.holds_succ (fun h => absurd h hlt) fun _ => rfl⟩

/-- Every route moves the operand to its place. -/
theorem leftMove_spec (lay : Layout) (a : Operand R A) (out : ArrayUint R) (hbit : bitShift < 64)
    (hn : n = min A.blockSize (R.blockSize - blockShift)) (hlt : blockShift < R.blockSize) :
    ∃ y, leftMove lay a blockShift bitShift n out = some y ∧
      Holds y blockShift (n + if bitShift ≠ 0 then 1 else 0)
        ((a.get out).num * 2 ^ bitShift) := by
  by_cases hzero : bitShift = 0
  · rw [leftMove, if_pos hzero, if_neg (not_not.2 hzero), hzero, Nat.pow_zero, Nat.mul_one,
      Nat.add_zero]
    exact leftBlocks_spec lay (by omega) (by omega)
  · rw [leftMove, if_neg hzero, if_pos hzero]
    by_cases halias : isAliased lay a = true
    · rw [if_neg (not_not.2 halias)]
      exact leftOverlapped_spec hbit hn hlt
    · rw [if_pos halias]
      exact leftApart_spec (apart_of_not_aliased halias) hbit hn (by omega)

end Left

/-! ## The left shift -/

section Clear

variable (out : ArrayUint R)

theorem clearLow_spec {blockShift : Nat} (h : blockShift < R.blockSize) :
    ∃ y, clearLow blockShift out = some y ∧
      ∀ j, y.block j = if j < blockShift then 0 else out.block j := by
  unfold clearLow
  split_ifs with hpos
  · rw [min_eq_left h.le]
    rcases out.fill_spec (Nat.zero_le blockShift) h.le 0#64 with ⟨y, hy, hblock⟩
    refine ⟨y, hy, fun j => ?_⟩
    rw [hblock j]
    simp
  · exact ⟨out, rfl, fun j => by rw [if_neg (by omega)]⟩

theorem clearHigh_spec (first : Nat) :
    ∃ y, clearHigh first out = some y ∧
      ∀ j, y.block j = if first ≤ j ∧ j < R.blockSize then 0 else out.block j := by
  unfold clearHigh
  split_ifs with hlt
  · exact out.fill_spec hlt.le le_rfl 0#64
  · exact ⟨out, rfl, fun j => by rw [if_neg (by omega)]⟩

/-- Shifted out altogether. -/
theorem fill_all_spec : ∃ y, out.fill 0 R.blockSize 0 = some y ∧ y.num = 0 := by
  rcases out.fill_spec (Nat.zero_le R.blockSize) le_rfl 0#64 with ⟨y, hy, hblock⟩
  refine ⟨y, hy, ?_⟩
  rw [num_of_filled_zeros (Nat.zero_le _) hblock, Nat.mul_zero, Nat.pow_zero, Nat.mod_one]

/-- What is left of a number after its blocks have been written and the result is sanitised. -/
theorem num_sanitize_of_blocks {n : Nat}
    (h : ∀ j, j < R.blockSize → out.block j = blockOf n j) : out.sanitize.num = n % 2 ^ R.bits := by
  rw [num_sanitize, num_of_blocks out h,
    Nat.mod_mod_of_dvd _ (Nat.pow_dvd_pow 2 R.bits_le)]

end Clear

/-- **The left shift.**  On every route (upwards into another array, downwards, or in place) the
result is `a * 2 ^ shift`, as far as it fits. -/
theorem leftShiftTo_spec (lay : Layout) (out : ArrayUint R) (a : Operand R A) (shift : U64) :
    ∃ r, leftShiftTo lay out a shift = some r ∧
      r.num = (a.get out).num * 2 ^ shift.toNat % 2 ^ R.bits := by
  by_cases hbig : shift.toNat ≥ R.bits
  · rcases fill_all_spec out with ⟨y, hy, hzero⟩
    refine ⟨y, by rw [leftShiftTo, if_pos hbig, hy], ?_⟩
    rw [hzero, Nat.mod_eq_zero_of_dvd]
    exact Dvd.dvd.mul_left (Nat.pow_dvd_pow 2 hbig) _
  · generalize hblock : shift.toNat / 64 = blockShift
    generalize hbit : shift.toNat % 64 = bitShift
    generalize hn : min A.blockSize (R.blockSize - blockShift) = n
    have hshift : shift.toNat = bitShift + 64 * blockShift := by omega
    have hlt : blockShift < R.blockSize := by
      have hle := R.bits_le
      omega
    have hsmall : bitShift < 64 := by
      omega
    rcases leftMove_spec lay a out hsmall hn.symm hlt with ⟨x, hx, hholds⟩
    rcases clearLow_spec x hlt with ⟨y, hy, hlow⟩
    have hrun : leftShiftTo lay out a shift =
        (clearHigh (blockShift + n + if bitShift ≠ 0 then 1 else 0) y).bind
          fun z => some z.sanitize := by
      simp [leftShiftTo, hbig, hblock, hbit, hn, not_le.2 hlt, hx, hy]
    -- One more block is written when the amount is not a number of blocks.
    have hbits : bitShift ≤ 64 * if bitShift ≠ 0 then 1 else 0 := by
      split_ifs <;> omega
    generalize (if bitShift ≠ 0 then 1 else 0) = extra at hholds hrun hbits
    rcases clearHigh_spec y (blockShift + n + extra) with ⟨z, hz, hhigh⟩
    refine ⟨z.sanitize, by rw [hrun, hz, Option.bind_some], num_sanitize_of_blocks z fun j hj => ?_⟩
    rw [hshift, Nat.pow_add, ← Nat.mul_assoc, hhigh j, hlow j]
    split_ifs with habove hbelow
    · -- Above the operand, which has been moved as a whole.
      have hsmall : (a.get out).num * 2 ^ bitShift < 2 ^ (64 * (j - blockShift)) := by
        calc (a.get out).num * 2 ^ bitShift
            < 2 ^ (64 * A.blockSize) * 2 ^ bitShift :=
              Nat.mul_lt_mul_of_pos_right (a.get out).num_lt (Nat.two_pow_pos _)
          _ = 2 ^ (64 * A.blockSize + bitShift) := (Nat.pow_add _ _ _).symm
          _ ≤ 2 ^ (64 * (j - blockShift)) := Nat.pow_le_pow_right Nat.two_pos (by omega)
      rw [blockOf_shift _ (by omega), blockOf_of_lt _ hsmall]
    · rw [blockOf_shift_of_lt _ hbelow]
    · rw [blockOf_shift _ (by omega)]
      exact hholds j (by omega) (by omega) hj

section Right

variable {a : Operand R A} {out : ArrayUint R} {blockShift bitShift n : Nat}

theorem blockOf_div (m j : Nat) :
    blockOf (m / 2 ^ (64 * blockShift + bitShift)) j =
      m / 2 ^ (64 * (j + blockShift) + bitShift) % 2 ^ 64 := by
  have hpow : 2 ^ (64 * blockShift + bitShift) * 2 ^ (64 * j) =
      2 ^ (64 * (j + blockShift) + bitShift) := by
    rw [← Nat.pow_add]
    congr 1
    omega
  rw [blockOf, Nat.div_div_eq_div_mul, hpow]

/-- A pass reads at or above the block that it writes, and not past the end of the operand. -/
theorem rightPass_spec {y : ArrayUint R} {k m : Nat} (hbit : bitShift < 64)
    (hA : k + blockShift < A.blockSize) (hR : k < R.blockSize) (hm : m = (a.get out).num)
    (hmoved : ∀ j, y.block j =
      if j < k then blockOf (m / 2 ^ (64 * blockShift + bitShift)) j else out.block j) :
    ∃ z, rightPass a blockShift bitShift k y = some z ∧ ∀ j, z.block j =
      if j < k + 1 then blockOf (m / 2 ^ (64 * blockShift + bitShift)) j else out.block j := by
  have hkeep : ∀ i, k ≤ i → (a.get y).block i = (a.get out).block i := fun i hi =>
    a.get_block (by rw [hmoved i, if_neg (by omega)])
  rcases a.load_of_lt y hA with ⟨cur, hload, hcur⟩
  rw [hkeep _ (Nat.le_add_right _ _)] at hcur
  -- The bits from the block above; there is none above the highest.
  have hhigh : ∃ above : U64, above.toNat = (a.get out).block (k + blockShift + 1) ∧
      rightPass a blockShift bitShift k y =
        y.store k ((cur >>> bitShift) ||| (above <<< (64 - bitShift))) := by
    by_cases hmore : k + blockShift + 1 < A.blockSize
    · rcases a.load_of_lt y hmore with ⟨above, hload', habove⟩
      rw [hkeep _ (by omega)] at habove
      exact ⟨above, habove, by simp [rightPass, hload, hmore, hload']⟩
    · refine ⟨0, by rw [block_of_le _ _ (not_lt.1 hmore)]; rfl, ?_⟩
      simp [rightPass, hload, hmore]
  rcases hhigh with ⟨above, habove, hrun⟩
  rcases y.store_spec hR ((cur >>> bitShift) ||| (above <<< (64 - bitShift))) with ⟨z, hz, hblock⟩
  have hblock' : ((cur >>> bitShift) ||| (above <<< (64 - bitShift))).toNat =
      blockOf (m / 2 ^ (64 * blockShift + bitShift)) k := by
    rw [hm, blockOf_div]
    exact Limbs.limb_shiftRight hbit.le hcur habove
  refine ⟨z, hrun.trans hz, fun j => ?_⟩
  rw [hblock j, hmoved j, hblock']
  split_ifs with hj <;> first | rfl | omega | rw [hj]

theorem rightMove_spec (a : Operand R A) (out : ArrayUint R) (hbit : bitShift < 64)
    (hA : n + blockShift ≤ A.blockSize) (hR : n ≤ R.blockSize) :
    ∃ y, rightMove a blockShift bitShift n out = some y ∧
      ∀ j, j < n → y.block j = blockOf ((a.get out).num / 2 ^ (64 * blockShift + bitShift)) j := by
  by_cases hzero : bitShift = 0
  · rw [rightMove, if_pos hzero, hzero]
    by_cases hn : n > 0
    · rcases copy_move_spec a out blockShift n 0 (by omega) (by omega)
        (.inr (Nat.zero_le _)) with ⟨y, hy, hblock⟩
      refine ⟨y, by rw [if_pos hn, hy], fun j hj => ?_⟩
      rw [hblock j, if_pos (by omega), Nat.sub_zero, blockOf_div, block_eq, Nat.add_zero,
        Nat.add_comm]
    · exact ⟨out, if_neg hn, fun j hj => by omega⟩
  · rw [rightMove, if_neg hzero]
    have hrule := up_rule (f := rightPass a blockShift bitShift)
      (I := fun k y => ∀ j, y.block j = if j < k then
        blockOf ((a.get out).num / 2 ^ (64 * blockShift + bitShift)) j else out.block j)
      (n := n) (i := 0) (s := out) (fun j => by rw [if_neg (Nat.not_lt_zero j)])
      (fun k y _ hk hI => rightPass_spec hbit (by omega) (by omega) rfl hI)
    rw [Nat.zero_add] at hrule
    rcases hrule with ⟨y, hy, hblock⟩
    exact ⟨y, hy, fun j hj => by rw [hblock j, if_pos hj]⟩

end Right

/-- What the right shift leaves, be the operand canonical or not: an amount from the width of the
operand on gives zero, whatever bits there are above the width. -/
theorem rightShiftTo_spec (out : ArrayUint R) (a : Operand R A) (shift : U64) :
    ∃ r, rightShiftTo out a shift = some r ∧
      r.num = if A.bits ≤ shift.toNat then 0 else
        (a.get out).num / 2 ^ shift.toNat % 2 ^ R.bits := by
  by_cases hbig : shift.toNat ≥ A.bits
  · rcases fill_all_spec out with ⟨y, hy, hzero⟩
    exact ⟨y, by rw [rightShiftTo, if_pos hbig, hy], by rw [if_pos hbig, hzero]⟩
  · generalize hblock : shift.toNat / 64 = blockShift
    generalize hbit : shift.toNat % 64 = bitShift
    generalize hn : min (A.blockSize - blockShift) R.blockSize = n
    have hshift : shift.toNat = 64 * blockShift + bitShift := by omega
    have hlt : blockShift < A.blockSize := by
      have hle := A.bits_le
      omega
    have hsmall : bitShift < 64 := by
      omega
    have hroom : n + blockShift ≤ A.blockSize := by
      omega
    rcases rightMove_spec a out hsmall hroom (by omega) with ⟨x, hx, hmoved⟩
    rcases clearHigh_spec x n with ⟨z, hz, hhigh⟩
    have hrun : rightShiftTo out a shift =
        (clearHigh n x).bind fun z => some z.sanitize := by
      simp [rightShiftTo, hbig, hblock, hbit, hn, hx]
    refine ⟨z.sanitize, by rw [hrun, hz, Option.bind_some], ?_⟩
    rw [if_neg hbig]
    refine num_sanitize_of_blocks z fun j hj => ?_
    rw [hshift, hhigh j]
    split_ifs with habove
    · -- Above the operand.
      have hsmall : (a.get out).num / 2 ^ (64 * blockShift + bitShift) < 2 ^ (64 * j) := by
        rw [Nat.div_lt_iff_lt_mul (Nat.two_pow_pos _), ← Nat.pow_add]
        exact (a.get out).num_lt.trans_le (Nat.pow_le_pow_right Nat.two_pos (by omega))
      rw [blockOf_of_lt _ hsmall]
    · exact hmoved j (by omega)

/-- **The right shift.**  For every source and result width and every amount, with another array
for the result or in place, the result holds `a / 2 ^ shift` as far as it fits; no block outside
the arrays is read. -/
theorem rightShiftTo_correct (out : ArrayUint R) (a : Operand R A) (shift : U64)
    (ha : (a.get out).Canonical) :
    ∃ r, rightShiftTo out a shift = some r ∧
      r.num = (a.get out).num / 2 ^ shift.toNat % 2 ^ R.bits := by
  rcases rightShiftTo_spec out a shift with ⟨r, hr, hnum⟩
  refine ⟨r, hr, hnum.trans ?_⟩
  split_ifs with hbig
  · -- A canonical operand has no bit there.
    have hsmall : (a.get out).num < 2 ^ shift.toNat :=
      (canonical_iff.1 ha).trans_le (Nat.pow_le_pow_right Nat.two_pos hbig)
    rw [Nat.div_eq_of_lt hsmall, Nat.zero_mod]
  · rfl

/-- In place, by an amount that is not a number of blocks. -/
theorem rightShiftTo_correct_inPlace :
    ∃ x r : ArrayUint ⟨100, by decide⟩, x.Canonical ∧ shiftRightAssign x 66 = some r ∧
      r.num = x.num / 2 ^ 66 % 2 ^ 100 := by
  let x : ArrayUint ⟨100, by decide⟩ := ⟨[0xFFFFFFFFFFFFFFFE, 0xFFFFFFFFF], rfl⟩
  have hx : x.Canonical := canonical_iff.2 (by decide)
  rcases rightShiftTo_correct x .same 66 hx with ⟨r, hr, hnum⟩
  exact ⟨x, r, hx, hr, hnum⟩

end ArrayUint
end Struct
end Chenc
