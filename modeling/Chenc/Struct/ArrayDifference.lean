import Chenc.Struct.ArraySum

/-!
# ArrayDifference — what the subtraction kernel computes

* `SubInv` : the low blocks of the result make up the difference of the low blocks, but for the
  borrow;
* `subTo_spec` : the kernel subtracts the blocks of `b` that `a` and the result have too;
* `subTo_correct_iff`, `difference_iff` : the operands for which this is their difference, for the
  kernel and for the operators.
-/

namespace Chenc
namespace Struct
namespace ArrayUint

open CountedLoop (up up_rule)

variable {w v A B R : Width}

/-! ## The loops -/

/-- Before the pass over block `i`: the blocks of `a` below it, less `β`, in the result and the
borrow; the blocks from `i` on as they were. -/
structure SubInv (a β : Nat) (out₀ : ArrayUint R) (i : Nat) (out : ArrayUint R) (borrow : U64) :
    Prop where
  difference : out.num % 2 ^ (64 * i) + β = a % 2 ^ (64 * i) + 2 ^ (64 * i) * borrow.toNat
  borrow_le : borrow.toNat ≤ 1
  rest (j : Nat) : i ≤ j → out.block j = out₀.block j

theorem borrow_le_one (p : Prop) [Decidable p] : (if p then (1 : U64) else 0).toNat ≤ 1 := by
  split_ifs <;> decide

/-- A block less another one and the borrow, with the next borrow. -/
theorem wide_difference {x y borrow : U64} (h : borrow.toNat ≤ 1) :
    ((x.setWidth 128 - (y.setWidth 128 + borrow.setWidth 128) : U128).setWidth 64).toNat +
      (y.toNat + borrow.toNat) = x.toNat + 2 ^ 64 *
        (if (x.setWidth 128 : U128) < y.setWidth 128 + borrow.setWidth 128 then (1 : U64)
          else 0).toNat := by
  have hx := x.isLt
  have hy := y.isLt
  have hsum : (y.setWidth 128 + borrow.setWidth 128 : U128).toNat = y.toNat + borrow.toNat := by
    simp only [BitVec.toNat_add, BitVec.toNat_setWidth]
    omega
  have hwide : (x.setWidth 128 : U128).toNat = x.toNat := by
    rw [BitVec.toNat_setWidth]
    omega
  rw [BitVec.toNat_setWidth 64, BitVec.toNat_sub, hsum, hwide]
  split_ifs with hlt
  · rw [BitVec.lt_def, hsum, hwide] at hlt
    have hone : (1 : U64).toNat = 1 := rfl
    omega
  · rw [BitVec.lt_def, hsum, hwide] at hlt
    have hzero : (0 : U64).toNat = 0 := rfl
    omega

/-- A block less the borrow, with the next borrow. -/
theorem block_difference {x borrow : U64} (h : borrow.toNat = 1) :
    (x - borrow).toNat + 1 = x.toNat + 2 ^ 64 * (if x < borrow then (1 : U64) else 0).toNat := by
  have hx := x.isLt
  rw [BitVec.toNat_sub, h]
  split_ifs with hlt
  · rw [BitVec.lt_def, h] at hlt
    have hone : (1 : U64).toNat = 1 := rfl
    omega
  · rw [BitVec.lt_def, h] at hlt
    have hzero : (0 : U64).toNat = 0 := rfl
    omega

theorem borrow_eq_one {borrow : U64} (hle : borrow.toNat ≤ 1) (h : borrow ≠ 0#64) :
    borrow.toNat = 1 := by
  have hne : borrow.toNat ≠ 0 := fun hnat => h (BitVec.eq_of_toNat_eq hnat)
  omega

theorem SubInv.pass {a : Operand R A} {b : Operand R B} {out₀ out : ArrayUint R} {i : Nat}
    {borrow : U64}
    (h : SubInv (a.get out₀).num ((b.get out₀).num % 2 ^ (64 * i)) out₀ i out borrow)
    (hA : i < A.blockSize) (hB : i < B.blockSize) (hR : i < R.blockSize) :
    ∃ st, subPass a b i (out, borrow) = some st ∧
      SubInv (a.get out₀).num ((b.get out₀).num % 2 ^ (64 * (i + 1))) out₀ (i + 1) st.1 st.2 := by
  rcases a.load_of_lt out hA with ⟨x, hx, hxnum⟩
  rcases b.load_of_lt out hB with ⟨y, hy, hynum⟩
  have hwide := wide_difference (x := x) (y := y) h.borrow_le
  set valA : U128 := x.setWidth 128 with hvalA
  set valB : U128 := y.setWidth 128 + borrow.setWidth 128 with hvalB
  rcases out.store_spec hR ((valA - valB).setWidth 64) with ⟨out', hout', hblock⟩
  refine ⟨(out', if valA < valB then 1 else 0), ?_, ?_, ?_, ?_⟩
  · simp [subPass, hx, hy, ← hvalA, ← hvalB, hout']
  · rw [a.get_block (h.rest i le_rfl)] at hxnum
    rw [b.get_block (h.rest i le_rfl)] at hynum
    have hdiff := h.difference
    have hscale : 2 ^ (64 * i) * ((valA - valB).setWidth 64).toNat +
        (2 ^ (64 * i) * y.toNat + 2 ^ (64 * i) * borrow.toNat) = 2 ^ (64 * i) * x.toNat +
          2 ^ (64 * (i + 1)) * (if valA < valB then (1 : U64) else 0).toNat := by
      rw [pow_succ_block, Nat.mul_assoc, ← Nat.mul_add, ← Nat.mul_add, ← Nat.mul_add, hwide]
    show out'.num % 2 ^ (64 * (i + 1)) + (b.get out₀).num % 2 ^ (64 * (i + 1)) =
      (a.get out₀).num % 2 ^ (64 * (i + 1)) +
        2 ^ (64 * (i + 1)) * (if valA < valB then (1 : U64) else 0).toNat
    rw [num_mod_succ_of_store hblock, num_mod_succ, num_mod_succ, ← hxnum, ← hynum]
    omega
  · exact borrow_le_one _
  · intro j hj
    rw [hblock j, if_neg (by omega)]
    exact h.rest j (by omega)

/-- A pass over a block that only `a` has. -/
theorem SubInv.longer {a : Operand R A} {β : Nat} {out₀ out : ArrayUint R} {i limit : Nat}
    {borrow : U64} (h : SubInv (a.get out₀).num β out₀ i out borrow) (hi : i < limit)
    (hA : limit ≤ A.blockSize) (hR : limit ≤ R.blockSize) :
    (∃ st, subLonger limit a (i, out, borrow) = some (.ret st) ∧ st.1 = limit ∧
      SubInv (a.get out₀).num β out₀ limit st.2.1 st.2.2) ∨
    ∃ st, subLonger limit a (i, out, borrow) = some (.next st) ∧ st.1 = i + 1 ∧
      SubInv (a.get out₀).num β out₀ (i + 1) st.2.1 st.2.2 := by
  by_cases hzero : borrow = 0#64
  · -- No borrow: the rest of `a` is copied, and the difference does not change any more.
    subst hzero
    rcases copy_spec a out (i := i) (n := limit - i) (by omega) (by omega) with ⟨y, hy, hblock⟩
    refine .inl ⟨(limit, y, 0), by simp [subLonger, hy], rfl, ?_, Nat.zero_le 1, ?_⟩
    · have hlow : y.num % 2 ^ (64 * i) = out.num % 2 ^ (64 * i) :=
        num_mod_congr fun j hj => by rw [hblock j, if_neg (by omega)]
      have hhigh := num_mod_add (x := y) (z := a.get out₀) hi.le fun j hij hj => by
        rw [hblock j, if_pos (by omega)]
        exact a.get_block (h.rest j hij)
      have hdiff := h.difference
      have hnone : (0#64).toNat = 0 := rfl
      show y.num % 2 ^ (64 * limit) + β =
        (a.get out₀).num % 2 ^ (64 * limit) + 2 ^ (64 * limit) * (0#64).toNat
      rw [hnone, Nat.mul_zero, Nat.add_zero] at hdiff ⊢
      omega
    · intro j hj
      rw [hblock j, if_neg (by omega)]
      exact h.rest j (by omega)
  · -- The borrow is taken from block `i`, and may go on.
    have hone : borrow.toNat = 1 := borrow_eq_one h.borrow_le hzero
    rcases a.load_of_lt out (i := i) (by omega) with ⟨x, hx, hxnum⟩
    rcases out.store_spec (i := i) (by omega) (x - borrow) with ⟨out', hout', hblock⟩
    refine .inr ⟨(i + 1, out', if x < borrow then 1 else 0), ?_, rfl, ?_, ?_, ?_⟩
    · rw [subLonger, if_neg (show ¬ borrow = 0 from hzero)]
      simp [hx, hout']
    · rw [a.get_block (h.rest i le_rfl)] at hxnum
      have hdiff := h.difference
      have hscale : 2 ^ (64 * i) * (x - borrow).toNat + 2 ^ (64 * i) = 2 ^ (64 * i) * x.toNat +
          2 ^ (64 * (i + 1)) * (if x < borrow then (1 : U64) else 0).toNat := by
        rw [pow_succ_block, Nat.mul_assoc, ← Nat.mul_succ, ← Nat.mul_add,
          ← block_difference hone]
      rw [hone, Nat.mul_one] at hdiff
      show out'.num % 2 ^ (64 * (i + 1)) + β = (a.get out₀).num % 2 ^ (64 * (i + 1)) +
        2 ^ (64 * (i + 1)) * (if x < borrow then (1 : U64) else 0).toNat
      rw [num_mod_succ_of_store hblock, num_mod_succ, ← hxnum]
      omega
    · exact borrow_le_one _
    · intro j hj
      rw [hblock j, if_neg (by omega)]
      exact h.rest j (by omega)

/-- The loop over the blocks that only `a` has. -/
theorem SubInv.loop {a : Operand R A} {β : Nat} {out₀ out : ArrayUint R} {i limit : Nat}
    {borrow : U64} (h : SubInv (a.get out₀).num β out₀ i out borrow) (hi : i ≤ limit)
    (hA : limit ≤ A.blockSize) (hR : limit ≤ R.blockSize) :
    ∃ st, WhileLoop.run (fun st => st.1 < limit) (subLonger limit a) (limit - i)
        (i, out, borrow) = some st ∧
      st.1 = limit ∧ SubInv (a.get out₀).num β out₀ limit st.2.1 st.2.2 := by
  refine WhileLoop.run_rule (m := fun st => limit - st.1)
    (I := fun st => st.1 ≤ limit ∧ SubInv (a.get out₀).num β out₀ st.1 st.2.1 st.2.2)
    (fun st hst => by omega) ?_ ?_ ⟨hi, h⟩ le_rfl
  · rintro st ⟨hle, hinv⟩ hend
    have hst : st.1 = limit := by omega
    exact ⟨hst, hst ▸ hinv⟩
  · rintro ⟨i, out, borrow⟩ ⟨-, hinv⟩ hlt
    rcases hinv.longer hlt hA hR with ⟨st, hst, hq⟩ | ⟨st, hst, hnext, hinv'⟩
    · exact .inl ⟨st, hst, hq⟩
    · have hlt' : i < limit := hlt
      exact .inr ⟨st, hst, ⟨by omega, hnext ▸ hinv'⟩, by omega⟩

/-- Above the last block of `a` the result is filled with zeros, or with ones. -/
theorem SubInv.fill {a β : Nat} {out₀ out : ArrayUint R} {i : Nat} {borrow : U64}
    (h : SubInv a β out₀ i out borrow) (hi : i ≤ R.blockSize)
    (ha : i < R.blockSize → a % 2 ^ (64 * i) = a) :
    ∃ y, subFill i out borrow = some y ∧ y.num + β ≡ a [MOD 2 ^ R.bits] := by
  have hdiff := h.difference
  have hdvd : 2 ^ R.bits ∣ 2 ^ (64 * R.blockSize) := Nat.pow_dvd_pow 2 R.bits_le
  rcases Nat.lt_or_ge i R.blockSize with hlt | hge
  · rw [ha hlt] at hdiff
    by_cases hzero : borrow = 0#64
    · -- The difference is not negative: its high blocks are zero.
      rcases out.fill_spec hi le_rfl 0#64 with ⟨y, hy, hblock⟩
      refine ⟨y, by simp [subFill, hlt, hzero, hy], ?_⟩
      have hborrow : borrow.toNat = 0 := by
        rw [hzero]
        rfl
      rw [hborrow, Nat.mul_zero, Nat.add_zero] at hdiff
      rw [num_of_filled_zeros hi hblock, hdiff]
    · -- It is negative: its high blocks are all ones, as in two's complement.
      have hone : borrow.toNat = 1 := borrow_eq_one h.borrow_le hzero
      rcases out.fill_spec hi le_rfl (-1#64) with ⟨y, hy, hblock⟩
      refine ⟨y, (if_pos hlt).trans ((if_neg hzero).trans hy), ?_⟩
      have hhigh := num_of_filled_ones hi hblock
      rw [hone, Nat.mul_one] at hdiff
      have hsum : y.num + β = a + 2 ^ (64 * R.blockSize) := by omega
      rw [hsum]
      exact (Nat.modEq_zero_iff_dvd.2 hdvd).add_left a
  · -- There is nothing to fill, and the borrow does not matter modulo the width.
    refine ⟨out, by simp [subFill, not_lt.2 hge], ?_⟩
    have hiR : i = R.blockSize := le_antisymm hi hge
    subst hiR
    rw [num_mod_of_le out _ le_rfl] at hdiff
    rw [hdiff]
    have hmod : a % 2 ^ (64 * R.blockSize) ≡ a [MOD 2 ^ R.bits] :=
      (Nat.mod_modEq a _).of_dvd hdvd
    have hcarry : 2 ^ (64 * R.blockSize) * borrow.toNat ≡ 0 [MOD 2 ^ R.bits] :=
      Nat.modEq_zero_iff_dvd.2 (hdvd.mul_right _)
    exact hmod.add hcarry

/-! ## The kernel -/

/-- What is above the common blocks: the rest of `a`, and the fill. -/
theorem SubInv.finish {a : Operand R A} {β : Nat} {out₀ out : ArrayUint R} {m : Nat} {borrow : U64}
    (h : SubInv (a.get out₀).num β out₀ m out borrow) (hA : m ≤ A.blockSize)
    (hR : m ≤ R.blockSize) :
    ∃ y, subRest a m out borrow = some y ∧ y.num + β ≡ (a.get out₀).num [MOD 2 ^ R.bits] := by
  by_cases hmR : R.blockSize > m
  · by_cases hmA : A.blockSize > m
    · -- The loop over the rest of `a` comes first.
      have hle : m ≤ min R.blockSize A.blockSize := by omega
      rcases h.loop hle (min_le_right _ _) (min_le_left _ _) with ⟨st, hst, hlimit, hinv⟩
      rcases hinv.fill (by omega) fun hlt => num_mod_of_le _ _ (by omega) with ⟨y, hy, hmod⟩
      refine ⟨y, ?_, hmod⟩
      rw [← hlimit] at hy
      rw [subRest, if_pos hmR, if_pos hmA]
      show (WhileLoop.run _ _ _ _).bind _ = _
      rw [hst]
      exact hy
    · rcases h.fill hR fun _ => num_mod_of_le _ _ (by omega) with ⟨y, hy, hmod⟩
      exact ⟨y, by rw [subRest, if_pos hmR, if_neg hmA, hy], hmod⟩
  · rcases h.fill hR fun hlt => absurd hlt hmR with ⟨y, hy, hmod⟩
    rw [subFill, if_neg hmR] at hy
    exact ⟨y, by rw [subRest, if_neg hmR, hy], hmod⟩

/-- The kernel subtracts the blocks of `b` that `a` and the result have too. -/
theorem subTo_spec (out : ArrayUint R) (a : Operand R A) (b : Operand R B) :
    ∃ r, subTo out a b = some r ∧ r.num < 2 ^ R.bits ∧
      r.num + (b.get out).num % 2 ^ (64 * min R.blockSize (min A.blockSize B.blockSize)) ≡
        (a.get out).num [MOD 2 ^ R.bits] := by
  set m := min R.blockSize (min A.blockSize B.blockSize) with hm
  have hloop := up_rule (f := subPass a b)
    (I := fun i st => SubInv (a.get out).num ((b.get out).num % 2 ^ (64 * i)) out i st.1 st.2)
    (n := m) (i := 0) (s := (out, 0#64))
    ⟨by simp [Nat.mod_one], Nat.zero_le 1, fun _ _ => rfl⟩
    (fun j st _ hj hI => hI.pass (by omega) (by omega) (by omega))
  rw [Nat.zero_add] at hloop
  rcases hloop with ⟨⟨out', borrow⟩, hrun, hinv⟩
  rcases hinv.finish (by omega) (by omega) with ⟨y, hy, hmod⟩
  refine ⟨y.sanitize, ?_, num_sanitize_lt y, ?_⟩
  · simp [subTo, ← hm, hrun, hy]
  · have hsan : y.sanitize.num ≡ y.num [MOD 2 ^ R.bits] := by
      rw [num_sanitize]
      exact Nat.mod_modEq _ _
    exact (hsan.add_right _).trans hmod

/-! ## When it is the difference -/

/-- `out` receives the difference of the operands modulo `2` to its width. -/
def Subtracts (a b : Nat) (r : Option (ArrayUint R)) : Prop :=
  ∃ x, r = some x ∧ (x.num : Int) = ((a : Int) - b) % 2 ^ R.bits

/-- A residue is the difference of two numbers if adding one gives the other. -/
theorem eq_sub_emod_iff {r a b n : Nat} (hr : r < n) :
    (r : Int) = ((a : Int) - b) % n ↔ r + b ≡ a [MOD n] := by
  have hself : (r : Int) % n = r := Int.emod_eq_of_lt (by omega) (by exact_mod_cast hr)
  rw [← Int.natCast_modEq_iff, Nat.cast_add]
  constructor
  · intro h
    have hmod : (r : Int) ≡ (a : Int) - b [ZMOD n] := by
      rw [Int.ModEq, hself, h]
    simpa using hmod.add_right (b : Int)
  · intro h
    have hmod : (r : Int) ≡ (a : Int) - b [ZMOD n] := by
      simpa using h.sub_right (b : Int)
    rw [← hself]
    exact hmod

theorem subTo_correct_iff (out : ArrayUint R) (a : Operand R A) (b : Operand R B) :
    Subtracts (a.get out).num (b.get out).num (subTo out a b) ↔
      Clear (b.get out).num (64 * A.blockSize) R.bits := by
  rcases subTo_spec out a b with ⟨r, hr, hlt, hmod⟩
  set m := min R.blockSize (min A.blockSize B.blockSize) with hm
  have hsub : Subtracts (a.get out).num (b.get out).num (subTo out a b) ↔
      (b.get out).num ≡ (b.get out).num % 2 ^ (64 * m) [MOD 2 ^ R.bits] := by
    have hval : Subtracts (a.get out).num (b.get out).num (subTo out a b) ↔
        (r.num : Int) = (((a.get out).num : Int) - (b.get out).num) % 2 ^ R.bits := by
      rw [Subtracts, hr]
      simp
    have hcast : ((2 ^ R.bits : Nat) : Int) = 2 ^ R.bits := by push_cast; rfl
    rw [hval, ← hcast, eq_sub_emod_iff hlt]
    constructor
    · intro h
      exact (h.trans hmod.symm).add_left_cancel' r.num
    · intro h
      exact (h.add_left r.num).trans hmod
  have hclear : (b.get out).num ≡ (b.get out).num % 2 ^ (64 * m) [MOD 2 ^ R.bits] ↔
      Clear (b.get out).num (64 * m) R.bits := by
    have hdvd := Nat.modEq_iff_dvd' (n := 2 ^ R.bits) (Nat.mod_le (b.get out).num (2 ^ (64 * m)))
    have hrest : (b.get out).num - (b.get out).num % 2 ^ (64 * m) =
        2 ^ (64 * m) * ((b.get out).num / 2 ^ (64 * m)) := by
      have hdiv := Nat.mod_add_div (b.get out).num (2 ^ (64 * m))
      omega
    rw [hrest] at hdvd
    rw [clear_iff, ← hdvd]
    exact ⟨Nat.ModEq.symm, Nat.ModEq.symm⟩
  have hR := R.bits_le
  rw [hsub, hclear]
  rcases Nat.lt_or_ge m (min R.blockSize A.blockSize) with hB | hge
  · -- `b` has no further block.
    have hnum : (b.get out).num < 2 ^ (64 * m) := by
      have hmB : m = B.blockSize := by omega
      rw [hmB]
      exact num_lt _
    have hmono : 2 ^ (64 * m) ≤ 2 ^ (64 * A.blockSize) :=
      Nat.pow_le_pow_right Nat.two_pos (by omega)
    exact ⟨fun _ => clear_of_lt (hnum.trans_le hmono), fun _ => clear_of_lt hnum⟩
  · rcases Nat.le_total R.blockSize A.blockSize with hle | hle
    · -- The result has no block that `a` does not have.
      exact ⟨fun _ => clear_of_le (by omega), fun _ => clear_of_le (by omega)⟩
    · have hmA : m = A.blockSize := by omega
      rw [hmA]

/-- **Subtraction.**  The kernel, and with it `-` and `-=`, computes the difference modulo `2` to
the width of the result if and only if no bit of `b` within that width is set in a block that `a`
does not have; so `-=` and `--` always do. -/
theorem difference_iff (out : ArrayUint R) (a : Operand R A) (b : Operand R B) (x : ArrayUint w)
    (y : ArrayUint v) (z : Operand w v) :
    (Subtracts (a.get out).num (b.get out).num (subTo out a b) ↔
      Clear (b.get out).num (64 * A.blockSize) R.bits) ∧
    (Subtracts x.num y.num (sub x y) ↔ Clear y.num (64 * w.blockSize) (max w.bits v.bits)) ∧
    Subtracts x.num (z.get x).num (subAssign x z) ∧
    Subtracts x.num 1 (preDecrement x) ∧
    Subtracts x.num 1 ((postDecrement x).map Prod.snd) := by
  have hown : ∀ n : Nat, Clear n (64 * w.blockSize) w.bits := fun _ => clear_of_le w.bits_le
  refine ⟨subTo_correct_iff out a b, subTo_correct_iff zero (.other x) (.other y),
    (subTo_correct_iff x .same z).2 (hown _), ?_⟩
  rcases one_spec with ⟨one, hone, hnum⟩
  have hin := (subTo_correct_iff x .same (.other one)).2 (hown _)
  have hout := (subTo_correct_iff (zero : ArrayUint w) (.other x) (.other one)).2 (hown _)
  simp only [Operand.get, hnum] at hin hout
  constructor
  · have hpre : preDecrement x = subTo x .same (.other one) := by
      simp [preDecrement, hone]
    rwa [hpre]
  · have hpost : (postDecrement x).map Prod.snd = subTo zero (.other x) (.other one) := by
      simp [postDecrement, hone]
    rwa [hpost]

/-- `0 - 2 ^ 64`, from 64 bits and 128 bits: the kernel returns `0`. -/
theorem subTo_drops_blocks :
    ¬ ∀ (A B R : Width) (out : ArrayUint R) (a : ArrayUint A) (b : ArrayUint B),
      a.Canonical → b.Canonical → Subtracts a.num b.num (subTo out (.other a) (.other b)) := by
  intro hall
  let a : ArrayUint Width.w64 := ⟨[0], rfl⟩
  let b : ArrayUint Width.w128 := ⟨[0, 1], rfl⟩
  have ha : a.Canonical := canonical_iff.2 (by decide)
  have hb : b.Canonical := canonical_iff.2 (by decide)
  rcases hall Width.w64 Width.w128 Width.w128 zero a b ha hb with ⟨r, hr, hnum⟩
  have hzero : (subTo (zero : ArrayUint Width.w128) (.other a) (.other b)).map num = some 0 := by
    decide
  rw [hr, Option.map_some, Option.some.injEq] at hzero
  rw [hzero] at hnum
  exact absurd hnum (by decide)

end ArrayUint
end Struct
end Chenc
