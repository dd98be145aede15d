import Mathlib.Tactic

/-!
# Cells — reading and writing at addresses that wrap around

A memory has a cell at every address of `w` bits, and the cell behind the last one is the first.

* `write`, `read` : a list put into the cells from an address on, and read back;
* `Within`, `Apart` : the cells of a stretch, and two stretches without a common cell;
* `apart_behind`, `apart_below` : stretches that follow each other, as far as all cells go;
* `Within.below_mono`, `Within.below_below` : the stretches that end at one address;
* `read_write`, `write_of_not_within` : what is found behind a write, in its cells and elsewhere.
-/

namespace Cells

variable {w n k : Nat} {β : Type}

/-- The cells from `a` on hold `bs`, the others what they held. -/
def write (m : BitVec w → β) (a : BitVec w) (bs : List β) : BitVec w → β :=
  fun x => (bs[(x - a).toNat]?).getD (m x)

/-- What the `n` cells from `a` on hold. -/
def read (m : BitVec w → β) (a : BitVec w) (n : Nat) : List β :=
  (List.range n).map fun i => m (a + BitVec.ofNat w i)

/-- One of the `n` cells from `a` on. -/
def Within (a : BitVec w) (n : Nat) (x : BitVec w) : Prop :=
  (x - a).toNat < n

instance (a : BitVec w) (n : Nat) (x : BitVec w) : Decidable (Within a n x) :=
  inferInstanceAs (Decidable (_ < _))

/-- No cell is among both the `n` from `a` on and the `k` from `b` on. -/
def Apart (a : BitVec w) (n : Nat) (b : BitVec w) (k : Nat) : Prop :=
  ∀ x, Within a n x → ¬ Within b k x

@[simp] theorem length_read (m : BitVec w → β) (a : BitVec w) (n : Nat) :
    (read m a n).length = n := by
  simp [read]

/-! ## Stretches -/

theorem toNat_offset (a : BitVec w) {i : Nat} (hi : i < 2 ^ w) :
    (a + BitVec.ofNat w i - a).toNat = i := by
  rw [BitVec.add_comm, BitVec.add_sub_cancel, BitVec.toNat_ofNat, Nat.mod_eq_of_lt hi]

theorem within_offset (a : BitVec w) {i : Nat} (hi : i < n) (hn : n ≤ 2 ^ w) :
    Within a n (a + BitVec.ofNat w i) := by
  rw [Within, toNat_offset a (hi.trans_le hn)]
  exact hi

/-- Offsets from an address further on. -/
theorem sub_offset (a x : BitVec w) (k : Nat) :
    x - a = x - (a + BitVec.ofNat w k) + BitVec.ofNat w k := by
  rw [← BitVec.sub_sub, BitVec.sub_add_cancel]

/-- The end of a stretch is part of it. -/
theorem Within.of_offset {a x : BitVec w} (h : Within (a + BitVec.ofNat w k) n x) :
    Within a (k + n) x := by
  rw [Within, sub_offset a x k, BitVec.toNat_add, BitVec.toNat_ofNat]
  calc
    ((x - (a + BitVec.ofNat w k)).toNat + k % 2 ^ w) % 2 ^ w ≤
        (x - (a + BitVec.ofNat w k)).toNat + k % 2 ^ w := Nat.mod_le _ _
    _ ≤ (x - (a + BitVec.ofNat w k)).toNat + k := Nat.add_le_add_left (Nat.mod_le _ _) _
    _ < n + k := Nat.add_lt_add_right h k
    _ = k + n := Nat.add_comm n k

/-- The start of a stretch is part of it. -/
theorem Within.mono {a x : BitVec w} (h : Within a n x) (hk : n ≤ k) : Within a k x :=
  lt_of_lt_of_le h hk

/-- The `n` cells from `a` on and the `k` behind them. -/
theorem apart_behind (a : BitVec w) (h : n + k ≤ 2 ^ w) : Apart a n (a + BitVec.ofNat w n) k := by
  intro x hx hx'
  have hlt : (x - (a + BitVec.ofNat w n)).toNat < k := hx'
  have hn : n < 2 ^ w := by omega
  have hsub : (x - a).toNat = (x - (a + BitVec.ofNat w n)).toNat + n := by
    rw [sub_offset a x n, BitVec.toNat_add, BitVec.toNat_ofNat, Nat.mod_eq_of_lt hn,
      Nat.mod_eq_of_lt (by omega)]
  have hmem : (x - a).toNat < n := hx
  omega

/-- The `n` cells below `a` and the `k` from `a` on. -/
theorem apart_below (a : BitVec w) (h : n + k ≤ 2 ^ w) : Apart (a - BitVec.ofNat w n) n a k := by
  have hbehind := apart_behind (a - BitVec.ofNat w n) h
  rwa [BitVec.sub_add_cancel] at hbehind

/-- Of the cells below an address the nearer ones are a part. -/
theorem Within.below_mono {a x : BitVec w} (h : Within (a - BitVec.ofNat w n) n x) (hk : n ≤ k) :
    Within (a - BitVec.ofNat w k) k x := by
  have hsplit : a - BitVec.ofNat w n = a - BitVec.ofNat w k + BitVec.ofNat w (k - n) := by
    have hk' : k = n + (k - n) := by omega
    conv_rhs => rw [hk', BitVec.ofNat_add, ← BitVec.sub_sub]
    rw [Nat.add_sub_cancel_left, BitVec.sub_add_cancel]
  rw [hsplit] at h
  have hwhole := h.of_offset
  rwa [Nat.sub_add_cancel hk] at hwhole

/-- The cells below those below an address. -/
theorem Within.below_below {a x : BitVec w}
    (h : Within (a - BitVec.ofNat w k - BitVec.ofNat w n) n x) :
    Within (a - BitVec.ofNat w (k + n)) (k + n) x := by
  rw [BitVec.sub_sub, ← BitVec.ofNat_add] at h
  exact h.mono (Nat.le_add_left n k)

/-! ## Reading behind a write -/

theorem write_of_not_within (m : BitVec w → β) {a x : BitVec w} {bs : List β}
    (h : ¬ Within a bs.length x) : write m a bs x = m x := by
  rw [write, List.getElem?_eq_none (Nat.le_of_not_lt h)]
  rfl

theorem read_congr {m m' : BitVec w → β} {a : BitVec w} (hn : n ≤ 2 ^ w)
    (h : ∀ x, Within a n x → m x = m' x) : read m a n = read m' a n := by
  refine List.map_congr_left fun i hi => ?_
  exact h _ (within_offset a (List.mem_range.1 hi) hn)

theorem read_write (m : BitVec w → β) (a : BitVec w) {bs : List β} (hn : bs.length ≤ 2 ^ w) :
    read (write m a bs) a bs.length = bs := by
  refine List.ext_getElem (length_read _ _ _) fun i hi hi' => ?_
  have hcell : (read (write m a bs) a bs.length)[i] = write m a bs (a + BitVec.ofNat w i) := by
    simp [read]
  rw [hcell, write, toNat_offset a (hi'.trans_le hn), List.getElem?_eq_getElem hi']
  rfl

end Cells
