import Mathlib.Tactic
import Mathlib.Data.List.Infix

/-!
# Filling — blocks put into a buffer of limited room

Blocks arrive in order, and each is kept if it fits the room that is left and passed over if it
does not.

* `fill room bs` : what is in the buffer at the end;
* `exists_misfit` : blocks that do not all fit have a first one that does not;
* `Overtakes` : behind the first misfit comes a block short enough for the room left;
* `stops_iff` : nothing is kept behind a misfit exactly when no block overtakes it, and then the
  buffer holds a beginning of the whole text.
-/

namespace Filling

variable {α : Type}

def fill (room : Nat) : List (List α) → List α
  | [] => []
  | b :: bs => if b.length ≤ room then b ++ fill (room - b.length) bs else fill room bs

@[simp] theorem fill_nil (room : Nat) : fill room ([] : List (List α)) = [] := rfl

theorem fill_cons_of_le {room : Nat} {b : List α} (h : b.length ≤ room) (bs : List (List α)) :
    fill room (b :: bs) = b ++ fill (room - b.length) bs :=
  if_pos h

theorem fill_cons_of_lt {room : Nat} {b : List α} (h : room < b.length) (bs : List (List α)) :
    fill room (b :: bs) = fill room bs :=
  if_neg (by omega)

theorem fill_length_le (room : Nat) (bs : List (List α)) : (fill room bs).length ≤ room := by
  induction bs generalizing room with
  | nil => exact Nat.zero_le _
  | cons b bs ih =>
      by_cases hb : b.length ≤ room
      · have hrest := ih (room - b.length)
        rw [fill_cons_of_le hb, List.length_append]
        omega
      · rw [fill_cons_of_lt (Nat.lt_of_not_le hb)]
        exact ih room

/-- Later blocks are put into the room the earlier ones leave. -/
theorem fill_append (room : Nat) (bs cs : List (List α)) :
    fill room (bs ++ cs) = fill room bs ++ fill (room - (fill room bs).length) cs := by
  induction bs generalizing room with
  | nil => rfl
  | cons b bs ih =>
      by_cases hb : b.length ≤ room
      · rw [List.cons_append, fill_cons_of_le hb, fill_cons_of_le hb, ih, List.length_append,
          List.append_assoc, Nat.sub_sub]
      · have hlt := Nat.lt_of_not_le hb
        rw [List.cons_append, fill_cons_of_lt hlt, fill_cons_of_lt hlt, ih]

/-- Nothing is kept of blocks that are all too long, and of no others unless they are empty. -/
theorem fill_eq_nil_iff {room : Nat} {bs : List (List α)} (hne : ∀ b ∈ bs, b ≠ []) :
    fill room bs = [] ↔ ∀ b ∈ bs, room < b.length := by
  induction bs with
  | nil => simp
  | cons b bs ih =>
      rcases List.forall_mem_cons.1 hne with ⟨hb, hbs⟩
      by_cases hfit : b.length ≤ room
      · rw [fill_cons_of_le hfit, List.forall_mem_cons]
        refine iff_of_false (fun hnil => hb (List.append_eq_nil_iff.1 hnil).1) ?_
        exact fun h => absurd h.1 (Nat.not_lt.2 hfit)
      · have hlt := Nat.lt_of_not_le hfit
        rw [fill_cons_of_lt hlt, List.forall_mem_cons, ih hbs]
        exact ⟨fun h => ⟨hlt, h⟩, fun h => h.2⟩

/-- The first block that does not fit. -/
theorem exists_misfit {room : Nat} {bs : List (List α)} (h : room < bs.flatten.length) :
    ∃ xs x ys, bs = xs ++ x :: ys ∧ xs.flatten.length ≤ room ∧
      room < xs.flatten.length + x.length := by
  induction bs generalizing room with
  | nil => simp at h
  | cons b bs ih =>
      rw [List.flatten_cons, List.length_append] at h
      by_cases hb : b.length ≤ room
      · have hrest : room - b.length < bs.flatten.length := by omega
        rcases ih hrest with ⟨xs, x, ys, rfl, hfit, hlt⟩
        refine ⟨b :: xs, x, ys, rfl, ?_, ?_⟩
        · rw [List.flatten_cons, List.length_append]
          omega
        · rw [List.flatten_cons, List.length_append]
          omega
      · exact ⟨[], b, bs, rfl, by simp, by simp; omega⟩

/-- Behind the first block that does not fit comes one short enough for the room left. -/
def Overtakes : Nat → List (List α) → Prop
  | _, [] => False
  | room, b :: bs =>
      if b.length ≤ room then Overtakes (room - b.length) bs else ∃ z ∈ bs, z.length ≤ room

instance decidableOvertakes : (room : Nat) → (bs : List (List α)) → Decidable (Overtakes room bs)
  | _, [] => inferInstanceAs (Decidable False)
  | room, b :: bs =>
      have := decidableOvertakes (room - b.length) bs
      inferInstanceAs (Decidable (ite _ _ _))

/-- Nothing is kept behind a block that does not fit. -/
def Stops (room : Nat) (bs : List (List α)) : Prop :=
  ∀ xs x ys, bs = xs ++ x :: ys → room < (fill room xs).length + x.length →
    fill (room - (fill room xs).length) ys = []

/-- A block that fits. -/
theorem stops_cons_of_le {room : Nat} {b : List α} {bs : List (List α)} (hb : b.length ≤ room) :
    Stops room (b :: bs) ↔ Stops (room - b.length) bs := by
  constructor
  · intro h xs x ys hbs hx
    have hstop := h (b :: xs) x ys (by rw [hbs, List.cons_append])
    rw [fill_cons_of_le hb, List.length_append, ← Nat.sub_sub] at hstop
    exact hstop (by omega)
  · intro h xs x ys hbs hx
    rcases xs with _ | ⟨y, xs⟩
    · -- The first block is no misfit.
      rcases List.cons.inj hbs with ⟨rfl, -⟩
      rw [fill_nil, List.length_nil] at hx
      omega
    · rcases List.cons.inj hbs with ⟨rfl, htail⟩
      rw [fill_cons_of_le hb, List.length_append] at hx ⊢
      rw [← Nat.sub_sub]
      exact h xs x ys htail (by omega)

/-- A block that does not. -/
theorem stops_cons_of_lt {room : Nat} {b : List α} {bs : List (List α)} (hb : room < b.length)
    (hne : ∀ c ∈ bs, c ≠ []) : Stops room (b :: bs) ↔ ∀ c ∈ bs, room < c.length := by
  constructor
  · intro h
    have hstop := h [] b bs rfl (by simpa using hb)
    rw [fill_nil, List.length_nil, Nat.sub_zero] at hstop
    exact (fill_eq_nil_iff hne).1 hstop
  · -- From the misfit on nothing fits, so the room stays what it is.
    intro h xs x ys hbs _
    rcases xs with _ | ⟨y, xs⟩
    · rcases List.cons.inj hbs with ⟨-, rfl⟩
      rw [fill_nil, List.length_nil, Nat.sub_zero]
      exact (fill_eq_nil_iff hne).2 h
    · rcases List.cons.inj hbs with ⟨rfl, rfl⟩
      have hxs : fill room xs = [] := (fill_eq_nil_iff fun c hc => hne c (by simp [hc])).2
        fun c hc => h c (by simp [hc])
      rw [fill_cons_of_lt hb, hxs, List.length_nil, Nat.sub_zero]
      exact (fill_eq_nil_iff fun c hc => hne c (by simp [hc])).2 fun c hc => h c (by simp [hc])

/-- **Filling.**  Nothing is kept behind a misfit exactly when no block overtakes it. -/
theorem stops_iff {room : Nat} {bs : List (List α)} (hne : ∀ b ∈ bs, b ≠ []) :
    Stops room bs ↔ ¬ Overtakes room bs := by
  induction bs generalizing room with
  | nil =>
      refine iff_of_true (fun xs x ys hbs => ?_) id
      simp at hbs
  | cons b bs ih =>
      rcases List.forall_mem_cons.1 hne with ⟨-, hbs⟩
      by_cases hb : b.length ≤ room
      · rw [stops_cons_of_le hb, ih hbs, Overtakes, if_pos hb]
      · rw [stops_cons_of_lt (Nat.lt_of_not_le hb) hbs, Overtakes, if_neg hb]
        simp only [not_exists, not_and, Nat.not_le]

theorem fill_isPrefix {room : Nat} {bs : List (List α)} (hne : ∀ b ∈ bs, b ≠ [])
    (h : ¬ Overtakes room bs) : fill room bs <+: bs.flatten := by
  induction bs generalizing room with
  | nil => exact List.nil_prefix
  | cons b bs ih =>
      rcases List.forall_mem_cons.1 hne with ⟨-, hbs⟩
      by_cases hb : b.length ≤ room
      · rw [Overtakes, if_pos hb] at h
        rw [fill_cons_of_le hb, List.flatten_cons, List.prefix_append_right_inj]
        exact ih hbs h
      · rw [Overtakes, if_neg hb] at h
        have hnil : fill room bs = [] := (fill_eq_nil_iff hbs).2 fun z hz =>
          Nat.lt_of_not_le fun hle => h ⟨z, hz, hle⟩
        rw [fill_cons_of_lt (Nat.lt_of_not_le hb), hnil]
        exact List.nil_prefix

end Filling
