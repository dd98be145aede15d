import Chenc.Convert.Signedness
import Chenc.Convert.StrictText

/-!
# Recovery — malformed text under the error modes `skip` and `replace`

An error consumes as many units as the lead unit announces, well formed or not.

* `Scan.resync` : garbage `x` in front of a text takes with it the units that its last announced
  sequence extends past `x`, and reading goes on behind them;
* `strToStr_recovers` : what follows those units is converted.
-/

namespace Chenc
namespace Convert

open Unicode

/-! ## Reading past errors -/

section Scans

variable {o : Options} (he : o.errorMode = .skip ∨ o.errorMode = .replace) {f : Form}

include he

/-- A sequence that is there in full is an item of the announced length. -/
theorem Scan.step {u : (CharType.ofForm f).Unit} {t : List (CharType.ofForm f).Unit}
    (hlen : leadLength f u.toNat ≤ (u :: t).length) :
    ∃ i, ∀ items e, Scan o ((u :: t).drop (leadLength f u.toNat)) items e →
      Scan o (u :: t) (i :: items) e := by
  have hann := announced_ofForm u
  have hsome : (charToUtf32 o (CharType.ofForm f) (u :: t) {}).isSome :=
    charToUtf32_isSome t (.inr (by rwa [hann]))
  rcases Option.isSome_iff_exists.1 hsome with ⟨r, hr⟩
  have hreads := charToUtf32_reads hr
  have hnot : r.1 ≠ .inTruncated := by
    intro htrunc
    have hlt := hreads.truncated.1 htrunc
    omega
  rcases verdict_continues he hnot with ⟨i, hv⟩
  have hunits := (verdict_item_units hr hv).1
  rw [hann] at hunits
  exact ⟨i, fun items e hscan => .item hr hv (hunits ▸ hscan)⟩

/-- **Resynchronisation.**  Reading goes on behind the units that the last announced sequence of
`x` extends past it. -/
theorem Scan.resync (x y : List (CharType.ofForm f).Unit)
    (howed : owed f 0 (numbers x) ≤ y.length) :
    ∃ pre, ∀ items e, Scan o (y.drop (owed f 0 (numbers x))) items e →
      Scan o (x ++ y) (pre ++ items) e := by
  -- A sequence may take any number of units off `x`, so the induction is on its length.
  induction hn : x.length using Nat.strong_induction_on generalizing x with
  | _ n ih =>
      rcases x with _ | ⟨u, t⟩
      · exact ⟨[], fun items e h => h⟩
      · have hpos := leadLength_pos f u.toNat
        rw [List.length_cons] at hn
        rw [numbers_cons, owed_cons, numbers_length] at howed ⊢
        by_cases hin : leadLength f u.toNat ≤ t.length + 1
        · -- The sequence ends inside `x`.
          rw [if_pos hin, ← numbers_cons, ← numbers_drop] at howed ⊢
          have hlt : ((u :: t).drop (leadLength f u.toNat)).length < n := by
            rw [List.length_drop, List.length_cons]
            omega
          rcases ih _ hlt _ howed rfl with ⟨pre, hpre⟩
          rcases Scan.step he (u := u) (t := t ++ y)
            (by simp only [List.length_cons, List.length_append]; omega) with ⟨i, hi⟩
          refine ⟨i :: pre, fun items e hscan => hi _ e ?_⟩
          rw [← List.cons_append, List.drop_append_of_le_length (by simpa using hin)]
          exact hpre items e hscan
        · -- The sequence takes the last of `x` and the first units of `y`.
          rw [if_neg hin] at howed ⊢
          rcases Scan.step he (u := u) (t := t ++ y)
            (by simp only [List.length_cons, List.length_append]; omega) with ⟨i, hi⟩
          refine ⟨[i], fun items e hscan => hi _ e ?_⟩
          rw [← List.cons_append, List.drop_append, List.drop_of_length_le (by simp; omega),
            List.nil_append, List.length_cons]
          exact hscan

/-- Trail units on their own are read one at a time. -/
theorem Scan.trails (t y : List (CharType.ofForm f).Unit)
    (ht : ∀ u ∈ t, IsTrail f u.toNat) :
    ∃ pre, ∀ items e, Scan o y items e → Scan o (t ++ y) (pre ++ items) e := by
  induction t with
  | nil => exact ⟨[], fun items e h => h⟩
  | cons u t ih =>
      rcases List.forall_mem_cons.1 ht with ⟨hu, ht⟩
      rcases ih ht with ⟨pre, hpre⟩
      have hone := leadLength_of_isTrail hu
      rcases Scan.step he (u := u) (t := t ++ y) (by rw [hone]; simp) with ⟨i, hi⟩
      refine ⟨i :: pre, fun items e hscan => hi _ e ?_⟩
      rw [hone, List.drop_one, List.tail_cons]
      exact hpre items e hscan

end Scans

/-- **Recovery inside a text.**  From `k` units into a well-formed text on, reading meets the
characters that start behind those units. -/
theorem Scan.recover {o : Options} (ho : o.charMode = .strict)
    (he : o.errorMode = .skip ∨ o.errorMode = .replace) {f : Form} {cs ds : List Nat}
    (hcs : IsText cs) (hds : IsText ds) {k : Nat} (hk : k ≤ (encodeAll f cs).length)
    {y : List (CharType.ofForm f).Unit}
    (hy : numbers y = (encodeAll f cs).drop k ++ encodeAll f ds) :
    ∃ pre, Scan o y (pre ++ ds.map (charItem f)) .done := by
  induction cs generalizing k with
  | nil =>
      rw [encodeAll_nil, List.drop_nil, List.nil_append] at hy
      exact ⟨[], Scan.of_text ho hds hy⟩
  | cons c cs ih =>
      rcases isText_cons.1 hcs with ⟨hc, hcs'⟩
      rw [encodeAll_cons, List.length_append] at hk
      by_cases hin : (encode f c).length ≤ k
      · -- The whole sequence of `c` is taken.
        refine ih hcs' (k := k - (encode f c).length) (by omega) ?_
        rw [hy, encodeAll_cons, List.drop_append, List.drop_of_length_le hin, List.nil_append]
      · rcases k with _ | k
        · -- Nothing of what is left is taken.
          rw [List.drop_zero, ← encodeAll_append] at hy
          refine ⟨(c :: cs).map (charItem f), ?_⟩
          rw [← List.map_append]
          exact Scan.of_text ho (isText_append.2 ⟨hcs, hds⟩) hy
        · -- The lead unit of `c` is taken, what is left of its sequence are trail units.
          rcases encode_shape f hc with ⟨u, t, hut, -, -, ht⟩
          have hsplit : numbers y = t.drop k ++ encodeAll f (cs ++ ds) := by
            rw [hy, encodeAll_cons, hut, List.cons_append, List.drop_succ_cons,
              List.drop_append_of_le_length, List.append_assoc, encodeAll_append]
            rw [hut, List.length_cons] at hin
            omega
          have hlen : (t.drop k).length ≤ y.length := by
            rw [← numbers_length y, hsplit, List.length_append]
            omega
          have htrail : numbers (y.take (t.drop k).length) = t.drop k := by
            rw [numbers, List.map_take]
            exact (congrArg (List.take _) hsplit).trans List.take_left
          have hrest : numbers (y.drop (t.drop k).length) = encodeAll f (cs ++ ds) := by
            rw [numbers_drop, hsplit, List.drop_left]
          have hall : ∀ v ∈ y.take (t.drop k).length, IsTrail f v.toNat := by
            intro v hv
            have hmem : v.toNat ∈ t.drop k := htrail ▸ List.mem_map_of_mem hv
            exact ht _ (List.mem_of_mem_drop hmem)
          rcases Scan.trails he _ (y.drop (t.drop k).length) hall with ⟨pre, hpre⟩
          have hscan := hpre _ _ (Scan.of_text ho (isText_append.2 ⟨hcs', hds⟩) hrest)
          rw [List.take_append_drop, List.map_append, ← List.append_assoc] at hscan
          exact ⟨_, hscan⟩

/-! ## Garbage in front of a text -/

/-- **Recovery.**  In strict mode under `skip` and `replace`, behind any units `x` a well-formed
text is converted from the first character on that starts behind the units which the last
announced sequence of `x` extends past it.  Input types whose units are extended are left out. -/
theorem strToStr_recovers (o : Options) (In Out : CharType) (x v : List In.Unit)
    (cs ds : List Nat) (outputLen : Nat) (hIn : In.Unextended) (ho : o.charMode = .strict)
    (he : o.errorMode = .skip ∨ o.errorMode = .replace)
    (hmode : o.outMode ≠ .count) (htext : IsText (cs ++ ds))
    (hv : numbers v = encodeAll In.form (cs ++ ds))
    (howed : owed In.form 0 (numbers x) ≤ (encodeAll In.form cs).length)
    (hroom : ∀ w, completeConversion o In Out (x ++ v) = some w → w.length ≤ outputLen) :
    ∃ run : Run Out, strToStr o In Out (x ++ v) outputLen = some run ∧
      encodeAll Out.form ds <:+ numbers run.written := by
  rcases isText_append.1 htext with ⟨hcs, hds⟩
  rw [encodeAll_append] at hv
  have hlen : owed In.form 0 (numbers x) ≤ v.length := by
    rw [← numbers_length v, hv, List.length_append]
    omega
  have hrest : numbers (v.drop (owed In.form 0 (numbers x))) =
      (encodeAll In.form cs).drop (owed In.form 0 (numbers x)) ++ encodeAll In.form ds := by
    rw [numbers_drop, hv, List.drop_append_of_le_length howed]
  rcases Scan.recover ho he hcs hds howed hrest with ⟨mid, hmid⟩
  rcases Scan.resync he (f := In.form) x v hlen with ⟨pre, hpre⟩
  -- The items are those of `x`, those up to the next character of `v`, and the characters `ds`.
  have hscan : Scan o (x ++ v) (pre ++ (mid ++ ds.map (charItem In.form))) .done :=
    (scan_unextended_iff hIn).2 (hpre _ _ hmid)
  have hfit := hroom _ (completeConversion_eq hscan (by simp))
  rcases exists_written_of_room hmode hscan (by simp) hfit with ⟨run, hrun, hwritten⟩
  refine ⟨run, hrun, ?_⟩
  rw [hwritten, output_append, output_append, numbers_append, numbers_append,
    numbers_output_charItems In.form Out hds, ← List.append_assoc]
  exact List.suffix_append _ _

/-- A cut-off two-byte sequence takes the `o` of "ok" with it and leaves the `k`. -/
theorem strToStr_recovers_k :
    ∃ run : Run (CharType.ofForm .utf16),
      strToStr { defaultOpt with errorMode := .skip } (.ofForm .utf8) (.ofForm .utf16)
        ([0xC3#8] ++ [0x6F#8, 0x6B#8]) 12 = some run ∧
      encodeAll .utf16 [0x6B] <:+ numbers run.written := by
  refine strToStr_recovers _ (.ofForm .utf8) (.ofForm .utf16) [0xC3#8] [0x6F#8, 0x6B#8] [0x6F]
    [0x6B] 12 (fun _ => rfl) rfl (.inl rfl) (by decide) (by decide) (by decide) (by decide) ?_
  intro w hw
  rcases exists_scan_of_completeConversion hw with ⟨items, e, hscan, -, rfl⟩
  exact hscan.output_length_le _

/-- The same sequence in front of the text "k" swallows it. -/
theorem strToStr_swallows_k :
    ∃ run : Run (CharType.ofForm .utf8),
      strToStr { defaultOpt with errorMode := .skip } (.ofForm .utf8) (.ofForm .utf8)
        ([0xC3#8] ++ [0x6B#8]) 8 = some run ∧
      WellFormed .utf8 (numbers (T := .ofForm .utf8) [0x6B#8]) ∧
      completeConversion { defaultOpt with errorMode := .skip } (.ofForm .utf8) (.ofForm .utf8)
        ([0xC3#8] ++ [0x6B#8]) = some run.written ∧
      completeConversion defaultOpt (.ofForm .utf8) (.ofForm .utf8) [0x6B#8] = some [0x6B#8] ∧
      ¬ [0x6B#8] <:+ run.written := by
  have hrun : (strToStr { defaultOpt with errorMode := .skip } (.ofForm .utf8) (.ofForm .utf8)
      ([0xC3#8] ++ [0x6B#8]) 8).map Run.written = some [] := by decide
  have hcomplete : completeConversion { defaultOpt with errorMode := .skip } (.ofForm .utf8)
      (.ofForm .utf8) ([0xC3#8] ++ [0x6B#8]) = some [] := by decide
  have hk : completeConversion defaultOpt (.ofForm .utf8) (.ofForm .utf8) [0x6B#8] =
      some [0x6B#8] := by decide
  rcases Option.map_eq_some_iff.1 hrun with ⟨run, hrun, hwritten⟩
  refine ⟨run, hrun, ⟨[0x6B], by decide, by decide⟩, ?_, hk, ?_⟩
  · rw [hwritten, hcomplete]
  · rw [hwritten]
    decide

end Convert
end Chenc
