import Mathlib.Data.Prod.Lex
import Chenc.Thread.QueueFifo
import Chenc.Thread.QueueResources

/-!
# QueueProgress — the queue never gets stuck

From every state of a run whose migrations fit, the operations in progress can be brought to their
end.

* `Low` : no slot is numbered for a position more than a lap ahead of the tail;
* `Room` : the sizes that threads are about to grow to hold the values stored;
* `Pc.rank` : how far a thread is from the start of its next attempt;
* `proceed`, `exists_advance` : the steps of an operation in progress, one of which brings its
  thread closer;
* `Sane` : what a run keeps on the way;
* `Sane.aside`, `Sane.atCall`, `Sane.idle` : a thread gets out of the active region, then to the end
  of a migration, then home;
* `all_return` : all of them do, from any state.
-/

namespace Chenc
namespace Thread
namespace AtomicQueue

open Interleaving (Config Reachable runSchedule)
open NumberedRing (Board)
open StateTransition (Reaches)

variable {α : Type} {s s' : Shared α} {l l' : Pc α} {m N : Nat}

/-! ## Sequence numbers -/

/-- No slot of array `m`, of size `N`, is numbered for a position a lap ahead of the tail. -/
def LowArray (s : Shared α) (m N : Nat) : Prop :=
  ∀ i, i < N → (s.maps m i).sequence < s.tail + N

theorem LowArray.mono (h : LowArray s m N) (hmaps : s'.maps = s.maps) (htail : s.tail ≤ s'.tail) :
    LowArray s' m N := by
  intro i hi
  rw [hmaps]
  exact (h i hi).trans_le (Nat.add_le_add_right htail N)

theorem LowArray.setNode (h : LowArray s m N) {m' i : Nat} {x : Node α}
    (hx : m = m' → x.sequence < s.tail + N) : LowArray (s.setNode m' i x) m N := by
  intro j hj
  show ((s.setNode m' i x).maps m j).sequence < s.tail + N
  by_cases hm : m = m'
  · subst hm
    rw [Shared.setNode_maps_self]
    by_cases hji : j = i
    · subst hji
      rw [Function.update_self]
      exact hx rfl
    · rw [Function.update_of_ne hji]
      exact h j hj
  · rw [Shared.setNode_maps_of_ne _ hm]
    exact h j hj

/-- Constructing or destroying an object leaves the numbers. -/
theorem LowArray.setData (h : LowArray s m N) (w : Window) (data : Option α) :
    LowArray (s.setData w data) m N := by
  intro j hj
  show ((s.setNode w.map w.slot { s.node w with data }).maps m j).sequence < s.tail + N
  by_cases hslot : m = w.map ∧ j = w.slot
  · rcases hslot with ⟨rfl, rfl⟩
    rw [Shared.setNode_maps_self, Function.update_self]
    exact h w.slot hj
  · by_cases hm : m = w.map
    · subst hm
      rw [Shared.setNode_maps_self, Function.update_of_ne fun hj => hslot ⟨rfl, hj⟩]
      exact h j hj
    · rw [Shared.setNode_maps_of_ne _ hm]
      exact h j hj

theorem Moves.tail_le (h : Moves s l s' l') : s.tail ≤ s'.tail := by
  cases h with
  | leave e => cases e <;> exact le_rfl
  | reserveTail v w hcas => exact hcas ▸ Nat.le_succ _
  | _ => exact le_rfl

theorem Moves.head_le (h : Moves s l s' l') : s.head ≤ s'.head := by
  cases h with
  | leave e => cases e <;> exact le_rfl
  | reserveHead w hcas => exact hcas ▸ Nat.le_succ _
  | _ => exact le_rfl

/-- The array in use keeps low numbers: a thread writes into it for a position it has in hand. -/
theorem Moves.lowArray (h : Moves s l s' l') (hv : View s l) (hN : RingSize s.capacity)
    (hmap : s.kmap < s.nextMap) (hclaim : ∀ p x, l.claim = some (p, x) → p < s.tail)
    (hlow : LowArray s s.kmap s.capacity) : LowArray s' s.kmap s.capacity := by
  have htwo := hN.two_le
  cases h with
  | publish w =>
      refine hlow.setNode fun _ => ?_
      have hpos := hclaim w.pos .built rfl
      show w.pos + 1 < s.tail + s.capacity
      omega
  | release w res =>
      refine hlow.setNode fun _ => ?_
      have hpos := hclaim w.pos .emptied rfl
      have hcapa : w.capa = s.capacity := hv.1
      show w.pos + w.capa < s.tail + s.capacity
      omega
  | construct v w | destroy w res => exact hlow.setData w _
  | alloc v n oc om =>
      intro i hi
      rw [Shared.allocate_maps_of_ne s hmap.ne]
      exact hlow i hi
  | initSeq v g i hi => exact hlow.setNode fun heq => absurd heq hv.2.2.1.ne
  | transfer v g i t hi | destroyOld v g i t => exact hlow.setData _ _
  | mark v g i t => exact hlow.setNode fun heq => absurd heq hv.2.2.1.ne
  | leave e => cases e <;> exact hlow
  | reserveTail v w hcas => exact hlow.mono rfl (hcas ▸ Nat.le_succ _)
  | _ => exact hlow

/-- The array that a migration fills. -/
def LowNew (s : Shared α) : Pc α → Prop
  | .initSeq _ g _ | .loadHead _ g | .loadTail _ g _ | .transfer _ g _ _ | .destroyOld _ g _ _
  | .mark _ g _ _ | .storeMap _ g | .storeCapa _ g => LowArray s g.newMap g.newCapa
  | _ => True

theorem LowNew.of_not_migrating (h : ¬ l.migrating) : LowNew s l := by
  cases l with
  | _ => first | exact trivial | exact absurd trivial h

theorem LowNew.mono (h : LowNew s l) (hmaps : s'.maps = s.maps) (htail : s.tail ≤ s'.tail) :
    LowNew s' l := by
  cases l with
  | _ => first | exact trivial | exact LowArray.mono h hmaps htail

theorem Moves.lowNew (h : Moves s l s' l') (hsize : Sized l) (hprog : Progress s l)
    (hlow : LowNew s l) : LowNew s' l' := by
  cases h with
  | alloc v n oc om =>
      intro i hi
      rw [Shared.allocate_maps_new]
      exact Nat.lt_add_left _ (Nat.zero_lt_of_lt hi)
  | initSeq v g i hi => exact LowArray.setNode hlow fun _ => Nat.lt_add_left _ hi
  | transfer v g i t hi | destroyOld v g i t => exact LowArray.setData hlow _ _
  | mark v g i t =>
      refine LowArray.setNode hlow fun _ => ?_
      have hlt := hprog.1.lt_tail
      have htwo := RingSize.two_le hsize
      show i + 1 < s.tail + g.newCapa
      omega
  | leave e => cases e <;> exact trivial
  | _ => first | exact trivial | exact hlow

variable {ι : Type} [DecidableEq ι] {held : Nat → Option Stage} {c : Config ι (Shared α) (Pc α)}
  {t : ι}

structure Low (c : Config ι (Shared α) (Pc α)) : Prop where
  inUse : (∀ t, ¬ (c.pc t).swapped) → LowArray c.shared c.shared.kmap c.shared.capacity
  new (t : ι) : LowNew c.shared (c.pc t)

namespace Low

omit [DecidableEq ι] in
theorem start (initial : Nat) :
    Low (AtomicQueue.start ι initial : Config ι (Shared α) (Pc α)) where
  inUse _ i hi := by
    have hlt : i < bitCeil initial := hi
    show (if i < bitCeil initial then i else 0) < 0 + bitCeil initial
    rwa [if_pos hlt, Nat.zero_add]
  new _ := trivial

theorem step (h : Low c) (hi : Inv held c) (hs : Sound c) (hm : Moves c.shared (c.pc t) s' l') :
    Low (c.set t s' l') where
  inUse hnone := by
    have hview := hs.views.view t
    rcases hm.swapped with ⟨hkmap, hcapa, hl, -⟩ | ⟨v, g, -, rfl, -⟩ | ⟨v, g, hl, -, rfl⟩
    · show LowArray s' s'.kmap s'.capacity
      rw [hkmap, hcapa]
      refine hm.lowArray hview hs.size hs.views.kmap_lt (fun p x hp => ?_) (h.inUse fun u hu => ?_)
      · exact hi.ledger.lt_tail (hi.holding.held_of_claim hp)
      · by_cases hut : u = t
        · exact hl (hut ▸ hu)
        · exact hnone u (by rwa [Config.set_pc_of_ne _ _ _ _ hut])
    · exact absurd (by rw [Config.set_pc_self]; exact trivial) (hnone t)
    · -- The array that has been filled is in use with its own capacity.
      rw [hl] at hview
      have hnew : LowNew c.shared (.storeCapa v g) := hl ▸ h.new t
      have hmap : g.newMap = c.shared.kmap := hview.1
      exact hmap ▸ hnew
  new := by
    refine (Config.forall_set c t s' l').2
      ⟨hm.lowNew (hs.sized t) (hi.progress t) (h.new t), fun u hu => ?_⟩
    by_cases hmig : (c.pc u).migrating
    · -- While `u` migrates, the others are neither inside nor migrating.
      have hout := hs.gate.quiet u t hmig
      have hnot : ¬ (c.pc t).migrating := fun ht =>
        hu (hs.gate.unique (Pc.resizing_of_migrating hmig) (Pc.resizing_of_migrating ht))
      exact (h.new u).mono (hm.maps_eq hout hnot) hm.tail_le
    · exact .of_not_migrating hmig

end Low

/-! ## Sizes -/

/-- The size a thread is about to grow to. -/
def Pc.asks : Pc α → Option Nat
  | .closeGate _ n | .quiesce _ n => some n
  | _ => none

/-- Every size that a thread is about to grow to holds the values stored. -/
def Room (c : Config ι (Shared α) (Pc α)) : Prop :=
  ∀ t n, (c.pc t).asks = some n → c.shared.tail - c.shared.head ≤ bitCeil n

theorem Ledger.exists_wanted (h : Ledger s held) {p : Nat} (hhead : s.head ≤ p)
    (htail : p < s.tail) : ∃ x, wanted s held p = some x := by
  rw [wanted]
  rcases hp : held p with _ | x
  · exact ⟨_, if_pos ⟨hhead, htail⟩⟩
  · have hpush : x.pushing := by
      by_contra hnot
      exact absurd (h.popping hp hnot) hhead.not_gt
    cases x with
    | reserved | built => exact ⟨_, rfl⟩
    | _ => exact absurd hpush id

omit [DecidableEq ι] in
/-- While a thread is inside, the positions from the head to the tail have a slot each. -/
theorem Inv.stored_le (h : Inv held c) (hg : Gate c) (ht : (c.pc t).inside) :
    c.shared.tail - c.shared.head ≤ c.shared.capacity := by
  have hB := h.board_of_inside hg ht
  have htwo := hB.two_le
  by_contra hlt
  rcases h.ledger.exists_wanted (p := c.shared.head) le_rfl (by omega) with ⟨x, hx⟩
  rcases h.ledger.exists_wanted (p := c.shared.head + c.shared.capacity) (by omega) (by omega) with
    ⟨y, hy⟩
  have hlap := hB.inj hx hy (Nat.add_mod_right ..).symm
  omega

/-- Where a size that a thread asks for comes from. -/
theorem Moves.asks (h : Moves s l s' l') (hv : View s l) {n : Nat} (hn : l'.asks = some n) :
    s'.tail = s.tail ∧ s'.head = s.head ∧
      (l.asks = some n ∨ (l.inside ∧ n = s.capacity * 2)) := by
  cases h with
  | closeGate v k hstat => exact ⟨rfl, rfl, .inl hn⟩
  | stillActive v k => exact ⟨rfl, rfl, .inl hn⟩
  | leave e =>
      cases e with
      | full v capa =>
          have hcapa : capa = s.capacity := hv
          cases hn
          exact ⟨rfl, rfl, .inr ⟨trivial, by rw [hcapa]⟩⟩
      | _ => cases hn
  | _ => cases hn

/-- The sizes asked for hold the values as long as nothing is pushed, or nobody else asks. -/
theorem Room.step (h : Room c) (hi : Inv held c) (hs : Sound c)
    (hm : Moves c.shared (c.pc t) s' l')
    (hothers : s'.tail = c.shared.tail ∨ ∀ u, u ≠ t → (c.pc u).asks = none) :
    Room (c.set t s' l') := by
  intro u n hn
  show s'.tail - s'.head ≤ bitCeil n
  by_cases hut : u = t
  · subst hut
    rw [Config.set_pc_self] at hn
    rcases hm.asks (hs.views.view u) hn with ⟨htail, hhead, hasks | ⟨hin, rfl⟩⟩
    · rw [htail, hhead]
      exact h u n hasks
    · rw [htail, hhead]
      have hstored := hi.stored_le hs.gate hin
      have hceil := le_bitCeil (c.shared.capacity * 2)
      omega
  · rw [Config.set_pc_of_ne _ _ _ _ hut] at hn
    rcases hothers with htail | hnone
    · have hfits := h u n hn
      have hhead := hm.head_le
      omega
    · rw [hnone u hut] at hn
      cases hn

/-! ## What a run keeps -/

structure Sane (c : Config ι (Shared α) (Pc α)) : Prop where
  sound : Sound c
  inv : ∃ held, Inv held c
  low : Low c
  room : Room c

namespace Sane

omit [DecidableEq ι] in
theorem fits (h : Sane c) (t : ι) : Fits c.shared (c.pc t) := by
  cases hl : c.pc t with
  | quiesce v n =>
      intro _
      exact h.room t n (by rw [hl]; rfl)
  | _ => exact trivial

theorem step (h : Sane c) (hm : Moves c.shared (c.pc t) s' l')
    (hothers : s'.tail = c.shared.tail ∨ ∀ u, u ≠ t → (c.pc u).asks = none) :
    Sane (c.set t s' l') := by
  rcases h.inv with ⟨held, hi⟩
  constructor
  · exact h.sound.step hm
  · exact hi.step h.sound (h.fits t) hm
  · exact h.low.step hi h.sound hm
  · exact h.room.step hi h.sound hm hothers

end Sane

theorem sane_of_reachable {initial : Nat} (hi : 2 ≤ initial)
    (h : Reachable step Fits (start ι initial) c) (hroom : Room c) : Sane c := by
  rcases exists_inv hi h with ⟨hs, hinv⟩
  refine ⟨hs, hinv, ?_, hroom⟩
  refine (h.rule (I := fun c => (Sound c ∧ ∃ held, Inv held c) ∧ Low c)
    ⟨⟨Sound.start hi, _, Inv.start hi⟩, Low.start initial⟩ ?_).2
  rintro c t a s l - ⟨⟨hs, held, hi⟩, hlow⟩ hok hstep
  have hm := Moves.of_step hstep
  exact ⟨⟨hs.step hm, hi.step hs hok hm⟩, hlow.step hi hs hm⟩

/-! ## Ranks -/

/-- Between two operations, or at the start of an attempt. -/
def Pc.atCall : Pc α → Prop
  | .idle | .loadStat _ | .waitStat _ => True
  | _ => False

/-- Not counted as active, and not about to be. -/
def Pc.aside : Pc α → Prop
  | .enter _ => False
  | l => ¬ l.counted

/-- The stages of the code, from the last to the first. -/
def Pc.distance : Pc α → Nat
  | .idle | .loadStat _ | .waitStat _ => 0
  | .openGate _ _ => 1
  | .deleteOld _ _ => 2
  | .storeCapa _ _ => 3
  | .storeMap _ _ => 4
  | .transfer _ _ _ _ | .destroyOld _ _ _ _ | .mark _ _ _ _ => 5
  | .loadTail _ _ _ => 6
  | .loadHead _ _ => 7
  | .initSeq _ _ _ => 8
  | .alloc _ _ _ _ => 9
  | .oldMap _ _ _ => 10
  | .oldCapa _ _ => 11
  | .quiesce _ _ => 12
  | .closeGate _ _ => 13
  | .leave _ | .backOff _ => 14
  | .publish _ | .release _ _ => 15
  | .construct _ _ | .destroy _ _ => 16
  | .moveOut _ => 17
  | .reserve _ _ => 18
  | .loadSeq _ _ => 19
  | .loadMap _ _ _ => 20
  | .loadPos _ _ => 21
  | .loadCapa _ => 22
  | .recheck _ => 23
  | .enter _ => 24

/-- What is left of the two loops of `reset_capa`. -/
def Pc.remaining : Pc α → Nat
  | .initSeq _ g i => g.newCapa - i
  | .transfer _ _ i t => 3 * (t - i)
  | .destroyOld _ _ i t => 3 * (t - (i + 1)) + 2
  | .mark _ _ i t => 3 * (t - (i + 1)) + 1
  | _ => 0

/-- How far a thread is from its next attempt. -/
def Pc.rank (l : Pc α) : Nat ×ₗ Nat :=
  toLex (l.distance, l.remaining)

theorem Pc.rank_lt_of_distance (h : l'.distance < l.distance) : l'.rank < l.rank :=
  Prod.Lex.toLex_lt_toLex.2 (.inl h)

theorem Pc.rank_lt_of_remaining (h : l'.distance = l.distance) (h' : l'.remaining < l.remaining) :
    l'.rank < l.rank :=
  Prod.Lex.toLex_lt_toLex.2 (.inr ⟨h, h'⟩)

/-- A step of an operation in progress: no new call is made. -/
def proceed (s : Shared α) (l : Pc α) : Act α → Option (Shared α × Pc α)
  | .begin _ => none
  | a => step s l a

theorem step_of_proceed {a : Act α} {r : Shared α × Pc α} (h : proceed s l a = some r) :
    step s l a = some r := by
  cases a with
  | begin op => cases h
  | go | spurious => exact h

theorem distance_judge (w : Window) (seq : Nat) (op : Op α) : (judge w seq op).distance < 19 := by
  cases op <;> simp only [judge] <;> split_ifs <;> simp [Pc.distance]

theorem distance_next (e : Exit α) : e.next.distance < 14 := by
  cases e <;> simp [Exit.next, Pc.distance]

/-- A thread that is not at a call has a step that brings it closer to one and pushes nothing. -/
theorem exists_advance (hl : ¬ l.atCall) (hquiet : l.aside → s.active = 0) :
    ∃ a s' l', proceed s l a = some (s', l') ∧ s'.tail = s.tail ∧ l'.rank < l.rank ∧
      (l.aside → l'.aside) := by
  cases l with
  | idle | loadStat op | waitStat op => exact absurd trivial hl
  | reserve op w =>
      -- The reservation fails without a reason.
      refine ⟨.spurious, s, _, rfl, rfl, Pc.rank_lt_of_distance ?_, absurd trivial⟩
      simp [Pc.distance]
  | recheck op =>
      refine ⟨.go, s, _, rfl, rfl, Pc.rank_lt_of_distance ?_, absurd trivial⟩
      split_ifs <;> simp [Pc.distance]
  | loadSeq op w =>
      exact ⟨.go, s, _, rfl, rfl, Pc.rank_lt_of_distance (distance_judge w _ op), absurd trivial⟩
  | leave e =>
      refine ⟨.go, _, _, rfl, ?_, Pc.rank_lt_of_distance (distance_next e), absurd trivial⟩
      cases e <;> rfl
  | closeGate v n =>
      -- Either this thread closes the gate, or another one has done so.
      by_cases hstat : s.stat = .normal
      · refine ⟨.go, _, _, if_pos hstat, rfl, Pc.rank_lt_of_distance ?_, fun _ => id⟩
        simp [Pc.distance]
      · refine ⟨.go, _, _, if_neg hstat, rfl, Pc.rank_lt_of_distance ?_, fun _ => id⟩
        simp [Pc.distance]
  | quiesce v n =>
      have hactive : ¬ 0 < s.active := by
        rw [hquiet id]
        exact lt_irrefl 0
      refine ⟨.go, s, .oldCapa v n, ?_, rfl, Pc.rank_lt_of_distance ?_, fun _ => id⟩
      · simp [proceed, step, advance, hactive]
      · simp [Pc.distance]
  | initSeq v g i =>
      by_cases hi : i < g.newCapa
      · refine ⟨.go, _, _, if_pos hi, rfl, Pc.rank_lt_of_remaining rfl ?_, fun _ => id⟩
        show g.newCapa - (i + 1) < g.newCapa - i
        omega
      · refine ⟨.go, _, _, if_neg hi, rfl, Pc.rank_lt_of_distance ?_, fun _ => id⟩
        simp [Pc.distance]
  | transfer v g i t =>
      by_cases hi : i < t
      · refine ⟨.go, _, _, if_pos hi, rfl, Pc.rank_lt_of_remaining rfl ?_, fun _ => id⟩
        show 3 * (t - (i + 1)) + 2 < 3 * (t - i)
        omega
      · refine ⟨.go, _, _, if_neg hi, rfl, Pc.rank_lt_of_distance ?_, fun _ => id⟩
        simp [Pc.distance]
  | destroyOld v g i t =>
      refine ⟨.go, _, _, rfl, rfl, Pc.rank_lt_of_remaining rfl ?_, fun _ => id⟩
      exact Nat.lt_succ_self _
  | mark v g i t =>
      refine ⟨.go, _, _, rfl, rfl, Pc.rank_lt_of_remaining rfl ?_, fun _ => id⟩
      exact Nat.lt_succ_self _
  | _ =>
      refine ⟨.go, _, _, rfl, rfl, Pc.rank_lt_of_distance ?_, ?_⟩
      · simp [Pc.distance]
      · first | exact fun _ => id | exact absurd trivial | exact False.elim

/-! ## Bringing the threads home -/

/-- A step that brings a thread closer to a call. -/
theorem Sane.closer (h : Sane c) (hl : ¬ (c.pc t).atCall)
    (hquiet : (c.pc t).aside → c.shared.active = 0) :
    ∃ a s l, Fits c.shared (c.pc t) ∧ proceed c.shared (c.pc t) a = some (s, l) ∧
      l.rank < (c.pc t).rank ∧ Sane (c.set t s l) ∧ ((c.pc t).aside → l.aside) := by
  rcases exists_advance hl hquiet with ⟨a, s, l, hstep, htail, hrank, haside⟩
  have hm := Moves.of_step (step_of_proceed hstep)
  exact ⟨a, s, l, h.fits t, hstep, hrank, h.step hm (.inl htail), haside⟩

theorem Pc.aside_of_atCall (h : l.atCall) : l.aside := by
  cases l <;> first | exact id | exact absurd h id

theorem Pc.not_counted_of_aside (h : l.aside) : ¬ l.counted := by
  cases l <;> first | exact h | exact absurd h id

/-- A thread gets out of the active region, whatever the others do. -/
theorem Sane.aside (h : Sane c) (t : ι) :
    ∃ s l, Reachable proceed Fits c (c.set t s l) ∧ l.aside ∧ Sane (c.set t s l) := by
  refine Reachable.exists_out Pc.rank (fun c hc hout => ?_) h
  have hcall : ¬ (c.pc t).atCall := fun hcall => hout (Pc.aside_of_atCall hcall)
  rcases hc.closer hcall fun haside => absurd haside hout with ⟨a, s, l, hok, hstep, hrank, hc', -⟩
  exact ⟨a, s, l, hok, hstep, hrank, hc'⟩

omit [DecidableEq ι] in
theorem active_of_aside (h : Gate c) (haside : ∀ t, (c.pc t).aside) : c.shared.active = 0 := by
  by_contra hactive
  rcases h.counted.exists_of_pos (Nat.pos_of_ne_zero hactive) with ⟨t, ht⟩
  exact Pc.not_counted_of_aside (haside t) ht

/-- With the active region empty, a thread that migrates, or is about to, gets to the end of it. -/
theorem Sane.atCall (h : Sane c ∧ ∀ u, (c.pc u).aside) (t : ι) :
    ∃ s l, Reachable proceed Fits c (c.set t s l) ∧ l.atCall ∧
      Sane (c.set t s l) ∧ ∀ u, ((c.set t s l).pc u).aside := by
  refine Reachable.exists_out Pc.rank (I := fun c => Sane c ∧ ∀ u, (c.pc u).aside)
    (fun c hc hout => ?_) h
  rcases hc.1.closer hout (fun _ => active_of_aside hc.1.sound.gate hc.2) with
    ⟨a, s, l, hok, hstep, hrank, hsane, hkeep⟩
  refine ⟨a, s, l, hok, hstep, hrank, hsane, ?_⟩
  exact (Config.forall_set c t s l).2 ⟨hkeep (hc.2 t), fun u _ => hc.2 u⟩

omit [DecidableEq ι] in
/-- Between attempts the queue is at rest. -/
theorem Sane.rest (h : Sane c) (hcall : ∀ t, (c.pc t).atCall) :
    Rest c.shared (c.shared.pushes.drop c.shared.head) := by
  rcases h.inv with ⟨held, hi⟩
  have haside : ∀ t, (c.pc t).aside := fun t => Pc.aside_of_atCall (hcall t)
  have hout : ∀ t, ¬ (c.pc t).inside := fun t hin =>
    Pc.not_counted_of_aside (haside t) (Pc.counted_of_inside hin)
  have hgrow : ∀ t, ¬ (c.pc t).resizing := by
    intro t hresize
    have ht := hcall t
    cases hl : c.pc t <;> rw [hl] at ht hresize <;> first | exact hresize | exact ht
  have hmig : ∀ t, ¬ (c.pc t).migrating := fun t ht => hgrow t (Pc.resizing_of_migrating ht)
  constructor
  · -- Whoever closes the gate is counted until it is open again.
    cases hstat : c.shared.stat with
    | normal => rfl
    | resizing =>
        have hcount := h.sound.gate.growers
        rw [hstat] at hcount
        rcases hcount.exists_of_pos Nat.one_pos with ⟨t, ht⟩
        exact absurd ht (hgrow t)
  · exact active_of_aside h.sound.gate haside
  · exact ⟨hi.ledger.length, hi.ledger.head_le, rfl⟩
  · exact h.sound.size
  · exact h.sound.views.kmap_lt
  · rw [← hi.wanted_of_outside hout]
    exact hi.board fun t ht => hmig t (Pc.migrating_of_moving ht)
  · exact fun hi => h.low.inUse (fun t ht => hmig t (Pc.migrating_of_swapped ht)) _ hi

/-- Every call returns on a queue at rest. -/
theorem Rest.exists_returns {xs : List α} (h : Rest s xs) (op : Op α) (n : Nat) :
    ∃ s' e, Returns n s op s' e := by
  cases op with
  | push v =>
      rcases h.push v n with ⟨s', hfin, -⟩
      exact ⟨s', _, hfin.returns⟩
  | pop =>
      cases xs with
      | nil => exact ⟨_, _, (h.pop_nil (P := fun _ => True) n fun _ _ => trivial).returns⟩
      | cons v xs => exact ⟨_, _, (h.pop (P := fun _ => True) n fun _ _ => trivial).1.returns⟩

/-- A thread alone makes no calls. -/
theorem Alone.exists_proceed {a b : Alone α} (h : Alone.next a = some b) :
    ∃ act, proceed a.shared a.pc act = some (b.shared, b.pc) := by
  rcases a with ⟨n, s, l⟩
  simp only [Alone.next] at h
  split at h <;> rcases Option.map_eq_some_iff.1 h with ⟨r, hr, rfl⟩
  · exact ⟨.spurious, hr⟩
  · exact ⟨.go, hr⟩

/-- What a thread does while nobody else asks for a size is part of a run whose migrations fit. -/
theorem Sane.alone (h : Sane c) (hothers : ∀ u, u ≠ t → (c.pc u).asks = none) {n : Nat}
    {a : Alone α} (hreach : Reaches Alone.next ⟨n, c.shared, c.pc t⟩ a) :
    Reachable proceed Fits c (c.set t a.shared a.pc) ∧ Sane (c.set t a.shared a.pc) := by
  induction hreach with
  | refl =>
      rw [c.set_self t]
      exact ⟨.start, h⟩
  | @tail a b _ hnext ih =>
      rcases ih with ⟨hrun, hsane⟩
      rcases Alone.exists_proceed hnext with ⟨act, hact⟩
      have hstep : proceed (c.set t a.shared a.pc).shared ((c.set t a.shared a.pc).pc t) act =
          some (b.shared, b.pc) := by
        rwa [Config.set_shared, Config.set_pc_self]
      have hm := Moves.of_step (step_of_proceed hstep)
      rw [← Config.set_set c t a.shared a.pc b.shared b.pc]
      refine ⟨.next t act hrun (hsane.fits t) hstep, hsane.step hm (.inr fun u hu => ?_)⟩
      rw [Config.set_pc_of_ne _ _ _ _ hu]
      exact hothers u hu

theorem Pc.asks_of_atCall (h : l.atCall) : l.asks = none := by
  cases l <;> first | rfl | exact absurd h id

/-- From its call, a thread that has the queue at rest for itself comes home. -/
theorem Rest.exists_reaches {xs : List α} (h : Rest s xs) (hl : l.atCall) :
    ∃ k s', Reaches Alone.next ⟨0, s, l⟩ ⟨k, s', .idle⟩ := by
  have hload : ∀ op, ∃ k s', Reaches Alone.next ⟨0, s, .loadStat op⟩ ⟨k, s', .idle⟩ := by
    intro op
    rcases h.exists_returns op 0 with ⟨s', e, k, s₁, hreach, -, hlast⟩
    exact ⟨k, s', hreach.tail (next_of_advance (by simp) hlast)⟩
  cases l with
  | idle => exact ⟨0, s, .refl⟩
  | loadStat op => exact hload op
  | waitStat op =>
      rcases hload op with ⟨k, s', hk⟩
      have hopen : s.stat ≠ .resizing := by
        rw [h.stat]
        exact Status.noConfusion
      exact ⟨k, s', .head (next_of_advance (by simp) (if_neg hopen)) hk⟩
  | _ => exact absurd hl id

/-- With every thread at a call, each returns from it. -/
theorem Sane.idle (h : Sane c ∧ ∀ u, (c.pc u).atCall) (t : ι) :
    ∃ s l, Reachable proceed Fits c (c.set t s l) ∧ l = .idle ∧
      Sane (c.set t s l) ∧ ∀ u, ((c.set t s l).pc u).atCall := by
  rcases h with ⟨hsane, hcall⟩
  rcases (hsane.rest hcall).exists_reaches (hcall t) with ⟨k, s, hk⟩
  rcases hsane.alone (fun u _ => Pc.asks_of_atCall (hcall u)) hk with ⟨hrun, hsane'⟩
  refine ⟨s, .idle, hrun, rfl, hsane', ?_⟩
  exact (Config.forall_set c t s .idle).2 ⟨trivial, fun u _ => hcall u⟩

/-- **The queue never gets stuck.**  In every run of a queue with at least two slots in which each
migration is into an array that holds the values stored, for any number of threads and any order of
their operations: at any moment at which the sizes that threads are about to grow to hold the values
stored, the operations in progress can go on, in the same way and without a new call, until all of
them have returned. -/
theorem all_return [Fintype ι] (hi : 2 ≤ initial) (h : Reachable step Fits (start ι initial) c)
    (hroom : Room c) : ∃ c', Reachable proceed Fits c c' ∧ ∀ t, c'.pc t = .idle := by
  have hsane := sane_of_reachable hi h hroom
  rcases Reachable.exists_all (fun c t hc => Sane.aside hc t) hsane with
    ⟨c₁, hrun₁, hsane₁, haside⟩
  rcases Reachable.exists_all (I := fun c => Sane c ∧ ∀ u, (c.pc u).aside)
    (fun c t hc => Sane.atCall hc t) ⟨hsane₁, haside⟩ with ⟨c₂, hrun₂, hsane₂, hcall⟩
  rcases Reachable.exists_all (I := fun c => Sane c ∧ ∀ u, (c.pc u).atCall)
    (Q := fun l => l = .idle) (fun c t hc => Sane.idle hc t) ⟨hsane₂.1, hcall⟩ with
    ⟨c₃, hrun₃, -, hidle⟩
  exact ⟨c₃, (hrun₁.trans hrun₂).trans hrun₃, hidle⟩

/-- Thread `true` has found two slots full and has closed the gate, while `false` is inside, about
to reserve position zero. -/
def waiting : List (Bool × Act Nat) :=
  call true (.push 10) 11 ++ call true (.push 11) 11 ++ call true (.push 12) 8 ++
    call false .pop 7 ++ [(true, .go), (true, .go)]

theorem all_return_waiting :
    ∃ c c' : Config Bool (Shared Nat) (Pc Nat),
      runSchedule step Fits waiting (start Bool 2) = some c ∧ (c.pc true).asks = some 4 ∧
      c.shared.active = 1 ∧ Reachable proceed Fits c c' ∧ ∀ t, c'.pc t = .idle := by
  have hrun : (runSchedule step Fits waiting (start Bool 2)).map
      (fun c => ((c.pc true).asks, (c.pc false).asks, c.shared.active, c.shared.tail)) =
      some (some 4, none, 1, 2) := by
    decide +kernel
  rcases Option.map_eq_some_iff.1 hrun with ⟨c, hc, hfields⟩
  simp only [Prod.mk.injEq] at hfields
  rcases hfields with ⟨htrue, hfalse, hactive, htail⟩
  have hroom : Room c := by
    intro t n hn
    cases t with
    | false =>
        rw [hfalse] at hn
        cases hn
    | true =>
        rw [htrue] at hn
        cases hn
        rw [htail]
        exact (Nat.sub_le 2 _).trans (by decide)
  rcases all_return (le_refl 2) (Reachable.start.runSchedule hc) hroom with ⟨c', hrun', hidle⟩
  exact ⟨c, c', hc, htrue, hactive, hrun', hidle⟩

end AtomicQueue
end Thread
end Chenc
