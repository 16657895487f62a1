import Mathlib.Logic.Function.Basic
import Zsim.Lib.Largest
import Zsim.Lib.Machine

/-!
# Activation windows of any size

`ActWindow` of ddr_mem.h.  The slot at `idx` is the one that is replaced, and the loop moves the
later activations up into it.  If all of them are later than the new one, the last comparison is
with what the loop has put there itself.
-/

set_option autoImplicit false

namespace Zsim.DDR.Sized

structure ActWindow where
  buf : Nat → Nat
  idx : Nat

namespace ActWindow

variable (size : Nat)

def init : ActWindow := ⟨fun _ => 0, 0⟩

def minActCycle (w : ActWindow) : Nat := w.buf w.idx

def inc (i : Nat) : Nat := if i < size - 1 then i + 1 else 0

def dec (i : Nat) : Nat := if i ≠ 0 then i - 1 else size - 1

/-- The loop of `addActivation`; `none` is one that has not ended after so many steps. -/
def reorder (actCycle idx : Nat) : Nat → (Nat → Nat) → Nat → Option ((Nat → Nat) × Nat)
  | 0, _, _ => none
  | steps + 1, buf, cur =>
    if actCycle < buf (dec size cur) then
      let buf := Function.update buf cur (buf (dec size cur))
      -- we're the oldest in the window
      if dec size cur = idx then some (buf, dec size cur)
      else reorder actCycle idx steps buf (dec size cur)
    else some (buf, cur)

def addActivation (w : ActWindow) (actCycle : Nat) : Option ActWindow :=
  if w.buf w.idx ≤ actCycle then
    (reorder size actCycle w.idx size w.buf w.idx).map fun (buf, cur) =>
      ⟨Function.update buf cur actCycle, inc size w.idx⟩
  else none

/-! ## The slots from `idx` on -/

def slot (base i : Nat) : Nat := if base + i < size then base + i else base + i - size

def contents (w : ActWindow) : List Nat := (List.range size).map fun i => w.buf (slot size w.idx i)

variable {size} {base i j : Nat}

theorem slot_inj (boundI : i < size) (boundJ : j < size)
    (same : slot size base i = slot size base j) : i = j := by
  unfold slot at same
  split at same <;> split at same <;> omega

theorem slot_zero (here : base < size) : slot size base 0 = base := if_pos here

theorem inc_lt (here : base < size) : inc size base < size := by
  unfold inc
  split <;> omega

theorem slot_inc (here : base < size) (bound : i + 1 < size) :
    slot size (inc size base) i = slot size base (i + 1) := by
  unfold slot inc
  split <;> split <;> split <;> omega

theorem slot_inc_last (here : base < size) : slot size (inc size base) (size - 1) = base := by
  unfold slot inc
  split <;> split <;> omega

theorem dec_slot (here : base < size) (bound : i + 1 < size) :
    dec size (slot size base (i + 1)) = slot size base i := by
  unfold dec slot
  split <;> split <;> split <;> omega

theorem dec_slot_zero (here : base < size) : dec size (slot size base 0) = slot size base (size - 1) := by
  unfold dec slot
  split <;> split <;> split <;> omega

theorem contents_length (w : ActWindow) : (w.contents size).length = size := by
  rw [contents, List.length_map, List.length_range]

theorem contents_getElem (w : ActWindow) (bound : i < (w.contents size).length) :
    (w.contents size)[i] = w.buf (slot size w.idx i) := by
  simp only [contents, List.getElem_map, List.getElem_range]

/-! ## The loop -/

/-- The loop with the slot behind `i` others of the new window at hand: those below have their
values, and those above that of their neighbour. -/
structure Hole (size base : Nat) (value : Nat → Nat) (i : Nat) (buf : Nat → Nat) : Prop where
  low : ∀ k < i, buf (slot size base k) = value k
  high : ∀ k, i < k → k < size → buf (slot size base k) = value (k - 1)

variable {buf value : Nat → Nat} {actCycle idx steps : Nat}

theorem Hole.move (hole : Hole size base value (i + 1) buf) (here : base < size) (bound : i + 1 < size) :
    Hole size base value i
      (Function.update buf (slot size base (i + 1)) (buf (dec size (slot size base (i + 1))))) := by
  have other : ∀ k < size, k ≠ i + 1 → slot size base k ≠ slot size base (i + 1) :=
    fun k inRange apart same => apart (slot_inj inRange bound same)
  refine ⟨fun k lt => ?_, fun k gt inRange => ?_⟩
  · rw [Function.update_of_ne (other k (by omega) (by omega))]
    exact hole.low k (by omega)
  · by_cases next : k = i + 1
    · rw [next, Function.update_self, dec_slot here bound, Nat.add_sub_cancel]
      exact hole.low i (Nat.lt_succ_self i)
    · rw [Function.update_of_ne (other k inRange next)]
      exact hole.high k (by omega) inRange

theorem dec_slot_ne (here : base < size) (bound : i + 1 < size) :
    dec size (slot size (inc size base) (i + 1)) ≠ base := by
  rw [dec_slot (inc_lt here) bound]
  intro same
  have last := slot_inc_last here
  have isLast := slot_inj (show i < size by omega) (show size - 1 < size by omega)
    (same.trans last.symm)
  omega

/-- The loop ends, in whatever order the window is. -/
theorem reorder_ends (here : base < size) (bound : i < size) (enough : i < steps) :
    ∃ result, reorder size actCycle base steps buf (slot size (inc size base) i) = some result := by
  induction i generalizing steps buf with
  | zero =>
      obtain ⟨steps, rfl⟩ := Nat.exists_eq_add_of_lt enough
      have first : dec size (slot size (inc size base) 0) = base := by
        rw [dec_slot_zero (inc_lt here), slot_inc_last here]
      rw [Nat.zero_add, reorder, first]
      split
      · rw [if_pos rfl]
        exact ⟨_, rfl⟩
      · exact ⟨_, rfl⟩
  | succ i ih =>
      cases steps with
      | zero => exact absurd enough (Nat.not_lt_zero _)
      | succ steps =>
          rw [reorder]
          split
          · dsimp only
            rw [if_neg (dec_slot_ne here bound), dec_slot (inc_lt here) bound]
            exact ih (by omega) (by omega)
          · exact ⟨_, rfl⟩

theorem Hole.stops (hole : Hole size (inc size base) value i buf) (here : base < size) (bound : i < size)
    (enough : i < steps) (earlier : ∃ k < i, value k ≤ actCycle) : ∃ j final,
      reorder size actCycle base steps buf (slot size (inc size base) i) =
        some (final, slot size (inc size base) j) ∧
      Hole size (inc size base) value j final ∧ j ≤ i ∧ 0 < j ∧ value (j - 1) ≤ actCycle ∧
      ∀ k, j ≤ k → k < i → actCycle < value k := by
  induction i generalizing steps buf with
  | zero =>
      obtain ⟨k, lt, -⟩ := earlier
      exact absurd lt (Nat.not_lt_zero k)
  | succ i ih =>
      cases steps with
      | zero => exact absurd enough (Nat.not_lt_zero _)
      | succ steps =>
          have below : buf (dec size (slot size (inc size base) (i + 1))) = value i := by
            rw [dec_slot (inc_lt here) bound]
            exact hole.low i (Nat.lt_succ_self i)
          have moved := hole.move (inc_lt here) bound
          rw [reorder, below]
          rw [below] at moved
          by_cases later : actCycle < value i
          · rw [if_pos later]
            dsimp only
            rw [if_neg (dec_slot_ne here bound), dec_slot (inc_lt here) bound]
            obtain ⟨k, lt, le⟩ := earlier
            have other : k ≠ i := by
              rintro rfl
              omega
            obtain ⟨j, final, run, holeFinal, atMost, pos, stopped, above⟩ :=
              ih moved (by omega) (show i < steps by omega) ⟨k, by omega, le⟩
            refine ⟨j, final, run, holeFinal, by omega, pos, stopped, fun k from_ lt => ?_⟩
            by_cases last : k = i
            · rw [last]
              exact later
            · exact above k from_ (by omega)
          · rw [if_neg later]
            refine ⟨i + 1, buf, rfl, hole, Nat.le_refl _, Nat.succ_pos i, Nat.not_lt.mp later,
              fun k from_ lt => by omega⟩

/-- If all retained activations are later, the loop comes back to `idx`, with the latest of them in
front of the others. -/
theorem Hole.wraps (hole : Hole size (inc size base) value i buf) (here : base < size) (bound : i < size)
    (more : 1 < size) (enough : i < steps) (later : ∀ k < size - 1, actCycle < value k) : ∃ final,
      reorder size actCycle base steps buf (slot size (inc size base) i) = some (final, base) ∧
      final (slot size (inc size base) 0) = value (size - 2) := by
  induction i generalizing steps buf with
  | zero =>
      obtain ⟨steps, rfl⟩ := Nat.exists_eq_add_of_lt enough
      have first : dec size (slot size (inc size base) 0) = base := by
        rw [dec_slot_zero (inc_lt here), slot_inc_last here]
      have overwritten : buf base = value (size - 2) := by
        have high := hole.high (size - 1) (by omega) (by omega)
        rwa [slot_inc_last here, Nat.sub_sub] at high
      rw [Nat.zero_add, reorder, first, overwritten, if_pos (later _ (by omega)), if_pos rfl]
      exact ⟨_, rfl, Function.update_self ..⟩
  | succ i ih =>
      cases steps with
      | zero => exact absurd enough (Nat.not_lt_zero _)
      | succ steps =>
          have below : buf (dec size (slot size (inc size base) (i + 1))) = value i := by
            rw [dec_slot (inc_lt here) bound]
            exact hole.low i (Nat.lt_succ_self i)
          have moved := hole.move (inc_lt here) bound
          rw [reorder, below, if_pos (later i (by omega))]
          rw [below] at moved
          dsimp only
          rw [if_neg (dec_slot_ne here bound), dec_slot (inc_lt here) bound]
          exact ih moved (by omega) (by omega)

/-! ## An activation -/

variable {w : ActWindow}

/-- All but the first of the window. -/
def retained (size : Nat) (w : ActWindow) (i : Nat) : Nat := w.buf (slot size (inc size w.idx) i)

theorem retained_eq (here : w.idx < size) (bound : i + 1 < (w.contents size).length) :
    retained size w i = (w.contents size)[i + 1] := by
  rw [contents_length] at bound
  rw [contents_getElem, retained, slot_inc here bound]

theorem Hole.start (size : Nat) (w : ActWindow) :
    Hole size (inc size w.idx) (retained size w) (size - 1) w.buf :=
  ⟨fun _ _ => rfl, fun k gt inRange => by omega⟩

/-- The slots from the new `idx` on, after the activation has been put into the hole. -/
theorem Hole.contents (hole : Hole size (inc size w.idx) (retained size w) j buf) (here : w.idx < size)
    (bound : j < size) : (ActWindow.contents size
      ⟨Function.update buf (slot size (inc size w.idx) j) actCycle, inc size w.idx⟩) =
        (w.contents size).tail.take j ++ actCycle :: (w.contents size).tail.drop j := by
  have length : (w.contents size).length = size := contents_length w
  refine List.ext_getElem ?_ fun k boundK boundK' => ?_
  · rw [contents_length, List.length_append, List.length_cons, List.length_take, List.length_drop,
      List.length_tail, length]
    omega
  · have inRange := boundK
    rw [contents_length] at inRange
    rw [contents_getElem]
    dsimp only
    by_cases low : k < j
    · have apart : slot size (inc size w.idx) k ≠ slot size (inc size w.idx) j := fun same =>
        absurd (slot_inj inRange bound same) (by omega)
      have inTail : k < ((w.contents size).tail.take j).length := by
        rw [List.length_take, List.length_tail, length]
        omega
      rw [Function.update_of_ne apart, hole.low k low, List.getElem_append_left inTail, List.getElem_take,
        List.getElem_tail, ← retained_eq here]
    · have size' : ((w.contents size).tail.take j).length = j := by
        rw [List.length_take, List.length_tail, length]
        omega
      rw [List.getElem_append_right (by omega)]
      simp only [size']
      by_cases at' : k = j
      · subst at'
        simp
      · have apart : slot size (inc size w.idx) k ≠ slot size (inc size w.idx) j := fun same =>
          at' (slot_inj inRange bound same)
        obtain ⟨m, rfl⟩ : ∃ m, k = j + 1 + m := ⟨k - (j + 1), by omega⟩
        have offset : j + 1 + m - j = m + 1 := by omega
        simp only [offset, List.getElem_cons_succ, List.getElem_drop, List.getElem_tail]
        rw [Function.update_of_ne apart, hole.high _ (by omega) inRange, ← retained_eq here]
        congr 1
        omega

theorem tail_getElem (here : w.idx < size) (bound : i < (w.contents size).tail.length) :
    (w.contents size).tail[i] = retained size w i := by
  have inRange := bound
  rw [List.length_tail] at inRange
  rw [List.getElem_tail, ← retained_eq here]

theorem contents_eq_cons (here : w.idx < size) :
    w.contents size = w.minActCycle :: (w.contents size).tail := by
  have length : (w.contents size).length = size := contents_length w
  have head : (w.contents size)[0]? = some w.minActCycle := by
    rw [List.getElem?_eq_getElem (by omega), contents_getElem, slot_zero here]
    rfl
  cases isContents : w.contents size with
  | nil =>
      rw [isContents] at head
      cases head
  | cons first rest =>
      rw [isContents] at head
      rw [← Option.some.inj head]
      rfl

theorem retained_mono (here : w.idx < size) (sorted : (w.contents size).Pairwise (· ≤ ·)) (le : i ≤ j)
    (bound : j + 1 < size) : retained size w i ≤ retained size w j := by
  have length : (w.contents size).length = size := contents_length w
  rw [retained_eq here (show i + 1 < (w.contents size).length by omega),
    retained_eq here (show j + 1 < (w.contents size).length by omega)]
  by_cases same : i = j
  · subst same
    exact Nat.le_refl _
  · exact List.pairwise_iff_getElem.mp sorted _ _ _ _ (by omega)

theorem reorder_start (here : w.idx < size) : reorder size actCycle w.idx size w.buf w.idx =
    reorder size actCycle w.idx size w.buf (slot size (inc size w.idx) (size - 1)) := by
  rw [slot_inc_last here]

theorem addActivation_eq (fits : w.minActCycle ≤ actCycle) {cur : Nat}
    (run : reorder size actCycle w.idx size w.buf w.idx = some (buf, cur)) :
    w.addActivation size actCycle = some ⟨Function.update buf cur actCycle, inc size w.idx⟩ := by
  have fits : w.buf w.idx ≤ actCycle := fits
  rw [addActivation, if_pos fits, run]
  rfl

theorem addActivation_passes (here : w.idx < size) (fits : w.minActCycle ≤ actCycle) :
    ∃ next, w.addActivation size actCycle = some next ∧ next.idx < size := by
  have ends : ∃ result, reorder size actCycle w.idx size w.buf w.idx = some result := by
    rw [reorder_start here]
    exact reorder_ends here (by omega) (by omega)
  obtain ⟨⟨final, cur⟩, run⟩ := ends
  exact ⟨_, addActivation_eq fits run, inc_lt here⟩

/-- The second activation of the window is not later than the new one. -/
def Orderly (size : Nat) (w : ActWindow) (actCycle : Nat) : Prop :=
  ∀ second, (w.contents size)[1]? = some second → second ≤ actCycle

theorem Orderly.reorder (orderly : w.Orderly size actCycle) (here : w.idx < size)
    (sorted : (w.contents size).Pairwise (· ≤ ·)) (fits : w.minActCycle ≤ actCycle) : ∃ j final,
      ActWindow.reorder size actCycle w.idx size w.buf w.idx =
        some (final, slot size (inc size w.idx) j) ∧
      Hole size (inc size w.idx) (retained size w) j final ∧ j < size ∧
      (∀ i < j, i + 1 < size → retained size w i ≤ actCycle) ∧
      ∀ i, j ≤ i → i + 1 < size → actCycle ≤ retained size w i := by
  have length : (w.contents size).length = size := contents_length w
  by_cases more : 1 < size
  · have second : retained size w 0 ≤ actCycle := by
      refine orderly _ ?_
      rw [retained_eq here (by omega), List.getElem?_eq_getElem (by omega)]
    rw [reorder_start here]
    obtain ⟨j, final, run, hole, atMost, pos, stopped, above⟩ := (Hole.start size w).stops here
      (by omega) (show size - 1 < size by omega) ⟨0, by omega, second⟩
    refine ⟨j, final, run, hole, by omega, fun i lt bound => ?_, fun i from' bound => ?_⟩
    · exact Nat.le_trans (retained_mono here sorted (by omega) (by omega)) stopped
    · exact Nat.le_of_lt (above i from' (by omega))
  · have one : size = 1 := by omega
    subst one
    have only : w.idx = 0 := by omega
    refine ⟨0, w.buf, ?_, Hole.start 1 w, Nat.one_pos, fun i lt _ => by omega, fun i _ bound => by omega⟩
    have oldest : w.buf (dec 1 w.idx) = w.minActCycle := by
      rw [minActCycle, only]
      rfl
    rw [ActWindow.reorder, oldest, if_neg (Nat.not_lt.mpr fits), only]
    rfl

theorem addActivation_orderly (here : w.idx < size) (sorted : (w.contents size).Pairwise (· ≤ ·))
    (fits : w.minActCycle ≤ actCycle) (orderly : w.Orderly size actCycle) :
    ∃ next, w.addActivation size actCycle = some next ∧ next.idx < size ∧
      next.contents size = ((w.contents size).orderedInsert (· ≤ ·) actCycle).tail := by
  obtain ⟨j, final, run, hole, bound, earlier, later⟩ := orderly.reorder here sorted fits
  refine ⟨_, addActivation_eq fits run, inc_lt here, ?_⟩
  have length : (w.contents size).tail.length = size - 1 := by rw [List.length_tail, contents_length]
  rw [hole.contents here bound, contents_eq_cons here]
  rw [contents_eq_cons here] at sorted
  refine (orderedInsert_tail sorted fits (fun x member => ?_) fun x member => ?_).symm
  · obtain ⟨i, inRange, rfl⟩ := List.mem_take_iff_getElem.mp member
    rw [tail_getElem here]
    exact earlier i (by omega) (by omega)
  · obtain ⟨i, inRange, rfl⟩ := List.mem_drop_iff_getElem.mp member
    rw [tail_getElem here]
    exact later _ (by omega) (by omega)

/-- Otherwise the latest activation comes first and the new one last. -/
theorem addActivation_disorderly (here : w.idx < size) (sorted : (w.contents size).Pairwise (· ≤ ·))
    (fits : w.minActCycle ≤ actCycle) (disorderly : ¬ w.Orderly size actCycle) :
    ∃ next, w.addActivation size actCycle = some next ∧ ¬ (next.contents size).Pairwise (· ≤ ·) := by
  have length : (w.contents size).length = size := contents_length w
  obtain ⟨second, isSecond, above⟩ : ∃ second, (w.contents size)[1]? = some second ∧ actCycle < second := by
    unfold Orderly at disorderly
    push Not at disorderly
    exact disorderly
  obtain ⟨bound, value⟩ := List.getElem?_eq_some_iff.mp isSecond
  have more : 1 < size := by omega
  have first : actCycle < retained size w 0 := by
    rw [retained_eq here bound, value]
    exact above
  have later : ∀ k < size - 1, actCycle < retained size w k := fun k lt =>
    Nat.lt_of_lt_of_le first (retained_mono here sorted (Nat.zero_le k) (by omega))
  obtain ⟨final, run, latest⟩ := (Hole.start size w).wraps here (by omega) more
    (show size - 1 < size by omega) later
  rw [← reorder_start here] at run
  refine ⟨_, addActivation_eq fits run, fun inOrder => ?_⟩
  obtain ⟨next, isNext⟩ : ∃ next : ActWindow,
    next = ⟨Function.update final w.idx actCycle, inc size w.idx⟩ := ⟨_, rfl⟩
  rw [← isNext] at inOrder
  have lengthNext : (next.contents size).length = size := contents_length next
  have apart : slot size (inc size w.idx) 0 ≠ w.idx := by
    intro same
    have zero := slot_inj (show 0 < size by omega) (show size - 1 < size by omega)
      (same.trans (slot_inc_last here).symm)
    omega
  have front : (next.contents size)[0] = retained size w (size - 2) := by
    rw [contents_getElem, isNext]
    dsimp only
    rw [Function.update_of_ne apart, latest]
  have back : (next.contents size)[size - 1] = actCycle := by
    rw [contents_getElem, isNext]
    dsimp only
    rw [slot_inc_last here, Function.update_self]
  have wrong := List.pairwise_iff_getElem.mp inOrder 0 (size - 1) (by omega) (by omega) (by omega)
  rw [front, back] at wrong
  exact absurd wrong (Nat.not_le.mpr (later _ (by omega)))

end ActWindow

end Zsim.DDR.Sized
