import Mathlib.Tactic.Linarith
import Mathlib.Tactic.Positivity
import Zsim.IdealPart.Accounting

/-!
# The victims

The partition that `rank` takes its victim from: a filled one, and one with the largest proportional
excess if there is any.
-/

set_option autoImplicit false

namespace Zsim.IdealLRUPart

open Zsim.Partition (MemReq)

/-- How far a partition is over its target, in proportion to it -/
def excess (info : IdPartInfo) : ℚ := ((info.size : ℚ) - info.targetSize) / (info.targetSize + 1)

/-- The victim is a line of a filled partition.  If some partition is over its target so is that one, and
none has a larger excess as a double. -/
def GoodVictim (c : IdPartConfig) (s : IdealLRUPart) (req : MemReq) : Prop :=
  ∃ lineId next, s.rank c req = some (lineId, next) ∧ lineId < c.numLines ∧
    (s.array lineId).p < c.partitions ∧ 0 < (s.partInfo (s.array lineId).p).size ∧
    ((∃ p < c.partitions, (s.partInfo p).targetSize < (s.partInfo p).size) →
      (s.partInfo (s.array lineId).p).targetSize < (s.partInfo (s.array lineId).p).size ∧
      ∀ p < c.partitions, 0 < (s.partInfo p).size →
        c.rounding.round (excess (s.partInfo p)) ≤
          c.rounding.round (excess (s.partInfo (s.array lineId).p)))

def Small (info : IdPartInfo) : Prop := info.size < 2 ^ 31 ∧ info.targetSize < 2 ^ 31

variable {c : IdPartConfig} {s next : IdealLRUPart} {seqs : Nat → List Nat} {p own : Nat} {req : MemReq}
  {info : IdPartInfo} {best : Nat × ℚ} {parts : List Nat}

/-! ## Differences -/

theorem diff_eq (c : IdPartConfig) (small : Small info) : diff c info = c.rounding.round (excess info) := by
  obtain ⟨sizeLt, targetLt⟩ := small
  have exactly : (Int32.ofNat info.size - Int32.ofNat info.targetSize).toInt =
      (info.size : Int) - info.targetSize := by
    rw [Int32.toInt_sub, Int32.toInt_ofNat_of_lt sizeLt, Int32.toInt_ofNat_of_lt targetLt, Int.bmod_def]
    omega
  rw [diff, excess, exactly]
  push_cast
  rfl

theorem target_pos (info : IdPartInfo) : (0 : ℚ) < info.targetSize + 1 := by positivity

theorem diff_gt (c : IdPartConfig) (small : Small info) : -2 < diff c info := by
  have above : ((-1 : Int) : ℚ) ≤ excess info := by
    rw [excess, le_div_iff₀ (target_pos info)]
    have size : (0 : ℚ) ≤ info.size := Nat.cast_nonneg _
    push_cast
    linarith
  have rounded := c.rounding.mono _ _ above
  rw [c.rounding.int (-1) (by decide) (by decide)] at rounded
  rw [diff_eq c small]
  push_cast at rounded
  linarith

theorem diff_pos (c : IdPartConfig) (small : Small info) (exceeds : info.targetSize < info.size) :
    0 < diff c info := by
  have one : (1 : ℚ) ≤ info.size - info.targetSize := by
    have cast : ((info.targetSize + 1 : Nat) : ℚ) ≤ (info.size : ℚ) := by exact_mod_cast exceeds
    push_cast at cast
    linarith
  have below : (info.targetSize : ℚ) + 1 ≤ 2 ^ 31 := by exact_mod_cast small.2
  have above : (1 : ℚ) / 2 ^ 31 ≤ excess info := by
    rw [excess]
    exact div_le_div₀ (le_trans zero_le_one one) one (target_pos info) below
  have rounded := c.rounding.mono _ _ above
  rw [c.rounding.power 31 (by decide)] at rounded
  rw [diff_eq c small]
  have pos : (0 : ℚ) < 1 / 2 ^ 31 := by positivity
  linarith

theorem over_of_diff_pos (c : IdPartConfig) (small : Small info) (pos : 0 < diff c info) :
    info.targetSize < info.size := by
  by_contra within
  have atMost : (info.size : ℚ) ≤ info.targetSize := by exact_mod_cast Nat.not_lt.mp within
  have notPos : excess info ≤ ((0 : Int) : ℚ) := by
    rw [excess]
    push_cast
    exact div_nonpos_of_nonpos_of_nonneg (by linarith) (le_of_lt (target_pos info))
  have rounded := c.rounding.mono _ _ notPos
  rw [c.rounding.int 0 (by decide) (by decide)] at rounded
  rw [diff_eq c small] at pos
  push_cast at rounded
  linarith

/-! ## The search -/

/-- What the search has found: its start, or a filled partition that is better. -/
structure Found (c : IdPartConfig) (s : IdealLRUPart) (start best : Nat × ℚ) (seen : List Nat) : Prop where
  le : start.2 ≤ best.2
  largest : ∀ p ∈ seen, 0 < (s.partInfo p).size → diff c (s.partInfo p) ≤ best.2
  origin : best = start ∨ (start.2 < best.2 ∧ best.1 ∈ seen ∧ 0 < (s.partInfo best.1).size ∧
    best.2 = diff c (s.partInfo best.1))

theorem Found.choose {start : Nat × ℚ} {seen : List Nat} (found : Found c s start best seen) (p : Nat) :
    Found c s start (s.choose c best p) (seen ++ [p]) := by
  unfold IdealLRUPart.choose
  split
  case isTrue better =>
    exact {
      le := le_of_lt (lt_of_le_of_lt found.le better.1)
      largest := by
        intro q member filled
        rcases List.mem_append.mp member with old | isNew
        · exact le_trans (found.largest q old filled) (le_of_lt better.1)
        · rw [List.mem_singleton.mp isNew]
      origin := .inr ⟨lt_of_le_of_lt found.le better.1,
        List.mem_append_right seen (List.mem_singleton.mpr rfl), better.2, rfl⟩ }
  case isFalse notBetter =>
    exact {
      le := found.le
      largest := by
        intro q member filled
        rcases List.mem_append.mp member with old | isNew
        · exact found.largest q old filled
        · rw [List.mem_singleton.mp isNew] at filled ⊢
          exact not_lt.mp fun better => notBetter ⟨better, filled⟩
      origin := found.origin.imp_right fun ⟨lt, member, filled, isDiff⟩ =>
        ⟨lt, List.mem_append_left [p] member, filled, isDiff⟩ }

theorem found_foldl (c : IdPartConfig) (s : IdealLRUPart) (start : Nat × ℚ) (parts : List Nat) :
    Found c s start (parts.foldl (s.choose c) start) parts := by
  induction parts using List.reverseRecOn with
  | nil => exact ⟨le_refl _, fun p none => absurd none List.not_mem_nil, .inl rfl⟩
  | append_singleton parts p ih =>
      rw [List.foldl_append]
      exact ih.choose p

/-- Where the search starts: with the partition of the request, or so low that any filled one is better -/
def start (s : IdealLRUPart) (own : Nat) : Nat × ℚ := (own, if (s.partInfo own).size = 0 then -2 else 0)

variable {q : Nat}

theorem victimPart_filled (inRange : own < c.partitions) (small : ∀ p < c.partitions, Small (s.partInfo p))
    (lt : q < c.partitions) (filled : 0 < (s.partInfo q).size) :
    s.victimPart c own < c.partitions ∧ 0 < (s.partInfo (s.victimPart c own)).size := by
  have found := found_foldl c s (s.start own) (List.range c.partitions)
  have isVictim : s.victimPart c own = ((List.range c.partitions).foldl (s.choose c) (s.start own)).1 := rfl
  rw [isVictim]
  rcases found.origin with isStart | ⟨-, member, isFilled, -⟩
  · rw [isStart]
    refine ⟨inRange, ?_⟩
    by_contra empty
    have low : (s.start own).2 = -2 := if_pos (Nat.eq_zero_of_not_pos empty)
    have atMost := found.largest q (List.mem_range.mpr lt) filled
    rw [isStart, low] at atMost
    exact absurd (diff_gt c (small q lt)) (not_lt.mpr atMost)
  · exact ⟨List.mem_range.mp member, isFilled⟩

theorem victimPart_largest (own : Nat) (small : ∀ p < c.partitions, Small (s.partInfo p)) (lt : q < c.partitions)
    (exceeds : (s.partInfo q).targetSize < (s.partInfo q).size) :
    0 < diff c (s.partInfo (s.victimPart c own)) ∧
      ∀ p < c.partitions, 0 < (s.partInfo p).size →
        diff c (s.partInfo p) ≤ diff c (s.partInfo (s.victimPart c own)) := by
  have found := found_foldl c s (s.start own) (List.range c.partitions)
  have isVictim : s.victimPart c own = ((List.range c.partitions).foldl (s.choose c) (s.start own)).1 := rfl
  have pos := diff_pos c (small q lt) exceeds
  have atMost := found.largest q (List.mem_range.mpr lt) (Nat.lt_of_le_of_lt (Nat.zero_le _) exceeds)
  rw [isVictim]
  rcases found.origin with isStart | ⟨-, -, -, isDiff⟩
  · -- the search does not start that high
    have low : (s.start own).2 ≤ 0 := by
      rw [start]
      dsimp only
      split
      · exact neg_nonpos.mpr zero_le_two
      · exact le_refl 0
    rw [isStart] at atMost
    linarith
  · rw [← isDiff]
    exact ⟨lt_of_lt_of_le pos atMost, fun p inRange filled =>
      found.largest p (List.mem_range.mpr inRange) filled⟩

/-! ## The rank -/

theorem Inv.rank (inv : Inv c s seqs) (inRange : InRange c req)
    (small : ∀ p < c.partitions, Small (s.partInfo p)) : ∃ own lineId later,
      c.getPartition req = some own ∧
      s.rank c req = some (lineId, { s with touched := later ++ s.touched }) ∧
      (∀ p ∈ later, p < c.partitions) ∧ lineId < c.numLines ∧ (s.array lineId).p = s.victimPart c own := by
  obtain ⟨own, ownLt, isOwn⟩ := inRange
  obtain ⟨q, lt, filled⟩ := inv.exists_filled
  obtain ⟨victimLt, victimFilled⟩ := victimPart_filled ownLt small lt filled
  have length := inv.length_eq (s.victimPart c own)
  have size : (s.partInfo (s.victimPart c own)).size = s.lruList.size (s.victimPart c own) := by
    rw [inv.holds.size_eq, length]
  have notEmpty : seqs (s.victimPart c own) ≠ [] := by
    intro empty
    rw [empty, List.length_nil] at length
    omega
  obtain ⟨lineId, isLast⟩ := Option.isSome_iff_exists.mp (List.getLast?_isSome.mpr notEmpty)
  have isBack : s.lruList.back (s.victimPart c own) = some lineId := (inv.holds.back_eq _).trans isLast
  obtain ⟨line, inPart⟩ := (inv.mem_iff _ lineId).mp (List.mem_of_getLast? isLast)
  refine ⟨own, lineId, s.victimPart c own :: ((List.range c.partitions).reverse ++ [own]), isOwn, ?_, ?_,
    line, inPart⟩
  · unfold IdealLRUPart.rank
    rw [isOwn, Option.bind_eq_bind, Option.bind_some]
    dsimp only
    rw [if_pos ⟨victimFilled, size⟩, isBack]
    simp
  · intro p member
    simp only [List.mem_cons, List.mem_append, List.mem_reverse, List.mem_range, List.not_mem_nil,
      or_false] at member
    obtain rfl | lt | rfl := member
    · exact victimLt
    · exact lt
    · exact ownLt

theorem Inv.goodVictim (inv : Inv c s seqs) (inRange : InRange c req)
    (small : ∀ p < c.partitions, Small (s.partInfo p)) : GoodVictim c s req := by
  obtain ⟨own, lineId, later, -, ranked, -, line, inPart⟩ := inv.rank inRange small
  have partLt := inv.inRange lineId line
  refine ⟨lineId, _, ranked, line, partLt, inv.tally.pos (Finset.mem_range.mpr line), ?_⟩
  rintro ⟨q, lt, exceeds⟩
  obtain ⟨pos, largest⟩ := victimPart_largest own small lt exceeds
  rw [← inPart] at pos largest
  refine ⟨over_of_diff_pos c (small _ partLt) pos, fun p isPart filled => ?_⟩
  rw [← diff_eq c (small p isPart), ← diff_eq c (small _ partLt)]
  exact largest p isPart filled

end Zsim.IdealLRUPart
