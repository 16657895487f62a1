import Zsim.Lib.Count
import Zsim.Partition.Regions

/-!
# Smooth transients

The short-term targets of the partitions share the managed space: a line that one of them
gains is taken from one that is above its long-term target.  There is one as long as the
long-term targets sum to no more than the short-term ones do.
-/

set_option autoImplicit false

namespace Zsim.Partition

open Finset

/-- What the constructor gives to the partitions together. -/
def VantageConfig.managed (c : VantageConfig) : Nat :=
  c.partitions * (c.targetManagedSize / c.partitions)

theorem VantageConfig.managed_le_size (c : VantageConfig) : c.managed ≤ c.totalSize :=
  (Nat.mul_div_le c.targetManagedSize c.partitions).trans c.managed_le

namespace Vantage

/-- The short-term targets exceed the managed space by the `k` lines still to be taken
away, and the differences that decide on a donor fit their words. -/
structure Balanced (c : VantageConfig) (k : Nat) (s : Vantage) : Prop where
  sum : ∑ p ∈ range c.partitions, s.targetSize p = c.managed + k
  long : ∑ p ∈ range c.partitions, s.longTermTargetSize p ≤ c.managed
  above : ∑ p ∈ range c.partitions, (s.targetSize p - s.longTermTargetSize p) ≤ c.managed
  near : ∀ p < c.partitions, s.targetSize p < s.longTermTargetSize p + 2 ^ 31 ∧
    s.longTermTargetSize p ≤ s.targetSize p + 2 ^ 31

variable {c : VantageConfig} {s next : Vantage} {k : Nat}

theorem Balanced.congr {s' : Vantage} (balanced : Balanced c k s)
    (target : s'.targetSize = s.targetSize)
    (long : s'.longTermTargetSize = s.longTermTargetSize) : Balanced c k s' where
  sum := by
    rw [target]
    exact balanced.sum
  long := by
    rw [long]
    exact balanced.long
  above := by
    rw [target, long]
    exact balanced.above
  near := by
    rw [target, long]
    exact balanced.near

/-! ## One line -/

theorem Balanced.long_lt (balanced : Balanced c k s) {p : Nat} (lt : p < c.partitions) :
    s.longTermTargetSize p < 2 ^ 32 := by
  have one := le_sum lt s.longTermTargetSize
  have all := balanced.long
  have := c.managed_le_size
  have := c.lines_word
  omega

theorem Balanced.surplus_eq (balanced : Balanced c k s) {p : Nat} (lt : p < c.partitions) :
    s.surplus p = s.targetSize p - s.longTermTargetSize p := by
  obtain ⟨below, above⟩ := balanced.near p lt
  have word := balanced.long_lt lt
  unfold surplus u32 u64Sub u64
  dsimp only
  split <;> omega

theorem Balanced.surplus_sum (balanced : Balanced c k s) :
    ∑ p ∈ range c.partitions, s.surplus p =
      ∑ p ∈ range c.partitions, (s.targetSize p - s.longTermTargetSize p) :=
  sum_congr rfl fun _ member => balanced.surplus_eq (mem_range.mp member)

theorem linesLeft_eq {n : Nat} (fits : ∑ p ∈ range n, s.surplus p < 2 ^ 32) :
    s.linesLeft n = ∑ p ∈ range n, s.surplus p := by
  apply foldl_range (fun k linesLeft => linesLeft = ∑ p ∈ range k, s.surplus p) n rfl
  intro k linesLeft lt holds
  rw [holds, sum_range_succ]
  apply u32_of_lt
  rw [← sum_range_succ]
  exact (sum_le_sum_of_subset (range_subset_range.mpr lt)).trans_lt fits

/-- The second loop finds a partition with a surplus, if the drawn number is below what the
partitions that are left add to `curLines`. -/
theorem donor_spec {l : Nat} (ps : List Nat) (curLines : Nat) (before : curLines ≤ l)
    (fits : curLines + (ps.map s.surplus).sum < 2 ^ 32)
    (drawn : l < curLines + (ps.map s.surplus).sum) :
    ∃ q ∈ ps, s.donor l ps curLines = some q ∧ 0 < s.surplus q := by
  induction ps generalizing curLines with
  | nil => simp at drawn; omega
  | cons p rest ih =>
      rw [List.map_cons, List.sum_cons] at fits drawn
      have word : u32 (curLines + s.surplus p) = curLines + s.surplus p := u32_of_lt (by omega)
      simp only [donor, word]
      by_cases here : 0 < s.surplus p ∧ l < curLines + s.surplus p
      · exact ⟨p, List.mem_cons_self, if_pos here, here.1⟩
      · obtain ⟨q, member, found, pos⟩ := ih (curLines + s.surplus p)
          (by omega) (by omega) (by omega)
        exact ⟨q, List.mem_cons_of_mem p member, by rw [if_neg here, found], pos⟩

theorem range_sum (f : Nat → Nat) (n : Nat) :
    ((List.range n).map f).sum = ∑ p ∈ range n, f p := by
  induction n with
  | zero => rfl
  | succ n ih => rw [List.range_succ, List.map_append, List.sum_append, ih, sum_range_succ]; simp

theorem Balanced.takeOneLine (smooth : c.smoothTransients = true)
    (balanced : Balanced c (k + 1) s) :
    ∃ next, s.takeOneLine c = some next ∧ Balanced c k next := by
  have total := balanced.surplus_sum
  have small := balanced.above
  have sum := balanced.sum
  have long := balanced.long
  have word := c.managed_le_size.trans_lt c.lines_word
  have left : s.linesLeft c.partitions = ∑ p ∈ range c.partitions, s.surplus p :=
    linesLeft_eq (by omega)
  -- the short-term targets are more than the long-term ones, so one of them exceeds its own
  have pos : 0 < s.linesLeft c.partitions := by
    have split : ∑ p ∈ range c.partitions, s.targetSize p ≤
        ∑ p ∈ range c.partitions, (s.targetSize p - s.longTermTargetSize p) +
          ∑ p ∈ range c.partitions, s.longTermTargetSize p := by
      rw [← sum_add_distrib]
      exact sum_le_sum fun p _ => by omega
    omega
  have drawn := c.randInt_le s.draws (s.linesLeft c.partitions - 1)
  obtain ⟨q, member, found, surplus⟩ := donor_spec (s := s)
    (l := c.randInt s.draws (s.linesLeft c.partitions - 1)) (List.range c.partitions)
    0 (Nat.zero_le _) (by rw [range_sum]; omega) (by rw [range_sum]; omega)
  have lt := List.mem_range.mp member
  have exceeds := balanced.surplus_eq lt
  obtain ⟨below, above⟩ := balanced.near q lt
  have longWord := balanced.long_lt lt
  have dec : u64Sub (s.targetSize q) 1 = s.targetSize q - 1 := u64Sub_of_le (by omega) (by omega)
  refine ⟨{ s.setTarget q (u64Sub (s.targetSize q) 1) with draws := s.draws + 1 }, ?_, ?_⟩
  · simp only [Vantage.takeOneLine, smooth, true_and, if_pos pos, found, Option.bind_eq_bind,
      Option.bind_some]
  have other : ∀ j, j ≠ q → Function.update s.targetSize q (s.targetSize q - 1) j = s.targetSize j :=
    fun j apart => Function.update_of_ne apart _ _
  have moved := sum_change lt other
  have movedAbove := sum_change lt
    (f := fun j => s.targetSize j - s.longTermTargetSize j)
    (g := fun j => Function.update s.targetSize q (s.targetSize q - 1) j - s.longTermTargetSize j)
    fun j apart => by simp only [other j apart]
  simp only [Function.update_self] at moved movedAbove
  constructor
  · simp only [setTarget, dec]
    omega
  · exact long
  · simp only [setTarget, dec]
    omega
  · intro j inside
    simp only [setTarget, dec]
    by_cases same : j = q
    · subst same
      rw [Function.update_self]
      omega
    · rw [Function.update_of_ne same]
      exact balanced.near j inside

theorem Balanced.takeLines (smooth : c.smoothTransients = true) {n : Nat}
    (balanced : Balanced c (k + n) s) :
    ∃ next, s.takeLines c n = some next ∧ Balanced c k next := by
  induction n generalizing s with
  | zero => exact ⟨s, rfl, balanced⟩
  | succ n ih =>
      obtain ⟨mid, first, fewer⟩ := Balanced.takeOneLine (k := k + n) smooth balanced
      obtain ⟨next, rest, done⟩ := ih fewer
      refine ⟨next, ?_, done⟩
      rw [Vantage.takeLines, first]
      exact rest

theorem Balanced.grow (smooth : c.smoothTransients = true) (balanced : Balanced c 0 s) {p : Nat}
    (lt : p < c.partitions) : ∃ next, s.grow c p = some next ∧ Balanced c 0 next := by
  by_cases grows : s.targetSize p < s.longTermTargetSize p
  · have word := balanced.long_lt lt
    have inc : u64 (s.targetSize p + 1) = s.targetSize p + 1 := u64_of_lt (by omega)
    have raised : Balanced c 1 (s.setTarget p (s.targetSize p + 1)) := by
      have other : ∀ j, j ≠ p →
          Function.update s.targetSize p (s.targetSize p + 1) j = s.targetSize j :=
        fun j apart => Function.update_of_ne apart _ _
      have moved := sum_change lt other
      have movedAbove := sum_change lt
        (f := fun j => s.targetSize j - s.longTermTargetSize j)
        (g := fun j =>
          Function.update s.targetSize p (s.targetSize p + 1) j - s.longTermTargetSize j)
        fun j apart => by simp only [other j apart]
      simp only [Function.update_self] at moved movedAbove
      have sum := balanced.sum
      have above := balanced.above
      constructor
      · simp only [setTarget]
        omega
      · exact balanced.long
      · simp only [setTarget]
        omega
      · intro j inside
        obtain ⟨below, near⟩ := balanced.near j inside
        simp only [setTarget]
        by_cases same : j = p
        · subst same
          rw [Function.update_self]
          omega
        · rw [Function.update_of_ne same]
          exact ⟨below, near⟩
    obtain ⟨next, taken, done⟩ := Balanced.takeOneLine smooth raised
    refine ⟨next, ?_, done⟩
    simp only [Vantage.grow, if_pos grows, smooth, if_true, inc]
    exact taken
  · exact ⟨s, if_neg grows, balanced⟩

/-! ## Repartitioning -/

/-- The new long-term targets fit the managed space, and their distances from the current
targets fit an `int32_t`. -/
structure Repartition (c : VantageConfig) (s : Vantage) (sizes : Nat → Nat) : Prop where
  sum : ∑ p ∈ range c.partitions, linesOf c sizes p ≤ c.managed
  near : ∀ p < c.partitions, s.targetSize p < linesOf c sizes p + 2 ^ 31 ∧
    linesOf c sizes p ≤ s.targetSize p + 2 ^ 31

/-- What the loop of `setPartitionSizes` leaves after its first `k` rounds. -/
structure Resized (c : VantageConfig) (sizes : Nat → Nat) (s : Vantage) (k : Nat)
    (r : Vantage × Nat) : Prop where
  later : ∀ p, k ≤ p → r.1.targetSize p = s.targetSize p
  long : ∀ p < k, r.1.longTermTargetSize p = linesOf c sizes p
  grown : ∀ p < k, s.targetSize p ≤ r.1.targetSize p ∧
    r.1.targetSize p ≤ max (s.targetSize p) (linesOf c sizes p)
  due : r.2 = ∑ p ∈ range k, (r.1.targetSize p - s.targetSize p)

theorem linesOf_lt (c : VantageConfig) (sizes : Nat → Nat) (p : Nat) : linesOf c sizes p < 2 ^ 32 :=
  (Nat.div_le_self _ _).trans_lt (Nat.mod_lt _ (by decide))

theorem Resized.step {sizes : Nat → Nat} {r : Vantage × Nat} (smooth : c.smoothTransients = true)
    (sum : ∑ p ∈ range c.partitions, linesOf c sizes p ≤ c.managed) (lt : k < c.partitions)
    (resized : Resized c sizes s k r) : Resized c sizes s (k + 1) (resize c sizes r k) := by
  have word := linesOf_lt c sizes k
  have here := resized.later k le_rfl
  have small : ∑ p ∈ range (k + 1), linesOf c sizes p < 2 ^ 32 :=
    ((sum_le_sum_of_subset (range_subset_range.mpr lt)).trans sum).trans_lt
      (c.managed_le_size.trans_lt c.lines_word)
  have due : r.2 ≤ ∑ p ∈ range k, linesOf c sizes p := by
    rw [resized.due]
    refine sum_le_sum fun p member => ?_
    have := resized.grown p (mem_range.mp member)
    omega
  rw [sum_range_succ] at small
  by_cases grows : r.1.targetSize k < linesOf c sizes k
  · -- the target goes up, by no more than the lines of the partition
    obtain ⟨newTarget, value⟩ : ∃ newTarget, newTarget = max (r.1.targetSize k)
      (min (linesOf c sizes k) (u64 (r.1.size k + 1))) := ⟨_, rfl⟩
    have atMost : newTarget ≤ linesOf c sizes k := by omega
    have atLeast : r.1.targetSize k ≤ newTarget := by omega
    have more : u32Sub newTarget (u32 (r.1.targetSize k)) = newTarget - r.1.targetSize k := by
      rw [u32_of_lt (n := r.1.targetSize k) (by omega), u32Sub_of_le (by omega) atLeast]
    have shape : resize c sizes r k =
        ({ r.1 with longTermTargetSize :=
            Function.update r.1.longTermTargetSize k (linesOf c sizes k) }.setTarget k newTarget,
          r.2 + (newTarget - r.1.targetSize k)) := by
      simp only [resize, smooth, if_true, if_pos grows, ← value, u32_of_lt (by omega : newTarget < 2 ^ 32),
        more]
      rw [u32_of_lt (by omega)]
    rw [shape]
    constructor
    · intro p le
      simp only [setTarget]
      rw [Function.update_of_ne (by omega)]
      exact resized.later p (by omega)
    · intro p before
      simp only [setTarget]
      by_cases same : p = k
      · subst same
        rw [Function.update_self]
      · rw [Function.update_of_ne same]
        exact resized.long p (by omega)
    · intro p before
      simp only [setTarget]
      by_cases same : p = k
      · subst same
        rw [Function.update_self]
        omega
      · rw [Function.update_of_ne same]
        exact resized.grown p (by omega)
    · simp only [setTarget]
      rw [sum_range_succ, Function.update_self, resized.due, here]
      congr 1
      refine sum_congr rfl fun p member => ?_
      rw [Function.update_of_ne (mem_range.mp member).ne]
  · have shape : resize c sizes r k =
        ({ r.1 with longTermTargetSize :=
            Function.update r.1.longTermTargetSize k (linesOf c sizes k) }, r.2) := by
      simp only [resize, smooth, if_true, if_neg grows]
    rw [shape]
    constructor
    · exact fun p le => resized.later p (by omega)
    · intro p before
      dsimp only
      by_cases same : p = k
      · subst same
        rw [Function.update_self]
      · rw [Function.update_of_ne same]
        exact resized.long p (by omega)
    · intro p before
      by_cases same : p = k
      · subst same
        dsimp only
        omega
      · exact resized.grown p (by omega)
    · rw [sum_range_succ, here, Nat.sub_self, Nat.add_zero]
      exact resized.due

theorem Balanced.setPartitionSizes {sizes : Nat → Nat} (smooth : c.smoothTransients = true)
    (balanced : Balanced c 0 s) (repartition : Repartition c s sizes) :
    ∃ next, s.setPartitionSizes c sizes = some next ∧ Balanced c 0 next := by
  have resized : Resized c sizes s c.partitions
      ((List.range c.partitions).foldl (resize c sizes) (s, 0)) := by
    apply foldl_range (Resized c sizes s)
    · exact ⟨fun _ _ => rfl, fun p lt => absurd lt (Nat.not_lt_zero p),
        fun p lt => absurd lt (Nat.not_lt_zero p), rfl⟩
    · exact fun k r lt holds => holds.step smooth repartition.sum lt
  rw [Vantage.setPartitionSizes]
  obtain ⟨⟨s', linesToTakeAway⟩, loop⟩ :
    ∃ r, (List.range c.partitions).foldl (resize c sizes) (s, 0) = r := ⟨_, rfl⟩
  rw [loop] at resized ⊢
  apply Balanced.takeLines smooth
  have due := resized.due
  dsimp only at due
  constructor
  · rw [Nat.zero_add, due, ← Nat.add_zero c.managed, ← balanced.sum, ← sum_add_distrib]
    refine sum_congr rfl fun p member => ?_
    have := resized.grown p (mem_range.mp member)
    dsimp only at this
    omega
  · rw [sum_congr rfl fun p member => resized.long p (mem_range.mp member)]
    exact repartition.sum
  · rw [← Nat.add_zero c.managed, ← balanced.sum]
    refine sum_le_sum fun p member => ?_
    have grown := resized.grown p (mem_range.mp member)
    have long := resized.long p (mem_range.mp member)
    dsimp only at grown long
    omega
  · intro p lt
    have grown := resized.grown p lt
    have long := resized.long p lt
    have near := repartition.near p lt
    dsimp only at grown long
    omega

/-! ## The other steps -/

structure SameTargets (s s' : Vantage) : Prop where
  target : s'.targetSize = s.targetSize
  long : s'.longTermTargetSize = s.longTermTargetSize

theorem SameTargets.trans {s' s'' : Vantage} (first : SameTargets s s')
    (second : SameTargets s' s'') : SameTargets s s'' where
  target := second.target.trans first.target
  long := second.long.trans first.long

theorem countCandidate_targets {p : Nat} (run : s.countCandidate c p = some next) :
    SameTargets s next := by
  unfold countCandidate at run
  dsimp only at run
  split at run
  · obtain ⟨adjustment, -, run⟩ := Option.bind_eq_some_iff.mp run
    cases Option.some.inj run
    exact ⟨rfl, rfl⟩
  · cases Option.some.inj run
    exact ⟨rfl, rfl⟩

theorem considerDemotion_targets {id : Nat} (run : s.considerDemotion c id = some next) :
    SameTargets s next := by
  have same : SameTargets s s := ⟨rfl, rfl⟩
  unfold considerDemotion at run
  dsimp only at run
  split at run
  · cases Option.some.inj run
    exact same
  split at run
  · cases Option.some.inj run
    exact same
  split at run
  · cases Option.some.inj run
    exact same
  split at run
  · have demoted : SameTargets s (s.demote c id) := ⟨rfl, rfl⟩
    exact demoted.trans (countCandidate_targets run)
  · exact countCandidate_targets run

theorem getBestCandidate_targets {victim : Nat}
    (run : s.getBestCandidate c = some (victim, next)) : SameTargets s next := by
  unfold getBestCandidate at run
  split at run
  · cases run
  · obtain ⟨-, run⟩ := Option.ite_none_right_eq_some.mp run
    obtain ⟨demoted, loop, run⟩ := Option.bind_eq_some_iff.mp run
    obtain ⟨-, same⟩ := Option.ite_none_right_eq_some.mp run
    cases Option.some.inj same
    apply foldlM_keeps (SameTargets s) _ ⟨rfl, rfl⟩ loop
    exact fun id _ mid next before step => before.trans (considerDemotion_targets step)

theorem stamp_targets (c : VantageConfig) (id : Nat) (lt : (s.array id).p < c.partitions) :
    ∃ next, s.stamp c id = some next ∧ SameTargets s next := by
  refine ⟨_, if_pos lt, ?_⟩
  split
  · exact ⟨rfl, rfl⟩
  · exact ⟨rfl, rfl⟩

/-- An update never stops, and keeps the balance. -/
theorem Balanced.update {id p : Nat} {req : MemReq} (smooth : c.smoothTransients = true)
    (balanced : Balanced c 0 s) (region : (s.array id).p ≤ c.partitions)
    (part : c.getPartition req = some p) (lt : p < c.partitions) :
    ∃ next, s.update c id req = some next ∧ Balanced c 0 next := by
  unfold Vantage.update
  simp only [part, Option.bind_eq_bind, Option.bind_some]
  split
  · split
    · obtain ⟨next, run, same⟩ := stamp_targets c id
        (s := ({ s.setLine id { s.array id with ts := s.timestamp } with
          timestamp := s.timestamp + 1 } : Vantage).promote c id p)
        (by simpa [promote, setInfo, setLine] using lt)
      exact ⟨next, run, balanced.congr same.target same.long⟩
    · rename_i managed
      obtain ⟨next, run, same⟩ := stamp_targets c id
        (s := ({ s.setLine id { s.array id with ts := s.timestamp } with
          timestamp := s.timestamp + 1 } : Vantage))
        (by simpa [setLine] using Nat.lt_of_le_of_ne region managed)
      exact ⟨next, run, balanced.congr same.target same.long⟩
  · have filled : Balanced c 0
        (({ s.setLine id { s.array id with ts := s.timestamp } with
          timestamp := s.timestamp + 1 } : Vantage).fill id p) :=
      balanced.congr rfl rfl
    obtain ⟨grown, grew, balanced'⟩ := filled.grow smooth lt
    obtain ⟨next, run, same⟩ := stamp_targets c id (s := grown) (by
      rw [(grow_same grew).array]
      simpa [fill, setInfo, setLine] using lt)
    refine ⟨next, ?_, balanced'.congr same.target same.long⟩
    rw [grew]
    exact run

/-! ## Runs -/

theorem Balanced.start (c : VantageConfig) : Balanced c 0 (init c) := by
  have share : ∀ p ∈ range c.partitions, (init c).targetSize p = c.targetManagedSize / c.partitions :=
    fun p member => by
      simp only [init]
      exact Function.update_of_ne (mem_range.mp member).ne _ _
  have sum : ∑ p ∈ range c.partitions, (init c).targetSize p = c.managed := by
    rw [sum_const_nat share, card_range, VantageConfig.managed]
  constructor
  · exact sum
  · exact sum.le
  · have none : ∑ p ∈ range c.partitions,
        ((init c).targetSize p - (init c).longTermTargetSize p) = 0 :=
      sum_eq_zero fun p _ => Nat.sub_self _
    rw [none]
    exact Nat.zero_le _
  · intro p _
    have same : (init c).longTermTargetSize p = (init c).targetSize p := rfl
    omega

/-- The condition on a step: a repartitioning fits. -/
def FitsManaged (c : VantageConfig) (s : Vantage) : Op → Prop
  | .setPartitionSizes sizes => Repartition c s sizes
  | _ => True

/-- What smooth transients promise in a state. -/
structure Conserved (c : VantageConfig) (s : Vantage) : Prop where
  sum : ∑ p ∈ range c.partitions, s.targetSize p = c.managed
  bounded : ∀ p < c.partitions, s.targetSize p ≤ c.totalSize
  /-- no fill and no repartitioning stops for want of a partition to take a line from -/
  donors : ∀ op, Legal c op → FitsManaged c s op →
    match op with
    | .update _ _ | .setPartitionSizes _ => (s.step c op).isSome = true
    | _ => True

theorem Balanced.conserved (smooth : c.smoothTransients = true) (inv : Inv c s)
    (balanced : Balanced c 0 s) : Conserved c s where
  sum := balanced.sum
  bounded p lt := by
    have one := le_sum lt s.targetSize
    have all := balanced.sum
    have := c.managed_le_size
    omega
  donors op legal fits := by
    cases op with
    | update id req =>
        obtain ⟨bound, p, lt, part⟩ := legal
        obtain ⟨next, run, -⟩ := balanced.update smooth (inv.tallied.region id bound).1 part lt
        exact Option.isSome_of_eq_some run
    | setPartitionSizes sizes =>
        obtain ⟨next, run, -⟩ := balanced.setPartitionSizes smooth fits
        exact Option.isSome_of_eq_some run
    | startReplacement req => trivial
    | recordCandidate id => trivial
    | getBestCandidate => trivial
    | replaced id => trivial

theorem Balanced.step {op : Op} (smooth : c.smoothTransients = true) (inv : Inv c s)
    (balanced : Balanced c 0 s) (legal : Legal c op) (fits : FitsManaged c s op)
    (run : s.step c op = some next) : Balanced c 0 next := by
  cases op with
  | startReplacement req =>
      cases Option.some.inj run
      exact balanced.congr rfl rfl
  | recordCandidate id =>
      obtain ⟨-, same⟩ := Option.ite_none_right_eq_some.mp run
      cases Option.some.inj same
      exact balanced.congr rfl rfl
  | getBestCandidate =>
      obtain ⟨⟨victim, after⟩, best, same⟩ := Option.map_eq_some_iff.mp run
      cases same
      have targets := getBestCandidate_targets best
      exact balanced.congr targets.target targets.long
  | replaced id =>
      cases Option.some.inj run
      exact balanced.congr rfl rfl
  | update id req =>
      obtain ⟨bound, p, lt, part⟩ := legal
      obtain ⟨next', run', done⟩ := balanced.update smooth (inv.tallied.region id bound).1 part lt
      cases Option.some.inj (run.symm.trans run')
      exact done
  | setPartitionSizes sizes =>
      obtain ⟨next', run', done⟩ := balanced.setPartitionSizes smooth fits
      cases Option.some.inj (run.symm.trans run')
      exact done

/-- In every run whose repartitionings fit, the managed space is conserved. -/
theorem managed_conserved (c : VantageConfig) (smooth : c.smoothTransients = true) (ops : List Op)
    {final : Vantage} (legal : (machine c).LegalRun ops (init c))
    (fits : (machine c).Along (FitsManaged c) ops (init c))
    (run : (machine c).exec ops (init c) = some final) : Conserved c final := by
  have keeps : ∀ s op next, Inv c s ∧ Balanced c 0 s → (machine c).legal s op → FitsManaged c s op →
      (machine c).step s op = some next → Inv c next ∧ Balanced c 0 next := by
    intro s op next holds legal fits step
    exact ⟨(holds.1.step legal step).1, holds.2.step smooth holds.1 legal fits step⟩
  obtain ⟨inv, balanced⟩ := Machine.exec_keeps_restrict keeps ⟨Inv.start c, Balanced.start c⟩
    (legal.restrict fits) run
  exact balanced.conserved smooth inv

/-- After a fill by each core, the first one is given a line of the second. -/
def transfer : List Op :=
  [.update 0 ⟨7, 0, 0, 0⟩, .update 1 ⟨8, 1, 0, 0⟩,
    .setPartitionSizes fun p => if p = 0 then 2 else 0]

theorem managed_conserved_two :
    ∃ final, (machine twoCores).exec transfer (init twoCores) = some final ∧
      Conserved twoCores final := by
  refine ⟨_, rfl, managed_conserved twoCores rfl transfer (by decide) ?_ rfl⟩
  refine ⟨trivial, fun mid first => ⟨trivial, fun mid' second => ⟨⟨by decide, ?_⟩, ?_⟩⟩⟩
  · cases Option.some.inj first
    cases Option.some.inj second
    decide
  · exact fun _ _ => trivial

/-- Eight cores in a bank of 1024 lines, of which 870 are managed. -/
def eightCores : VantageConfig where
  partitions := 8
  getPartition := (PartMapper.core 8).getPartition
  totalSize := 1024
  assoc := 16
  targetManagedSize := 870
  partGranularity := 256
  smoothTransients := true
  feedback _ _ _ _ := some .keep
  randInt _ _ := 0
  partitions_pos := by decide
  granularity_pos := defaultBuckets_pos
  lines_word := by decide
  managed_le := by decide
  randInt_le _ n := Nat.zero_le n

/-- The 217 buckets that 85% of 256 make are 868 lines, but the constructor gave only 864 to
the eight partitions.  The first fill of the one that shall grow finds no donor. -/
theorem no_donor :
    ∑ p ∈ range 8, (fun p => if p = 0 then 28 else 27) p ≤ 85 * 256 / 100 ∧
      (machine eightCores).LegalRun
        [.setPartitionSizes fun p => if p = 0 then 28 else 27, .update 0 ⟨7, 0, 0, 0⟩]
        (init eightCores) ∧
      (machine eightCores).exec
        [.setPartitionSizes fun p => if p = 0 then 28 else 27, .update 0 ⟨7, 0, 0, 0⟩]
        (init eightCores) = none := by
  decide

end Vantage

end Zsim.Partition
