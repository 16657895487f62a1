import Mathlib.Algebra.Order.Field.Rat
import Mathlib.Data.Rat.Floor
import Zsim.Lib.Loop
import Zsim.Lib.Count
import Zsim.Lookahead.Model

/-!
# The budget of the partitions

Every round gives at least one bucket to a partition that is not forbidden, whatever the
monitor says, so the loop ends and hands out the whole balance.  It starts from a
minimum for each partition, of which it takes only one from the balance.
-/

set_option autoImplicit false

namespace Zsim.Lookahead

open Finset

variable {d : Doubles}

/-! ## One round -/

theorem getMaxMarginalUtility_spec (monitor : PartitionMonitor) (part partAlloc : Nat)
    {balance : Nat} (pos : 0 < balance) (word : balance + 1 < 2 ^ 32) :
    ∃ mu alloc, getMaxMarginalUtility d monitor part partAlloc balance = some (mu, alloc) ∧
      d.gt mu d.minusOne = true ∧ 0 < alloc ∧ alloc ≤ balance := by
  rw [getMaxMarginalUtility, if_pos word]
  -- the first stride beats the initial value, and a later one is only taken for a quotient
  have found : ∀ n, n ≤ balance → 0 < n →
      let best := (List.range n).foldl
        (fun best k => marginalUtility d monitor part partAlloc best (k + 1)) (d.minusOne, 0)
      d.gt best.1 d.minusOne = true ∧ 0 < best.2 ∧ best.2 ≤ balance := by
    intro n
    induction n with
    | zero => exact fun _ zero => absurd zero (Nat.lt_irrefl 0)
    | succ n ih =>
        intro le _
        simp only [List.range_succ, List.foldl_append, List.foldl_cons, List.foldl_nil]
        have taken : ∀ best : d.Double × Nat, d.gt (d.div (d.ofNat (u32Sub (monitor part partAlloc)
              (monitor part (partAlloc + (n + 1))))) (d.ofNat (n + 1))) best.1 = true →
            marginalUtility d monitor part partAlloc best (n + 1) =
              (d.div (d.ofNat (u32Sub (monitor part partAlloc) (monitor part (partAlloc + (n + 1)))))
                (d.ofNat (n + 1)), n + 1) := fun best better => if_pos better
        cases n with
        | zero =>
            rw [List.range_zero, List.foldl_nil, taken _ (d.quot_gt _ _ (Nat.succ_pos 0))]
            exact ⟨d.quot_gt _ _ (Nat.succ_pos 0), Nat.succ_pos 0, le⟩
        | succ n =>
            have before := ih (Nat.le_of_succ_le le) (Nat.succ_pos n)
            dsimp only at before
            generalize (List.range (n + 1)).foldl (fun best k =>
              marginalUtility d monitor part partAlloc best (k + 1)) (d.minusOne, 0) = best at before ⊢
            cases better : d.gt (d.div (d.ofNat (u32Sub (monitor part partAlloc)
              (monitor part (partAlloc + (n + 1 + 1))))) (d.ofNat (n + 1 + 1))) best.1 with
            | true =>
                rw [taken best better]
                exact ⟨d.quot_gt _ _ (Nat.succ_pos _), Nat.succ_pos _, le⟩
            | false =>
                have kept : marginalUtility d monitor part partAlloc best (n + 1 + 1) = best :=
                  if_neg (by rw [better]; exact Bool.false_ne_true)
                rw [kept]
                exact before
  exact ⟨_, _, rfl, found balance le_rfl pos⟩

def Best.Sound (numPartitions balance : Nat) (forbidden : Nat → Bool) (seen : Nat) (best : Best d) :
    Prop :=
  best.maxMuPart < numPartitions ∧ 0 < best.maxMuAlloc ∧ best.maxMuAlloc ≤ balance ∨
    best.maxMu = d.minusOne ∧ ∀ i < seen, forbidden i = true

theorem round_spec {numPartitions : Nat} {forbidden : Nat → Bool} (monitor : PartitionMonitor)
    {s : Allocation} (allowed : ∃ i < numPartitions, forbidden i = false) (pos : 0 < s.balance)
    (word : s.balance + 1 < 2 ^ 32) :
    ∃ part alloc, part < numPartitions ∧ 0 < alloc ∧ alloc ≤ s.balance ∧
      round d numPartitions forbidden monitor s =
        some ⟨Function.update s.allocs part (u32 (s.allocs part + alloc)), s.balance - alloc⟩ := by
  have start : Best.Sound numPartitions s.balance forbidden 0
      (⟨d.minusOne, numPartitions, 0⟩ : Best d) :=
    Or.inr ⟨rfl, fun i lt => absurd lt (Nat.not_lt_zero i)⟩
  have loop : ∃ final, (List.range numPartitions).foldlM
      (bestOf d forbidden monitor s.allocs s.balance) ⟨d.minusOne, numPartitions, 0⟩ = some final ∧
        Best.Sound numPartitions s.balance forbidden numPartitions final :=
    foldlM_range numPartitions start (fun k best bound sound => by
      unfold bestOf
      split
      case isTrue skip =>
        refine ⟨best, rfl, ?_⟩
        rcases sound with good | ⟨initial, all⟩
        · exact Or.inl good
        · refine Or.inr ⟨initial, fun i lt => ?_⟩
          rcases Nat.lt_succ_iff_lt_or_eq.mp lt with before | rfl
          · exact all i before
          · exact skip
      case isFalse =>
        obtain ⟨mu, alloc, run, better, some', le⟩ :=
          getMaxMarginalUtility_spec (d := d) monitor k (s.allocs k) pos word
        rw [run]
        refine ⟨_, rfl, Or.inl ?_⟩
        rcases sound with good | ⟨initial, -⟩
        · split
          · exact ⟨bound, some', le⟩
          · exact good
        · rw [initial, if_pos better]
          exact ⟨bound, some', le⟩)
  obtain ⟨best, run, good | ⟨-, all⟩⟩ := loop
  · obtain ⟨isPart, some', le⟩ := good
    refine ⟨best.maxMuPart, best.maxMuAlloc, isPart, some', le, ?_⟩
    rw [round, run]
    exact if_pos ⟨isPart, le⟩
  · obtain ⟨i, bound, free⟩ := allowed
    rw [all i bound] at free
    cases free

/-! ## The loop -/

/-- What a round keeps: no partition has less than the minimum, none could overflow with
what is left, and no bucket is lost. -/
structure Budget (numPartitions buckets minAlloc total : Nat) (s : Allocation) : Prop where
  atLeast : ∀ p < numPartitions, minAlloc ≤ s.allocs p
  room : ∀ p < numPartitions, s.allocs p + s.balance ≤ buckets
  total : ∑ p ∈ range numPartitions, s.allocs p + s.balance = total

theorem Budget.give {numPartitions buckets minAlloc total part alloc : Nat} {s : Allocation}
    (budget : Budget numPartitions buckets minAlloc total s) (word : buckets < 2 ^ 32)
    (isPart : part < numPartitions) (le : alloc ≤ s.balance) :
    Budget numPartitions buckets minAlloc total
      ⟨Function.update s.allocs part (u32 (s.allocs part + alloc)), s.balance - alloc⟩ := by
  have roomPart := budget.room part isPart
  have exact' : u32 (s.allocs part + alloc) = s.allocs part + alloc := u32_of_lt (by omega)
  rw [exact']
  refine ⟨fun p bound => ?_, fun p bound => ?_, ?_⟩
  · have := budget.atLeast p bound
    by_cases same : p = part
    · subst same
      simp only [Function.update_self]
      omega
    · simpa only [Function.update_of_ne same] using this
  · have := budget.room p bound
    by_cases same : p = part
    · subst same
      simp only [Function.update_self]
      omega
    · simp only [Function.update_of_ne same]
      omega
  · have change := sum_change isPart (f := s.allocs)
      (g := Function.update s.allocs part (s.allocs part + alloc))
      fun p apart => Function.update_of_ne apart ..
    have before := budget.total
    rw [Function.update_self] at change
    dsimp only
    omega

theorem Budget.rounds {numPartitions buckets minAlloc total : Nat} {forbidden : Nat → Bool}
    (monitor : PartitionMonitor) (allowed : ∃ i < numPartitions, forbidden i = false)
    (word : buckets < 2 ^ 32) {fuel : Nat} {s : Allocation}
    (budget : Budget numPartitions buckets minAlloc total s) (word' : s.balance + 1 < 2 ^ 32)
    (enough : s.balance ≤ fuel) :
    ∃ final, rounds d numPartitions forbidden monitor fuel s = some final ∧ final.balance = 0 ∧
      Budget numPartitions buckets minAlloc total final := by
  induction fuel generalizing s with
  | zero =>
      have zero : s.balance = 0 := by omega
      exact ⟨s, if_pos zero, zero, budget⟩
  | succ fuel ih =>
      by_cases zero : s.balance = 0
      · exact ⟨s, if_pos zero, zero, budget⟩
      · obtain ⟨part, alloc, isPart, some', le, run⟩ :=
          round_spec (d := d) monitor allowed (Nat.pos_of_ne_zero zero) word'
        obtain ⟨final, rest, done, last⟩ := ih (budget.give word isPart le)
          (by dsimp only; omega) (by dsimp only; omega)
        refine ⟨final, ?_, done, last⟩
        rw [Lookahead.rounds, if_neg zero, run]
        exact rest

theorem rounds_more {numPartitions : Nat} {forbidden : Nat → Bool} {monitor : PartitionMonitor}
    {fuel more : Nat} {s final : Allocation} (le : fuel ≤ more)
    (run : rounds d numPartitions forbidden monitor fuel s = some final) :
    rounds d numPartitions forbidden monitor more s = some final := by
  induction fuel generalizing more s with
  | zero =>
      by_cases zero : s.balance = 0
      · cases more with
        | zero => exact run
        | succ more =>
            simp only [rounds, if_pos zero] at run ⊢
            exact run
      · simp only [rounds, if_neg zero] at run
        cases run
  | succ fuel ih =>
      cases more with
      | zero => cases le
      | succ more =>
          rw [rounds] at run ⊢
          split
          case isTrue zero => rwa [if_pos zero] at run
          case isFalse zero =>
            rw [if_neg zero] at run
            obtain ⟨next, first, rest⟩ := Option.bind_eq_some_iff.mp run
            rw [first]
            exact ih (Nat.le_of_succ_le_succ le) rest

theorem computeBestPartitioning_spec {numPartitions buckets minAlloc : Nat}
    {forbidden : Nat → Bool} (monitor : PartitionMonitor)
    (allowed : ∃ i < numPartitions, forbidden i = false) (le : minAlloc ≤ buckets)
    (word : buckets + 1 < 2 ^ 32) :
    ∃ allocs, (∀ fuel, buckets ≤ fuel →
        computeBestPartitioning d numPartitions buckets minAlloc forbidden monitor fuel =
          some allocs) ∧
      (∀ p < numPartitions, minAlloc ≤ allocs p) ∧
      ∑ p ∈ range numPartitions, allocs p = numPartitions * minAlloc + (buckets - minAlloc) := by
  have start : Budget numPartitions buckets minAlloc
      (numPartitions * minAlloc + (buckets - minAlloc)) ⟨fun _ => minAlloc, buckets - minAlloc⟩ := by
    refine ⟨fun _ _ => le_rfl, fun _ _ => ?_, ?_⟩
    · dsimp only
      omega
    · dsimp only
      rw [sum_const, card_range, nsmul_eq_mul, Nat.cast_id]
  have enough : buckets - minAlloc ≤ buckets := Nat.sub_le ..
  obtain ⟨final, run, done, last⟩ := start.rounds (d := d) monitor allowed (by omega)
    (by dsimp only; omega) enough
  refine ⟨final.allocs, fun fuel enough => ?_, last.atLeast, ?_⟩
  · rw [computeBestPartitioning, if_pos le, rounds_more enough run]
    rfl
  · have total := last.total
    rwa [done, Nat.add_zero] at total

/-! ## The ways of a set -/

namespace WayPartReplPolicy

theorem assignWays_spec (p n : Nat) (s : WayPartReplPolicy × Nat) (le : s.2 ≤ s.1.ways) :
    (s.2 + n ≤ s.1.ways → ∃ rp, (List.range n).foldlM (assignWay p) s = some (rp, s.2 + n) ∧
      rp.ways = s.1.ways) ∧
    (s.1.ways < s.2 + n → (List.range n).foldlM (assignWay p) s = none) := by
  induction n with
  | zero => exact ⟨fun _ => ⟨s.1, rfl, rfl⟩, fun lt => absurd lt (Nat.not_lt.mpr le)⟩
  | succ n ih =>
      rw [List.range_succ, List.foldlM_append]
      constructor
      · intro enough
        obtain ⟨rp, run, ways⟩ := ih.1 (by omega)
        rw [run]
        have room : s.2 + n < rp.ways := by omega
        refine ⟨{ rp with wayPartIndex := Function.update rp.wayPartIndex (s.2 + n) p }, ?_, ways⟩
        simp only [List.foldlM_cons, List.foldlM_nil, assignWay, if_pos room,
          Option.bind_eq_bind, Option.bind_some, Option.pure_def, Nat.add_assoc]
      · intro tooMany
        by_cases before : s.2 + n ≤ s.1.ways
        · obtain ⟨rp, run, ways⟩ := ih.1 before
          have full : ¬s.2 + n < rp.ways := by omega
          rw [run]
          simp [assignWay, full]
        · rw [ih.2 (by omega)]
          rfl

theorem setPartitionSizes_iff (waysPart : Nat → Nat) (rp : WayPartReplPolicy) :
    (rp.setPartitionSizes waysPart).isSome = true ↔
      ∑ p ∈ range rp.partitions, waysPart p = rp.ways := by
  have loop : ∀ n, (∑ p ∈ range n, waysPart p ≤ rp.ways →
        ∃ rp', (List.range n).foldlM (assignPartition waysPart) (rp, 0) =
          some (rp', ∑ p ∈ range n, waysPart p) ∧ rp'.ways = rp.ways) ∧
      (rp.ways < ∑ p ∈ range n, waysPart p →
        (List.range n).foldlM (assignPartition waysPart) (rp, 0) = none) := by
    intro n
    induction n with
    | zero => exact ⟨fun _ => ⟨rp, rfl, rfl⟩, fun lt => absurd lt (Nat.not_lt_zero _)⟩
    | succ n ih =>
        rw [List.range_succ, List.foldlM_append, sum_range_succ]
        by_cases fits : ∑ p ∈ range n, waysPart p ≤ rp.ways
        · obtain ⟨rp', run, ways⟩ := ih.1 fits
          have inner := assignWays_spec n (waysPart n)
            ({ rp' with
              targetSize := Function.update rp'.targetSize n
                (u32 (rp'.totalSize * waysPart n) / rp'.ways) }, ∑ p ∈ range n, waysPart p)
            (by dsimp only; omega)
          dsimp only at inner
          rw [ways] at inner
          rw [run]
          simp only [List.foldlM_cons, List.foldlM_nil, Option.bind_eq_bind, Option.bind_some,
            Option.pure_def, Option.bind_fun_some, assignPartition, ways]
          exact inner
        · rw [ih.2 (by omega)]
          exact ⟨fun enough => absurd (Nat.le_trans (Nat.le_add_right _ _) enough) fits, fun _ => rfl⟩
  rw [setPartitionSizes]
  rcases Nat.lt_trichotomy (∑ p ∈ range rp.partitions, waysPart p) rp.ways with less | same | more
  · obtain ⟨rp', run, -⟩ := (loop rp.partitions).1 (Nat.le_of_lt less)
    rw [run]
    simp [less.ne]
  · obtain ⟨rp', run, -⟩ := (loop rp.partitions).1 same.le
    rw [run]
    simp [same]
  · rw [(loop rp.partitions).2 more]
    simp [more.ne']

end WayPartReplPolicy

/-! ## The whole partitioning -/

namespace LookaheadPartitioner

/-- What the caller relies on: the loop ends without a wrap, each partition has its minimum,
the sum is the portion of the buckets, and a way-partitioned cache whose buckets are its
ways accepts the allocation when the portion is all of them. -/
def KeepsBudget (l : LookaheadPartitioner d) (monitor : PartitionMonitor) : Prop :=
  ∃ allocs enough, (∀ fuel, enough ≤ fuel → l.partition monitor fuel = some allocs) ∧
    (∀ p < l.numPartitions, l.minAlloc ≤ allocs p) ∧
    ∑ p ∈ range l.numPartitions, allocs p = l.allocBuckets ∧
    (l.allocPortion = d.one → ∀ rp : WayPartReplPolicy, rp.partitions = l.numPartitions →
      rp.ways = l.buckets → (rp.setPartitionSizes allocs).isSome = true)

/-- The budget is kept if and only if at most one minimum is to be taken from it, and
`curAllocs` has an entry for each partition. -/
theorem keepsBudget_iff (l : LookaheadPartitioner d) (monitor : PartitionMonitor)
    (some' : 1 ≤ l.numPartitions) (word : l.buckets < 2 ^ 32)
    (portion : d.ge l.allocPortion d.zero = true ∧ d.gt l.allocPortion d.one = false)
    (minimum : l.minAlloc * l.numPartitions ≤ l.allocBuckets)
    (allowed : ∃ p < l.numPartitions, l.forbidden p = false) :
    l.KeepsBudget monitor ↔
      (l.minAlloc = 0 ∨ l.numPartitions = 1) ∧ l.numPartitions ≤ u32 (l.buckets + 1) := by
  have le : l.allocBuckets ≤ l.buckets := d.mul_le _ _ word portion.1 portion.2
  have exact' : u32 (l.minAlloc * l.numPartitions) = l.minAlloc * l.numPartitions :=
    u32_of_lt (by omega)
  by_cases entries : l.numPartitions ≤ u32 (l.buckets + 1)
  · have last : l.buckets ≠ 2 ^ 32 - 1 := by
      intro all
      rw [all] at entries
      exact absurd (Nat.le_trans some' entries) (by decide)
    obtain ⟨allocs, run, atLeast, total⟩ := computeBestPartitioning_spec (d := d) monitor allowed
      minimum (by omega)
    have partition : ∀ fuel, l.allocBuckets ≤ fuel → l.partition monitor fuel = some allocs := by
      intro fuel enough
      rw [LookaheadPartitioner.partition, exact', run fuel enough]
      exact if_pos entries
    have sum : ∑ p ∈ range l.numPartitions, allocs p = l.allocBuckets ↔
        l.minAlloc = 0 ∨ l.numPartitions = 1 := by
      have taken : l.numPartitions * (l.minAlloc * l.numPartitions) =
          l.minAlloc * l.numPartitions ↔ l.minAlloc = 0 ∨ l.numPartitions = 1 := by
        constructor
        · intro same
          by_cases none : l.minAlloc = 0
          · exact Or.inl none
          · have pos : 0 < l.minAlloc * l.numPartitions :=
              Nat.mul_pos (Nat.pos_of_ne_zero none) some'
            exact Or.inr (Nat.eq_of_mul_eq_mul_right pos (by rw [same, Nat.one_mul]))
        · rintro (none | one)
          · rw [none, Nat.zero_mul, Nat.mul_zero]
          · rw [one, Nat.one_mul]
      rw [total, ← taken]
      omega
    constructor
    · rintro ⟨allocs', enough, run', -, total', -⟩
      have same : allocs' = allocs := Option.some.inj
        ((run' (max enough l.allocBuckets) (Nat.le_max_left _ _)).symm.trans
          (partition _ (Nat.le_max_right _ _)))
      rw [same] at total'
      exact ⟨sum.mp total', entries⟩
    · rintro ⟨atMostOne, -⟩
      have total' := sum.mpr atMostOne
      refine ⟨allocs, l.allocBuckets, partition, fun p bound => ?_, total', ?_⟩
      · refine Nat.le_trans ?_ (atLeast p bound)
        exact Nat.le_mul_of_pos_right _ some'
      · intro all rp partitions ways
        rw [WayPartReplPolicy.setPartitionSizes_iff, partitions, ways, total', allocBuckets, all]
        exact d.one_mul _ word
  · refine iff_of_false ?_ fun both => entries both.2
    rintro ⟨allocs, enough, run, -⟩
    have ran := run enough le_rfl
    rw [LookaheadPartitioner.partition] at ran
    obtain ⟨bestAllocs, -, ran⟩ := Option.bind_eq_some_iff.mp ran
    rw [if_neg entries] at ran
    cases ran

/-- Rationals, on which the small quotients of the runs below are exact. -/
def rationals : Doubles where
  Double := ℚ
  ofNat n := n
  toNat q := ⌊q⌋.toNat
  mul := (· * ·)
  div := (· / ·)
  gt a b := decide (b < a)
  ge a b := decide (b ≤ a)
  minusOne := -1
  zero := 0
  one := 1
  quot_gt a i _ := by
    have : (0 : ℚ) ≤ a / i := div_nonneg (Nat.cast_nonneg a) (Nat.cast_nonneg i)
    exact decide_eq_true (lt_of_lt_of_le (by decide) this)
  one_mul n _ := by
    rw [one_mul, Int.floor_natCast, Int.toNat_natCast]
  mul_le x n _ _ le := by
    have atMost : x ≤ 1 := not_lt.mp (of_decide_eq_false le)
    have product : x * n ≤ n := mul_le_of_le_one_left (Nat.cast_nonneg n) atMost
    have floor := Int.floor_mono product
    rw [Int.floor_natCast] at floor
    omega

def single : LookaheadPartitioner rationals := ⟨1, 4, 1, (1 : ℚ), fun _ => false⟩

theorem keepsBudget_single : (single.KeepsBudget fun _ _ => 0) ↔
    (single.minAlloc = 0 ∨ single.numPartitions = 1) ∧
      single.numPartitions ≤ u32 (single.buckets + 1) :=
  single.keepsBudget_iff (fun _ _ => 0) (by decide) (by decide) (by decide +kernel)
    (by decide +kernel) ⟨0, by decide, rfl⟩

/-- Two partitions of four ways, each with a minimum of one way. -/
def pair : LookaheadPartitioner rationals := ⟨2, 4, 1, (1 : ℚ), fun _ => false⟩

/-- With a flat miss curve the partitions get six of the four ways. -/
theorem pair_exceeds_budget :
    pair.allocBuckets = 4 ∧
      (pair.partition (fun _ _ => 0) 4).map (fun allocs => ∑ p ∈ range 2, allocs p) = some 6 ∧
      ((pair.partition (fun _ _ => 0) 4).bind fun allocs =>
        WayPartReplPolicy.setPartitionSizes allocs ⟨2, 4, 4, fun _ => 0, fun _ => 0⟩).isNone = true := by
  decide +kernel

end LookaheadPartitioner

end Zsim.Lookahead
