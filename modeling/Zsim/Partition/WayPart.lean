import Zsim.Lib.Loop
import Zsim.Lib.Machine
import Zsim.Lib.Count
import Zsim.Lib.Word
import Zsim.Lookahead.Budget
import Zsim.Partition.Mapper

/-!
# Way partitioning

`WayPartReplPolicy` of part_repl_policies.h: the lines of each way go to the partition
that owns the way.  The counters of hits, misses and evictions are left out, and of the
monitor only the assertion on the partition is kept.
-/

set_option autoImplicit false

namespace Zsim.Partition

open Finset Lookahead

structure WayPartConfig where
  mapper : PartMapper
  lines : Nat
  ways : Nat
  /-- drives the partitioner, but does not partition -/
  testMode : Bool
  partitions_pos : 0 < mapper.getNumPartitions
  ways_pos : 0 < ways
  /-- the assertion of the constructor -/
  noPartialWays : lines / ways * ways = lines

structure WayPartInfo where
  addr : Nat
  /-- 0 if the line is empty -/
  ts : Nat
  p : Nat

structure WayPart where
  /-- `partitions`, `ways`, `totalSize`, the `targetSize` of each partition and `wayPartIndex` -/
  rp : WayPartReplPolicy
  size : Nat → Nat
  array : Nat → WayPartInfo
  /-- `none` is -1 -/
  bestId : Option Nat
  candIdx : Nat
  /-- `none` before the first replacement, when it is not initialised -/
  incomingLinePart : Option Nat
  incomingLineAddr : Nat
  timestamp : Nat

namespace WayPart

def init (c : WayPartConfig) : WayPart where
  rp :=
    { partitions := c.mapper.getNumPartitions
      ways := c.ways
      totalSize := c.lines
      targetSize := fun p => c.lines / c.ways *
        ((range c.ways).filter fun w => u32 (w * c.mapper.getNumPartitions) / c.ways = p).card
      wayPartIndex := fun w => u32 (w * c.mapper.getNumPartitions) / c.ways }
  size := Function.update (fun _ => 0) 0 c.lines
  array _ := ⟨0, 0, 0⟩
  bestId := none
  candIdx := 0
  incomingLinePart := none
  incomingLineAddr := 0
  timestamp := 1

/-- The line of a miss moves between the counters. -/
def moveLine (size : Nat → Nat) (oldPart newPart : Nat) : Nat → Nat :=
  if oldPart ≠ newPart then incr (decr size oldPart) newPart else size

def setLine (s : WayPart) (id : Nat) (e : WayPartInfo) : WayPart :=
  { s with array := Function.update s.array id e }

/-- The end of `update`, with the assertion of `UMonMonitor::access`. -/
def stamp (c : WayPartConfig) (s : WayPart) (id p : Nat) : Option WayPart :=
  let s' := s.setLine id { s.array id with ts := s.timestamp, p := p }
  if p < c.mapper.getNumPartitions then some { s' with timestamp := s.timestamp + 1 } else none

def update (c : WayPartConfig) (s : WayPart) (id : Nat) : Option WayPart :=
  let e := s.array id
  if 0 < e.ts then s.stamp c id e.p
  else do
    let newPart ← s.incomingLinePart
    { s with size := moveLine s.size e.p newPart }.stamp c id newPart

def startReplacement (c : WayPartConfig) (s : WayPart) (req : MemReq) : Option WayPart :=
  if s.candIdx = 0 ∧ s.bestId = none then do
    let p ← c.mapper.getPartition req
    some { s with incomingLinePart := some p, incomingLineAddr := req.lineAddr }
  else none

/-- A way that the incoming line can fill. -/
def MayFill (c : WayPartConfig) (s : WayPart) (way : Nat) : Prop :=
  c.testMode = true ∨ some (s.rp.wayPartIndex way) = s.incomingLinePart

instance (c : WayPartConfig) (s : WayPart) (way : Nat) : Decidable (s.MayFill c way) :=
  inferInstanceAs (Decidable (_ ∨ _))

/-- The candidate is better than the best so far. -/
def beats (c : WayPartConfig) (s : WayPart) (cand best : WayPartInfo) : Bool :=
  if c.testMode ∨ some cand.p = s.incomingLinePart ∧ some best.p = s.incomingLinePart then
    cand.ts < best.ts
  else if some cand.p = s.incomingLinePart then false
  else if some best.p = s.incomingLinePart then true
  else cand.ts < best.ts

/-- A line id as an `int32_t`, which is negative from 2^31 on. -/
def asBestId (id : Nat) : Option Nat := if id < 2 ^ 31 then some id else none

/-- `bestId` after the candidate of the next way. -/
def rank (c : WayPartConfig) (s : WayPart) (id : Nat) : Option Nat :=
  if s.MayFill c s.candIdx then
    match s.bestId with
    | none => asBestId id
    | some best => if s.beats c (s.array id) (s.array best) then asBestId id else some best
  else s.bestId

def recordCandidate (c : WayPartConfig) (s : WayPart) (id : Nat) : Option WayPart :=
  if s.candIdx < c.ways then
    some { s with bestId := s.rank c id, candIdx := s.candIdx + 1 }
  else none

def getBestCandidate (s : WayPart) : Option Nat := s.bestId

def replaced (s : WayPart) (id : Nat) : WayPart :=
  { s.setLine id { s.array id with ts := 0, addr := s.incomingLineAddr } with
    candIdx := 0
    bestId := none }

def setPartitionSizes (s : WayPart) (waysPart : Nat → Nat) : Option WayPart := do
  let rp ← s.rp.setPartitionSizes waysPart
  some { s with rp := rp }

inductive Op where
  | startReplacement (req : MemReq)
  | recordCandidate (id : Nat)
  | getBestCandidate
  | replaced (id : Nat)
  | update (id : Nat)
  | setPartitionSizes (waysPart : Nat → Nat)

def step (c : WayPartConfig) (s : WayPart) : Op → Option WayPart
  | .startReplacement req => s.startReplacement c req
  | .recordCandidate id => s.recordCandidate c id
  | .getBestCandidate => s.getBestCandidate.map fun _ => s
  | .replaced id => some (s.replaced id)
  | .update id => s.update c id
  | .setPartitionSizes waysPart => s.setPartitionSizes waysPart

/-- What the array, the cache and the partitioner promise.  The candidates of a set are
recorded in the order of their ways, the victim is taken from all of them, and sizes are
set between two replacements. -/
def Legal (c : WayPartConfig) (s : WayPart) : Op → Prop
  | .startReplacement req =>
    s.candIdx = 0 ∧ s.bestId = none ∧ c.mapper.InRange req ∧ ¬ c.mapper.Masked req
  | .recordCandidate id => id < c.lines ∧ s.candIdx < c.ways ∧ id % c.ways = s.candIdx
  | .getBestCandidate => s.candIdx = c.ways ∧ ∃ w < c.ways, s.MayFill c w
  | .replaced id => id < c.lines
  | .update id => id < c.lines ∧ (0 < (s.array id).ts ∨ s.incomingLinePart.isSome = true)
  | .setPartitionSizes waysPart =>
    s.candIdx = 0 ∧ ∑ p ∈ range c.mapper.getNumPartitions, waysPart p = c.ways

instance (c : WayPartConfig) (s : WayPart) : (op : Op) → Decidable (s.Legal c op)
  | .startReplacement req => inferInstanceAs (Decidable
      (s.candIdx = 0 ∧ s.bestId = none ∧ c.mapper.InRange req ∧ ¬ c.mapper.Masked req))
  | .recordCandidate id => inferInstanceAs (Decidable
      (id < c.lines ∧ s.candIdx < c.ways ∧ id % c.ways = s.candIdx))
  | .getBestCandidate => inferInstanceAs (Decidable
      (s.candIdx = c.ways ∧ ∃ w < c.ways, s.MayFill c w))
  | .replaced id => inferInstanceAs (Decidable (id < c.lines))
  | .update id => inferInstanceAs (Decidable
      (id < c.lines ∧ (0 < (s.array id).ts ∨ s.incomingLinePart.isSome = true)))
  | .setPartitionSizes waysPart => inferInstanceAs (Decidable
      (s.candIdx = 0 ∧ ∑ p ∈ range c.mapper.getNumPartitions, waysPart p = c.ways))

def machine (c : WayPartConfig) : Machine WayPart Op where
  legal := Legal c
  step := step c

instance (c : WayPartConfig) (s : WayPart) (op : Op) : Decidable ((machine c).legal s op) :=
  inferInstanceAs (Decidable (s.Legal c op))

/-- Once all candidates are recorded, the victim is in a way of the partition of the
incoming line, if it owns one. -/
def VictimInOwnWay (c : WayPartConfig) (s : WayPart) : Prop :=
  s.candIdx = c.ways → (∃ w < c.ways, some (s.rp.wayPartIndex w) = s.incomingLinePart) →
    ∃ id < c.lines, s.getBestCandidate = some id ∧
      some (s.rp.wayPartIndex (id % c.ways)) = s.incomingLinePart

/-- What the accounting promises in a state. -/
structure Accounted (c : WayPartConfig) (s : WayPart) : Prop where
  inRange : ∀ id < c.lines, (s.array id).p < c.mapper.getNumPartitions
  counted : ∀ p < c.mapper.getNumPartitions,
    s.size p = countIn (range c.lines) s.array fun e => e.p = p
  total : ∑ p ∈ range c.mapper.getNumPartitions, s.size p = c.lines
  victim : c.testMode = false → s.VictimInOwnWay c
  victimFound : c.testMode = true → s.candIdx = c.ways → s.getBestCandidate ≠ none

/-- The counters are right, and the best candidate is one that may be filled among those
recorded so far. -/
structure Inv (c : WayPartConfig) (s : WayPart) : Prop where
  partitions : s.rp.partitions = c.mapper.getNumPartitions
  ways : s.rp.ways = c.ways
  tally : Tally (range c.lines) s.array WayPartInfo.p s.size
  inRange : ∀ id < c.lines, (s.array id).p < c.mapper.getNumPartitions
  incoming : ∀ p, s.incomingLinePart = some p → p < c.mapper.getNumPartitions
  best : ∀ id, s.bestId = some id → id < c.lines ∧ id % c.ways < s.candIdx ∧
    s.MayFill c (id % c.ways)
  found : ∀ w < s.candIdx, s.MayFill c w → s.bestId ≠ none

variable {c : WayPartConfig} {s next : WayPart}

theorem Inv.start : (init c).Inv c where
  partitions := rfl
  ways := rfl
  tally := by
    have all := Tally.single (range c.lines) (init c).array WayPartInfo.p 0
      fun _ _ => rfl
    rwa [card_range] at all
  inRange _ _ := c.partitions_pos
  incoming p h := by cases h
  best id h := by cases h
  found w lt := absurd lt (Nat.not_lt_zero w)

theorem Inv.accounted (inv : s.Inv c) : s.Accounted c where
  inRange := inv.inRange
  counted p _ := inv.tally p
  total := by
    rw [inv.tally.sum_eq, card_range]
    intro id member
    exact mem_range.mpr (inv.inRange id (mem_range.mp member))
  victim := by
    rintro real all ⟨w, lt, owns⟩
    obtain ⟨id, best⟩ := Option.ne_none_iff_exists'.mp (inv.found w (by omega) (.inr owns))
    obtain ⟨bound, -, fills⟩ := inv.best id best
    refine ⟨id, bound, best, fills.resolve_left ?_⟩
    rw [real]
    exact Bool.false_ne_true
  victimFound := by
    intro test all
    have pos := c.ways_pos
    exact inv.found 0 (by omega) (.inl test)

theorem Inv.setLine (inv : s.Inv c) {id : Nat} (bound : id < c.lines) {e : WayPartInfo}
    (same : e.p = (s.array id).p) : (s.setLine id e).Inv c where
  partitions := inv.partitions
  ways := inv.ways
  tally := inv.tally.write_same (mem_range.mpr bound) same
  inRange other lt := by
    simp only [WayPart.setLine, Function.update_apply]
    split
    · rw [same]
      exact inv.inRange id bound
    · exact inv.inRange other lt
  incoming := inv.incoming
  best := inv.best
  found := inv.found

theorem Inv.moveLine (inv : s.Inv c) {id newPart : Nat} (bound : id < c.lines)
    (fits : c.lines ≤ 2 ^ 31) (inRange : newPart < c.mapper.getNumPartitions)
    {e : WayPartInfo} (part : e.p = newPart) :
    ({ s with size := moveLine s.size (s.array id).p newPart }.setLine id e).Inv c where
  partitions := inv.partitions
  ways := inv.ways
  tally := by
    apply inv.tally.write (mem_range.mpr bound)
    intro p
    have pos := inv.tally.pos (mem_range.mpr bound)
    have below := fun p => (inv.tally.le_card p).trans (card_range c.lines).le
    have here := below (s.array id).p
    have there := below newPart
    rw [part]
    by_cases same : (s.array id).p = newPart
    · simp [WayPart.setLine, WayPart.moveLine, same]
    · have left := decr_add pos (by omega) p
      have joined := incr_eq (decr s.size (s.array id).p) newPart (by
        have := decr_add pos (by omega) newPart
        omega) p
      simp only [WayPart.setLine, WayPart.moveLine, if_pos same]
      omega
  inRange other lt := by
    simp only [WayPart.setLine, Function.update_apply]
    split
    · rw [part]
      exact inRange
    · exact inv.inRange other lt
  incoming := inv.incoming
  best := inv.best
  found := inv.found

theorem Inv.stamp {id p : Nat}
    (inv : (s.setLine id { s.array id with ts := s.timestamp, p := p }).Inv c)
    (inRange : p < c.mapper.getNumPartitions) :
    ∃ next, s.stamp c id p = some next ∧ next.Inv c :=
  ⟨_, if_pos inRange, { inv with }⟩

theorem Inv.update (inv : s.Inv c) (fits : c.lines ≤ 2 ^ 31) {id : Nat} (bound : id < c.lines)
    (filled : 0 < (s.array id).ts ∨ s.incomingLinePart.isSome = true) :
    ∃ next, s.update c id = some next ∧ next.Inv c := by
  by_cases hit : 0 < (s.array id).ts
  · simp only [WayPart.update, if_pos hit]
    apply Inv.stamp _ (inv.inRange id bound)
    exact inv.setLine bound rfl
  · obtain ⟨newPart, incoming⟩ := Option.isSome_iff_exists.mp (filled.resolve_left hit)
    have inRange := inv.incoming newPart incoming
    simp only [WayPart.update, if_neg hit, incoming, Option.bind_eq_bind, Option.bind_some]
    apply Inv.stamp _ inRange
    rw [← incoming]
    exact inv.moveLine bound fits inRange rfl

theorem Inv.startReplacement (inv : s.Inv c) {req : MemReq} (first : s.candIdx = 0)
    (none : s.bestId = none) (inRange : c.mapper.InRange req) (unmasked : ¬ c.mapper.Masked req) :
    ∃ next, s.startReplacement c req = some next ∧ next.Inv c := by
  obtain ⟨p, part, lt⟩ := PartMapper.getPartition_lt inRange unmasked
  refine ⟨{ s with incomingLinePart := some p, incomingLineAddr := req.lineAddr }, ?_, ?_⟩
  · simp [WayPart.startReplacement, first, none, part]
  · refine { inv with incoming := ?_, best := ?_, found := ?_ }
    · intro other same
      cases Option.some.inj same
      exact lt
    · intro id best
      rw [none] at best
      cases best
    · intro w before
      rw [first] at before
      exact absurd before (Nat.not_lt_zero w)

theorem rank_cases {id : Nat} (named : asBestId id = some id) :
    (s.rank c id = some id ∧ s.MayFill c s.candIdx) ∨
      (s.rank c id = s.bestId ∧ (s.MayFill c s.candIdx → s.bestId ≠ none)) := by
  unfold rank
  by_cases fills : s.MayFill c s.candIdx
  · rw [if_pos fills, named]
    cases s.bestId with
    | none => exact .inl ⟨rfl, fills⟩
    | some best =>
        dsimp only
        by_cases better : s.beats c (s.array id) (s.array best) = true
        · rw [if_pos better]
          exact .inl ⟨rfl, fills⟩
        · rw [if_neg better]
          exact .inr ⟨rfl, fun _ => Option.some_ne_none best⟩
  · rw [if_neg fills]
    exact .inr ⟨rfl, fun yes => absurd yes fills⟩

theorem Inv.recordCandidate (inv : s.Inv c) (fits : c.lines ≤ 2 ^ 31) {id : Nat}
    (bound : id < c.lines) (room : s.candIdx < c.ways) (way : id % c.ways = s.candIdx) :
    ∃ next, s.recordCandidate c id = some next ∧ next.Inv c := by
  have named : asBestId id = some id := if_pos (by omega)
  refine ⟨{ s with bestId := s.rank c id, candIdx := s.candIdx + 1 }, if_pos room, ?_⟩
  rcases rank_cases (c := c) (s := s) named with ⟨taken, fills⟩ | ⟨kept, before⟩
  · refine { inv with best := ?_, found := ?_ }
    · intro best same
      cases Option.some.inj (taken.symm.trans same)
      exact ⟨bound, by dsimp only; omega, by rw [way]; exact fills⟩
    · intro w _ _
      rw [taken]
      exact Option.some_ne_none id
  · refine { inv with best := ?_, found := ?_ }
    · intro best same
      obtain ⟨lt, earlier, fills⟩ := inv.best best (kept.symm.trans same)
      exact ⟨lt, Nat.lt_succ_of_lt earlier, fills⟩
    · intro w lt fills
      rw [kept]
      rcases Nat.lt_succ_iff_lt_or_eq.mp lt with earlier | same
      · exact inv.found w earlier fills
      · subst same
        exact before fills

theorem Inv.replaced (inv : s.Inv c) {id : Nat} (bound : id < c.lines) :
    (s.replaced id).Inv c := by
  have kept := inv.setLine bound
    (e := { s.array id with ts := 0, addr := s.incomingLineAddr }) rfl
  refine { kept with best := ?_, found := ?_ }
  · intro best none
    cases none
  · intro w before
    exact absurd before (Nat.not_lt_zero w)

theorem setPartitionSizes_shape {rp final : WayPartReplPolicy} {waysPart : Nat → Nat}
    (run : rp.setPartitionSizes waysPart = some final) :
    final.partitions = rp.partitions ∧ final.ways = rp.ways := by
  obtain ⟨⟨last, curWay⟩, loop, rest⟩ := Option.bind_eq_some_iff.mp run
  have shape : last.partitions = rp.partitions ∧ last.ways = rp.ways := by
    apply foldlM_keeps (fun s => s.1.partitions = rp.partitions ∧ s.1.ways = rp.ways)
      _ ⟨rfl, rfl⟩ loop
    intro p _ s next holds inner
    apply foldlM_keeps (fun s => s.1.partitions = rp.partitions ∧ s.1.ways = rp.ways)
      _ _ inner
    · intro w _ s next holds step
      obtain ⟨-, same⟩ := Option.ite_none_right_eq_some.mp step
      cases Option.some.inj same
      exact holds
    · exact holds
  obtain ⟨-, same⟩ := Option.ite_none_right_eq_some.mp rest
  cases Option.some.inj same
  exact shape

theorem Inv.setPartitionSizes (inv : s.Inv c) {waysPart : Nat → Nat} (between : s.candIdx = 0)
    (all : ∑ p ∈ range c.mapper.getNumPartitions, waysPart p = c.ways) :
    ∃ next, s.setPartitionSizes waysPart = some next ∧ next.Inv c := by
  have done : (s.rp.setPartitionSizes waysPart).isSome = true := by
    rw [WayPartReplPolicy.setPartitionSizes_iff, inv.partitions, inv.ways, all]
  obtain ⟨rp, run⟩ := Option.isSome_iff_exists.mp done
  obtain ⟨partitions, ways⟩ := setPartitionSizes_shape run
  refine ⟨{ s with rp := rp }, by simp [WayPart.setPartitionSizes, run], ?_⟩
  refine { inv with partitions := ?_, ways := ?_, best := ?_, found := ?_ }
  · exact partitions.trans inv.partitions
  · exact ways.trans inv.ways
  · intro id best
    have earlier := (inv.best id best).2.1
    rw [between] at earlier
    exact absurd earlier (Nat.not_lt_zero _)
  · intro w before
    dsimp only at before
    rw [between] at before
    exact absurd before (Nat.not_lt_zero w)

theorem preserves (fits : c.lines ≤ 2 ^ 31) : (machine c).Preserves (Inv c) := by
  intro s op inv legal
  cases op with
  | startReplacement req => exact inv.startReplacement legal.1 legal.2.1 legal.2.2.1 legal.2.2.2
  | recordCandidate id => exact inv.recordCandidate fits legal.1 legal.2.1 legal.2.2
  | getBestCandidate =>
      obtain ⟨all, w, lt, fills⟩ := legal
      obtain ⟨id, best⟩ := Option.ne_none_iff_exists'.mp (inv.found w (by omega) fills)
      refine ⟨s, ?_, inv⟩
      simp [machine, step, getBestCandidate, best]
  | replaced id => exact ⟨_, rfl, inv.replaced legal⟩
  | update id => exact inv.update fits legal.1 legal.2
  | setPartitionSizes waysPart => exact inv.setPartitionSizes legal.1 legal.2

/-- Every run passes all assertions and leaves the accounting right. -/
theorem ways_accounted (c : WayPartConfig) (fits : c.lines ≤ 2 ^ 31) (ops : List Op)
    (legal : (machine c).LegalRun ops (init c)) :
    ∃ final, (machine c).exec ops (init c) = some final ∧ final.Accounted c := by
  obtain ⟨final, run, inv⟩ := (preserves fits).exec Inv.start legal
  exact ⟨final, run, inv.accounted⟩

/-! ## Runs on fixed inputs -/

/-- The run of one replacement: the candidates are the lines `first`, `first + 1`, ... -/
def replacement (req : MemReq) (first ways : Nat) : List Op :=
  .startReplacement req :: (List.range ways).map fun w => .recordCandidate (first + w)

def sharedByTwo (testMode : Bool) : WayPartConfig where
  mapper := .core 2
  lines := 4
  ways := 2
  testMode := testMode
  partitions_pos := Nat.two_pos
  ways_pos := Nat.two_pos
  noPartialWays := rfl

theorem ways_accounted_shared :
    (machine (sharedByTwo false)).LegalRun
        (replacement ⟨7, 1, 0, 0⟩ 2 2 ++ [.getBestCandidate, .replaced 3, .update 3])
        (init (sharedByTwo false)) ∧
      ∃ final, (machine (sharedByTwo false)).exec
        (replacement ⟨7, 1, 0, 0⟩ 2 2 ++ [.getBestCandidate, .replaced 3, .update 3])
        (init (sharedByTwo false)) = some final ∧ final.Accounted (sharedByTwo false) := by
  have legal : (machine (sharedByTwo false)).LegalRun
      (replacement ⟨7, 1, 0, 0⟩ 2 2 ++ [.getBestCandidate, .replaced 3, .update 3])
      (init (sharedByTwo false)) := by
    decide
  exact ⟨legal, ways_accounted (sharedByTwo false) (by decide) _ legal⟩

def instrAndData : WayPartConfig where
  mapper := .instrData
  lines := 4
  ways := 2
  testMode := false
  partitions_pos := Nat.two_pos
  ways_pos := Nat.two_pos
  noPartialWays := rfl

/-- A direct-mapped bank with one line more than an `int32_t` can number. -/
def hugeBank : WayPartConfig where
  mapper := .core 2
  lines := 2 ^ 31 + 1
  ways := 1
  testMode := false
  partitions_pos := Nat.two_pos
  ways_pos := Nat.one_pos
  noPartialWays := by decide

/-- In test mode the victim is taken from any way.  A line number that does not fit is no
victim, and an instruction fetch of `InstrDataPartMapper` has no way at all. -/
theorem victim_not_in_own_way :
    (∃ final, (machine (sharedByTwo true)).LegalRun (replacement ⟨7, 1, 0, 0⟩ 2 2)
        (init (sharedByTwo true)) ∧
      (machine (sharedByTwo true)).exec (replacement ⟨7, 1, 0, 0⟩ 2 2)
        (init (sharedByTwo true)) = some final ∧ ¬ final.VictimInOwnWay (sharedByTwo true)) ∧
    (∃ final, (machine hugeBank).LegalRun (replacement ⟨7, 0, 0, 0⟩ (2 ^ 31) 1) (init hugeBank) ∧
      (machine hugeBank).exec (replacement ⟨7, 0, 0, 0⟩ (2 ^ 31) 1) (init hugeBank) =
        some final ∧ ¬ final.VictimInOwnWay hugeBank) ∧
    instrAndData.mapper.InRange ⟨7, 0, MemReq.IFETCH, 0⟩ ∧
      (machine instrAndData).exec (replacement ⟨7, 0, MemReq.IFETCH, 0⟩ 0 2 ++ [.getBestCandidate])
        (init instrAndData) = none := by
  refine ⟨⟨_, by decide, rfl, ?_⟩, ⟨_, by decide, rfl, ?_⟩, trivial, by decide⟩
  · intro own
    obtain ⟨id, -, best, assigned⟩ := own rfl ⟨1, by decide, by decide⟩
    cases Option.some.inj best
    revert assigned
    decide
  · intro own
    obtain ⟨id, -, best, -⟩ := own rfl ⟨0, by decide, by decide⟩
    cases best

end WayPart

end Zsim.Partition
