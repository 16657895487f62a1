import Zsim.Lib.Loop
import Zsim.Partition.Vantage

/-!
# The regions of Vantage

Every line is counted in the region of its `p` and in that of its `op`.  Demotion and
promotion move only `p`, a fill moves both, and nothing else touches the counters.
-/

set_option autoImplicit false

namespace Zsim.Partition.Vantage

open Finset

structure Tallied (c : VantageConfig) (s : Vantage) : Prop where
  size : Tally (range c.totalSize) s.array LineInfo.p s.size
  extended : Tally (range c.totalSize) s.array LineInfo.op s.extendedSize
  region : ∀ id < c.totalSize, (s.array id).p ≤ c.partitions ∧ (s.array id).op ≤ c.partitions

/-- A line with a timestamp was filled, and its `op` is a partition. -/
def Filled (c : VantageConfig) (e : LineInfo) : Prop := 0 < e.ts → e.op < c.partitions

/-- What a step leaves in order, and that no line loses its `op`. -/
structure Keeps (c : VantageConfig) (s s' : Vantage) : Prop where
  tallied : Tallied c s → Tallied c s'
  filled : ∀ id, Filled c (s.array id) → Filled c (s'.array id)
  op : ∀ id, (s.array id).op < c.partitions → (s'.array id).op < c.partitions
  candList : s'.candList = s.candList

structure SameLines (s s' : Vantage) : Prop where
  size : s'.size = s.size
  extendedSize : s'.extendedSize = s.extendedSize
  array : s'.array = s.array
  candList : s'.candList = s.candList

variable {c : VantageConfig} {s s' next : Vantage}

theorem SameLines.trans {s'' : Vantage} (first : SameLines s s') (second : SameLines s' s'') :
    SameLines s s'' where
  size := second.size.trans first.size
  extendedSize := second.extendedSize.trans first.extendedSize
  array := second.array.trans first.array
  candList := second.candList.trans first.candList

theorem SameLines.keeps (same : SameLines s s') : Keeps c s s' where
  tallied tallied :=
    { size := by
        rw [same.array, same.size]
        exact tallied.size
      extended := by
        rw [same.array, same.extendedSize]
        exact tallied.extended
      region := by
        rw [same.array]
        exact tallied.region }
  filled id filled := by
    rw [same.array]
    exact filled
  op id lt := by
    rw [same.array]
    exact lt
  candList := same.candList

theorem Keeps.trans {s'' : Vantage} (first : Keeps c s s') (second : Keeps c s' s'') :
    Keeps c s s'' where
  tallied tallied := second.tallied (first.tallied tallied)
  filled id filled := second.filled id (first.filled id filled)
  op id lt := second.op id (first.op id lt)
  candList := second.candList.trans first.candList

theorem keeps_setInfo (p : Nat) (info : VantagePartInfo) : Keeps c s (s.setInfo p info) :=
  SameLines.keeps ⟨rfl, rfl, rfl, rfl⟩

/-! ## Repartitioning -/

theorem takeOneLine_same (run : s.takeOneLine c = some next) : SameLines s next := by
  obtain ⟨-, run⟩ := Option.ite_none_right_eq_some.mp run
  obtain ⟨p, -, run⟩ := Option.bind_eq_some_iff.mp run
  cases Option.some.inj run
  exact ⟨rfl, rfl, rfl, rfl⟩

theorem takeLines_same {linesToTakeAway : Nat} (run : s.takeLines c linesToTakeAway = some next) :
    SameLines s next := by
  induction linesToTakeAway generalizing s with
  | zero =>
      cases Option.some.inj run
      exact ⟨rfl, rfl, rfl, rfl⟩
  | succ n ih =>
      obtain ⟨mid, first, rest⟩ := Option.bind_eq_some_iff.mp run
      exact (takeOneLine_same first).trans (ih rest)

theorem resize_same (sizes : Nat → Nat) (s : Vantage × Nat) (p : Nat) :
    SameLines s.1 (resize c sizes s p).1 := by
  unfold resize
  dsimp only
  split
  · split
    · exact ⟨rfl, rfl, rfl, rfl⟩
    · exact ⟨rfl, rfl, rfl, rfl⟩
  · exact ⟨rfl, rfl, rfl, rfl⟩

theorem setPartitionSizes_same {sizes : Nat → Nat} (run : s.setPartitionSizes c sizes = some next) :
    SameLines s next := by
  have resized : ∀ (ps : List Nat) (s : Vantage × Nat),
      SameLines s.1 (ps.foldl (resize c sizes) s).1 := by
    intro ps
    induction ps with
    | nil => exact fun _ => ⟨rfl, rfl, rfl, rfl⟩
    | cons p rest ih => exact fun s => (resize_same sizes s p).trans (ih _)
  exact (resized (List.range c.partitions) (s, 0)).trans (takeLines_same run)

/-! ## Writes to a line -/

theorem keeps_write {id : Nat} (bound : id < c.totalSize) {e : LineInfo} (size extended : Nat → Nat)
    (sizes : Tallied c s → ∀ r, size r + (if (s.array id).p = r then 1 else 0) =
      s.size r + if e.p = r then 1 else 0)
    (extendeds : Tallied c s → ∀ r, extended r + (if (s.array id).op = r then 1 else 0) =
      s.extendedSize r + if e.op = r then 1 else 0)
    (region : Tallied c s → e.p ≤ c.partitions ∧ e.op ≤ c.partitions)
    (filled : Filled c (s.array id) → Filled c e)
    (op : (s.array id).op < c.partitions → e.op < c.partitions) :
    Keeps c s { s.setLine id e with size := size, extendedSize := extended } where
  tallied tallied :=
    { size := tallied.size.write (mem_range.mpr bound) e (sizes tallied)
      extended := tallied.extended.write (mem_range.mpr bound) e (extendeds tallied)
      region := by
        intro other lt
        simp only [setLine, Function.update_apply]
        split
        · exact region tallied
        · exact tallied.region other lt }
  filled other before := by
    simp only [setLine, Function.update_apply]
    split
    · rename_i same
      subst same
      exact filled before
    · exact before
  op other before := by
    simp only [setLine, Function.update_apply]
    split
    · rename_i same
      subst same
      exact op before
    · exact before
  candList := rfl

theorem keeps_setLine {id : Nat} (bound : id < c.totalSize) {e : LineInfo}
    (p : e.p = (s.array id).p) (op : e.op = (s.array id).op)
    (ts : 0 < e.ts → 0 < (s.array id).ts) : Keeps c s (s.setLine id e) := by
  apply keeps_write bound s.size s.extendedSize
  · intro _ r
    rw [p]
  · intro _ r
    rw [op]
  · intro tallied
    rw [p, op]
    exact tallied.region id bound
  · intro filled pos
    rw [op]
    exact filled (ts pos)
  · intro lt
    rwa [op]

theorem move_counters {size : Nat → Nat} {k j n : Nat} (pos : 0 < size k)
    (below : ∀ k, size k ≤ n) (small : n < 2 ^ 32) (r : Nat) :
    incr (decr size k) j r + (if k = r then 1 else 0) = size r + if j = r then 1 else 0 := by
  have here := below k
  have there := below j
  have taken := decr_add pos (by omega) r
  have given := incr_eq (decr size k) j (by
    have := decr_add pos (by omega) j
    omega) r
  omega

theorem move_counters' {size : Nat → Nat} {k j n : Nat} (below : ∀ k, size k ≤ n)
    (small : n < 2 ^ 32) (pos : 0 < size k) (r : Nat) :
    decr (incr size j) k r + (if k = r then 1 else 0) = size r + if j = r then 1 else 0 := by
  have here := below k
  have there := below j
  have given := fun r => incr_eq size j (by omega) r
  have here' := given k
  have more : 0 < incr size j k := by omega
  have taken := decr_add more (by split at here' <;> omega) r
  rw [taken, given r]

theorem Tallied.size_le (tallied : Tallied c s) (r : Nat) : s.size r ≤ c.totalSize :=
  (tallied.size.le_card r).trans (card_range c.totalSize).le

theorem Tallied.extended_le (tallied : Tallied c s) (r : Nat) : s.extendedSize r ≤ c.totalSize :=
  (tallied.extended.le_card r).trans (card_range c.totalSize).le

theorem keeps_demote {id : Nat} (bound : id < c.totalSize) : Keeps c s (s.demote c id) := by
  apply (keeps_setInfo _ _).trans
  apply keeps_write bound
  · intro tallied r
    exact move_counters (tallied.size.pos (mem_range.mpr bound)) tallied.size_le c.lines_word r
  · intro _ r
    rfl
  · intro tallied
    exact ⟨le_rfl, (tallied.region id bound).2⟩
  · exact fun filled => filled
  · exact fun lt => lt

theorem keeps_promote {id p : Nat} (bound : id < c.totalSize)
    (unmanaged : (s.array id).p = c.partitions) (lt : p < c.partitions) :
    Keeps c s (s.promote c id p) := by
  apply (keeps_setInfo _ _).trans
  apply keeps_write bound
  · intro tallied r
    have pos : 0 < s.size (s.array id).p := tallied.size.pos (mem_range.mpr bound)
    rw [unmanaged] at pos
    show decr (incr s.size p) c.partitions r + (if (s.array id).p = r then 1 else 0) = _
    rw [unmanaged]
    exact move_counters' tallied.size_le c.lines_word pos r
  · intro _ r
    rfl
  · intro tallied
    exact ⟨lt.le, (tallied.region id bound).2⟩
  · exact fun filled => filled
  · exact fun lt => lt

/-- `touched` is `s` with a new timestamp for the line. -/
theorem keeps_fill {touched : Vantage} {id p ts : Nat} (bound : id < c.totalSize)
    (lt : p < c.partitions) (size : touched.size = s.size)
    (extendedSize : touched.extendedSize = s.extendedSize)
    (array : touched.array = Function.update s.array id { s.array id with ts := ts })
    (candList : touched.candList = s.candList) :
    Keeps c s (touched.fill id p) := by
  have written : Keeps c s
      { s.setLine id { s.array id with ts := ts, p := p, op := p } with
        size := incr (decr s.size (s.array id).p) p
        extendedSize := incr (decr s.extendedSize (s.array id).op) p } := by
    apply keeps_write bound
    · intro tallied r
      exact move_counters (tallied.size.pos (mem_range.mpr bound)) tallied.size_le c.lines_word r
    · intro tallied r
      exact move_counters (tallied.extended.pos (mem_range.mpr bound)) tallied.extended_le
        c.lines_word r
    · exact fun _ => ⟨lt.le, lt.le⟩
    · exact fun _ _ => lt
    · exact fun _ => lt
  apply written.trans
  apply SameLines.keeps
  constructor
  · simp [fill, setInfo, setLine, size, array]
  · simp [fill, setInfo, setLine, extendedSize, array]
  · simp [fill, setInfo, setLine, array]
  · exact candList

/-! ## Operations -/

theorem keeps_stamp {id : Nat} (bound : id < c.totalSize) (run : s.stamp c id = some next) :
    Keeps c s next := by
  obtain ⟨-, run⟩ := Option.ite_none_right_eq_some.mp run
  cases Option.some.inj run
  have written : Keeps c s (s.setLine id { s.array id with bts := (s.info (s.array id).p).curBts }) :=
    keeps_setLine bound rfl rfl fun pos => pos
  split
  · exact written.trans (keeps_setInfo _ _)
  · exact written.trans (keeps_setInfo _ _)

theorem grow_same {p : Nat} (run : s.grow c p = some next) : SameLines s next := by
  unfold grow at run
  split at run
  · obtain ⟨-, run⟩ := Option.ite_none_right_eq_some.mp run
    have raised : SameLines s (s.setTarget p (u64 (s.targetSize p + 1))) := ⟨rfl, rfl, rfl, rfl⟩
    exact raised.trans (takeOneLine_same run)
  · cases Option.some.inj run
    exact ⟨rfl, rfl, rfl, rfl⟩

/-- An update keeps the order, and its line has a partition as its `op`. -/
theorem keeps_update {id p : Nat} {req : MemReq} (bound : id < c.totalSize)
    (part : c.getPartition req = some p) (lt : p < c.partitions)
    (filled : Filled c (s.array id)) (run : s.update c id req = some next) :
    Keeps c s next ∧ (next.array id).op < c.partitions := by
  unfold update at run
  simp only [part, Option.bind_eq_bind, Option.bind_some] at run
  by_cases hit : 0 < (s.array id).ts
  · have touched : Keeps c s
        { s.setLine id { s.array id with ts := s.timestamp } with timestamp := s.timestamp + 1 } :=
      (keeps_setLine (e := { s.array id with ts := s.timestamp }) bound rfl rfl fun _ => hit).trans
        (SameLines.keeps ⟨rfl, rfl, rfl, rfl⟩)
    have here : Keeps c s next := by
      rw [if_pos hit] at run
      split at run
      · rename_i unmanaged
        apply touched.trans
        apply (keeps_promote bound _ lt).trans (keeps_stamp bound run)
        simpa [setLine] using unmanaged
      · exact touched.trans (keeps_stamp bound run)
    exact ⟨here, here.op id (filled hit)⟩
  · rw [if_neg hit] at run
    obtain ⟨grown, grew, run⟩ := Option.bind_eq_some_iff.mp run
    have stamped := keeps_stamp bound run
    have fills : Keeps c s
        (({ s.setLine id { s.array id with ts := s.timestamp } with
            timestamp := s.timestamp + 1 } : Vantage).fill id p) :=
      keeps_fill bound lt rfl rfl rfl rfl
    refine ⟨fills.trans ((grow_same grew).keeps.trans stamped), stamped.op id ?_⟩
    rw [(grow_same grew).array]
    simpa [fill, setInfo, setLine] using lt

theorem keeps_countCandidate {p : Nat} (run : s.countCandidate c p = some next) :
    SameLines s next := by
  unfold countCandidate at run
  dsimp only at run
  split at run
  · obtain ⟨adjustment, -, run⟩ := Option.bind_eq_some_iff.mp run
    cases Option.some.inj run
    exact ⟨rfl, rfl, rfl, rfl⟩
  · cases Option.some.inj run
    exact ⟨rfl, rfl, rfl, rfl⟩

theorem keeps_considerDemotion {id : Nat} (bound : id < c.totalSize)
    (run : s.considerDemotion c id = some next) : Keeps c s next := by
  have unchanged : Keeps c s s := SameLines.keeps ⟨rfl, rfl, rfl, rfl⟩
  unfold considerDemotion at run
  dsimp only at run
  split at run
  · cases Option.some.inj run
    exact unchanged
  split at run
  · cases Option.some.inj run
    exact unchanged
  split at run
  · cases Option.some.inj run
    exact unchanged
  split at run
  · exact (keeps_demote bound).trans (keeps_countCandidate run).keeps
  · exact (keeps_countCandidate run).keeps

theorem keeps_getBestCandidate {victim : Nat} (bound : ∀ id ∈ s.candList, id < c.totalSize)
    (run : s.getBestCandidate c = some (victim, next)) : Keeps c s next := by
  unfold getBestCandidate at run
  split at run
  · cases run
  · rename_i first rest cands
    obtain ⟨-, run⟩ := Option.ite_none_right_eq_some.mp run
    obtain ⟨demoted, loop, run⟩ := Option.bind_eq_some_iff.mp run
    obtain ⟨-, same⟩ := Option.ite_none_right_eq_some.mp run
    cases Option.some.inj same
    rw [cands] at bound
    apply foldlM_keeps (Keeps c s) _ (SameLines.keeps ⟨rfl, rfl, rfl, rfl⟩) loop
    exact fun id member mid next before step => before.trans (keeps_considerDemotion (bound id member) step)

/-! ## Runs -/

structure Inv (c : VantageConfig) (s : Vantage) : Prop where
  tallied : Tallied c s
  filled : ∀ id, Filled c (s.array id)
  candidates : ∀ id ∈ s.candList, id < c.totalSize

theorem Inv.start (c : VantageConfig) : Inv c (init c) where
  tallied :=
    { size := by
        have all := Tally.single (range c.totalSize) (init c).array
          LineInfo.p c.partitions fun _ _ => rfl
        rwa [card_range] at all
      extended := by
        have all := Tally.single (range c.totalSize) (init c).array
          LineInfo.op c.partitions fun _ _ => rfl
        rwa [card_range] at all
      region := fun _ _ => ⟨le_rfl, le_rfl⟩ }
  filled id pos := absurd pos (Nat.lt_irrefl 0)
  candidates id member := by cases member

theorem Inv.of_keeps (inv : Inv c s) (keeps : Keeps c s next) : Inv c next where
  tallied := keeps.tallied inv.tallied
  filled id := keeps.filled id (inv.filled id)
  candidates := by
    rw [keeps.candList]
    exact inv.candidates

/-- One step keeps the invariant, and no line loses its `op`. -/
theorem Inv.step {op : Op} (inv : Inv c s) (legal : Legal c op) (run : s.step c op = some next) :
    Inv c next ∧ ∀ id, (s.array id).op < c.partitions → (next.array id).op < c.partitions := by
  cases op with
  | startReplacement req =>
      cases Option.some.inj run
      have same : SameLines s (s.startReplacement req) := ⟨rfl, rfl, rfl, rfl⟩
      exact ⟨inv.of_keeps same.keeps, fun _ lt => lt⟩
  | recordCandidate id =>
      obtain ⟨-, same⟩ := Option.ite_none_right_eq_some.mp run
      cases Option.some.inj same
      refine ⟨⟨{ inv.tallied with }, inv.filled, ?_⟩, fun _ lt => lt⟩
      intro other member
      rcases List.mem_append.mp member with old | new
      · exact inv.candidates other old
      · rw [List.mem_singleton.mp new]
        exact legal
  | getBestCandidate =>
      obtain ⟨⟨victim, after⟩, best, same⟩ := Option.map_eq_some_iff.mp run
      cases same
      have keeps := keeps_getBestCandidate inv.candidates best
      exact ⟨inv.of_keeps keeps, keeps.op⟩
  | replaced id =>
      cases Option.some.inj run
      have keeps : Keeps c s (s.setLine id
          { s.array id with ts := 0, bts := 0, addr := s.incomingLineAddr }) :=
        keeps_setLine legal rfl rfl fun pos => absurd pos (Nat.lt_irrefl 0)
      have inv' := inv.of_keeps keeps
      refine ⟨⟨{ inv'.tallied with }, inv'.filled, ?_⟩, keeps.op⟩
      intro other member
      cases member
  | update id req =>
      obtain ⟨bound, p, lt, part⟩ := legal
      have keeps := (keeps_update bound part lt (inv.filled id) run).1
      exact ⟨inv.of_keeps keeps, keeps.op⟩
  | setPartitionSizes sizes =>
      have keeps := (setPartitionSizes_same run).keeps (c := c)
      exact ⟨inv.of_keeps keeps, keeps.op⟩

/-- What the accounting promises in a state. -/
structure Accounted (c : VantageConfig) (s : Vantage) : Prop where
  size : ∀ r ≤ c.partitions,
    s.size r = countIn (range c.totalSize) s.array fun e => e.p = r
  extendedSize : ∀ r ≤ c.partitions,
    s.extendedSize r = countIn (range c.totalSize) s.array fun e => e.op = r
  sizes : ∑ r ∈ range (c.partitions + 1), s.size r = c.totalSize
  extendedSizes : ∑ r ∈ range (c.partitions + 1), s.extendedSize r = c.totalSize
  /-- the counters that a step of the line takes one from -/
  noUnderflow : ∀ id < c.totalSize,
    0 < s.size (s.array id).p ∧ 0 < s.extendedSize (s.array id).op

theorem Tallied.accounted (tallied : Tallied c s) : Accounted c s where
  size r _ := tallied.size r
  extendedSize r _ := tallied.extended r
  sizes := by
    rw [tallied.size.sum_eq, card_range]
    intro id member
    exact mem_range.mpr (Nat.lt_succ_of_le (tallied.region id (mem_range.mp member)).1)
  extendedSizes := by
    rw [tallied.extended.sum_eq, card_range]
    intro id member
    exact mem_range.mpr (Nat.lt_succ_of_le (tallied.region id (mem_range.mp member)).2)
  noUnderflow id lt :=
    ⟨tallied.size.pos (mem_range.mpr lt), tallied.extended.pos (mem_range.mpr lt)⟩

/-- In every run the counters of both tags are right, and a line that was updated, which
its first update fills, has a partition as its `op` ever after. -/
theorem regions_accounted (c : VantageConfig) (ops : List Op) {final : Vantage}
    (legal : (machine c).LegalRun ops (init c)) (run : (machine c).exec ops (init c) = some final) :
    Accounted c final ∧
      ∀ id req, Op.update id req ∈ ops → (final.array id).op < c.partitions := by
  have keeps : ∀ s op next, Inv c s → (machine c).legal s op → (machine c).step s op = some next →
      Inv c next := fun s op next inv legal step => (inv.step legal step).1
  refine ⟨(Machine.exec_keeps keeps (Inv.start c) legal run).tallied.accounted, ?_⟩
  intro id req member
  obtain ⟨first, rest, rfl⟩ := List.append_of_mem member
  rw [Machine.exec_append] at run
  obtain ⟨s, before, run⟩ := Option.bind_eq_some_iff.mp run
  obtain ⟨mid, updated, after⟩ := Option.bind_eq_some_iff.mp run
  have legalHere := Machine.Along.append_right legal before
  have inv := Machine.exec_keeps keeps (Inv.start c) legal.of_append before
  obtain ⟨bound, p, lt, part⟩ := legalHere.1
  have here := (keeps_update bound part lt (inv.filled id) updated).2
  -- the `op` of the line stays a partition in the rest of the run
  have both : ∀ s op next, Inv c s ∧ (s.array id).op < c.partitions → (machine c).legal s op →
      (machine c).step s op = some next → Inv c next ∧ (next.array id).op < c.partitions := by
    intro s op next holds legal step
    have stepped := holds.1.step legal step
    exact ⟨stepped.1, stepped.2 id holds.2⟩
  exact (Machine.exec_keeps both ⟨keeps s _ mid inv legalHere.1 updated, here⟩
    (legalHere.2 mid updated) after).2

theorem twoCores_granularity_pos : 0 < 4 := Nat.succ_pos 3

theorem twoCores_lines_word : 4 < 2 ^ 32 := by decide

/-- Two cores in a bank of four lines, with smooth transients and a fixed random number. -/
def twoCores : VantageConfig where
  partitions := 2
  getPartition := (PartMapper.core 2).getPartition
  totalSize := 4
  assoc := 4
  targetManagedSize := 3
  partGranularity := 4
  smoothTransients := true
  feedback _ _ _ _ := some .keep
  randInt _ _ := 0
  partitions_pos := Nat.two_pos
  granularity_pos := twoCores_granularity_pos
  lines_word := twoCores_lines_word
  managed_le := Nat.le_succ 3
  randInt_le _ n := Nat.zero_le n

theorem regions_accounted_two :
    ∃ final, (machine twoCores).exec
        [.recordCandidate 1, .getBestCandidate, .replaced 1, .update 1 ⟨7, 1, 0, 0⟩,
          .update 1 ⟨7, 0, 0, 0⟩] (init twoCores) = some final ∧
      Accounted twoCores final ∧ ∀ id req, Op.update id req ∈
        [.recordCandidate 1, .getBestCandidate, .replaced 1, .update 1 ⟨7, 1, 0, 0⟩,
          .update 1 ⟨7, 0, 0, 0⟩] → (final.array id).op < twoCores.partitions := by
  refine ⟨_, rfl, regions_accounted twoCores _ ?_ rfl⟩
  decide

end Zsim.Partition.Vantage
