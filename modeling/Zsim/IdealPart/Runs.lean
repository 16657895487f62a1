import Zsim.IdealPart.Victims
import Zsim.Lib.Loop

/-!
# Runs of the partitioned array

The sizes are right and the victims good in every run.  All indices are below the number of partitions,
but the constructor goes one partition too far.
-/

set_option autoImplicit false

namespace Zsim.IdealLRUPart

open Zsim.Partition (MemReq)

/-- The size of a partition is the length of its list and the number of its entries, and every request
finds a good victim. -/
structure Accounted (c : IdPartConfig) (s : IdealLRUPart) : Prop where
  lists : ∃ seqs, s.lruList.Holds seqs ∧ ∀ p < c.partitions, (s.partInfo p).size = (seqs p).length
  entries : ∀ p < c.partitions,
    (s.partInfo p).size = countIn (Finset.range c.numLines) s.array fun e => e.p = p
  sum_eq : ∑ p ∈ Finset.range c.partitions, (s.partInfo p).size = c.numLines
  victims : ∀ req, InRange c req → GoodVictim c s req

def RunsRight (c : IdPartConfig) (ops : List Op) : Prop :=
  ∃ start, construct c = some start ∧ (∃ final, (machine c).exec ops start = some final) ∧
    (machine c).Throughout (fun s => Accounted c s ∧ InBounds c start s) ops start

/-- What should hold of a run and of the construction -/
def AllRight (c : IdPartConfig) (ops : List Op) : Prop :=
  RunsRight c ops ∧ ∃ start, construct c = some start ∧ ∀ p ∈ start.touched, p < c.partitions

variable {c : IdPartConfig} {s next : IdealLRUPart} {seqs : Nat → List Nat} {id p : Nat} {req : MemReq}

/-! ## The construction -/

/-- All that the first loop does -/
structure Prepared (c : IdPartConfig) (n : Nat) (s : IdealLRUPart) : Prop where
  sizes : ∀ p, (s.partInfo p).size = 0
  targets : ∀ p, (s.partInfo p).targetSize ≤ c.numLines
  touched : ∀ p, p ∈ s.touched ↔ p < n
  lists : s.lruList = InLists.new
  lineMap : s.lineMap = fun _ => none

theorem prepared (c : IdPartConfig) (n : Nat) : Prepared c n ((List.range n).foldl
    (fun s p => s.setInfo p ⟨0, c.numLines / c.partitions⟩)
    ⟨fun _ => ⟨0, false⟩, fun _ => ⟨0, 0⟩, InLists.new, fun _ => none, fun _ => 0, []⟩) := by
  apply foldl_range (Prepared c)
  · exact {
      sizes := fun _ => rfl
      targets := fun _ => Nat.zero_le _
      touched := by simp
      lists := rfl
      lineMap := rfl }
  · intro k s _ before
    exact {
      sizes := by
        intro p
        by_cases here : p = k
        · subst here
          simp [setInfo]
        · simp [setInfo, here, before.sizes]
      targets := by
        intro p
        by_cases here : p = k
        · subst here
          simpa [setInfo] using Nat.div_le_self c.numLines c.partitions
        · simpa [setInfo, here] using before.targets p
      touched := by
        intro p
        simp only [setInfo, List.mem_cons, before.touched]
        omega
      lists := before.lists
      lineMap := before.lineMap }

/-- The lines that the second loop has added are all in partition 0. -/
structure Filling (c : IdPartConfig) (k : Nat) (s : IdealLRUPart) : Prop where
  lists : ∃ seqs, s.lruList.Holds seqs ∧ ∀ p id, id ∈ seqs p ↔ id < k ∧ p = 0
  array : ∀ id < k, s.array id = ⟨0, true⟩
  size : (s.partInfo 0).size = k
  sizes : ∀ p, p ≠ 0 → (s.partInfo p).size = 0
  targets : ∀ p, (s.partInfo p).targetSize ≤ c.numLines
  touched : c.partitions ∈ s.touched
  lineMap : s.lineMap = fun _ => none

theorem Filling.addLine {k : Nat} (filling : Filling c k s) (lt : k < c.numLines) :
    ∃ next, s.addLine k = some next ∧ Filling c (k + 1) next := by
  obtain ⟨seqs, holds, members⟩ := filling.lists
  have absent : InLists.Legal seqs (.pushFront 0 k) := fun p member =>
    absurd ((members p k).mp member).1 (Nat.lt_irrefl k)
  obtain ⟨l, push, holds'⟩ := holds.step absent
  have word : u64 (k + 1) = k + 1 := u64_of_lt (by
    have linesWord := c.lines_word
    omega)
  have run : s.lruList.pushFront 0 k = some l := push
  refine ⟨_, by rw [IdealLRUPart.addLine, run]; rfl, ?_⟩
  exact {
    lists := by
      refine ⟨_, holds', fun p id => ?_⟩
      rw [InLists.onSequences]
      by_cases here : p = 0
      · subst here
        rw [Function.update_self, List.mem_cons, members]
        omega
      · rw [Function.update_of_ne here, members]
        omega
    array := by
      intro id before
      by_cases same : id = k
      · subst same
        simp [setInfo]
      · simpa [setInfo, same] using filling.array id (by omega)
    size := by simp [setInfo, filling.size, word]
    sizes := fun p other => by simpa [setInfo, other] using filling.sizes p other
    targets := by
      intro p
      by_cases here : p = 0
      · subst here
        simpa [setInfo] using filling.targets 0
      · simpa [setInfo, here] using filling.targets p
    touched := List.mem_cons_of_mem 0 filling.touched
    lineMap := filling.lineMap }

theorem construct_spec (c : IdPartConfig) : ∃ start, construct c = some start ∧ Filling c c.numLines start := by
  have ready := prepared c (c.partitions + 1)
  unfold construct
  refine foldlM_range c.numLines ?_ fun k s lt filling => Filling.addLine filling lt
  exact {
    lists := by
      rw [ready.lists]
      exact ⟨_, InLists.Holds.new, fun p id => iff_of_false List.not_mem_nil fun holds =>
        absurd holds.1 (Nat.not_lt_zero id)⟩
    array := fun id none => absurd none (Nat.not_lt_zero id)
    size := ready.sizes 0
    sizes := fun p _ => ready.sizes p
    targets := ready.targets
    touched := (ready.touched c.partitions).mpr (Nat.lt_succ_self c.partitions)
    lineMap := ready.lineMap }

theorem Filling.inv (filling : Filling c c.numLines s) : ∃ seqs, Inv c s seqs := by
  obtain ⟨seqs, holds, members⟩ := filling.lists
  have part : ∀ id < c.numLines, (s.array id).p = 0 := fun id line => by rw [filling.array id line]
  refine ⟨seqs, ?_⟩
  exact {
    holds := holds
    mem_iff := by
      intro p id
      rw [members]
      refine and_congr_right fun line => ?_
      rw [part id line]
      exact eq_comm
    inRange := fun id line => (part id line).symm ▸ c.partitions_pos
    tally := by
      intro p
      have single := Tally.single (Finset.range c.numLines) s.array IdPartEntry.p 0
        (fun id line => part id (Finset.mem_range.mp line)) p
      rw [← single, Finset.card_range]
      by_cases here : p = 0
      · subst here
        rw [Function.update_self]
        exact filling.size
      · rw [Function.update_of_ne here]
        exact filling.sizes p here
    mapped := by
      intro lineAddr id isMapped
      rw [filling.lineMap] at isMapped
      cases isMapped }

/-! ## The calls -/

/-- New targets, and nothing else -/
structure Resized (c : IdPartConfig) (s next : IdealLRUPart) : Prop where
  array : next.array = s.array
  lists : next.lruList = s.lruList
  lineMap : next.lineMap = s.lineMap
  sizes : ∀ p, (next.partInfo p).size = (s.partInfo p).size
  targets : ∀ p, (next.partInfo p).targetSize = (s.partInfo p).targetSize ∨
    ∃ n, (next.partInfo p).targetSize = u32 n / c.numBuckets
  bounds : InBounds c s next

theorem setPartitionSizes_resized (c : IdPartConfig) (s : IdealLRUPart) (sizes : Nat → Nat) :
    Resized c s (s.setPartitionSizes c sizes) := by
  apply foldl_range (fun _ next => Resized c s next)
  · exact ⟨rfl, rfl, rfl, fun _ => rfl, fun _ => .inl rfl, InBounds.refl c s⟩
  · intro k next lt before
    exact {
      array := before.array
      lists := before.lists
      lineMap := before.lineMap
      sizes := by
        intro p
        by_cases here : p = k
        · subst here
          simpa [setInfo] using before.sizes p
        · simpa [setInfo, here] using before.sizes p
      targets := by
        intro p
        by_cases here : p = k
        · subst here
          exact .inr ⟨sizes p * c.numLines, by simp [setInfo]⟩
        · simpa [setInfo, here] using before.targets p
      bounds := before.bounds.cons lt rfl }

theorem Resized.inv (resized : Resized c s next) (inv : Inv c s seqs) : Inv c next seqs where
  holds := resized.lists ▸ inv.holds
  mem_iff := resized.array ▸ inv.mem_iff
  inRange := resized.array ▸ inv.inRange
  tally := by
    intro p
    dsimp only
    rw [resized.array, resized.sizes]
    exact inv.tally p
  mapped := resized.lineMap ▸ inv.mapped

theorem Inv.replaced (inv : Inv c s seqs) (line : id < c.numLines) : Inv c (s.replaced id) seqs := by
  have same : ∀ other, ((s.replaced id).array other).p = (s.array other).p := by
    intro other
    by_cases here : other = id
    · subst here
      simp [IdealLRUPart.replaced]
    · simp [IdealLRUPart.replaced, here]
  exact {
    holds := inv.holds
    mem_iff := by
      intro p other
      rw [same]
      exact inv.mem_iff p other
    inRange := by
      intro other isLine
      rw [same]
      exact inv.inRange other isLine
    tally := inv.tally.write_same (Finset.mem_range.mpr line) rfl
    mapped := inv.mapped }

theorem Inv.postinsert (inv : Inv c s seqs) (line : id < c.numLines) (inRange : InRange c req)
    (missed : s.lineMap req.lineAddr = none) :
    ∃ next seqs', s.postinsert c req id = some next ∧ Inv c next seqs' ∧ Keeps c s next := by
  have erased : Function.update s.lineMap (s.lineAddrs id) none req.lineAddr = none := by
    by_cases same : req.lineAddr = s.lineAddrs id
    · rw [same, Function.update_self]
    · rw [Function.update_of_ne same, missed]
  have mapped : Inv c { s with
      lineAddrs := Function.update s.lineAddrs id req.lineAddr
      lineMap := Function.update (Function.update s.lineMap (s.lineAddrs id) none) req.lineAddr
        (some id) } seqs :=
    { inv with
      mapped := by
        intro lineAddr other isMapped
        dsimp only at isMapped
        by_cases here : lineAddr = req.lineAddr
        · rw [here, Function.update_self] at isMapped
          cases isMapped
          exact line
        · by_cases old : lineAddr = s.lineAddrs id
          · rw [Function.update_of_ne here, old, Function.update_self] at isMapped
            cases isMapped
          · rw [Function.update_of_ne here, Function.update_of_ne old] at isMapped
            exact inv.mapped lineAddr other isMapped }
  obtain ⟨next, seqs', run, inv', keeps⟩ := (mapped.replaced line).update line inRange
  refine ⟨next, seqs', ?_, inv', ⟨keeps.bounds, keeps.targets⟩⟩
  unfold IdealLRUPart.postinsert
  dsimp only
  rw [if_pos erased]
  exact run

theorem step_hit {lineId : Nat} (found : s.lineMap req.lineAddr = some lineId)
    (updateReplacement shouldAllocate : Bool) :
    s.step c (.access req updateReplacement shouldAllocate) =
      if updateReplacement then s.update c lineId req else some s := by
  simp only [step, lookup, found]
  cases updateReplacement with
  | false => rfl
  | true => cases s.update c lineId req <;> rfl

theorem step_miss (missed : s.lineMap req.lineAddr = none) (updateReplacement shouldAllocate : Bool) :
    s.step c (.access req updateReplacement shouldAllocate) =
      if shouldAllocate then (s.rank c req).bind fun ranked => ranked.2.postinsert c req ranked.1
      else some s := by
  simp only [step, lookup, missed, preinsert, Option.bind_eq_bind, Option.bind_some]
  cases shouldAllocate with
  | false => rfl
  | true => cases s.rank c req <;> rfl

theorem Inv.access (inv : Inv c s seqs) (inRange : InRange c req)
    (small : ∀ p < c.partitions, Small (s.partInfo p)) (updateReplacement shouldAllocate : Bool) :
    ∃ next seqs', s.step c (.access req updateReplacement shouldAllocate) = some next ∧
      Inv c next seqs' ∧ Keeps c s next := by
  have stays : Keeps c s s := ⟨InBounds.refl c s, fun _ => rfl⟩
  cases found : s.lineMap req.lineAddr with
  | some lineId =>
      rw [step_hit found]
      cases updateReplacement with
      | false => exact ⟨s, seqs, rfl, inv, stays⟩
      | true => exact inv.update (inv.mapped req.lineAddr lineId found) inRange
  | none =>
      rw [step_miss found]
      cases shouldAllocate with
      | false => exact ⟨s, seqs, rfl, inv, stays⟩
      | true =>
          obtain ⟨own, lineId, later, -, ranked, laterLt, line, -⟩ := inv.rank inRange small
          have touched : Inv c { s with touched := later ++ s.touched } seqs := { inv with }
          obtain ⟨next, seqs', run, inv', keeps⟩ := touched.postinsert line inRange found
          have searched : Keeps c s { s with touched := later ++ s.touched } :=
            ⟨⟨later, rfl, laterLt⟩, fun _ => rfl⟩
          refine ⟨next, seqs', ?_, inv', searched.trans keeps⟩
          rw [if_pos rfl, ranked, Option.bind_some]
          exact run

/-! ## Runs -/

/-- What is known throughout a run that begins in `start` -/
structure Running (c : IdPartConfig) (start s : IdealLRUPart) : Prop where
  inv : ∃ seqs, Inv c s seqs
  targets : ∀ p, (s.partInfo p).targetSize < 2 ^ 31
  bounds : InBounds c start s

variable {start : IdealLRUPart} {op : Op} {ops : List Op}

theorem Running.small (running : Running c start s) (lines : c.numLines < 2 ^ 31) (p : Nat) :
    Small (s.partInfo p) := by
  obtain ⟨seqs, inv⟩ := running.inv
  exact ⟨Nat.lt_of_le_of_lt (inv.size_le p) lines, running.targets p⟩

theorem Running.accounted (running : Running c start s) (lines : c.numLines < 2 ^ 31) : Accounted c s := by
  obtain ⟨seqs, inv⟩ := running.inv
  exact {
    lists := ⟨seqs, inv.holds, fun p _ => (inv.length_eq p).symm⟩
    entries := fun p _ => inv.tally p
    sum_eq := inv.sum_eq
    victims := fun req inRange => inv.goodVictim inRange fun p _ => running.small lines p }

theorem Running.step (running : Running c start s) (lines : c.numLines < 2 ^ 31) (buckets : 2 ≤ c.numBuckets)
    (legal : Legal c op) : ∃ next, s.step c op = some next ∧ Running c start next := by
  obtain ⟨seqs, inv⟩ := running.inv
  cases op with
  | access req updateReplacement shouldAllocate =>
      obtain ⟨next, seqs', run, inv', keeps⟩ := inv.access legal (fun p _ => running.small lines p)
        updateReplacement shouldAllocate
      exact ⟨next, run, ⟨seqs', inv'⟩, fun p => keeps.targets p ▸ running.targets p,
        running.bounds.trans keeps.bounds⟩
  | setPartitionSizes sizes =>
      have resized := setPartitionSizes_resized c s sizes
      refine ⟨_, rfl, ⟨seqs, resized.inv inv⟩, fun p => ?_, running.bounds.trans resized.bounds⟩
      rcases resized.targets p with same | ⟨n, isTarget⟩
      · rw [same]
        exact running.targets p
      · have half : u32 n / c.numBuckets ≤ u32 n / 2 := Nat.div_le_div_left buckets Nat.two_pos
        have word : u32 n < 2 ^ 32 := Nat.mod_lt _ (Nat.two_pow_pos 32)
        rw [isTarget]
        omega

theorem Running.exec (running : Running c start s) (lines : c.numLines < 2 ^ 31) (buckets : 2 ≤ c.numBuckets)
    (legal : ∀ op ∈ ops, Legal c op) :
    ∃ final, (machine c).exec ops s = some final ∧ Running c start final := by
  induction ops generalizing s with
  | nil => exact ⟨s, rfl, running⟩
  | cons op rest ih =>
      obtain ⟨legalHere, legalLater⟩ := List.forall_mem_cons.mp legal
      obtain ⟨mid, step, running⟩ := running.step lines buckets legalHere
      obtain ⟨final, run, running⟩ := ih running legalLater
      refine ⟨final, ?_, running⟩
      have stepped : (machine c).step s op = some mid := step
      rw [Machine.exec_cons, stepped, Option.bind_some, run]

theorem Filling.running (filling : Filling c c.numLines s) (lines : c.numLines < 2 ^ 31) : Running c s s where
  inv := filling.inv
  targets p := Nat.lt_of_le_of_lt (filling.targets p) lines
  bounds := InBounds.refl c s

/-- The constructor writes behind the last partition. -/
theorem not_allRight (c : IdPartConfig) (ops : List Op) : ¬ AllRight c ops := by
  rintro ⟨-, start, constructed, touched⟩
  obtain ⟨same, constructed', filling⟩ := construct_spec c
  rw [constructed] at constructed'
  cases constructed'
  exact absurd (touched c.partitions filling.touched) (Nat.lt_irrefl _)

/-- No run has all its indices in bounds, because of the construction.  But for that all is right in every
run, if the sizes are words without a sign. -/
theorem runsRight_not_allRight (c : IdPartConfig) (ops : List Op) (legal : ∀ op ∈ ops, Legal c op) :
    ¬ AllRight c ops ∧ (c.numLines < 2 ^ 31 → 2 ≤ c.numBuckets → RunsRight c ops) := by
  refine ⟨not_allRight c ops, fun lines buckets => ?_⟩
  obtain ⟨start, constructed, filling⟩ := construct_spec c
  have running := filling.running lines
  obtain ⟨final, run, -⟩ := running.exec lines buckets legal
  refine ⟨start, constructed, ⟨final, run⟩, ?_⟩
  intro first rest mid split run
  have legalFirst : ∀ op ∈ first, Legal c op := fun op member =>
    legal op (split ▸ List.mem_append_left rest member)
  obtain ⟨same, run', running⟩ := running.exec lines buckets legalFirst
  rw [run] at run'
  cases run'
  exact ⟨running.accounted lines, running.bounds⟩

theorem twoParts_lines_pos : 0 < 4 := Nat.succ_pos 3

theorem twoParts_lines_word : 4 < 2 ^ 32 := by decide

/-- Two cores that share four lines, with quotients that are not rounded -/
def twoParts : IdPartConfig where
  partitions := 2
  numLines := 4
  numBuckets := 256
  getPartition := (Partition.PartMapper.core 2).getPartition
  rounding := ⟨fun x => x, fun _ _ le => le, fun _ _ _ => rfl, fun _ _ => rfl⟩
  partitions_pos := Nat.two_pos
  lines_pos := twoParts_lines_pos
  lines_word := twoParts_lines_word
  buckets_pos := by decide

theorem runsRight_not_allRight_two :
    ¬ AllRight twoParts
        [.access ⟨7, 1, 0, 0⟩ true true, .setPartitionSizes fun _ => 0, .access ⟨9, 0, 0, 0⟩ true true] ∧
      RunsRight twoParts
        [.access ⟨7, 1, 0, 0⟩ true true, .setPartitionSizes fun _ => 0, .access ⟨9, 0, 0, 0⟩ true true] := by
  have legal : ∀ op ∈ [Op.access ⟨7, 1, 0, 0⟩ true true, .setPartitionSizes fun _ => 0,
      .access ⟨9, 0, 0, 0⟩ true true], Legal twoParts op := by
    simp only [List.forall_mem_cons]
    exact ⟨⟨1, by decide, rfl⟩, trivial, ⟨0, by decide, rfl⟩, fun op none => absurd none List.not_mem_nil⟩
  have both := runsRight_not_allRight twoParts _ legal
  exact ⟨both.1, both.2 (by decide) (by decide)⟩

/-- The constructor alone goes too far. -/
theorem construct_out_of_bounds : ¬ AllRight twoParts [] := not_allRight twoParts []

end Zsim.IdealLRUPart
