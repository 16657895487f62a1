import Zsim.Umon.Stack

/-!
# Miss curves

`UMonMonitor` of partitioner.h and monitor.cpp.  The curves of all partitions are kept in
one array, each of `buckets + 1` points but only `buckets` entries after the last one.
The last point of a curve is overwritten by the first point of the next one, and that of
the last curve is written after the end of the array.
-/

set_option autoImplicit false

namespace Zsim.Umon

open Finset

structure MonitorConfig where
  umon : UMonConfig
  numPartitions : Nat
  buckets : Nat
  /-- the point between `m0` and `m1` that a loop over doubles computes -/
  interpolate : (m0 m1 k upsampleRatio : Nat) → Nat
  partitions_pos : 0 < numPartitions
  buckets_pos : 0 < buckets

structure UMonMonitor where
  monitors : Nat → UMon
  /-- the words of memory from the array on, which has `buckets * numPartitions` entries -/
  missCache : Nat → Nat
  missCacheValid : Bool

namespace UMonMonitor

def init (c : MonitorConfig) : UMonMonitor where
  monitors _ := UMon.init c.umon
  missCache _ := 0
  missCacheValid := false

def access (c : MonitorConfig) (s : UMonMonitor) (partition lineAddr : Nat) : Option UMonMonitor :=
  if partition < c.numPartitions then do
    let monitor ← (s.monitors partition).access c.umon lineAddr
    if s.missCacheValid = false then
      some { s with monitors := Function.update s.monitors partition monitor }
    else none
  else none

/-- The points that are copied, every `downsampleRatio`-th one. -/
def downsample (c : MonitorConfig) (umonMisses : Nat → Nat) (misses : Nat)
    (memory : Nat → Nat) : Option (Nat → Nat) :=
  let downsampleRatio := c.umon.buckets / c.buckets
  if c.umon.buckets % c.buckets = 0 then
    let copied := (List.range c.buckets).foldl
      (fun memory j => Function.update memory (misses + j) (u32 (umonMisses (j * downsampleRatio))))
      memory
    some (Function.update copied (misses + c.buckets) (u32 (umonMisses c.umon.buckets)))
  else none

/-- The points that are copied, and those between them. -/
def upsample (c : MonitorConfig) (umonMisses : Nat → Nat) (misses : Nat)
    (memory : Nat → Nat) : Option (Nat → Nat) :=
  let upsampleRatio := c.buckets / c.umon.buckets
  if c.buckets % c.umon.buckets = 0 then
    some ((List.range c.umon.buckets).foldl (fun memory j =>
      let copied := Function.update memory (misses + upsampleRatio * j) (u32 (umonMisses j))
      let filled := (List.range (upsampleRatio - 1)).foldl (fun memory i =>
        Function.update memory (misses + (upsampleRatio * j + (i + 1)))
          (u32 (c.interpolate (umonMisses j) (umonMisses (j + 1)) (i + 1) upsampleRatio))) copied
      Function.update filled (misses + c.buckets) (u32 (umonMisses c.umon.buckets))) memory)
  else none

/-- `misses` is where the curve begins.  The array for the points of the utility monitor
has one entry too few as well. -/
def getMissCurve (c : MonitorConfig) (s : UMonMonitor) (misses partition : Nat)
    (memory : Nat → Nat) : Option (Nat → Nat) :=
  let umonMisses := (s.monitors partition).getMisses c.umon fun _ => 0
  if c.buckets ≤ c.umon.buckets then downsample c umonMisses misses memory
  else upsample c umonMisses misses memory

def getMissCurves (c : MonitorConfig) (s : UMonMonitor) : Option UMonMonitor := do
  let memory ← (List.range c.numPartitions).foldlM
    (fun memory partition => s.getMissCurve c (u32 (partition * c.buckets)) partition memory)
    s.missCache
  some { s with missCache := memory, missCacheValid := true }

def getNumAccesses (c : MonitorConfig) (s : UMonMonitor) (partition : Nat) : Option Nat :=
  if partition < c.numPartitions then some ((s.monitors partition).getNumAccesses c.umon) else none

/-- The monitor afterwards and the value.  A read after the end of the array is `none`. -/
def get (c : MonitorConfig) (s : UMonMonitor) (partition bucket : Nat) :
    Option (UMonMonitor × Nat) :=
  if partition < c.numPartitions then do
    let s ← if s.missCacheValid then some s else s.getMissCurves c
    let entry := u32 (partition * c.buckets + bucket)
    if entry < u32 (c.buckets * c.numPartitions) then some (s, s.missCache entry) else none
  else none

def reset (c : MonitorConfig) (s : UMonMonitor) : UMonMonitor :=
  { s with
    monitors := fun partition => (s.monitors partition).startNextInterval c.umon
    missCacheValid := false }

inductive Op where
  | access (partition lineAddr : Nat)
  | get (partition bucket : Nat)
  | reset

def step (c : MonitorConfig) (s : UMonMonitor) : Op → Option UMonMonitor
  | .access partition lineAddr => s.access c partition lineAddr
  | .get partition bucket => (s.get c partition bucket).map Prod.fst
  | .reset => some (s.reset c)

/-- The curves are not in use when a line is accessed, and no entry after the end of the array is
read. -/
def Legal (c : MonitorConfig) (s : UMonMonitor) : Op → Prop
  | .access partition _ => partition < c.numPartitions ∧ s.missCacheValid = false
  | .get partition bucket => partition < c.numPartitions ∧
    u32 (partition * c.buckets + bucket) < u32 (c.buckets * c.numPartitions)
  | .reset => True

instance (c : MonitorConfig) (s : UMonMonitor) : (op : Op) → Decidable (Legal c s op)
  | .access _ _ => inferInstanceAs (Decidable (_ ∧ _))
  | .get _ _ => inferInstanceAs (Decidable (_ ∧ _))
  | .reset => .isTrue trivial

def machine (c : MonitorConfig) : Machine UMonMonitor Op where
  legal := Legal c
  step := step c

instance (c : MonitorConfig) (s : UMonMonitor) (op : Op) : Decidable ((machine c).legal s op) :=
  inferInstanceAs (Decidable (Legal c s op))

/-- What the utility monitor of a partition is asked to do. -/
def opOf (partition : Nat) : Op → Option UMon.Op
  | .access p lineAddr => if p = partition then some (.access lineAddr) else none
  | .get _ _ => none
  | .reset => some .startNextInterval

/-! ## The curves in memory -/

variable {c : MonitorConfig}

/-- The first `n` points of the curve at `misses` are written, and nothing else. -/
structure Copied (r : Nat) (umonMisses : Nat → Nat) (misses : Nat) (memory : Nat → Nat) (n : Nat)
    (after : Nat → Nat) : Prop where
  points : ∀ b < n, after (misses + b) = u32 (umonMisses (r * b))
  others : ∀ entry, entry < misses ∨ misses + n ≤ entry → after entry = memory entry

theorem Copied.point {r misses n : Nat} {umonMisses memory after : Nat → Nat}
    (copied : Copied r umonMisses misses memory n after) :
    Copied r umonMisses misses memory (n + 1)
      (Function.update after (misses + n) (u32 (umonMisses (r * n)))) where
  points b lt := by
    by_cases same : b = n
    · rw [same, Function.update_self]
    · rw [Function.update_of_ne (by omega)]
      exact copied.points b (by omega)
  others entry outside := by
    rw [Function.update_of_ne (by omega)]
    exact copied.others entry (by omega)

theorem downsample_spec {r : Nat} (whole : c.umon.buckets = r * c.buckets) (umonMisses : Nat → Nat)
    (misses : Nat) (memory : Nat → Nat) :
    ∃ after, downsample c umonMisses misses memory = some after ∧
      Copied r umonMisses misses memory (c.buckets + 1) after := by
  have ratio : c.umon.buckets / c.buckets = r := by
    rw [whole, Nat.mul_div_cancel _ c.buckets_pos]
  have copied : Copied r umonMisses misses memory c.buckets
      ((List.range c.buckets).foldl (fun memory j =>
        Function.update memory (misses + j) (u32 (umonMisses (j * r)))) memory) := by
    apply foldl_range (Copied r umonMisses misses memory)
    · exact ⟨fun b lt => absurd lt (Nat.not_lt_zero b), fun _ _ => rfl⟩
    · intro j after _ copied
      rw [Nat.mul_comm j r]
      exact copied.point
  refine ⟨_, by rw [downsample, if_pos (by rw [whole, Nat.mul_mod_left]), ratio], ?_⟩
  rw [whole]
  exact copied.point

def start (c : MonitorConfig) (partition : Nat) : Nat := u32 (partition * c.buckets)

/-- The last point that is written to an entry is point `b` of the curve of `partition`. -/
structure LastWritten (c : MonitorConfig) (entry partition b : Nat) : Prop where
  partition_lt : partition < c.numPartitions
  bucket_le : b ≤ c.buckets
  here : entry = start c partition + b
  later : ∀ q, partition < q → q < c.numPartitions → entry < start c q ∨ start c q + c.buckets < entry

def Filled (c : MonitorConfig) (r : Nat) (s : UMonMonitor) (count : Nat) (memory : Nat → Nat) :
    Prop :=
  ∀ partition b, partition < count → b ≤ c.buckets →
    (∀ q, partition < q → q < count → start c partition + b < start c q ∨
      start c q + c.buckets < start c partition + b) →
    memory (start c partition + b) = u32 ((s.monitors partition).missesFrom c.umon (r * b))

def Cached (c : MonitorConfig) (r : Nat) (s : UMonMonitor) : Prop :=
  ∀ entry partition b, LastWritten c entry partition b →
    s.missCache entry = u32 ((s.monitors partition).missesFrom c.umon (r * b))

theorem getMissCurves_spec {r : Nat} (whole : c.umon.buckets = r * c.buckets) (s : UMonMonitor) :
    ∃ after, s.getMissCurves c = some after ∧ after.monitors = s.monitors ∧
      after.missCacheValid = true ∧ Cached c r after := by
  have r_pos : 0 < r := by
    have pos := c.umon.buckets_pos
    rw [whole] at pos
    exact Nat.pos_of_mul_pos_right pos
  have enough : c.buckets ≤ c.umon.buckets := by
    rw [whole]
    exact Nat.le_mul_of_pos_left _ r_pos
  have filled : ∃ memory, (List.range c.numPartitions).foldlM
      (fun memory partition => s.getMissCurve c (start c partition) partition memory)
      s.missCache = some memory ∧ Filled c r s c.numPartitions memory := by
    apply foldlM_range
    · intro partition b lt
      exact absurd lt (Nat.not_lt_zero _)
    · intro count memory _ written
      obtain ⟨after, run, copied⟩ := downsample_spec whole
        ((s.monitors count).getMisses c.umon fun _ => 0) (start c count) memory
      refine ⟨after, by rw [getMissCurve, if_pos enough, run], ?_⟩
      intro partition b lt le later
      by_cases same : partition = count
      · rw [same, copied.points b (Nat.lt_succ_of_le le), UMon.getMisses_eq]
        rw [whole]
        exact Nat.mul_le_mul_left r le
      · rw [copied.others _ (later count (by omega) (Nat.lt_succ_self _))]
        apply written partition b (by omega) le
        exact fun q after before => later q after (Nat.lt_succ_of_lt before)
  obtain ⟨memory, run, points⟩ := filled
  refine ⟨{ s with missCache := memory, missCacheValid := true }, ?_, rfl, rfl, ?_⟩
  · simp only [getMissCurves]
    simp only [start] at run
    rw [run]
    rfl
  · rintro _ partition b ⟨inside, le, rfl, later⟩
    exact points partition b inside le later

/-! ## Runs -/

/-- A cache that is valid holds the curves, and the utility monitors do what they should. -/
structure Inv (c : MonitorConfig) (r : Nat) (s : UMonMonitor) : Prop where
  cached : s.missCacheValid = true → Cached c r s
  lists : ∀ partition, UMon.Lists c.umon (s.monitors partition)

theorem get_spec {r partition : Nat} (bucket : Nat) (whole : c.umon.buckets = r * c.buckets)
    {s : UMonMonitor} (inv : Inv c r s) (inside : partition < c.numPartitions) :
    ∃ after, after.monitors = s.monitors ∧ after.missCacheValid = true ∧ Cached c r after ∧
      s.get c partition bucket =
        if u32 (partition * c.buckets + bucket) < u32 (c.buckets * c.numPartitions) then
          some (after, after.missCache (u32 (partition * c.buckets + bucket)))
        else none := by
  by_cases valid : s.missCacheValid = true
  · refine ⟨s, rfl, valid, inv.cached valid, ?_⟩
    simp [get, inside, valid]
  · obtain ⟨after, run, monitors, validAfter, cached⟩ := getMissCurves_spec whole s
    refine ⟨after, monitors, validAfter, cached, ?_⟩
    simp [get, inside, valid, run]

theorem get_run {r partition bucket : Nat} (whole : c.umon.buckets = r * c.buckets)
    {s next : UMonMonitor} (inv : Inv c r s) (run : s.step c (.get partition bucket) = some next) :
    next.monitors = s.monitors ∧ Cached c r next := by
  obtain ⟨⟨_, value⟩, got, rfl⟩ := Option.map_eq_some_iff.mp run
  have inside : partition < c.numPartitions := by
    by_contra outside
    simp [get, outside] at got
  obtain ⟨after, monitors, -, cached, same⟩ := get_spec bucket whole inv inside
  rw [same] at got
  split at got
  · cases Option.some.inj got
    exact ⟨monitors, cached⟩
  · cases got

theorem access_run {partition lineAddr : Nat} {s next : UMonMonitor}
    (run : s.step c (.access partition lineAddr) = some next) :
    ∃ monitor, (s.monitors partition).access c.umon lineAddr = some monitor ∧
      s.missCacheValid = false ∧
      next = { s with monitors := Function.update s.monitors partition monitor } := by
  simp only [UMonMonitor.step, access] at run
  split at run
  · obtain ⟨monitor, accessed, run⟩ := Option.bind_eq_some_iff.mp run
    split at run
    · next invalid => exact ⟨monitor, accessed, invalid, (Option.some.inj run).symm⟩
    · cases run
  · cases run

theorem Inv.start (c : MonitorConfig) (r : Nat) : Inv c r (init c) where
  cached valid := by cases valid
  lists _ := (UMon.Follows.start c.umon).lists

theorem inv_preserved {r : Nat} (whole : c.umon.buckets = r * c.buckets) :
    (machine c).Preserves (Inv c r) := by
  intro s op inv legal
  cases op with
  | access partition lineAddr =>
      obtain ⟨inside, invalid⟩ := legal
      obtain ⟨monitor, run, after⟩ := (inv.lists partition).step (.access lineAddr)
      rw [UMon.step] at run
      refine ⟨{ s with monitors := Function.update s.monitors partition monitor }, ?_, ?_, ?_⟩
      · simp [machine, UMonMonitor.step, access, inside, run, invalid]
      · intro valid
        rw [invalid] at valid
        cases valid
      · intro q
        by_cases same : q = partition
        · subst same
          simp only [Function.update_self]
          exact after
        · simp only [Function.update_of_ne same]
          exact inv.lists q
  | get partition bucket =>
      obtain ⟨inside, bound⟩ := legal
      obtain ⟨after, monitors, -, cached, same⟩ := get_spec bucket whole inv inside
      refine ⟨after, ?_, fun _ => cached, ?_⟩
      · simp only [machine, UMonMonitor.step, same, if_pos bound, Option.map_some]
      · rw [monitors]
        exact inv.lists
  | reset =>
      refine ⟨s.reset c, rfl, ?_, ?_⟩
      · intro valid
        cases valid
      · intro partition
        obtain ⟨monitor, run, after⟩ := (inv.lists partition).step .startNextInterval
        cases Option.some.inj run
        exact after

theorem monitors_exec {r : Nat} (whole : c.umon.buckets = r * c.buckets) {ops : List Op}
    {s final : UMonMonitor} (inv : Inv c r s) (legal : (machine c).LegalRun ops s)
    (run : (machine c).exec ops s = some final) (partition : Nat) :
    (UMon.machine c.umon).exec (ops.filterMap (opOf partition)) (s.monitors partition) =
      some (final.monitors partition) := by
  induction ops generalizing s with
  | nil =>
      cases Option.some.inj run
      rfl
  | cons op rest ih =>
      rw [Machine.exec_cons] at run
      obtain ⟨next, step, run⟩ := Option.bind_eq_some_iff.mp run
      obtain ⟨next', step', inv'⟩ := inv_preserved whole s op inv legal.1
      cases Option.some.inj (step.symm.trans step')
      have after := ih inv' (legal.2 next step) run
      cases op with
      | access p lineAddr =>
          obtain ⟨monitor, accessed, -, rfl⟩ := access_run step
          by_cases same : p = partition
          · subst same
            simp only [Function.update_self] at after
            simp only [List.filterMap_cons, opOf, if_true, Machine.exec_cons]
            simp only [UMon.machine, UMon.step, accessed, Option.bind_some]
            exact after
          · simp only [Function.update_of_ne (Ne.symm same)] at after
            simp only [List.filterMap_cons, opOf, same, if_false]
            exact after
      | get p bucket =>
          rw [(get_run whole inv step).1] at after
          exact after
      | reset =>
          cases Option.some.inj step
          exact after

/-! ## What is read -/

/-- An entry is one of the points of a curve. -/
def Covers (c : MonitorConfig) (entry partition : Nat) : Prop :=
  partition < c.numPartitions ∧ start c partition ≤ entry ∧ entry ≤ start c partition + c.buckets

instance (c : MonitorConfig) (entry partition : Nat) : Decidable (Covers c entry partition) :=
  inferInstanceAs (Decidable (_ ∧ _ ∧ _))

theorem exists_covers {partition b : Nat} (inside : partition < c.numPartitions)
    (le : b ≤ c.buckets) : ∃ q, Covers c (u32 (partition * c.buckets + b)) q := by
  by_cases wraps : start c partition + b < 2 ^ 32
  · refine ⟨partition, inside, ?_⟩
    unfold start u32 at *
    omega
  · have first : start c 0 = 0 := by simp [start, u32]
    refine ⟨0, Nat.zero_lt_of_lt inside, ?_⟩
    rw [first]
    unfold start u32 at *
    omega

theorem exists_lastWritten {entry : Nat} (covered : ∃ q, Covers c entry q) :
    ∃ q j, LastWritten c entry q j := by
  obtain ⟨q, covers⟩ := covered
  have here := Nat.findGreatest_spec covers.1.le covers
  have latest := fun k => Nat.findGreatest_is_greatest (P := Covers c entry) (n := c.numPartitions)
    (k := k)
  generalize Nat.findGreatest (Covers c entry) c.numPartitions = last at here latest
  refine ⟨last, entry - start c last, here.1, ?_, ?_, ?_⟩
  · have := here.2
    omega
  · have := here.2
    omega
  · intro k later lt
    have apart := latest k later lt.le
    simp only [Covers, lt, true_and] at apart
    omega

theorem LastWritten.unique {entry q j q' j' : Nat} (last : LastWritten c entry q j)
    (last' : LastWritten c entry q' j') : q = q' ∧ j = j' := by
  have here := last.here
  have here' := last'.here
  have le := last.bucket_le
  have le' := last'.bucket_le
  rcases Nat.lt_trichotomy q q' with before | rfl | after
  · have apart := last.later q' before last'.partition_lt
    omega
  · exact ⟨rfl, by omega⟩
  · have apart := last'.later q after last.partition_lt
    omega

/-- The entry that is read for a point lies in the array and holds what its utility monitor
counts: the point, or another one with the same count, was the last to be written there. -/
def Kept (c : MonitorConfig) (r : Nat) (s : UMonMonitor) (partition b : Nat) : Prop :=
  u32 (partition * c.buckets + b) < u32 (c.buckets * c.numPartitions) ∧
    ∃ q j, LastWritten c (u32 (partition * c.buckets + b)) q j ∧
      u32 ((s.monitors q).missesFrom c.umon (r * j)) =
        (s.monitors partition).missesFrom c.umon (r * b)

theorem get_iff_kept {r partition b : Nat} (whole : c.umon.buckets = r * c.buckets)
    {s : UMonMonitor} (inv : Inv c r s) (inside : partition < c.numPartitions)
    (le : b ≤ c.buckets) :
    (∃ after, s.get c partition b =
      some (after, (s.monitors partition).missesFrom c.umon (r * b))) ↔ Kept c r s partition b := by
  obtain ⟨after, monitors, -, cached, same⟩ := get_spec b whole inv inside
  rw [same]
  constructor
  · rintro ⟨_, value⟩
    obtain ⟨bound, value⟩ := Option.ite_none_right_eq_some.mp value
    obtain ⟨q, j, last⟩ := exists_lastWritten (exists_covers inside le)
    refine ⟨bound, q, j, last, ?_⟩
    rw [← (Prod.mk.inj (Option.some.inj value)).2, cached _ q j last, monitors]
  · rintro ⟨bound, q, j, last, count⟩
    refine ⟨after, ?_⟩
    rw [if_pos bound, cached _ q j last, monitors, count]

section
variable (fits : c.buckets * c.numPartitions < 2 ^ 32)
include fits

theorem start_eq {partition : Nat} (le : partition ≤ c.numPartitions) :
    start c partition = partition * c.buckets := by
  apply u32_of_lt
  have := Nat.mul_le_mul_left c.buckets le
  rw [Nat.mul_comm]
  omega

theorem lastWritten_inner {partition b : Nat} (inside : partition < c.numPartitions)
    (lt : b < c.buckets) : LastWritten c (u32 (partition * c.buckets + b)) partition b where
  partition_lt := inside
  bucket_le := lt.le
  here := by
    have next := Nat.mul_le_mul_left c.buckets (Nat.succ_le_of_lt inside)
    rw [start_eq fits inside.le]
    apply u32_of_lt
    rw [Nat.mul_succ, Nat.mul_comm] at next
    omega
  later q after before := by
    have next := Nat.mul_le_mul_right c.buckets (Nat.succ_le_of_lt after)
    have bound := Nat.mul_le_mul_left c.buckets (Nat.succ_le_of_lt before)
    rw [start_eq fits before.le]
    rw [Nat.succ_mul] at next
    rw [Nat.mul_succ, Nat.mul_comm] at bound
    left
    rw [u32_of_lt] <;> omega

theorem lastWritten_end {partition : Nat} (inside : partition + 1 < c.numPartitions) :
    LastWritten c (u32 (partition * c.buckets + c.buckets)) (partition + 1) 0 := by
  have first := lastWritten_inner fits inside c.buckets_pos
  rwa [Nat.add_zero, Nat.succ_mul] at first

/-- In an array whose size is not cut off: the points below the last one are kept. -/
theorem kept_inner {r partition b : Nat} {s : UMonMonitor} (inside : partition < c.numPartitions)
    (lt : b < c.buckets) :
    Kept c r s partition b ↔ (s.monitors partition).missesFrom c.umon (r * b) < 2 ^ 32 := by
  have last := lastWritten_inner fits inside lt
  constructor
  · rintro ⟨-, q, j, last', count⟩
    obtain ⟨rfl, rfl⟩ := last.unique last'
    rw [← count]
    exact Nat.mod_lt _ (Nat.two_pow_pos 32)
  · intro small
    refine ⟨?_, partition, b, last, u32_of_lt small⟩
    have next := Nat.mul_le_mul_left c.buckets (Nat.succ_le_of_lt inside)
    rw [Nat.mul_succ, Nat.mul_comm c.buckets partition] at next
    rw [u32_of_lt fits, u32_of_lt] <;> omega

theorem kept_end {r partition : Nat} {s : UMonMonitor} (inside : partition < c.numPartitions) :
    Kept c r s partition c.buckets ↔ partition + 1 < c.numPartitions ∧
      u32 ((s.monitors (partition + 1)).missesFrom c.umon 0) =
        (s.monitors partition).missesFrom c.umon (r * c.buckets) := by
  have next := Nat.mul_le_mul_left c.buckets (Nat.succ_le_of_lt inside)
  rw [Nat.mul_succ, Nat.mul_comm c.buckets partition] at next
  constructor
  · rintro ⟨bound, q, j, last, count⟩
    rw [u32_of_lt fits, u32_of_lt (by omega), ← Nat.succ_mul, Nat.mul_comm c.buckets] at bound
    have more := Nat.lt_of_mul_lt_mul_right bound
    obtain ⟨rfl, rfl⟩ := (lastWritten_end fits more).unique last
    exact ⟨more, by rwa [Nat.mul_zero] at count⟩
  · rintro ⟨more, count⟩
    refine ⟨?_, partition + 1, 0, lastWritten_end fits more, by rwa [Nat.mul_zero]⟩
    have bound := Nat.mul_lt_mul_of_pos_right more c.buckets_pos
    rw [Nat.succ_mul, Nat.mul_comm c.numPartitions] at bound
    rw [u32_of_lt fits, u32_of_lt] <;> omega

end

/-- In every state that a run reaches, `get` gives the count of the partition's own utility
monitor for exactly the points that are kept.  Those are the points below the last one,
and a last point only if it happens to be what the next partition counts without buckets. -/
theorem curves_kept (c : MonitorConfig) (r : Nat) (whole : c.umon.buckets = r * c.buckets)
    (ops : List Op) (legal : (machine c).LegalRun ops (init c)) (partition : Nat)
    (inside : partition < c.numPartitions) :
    ∃ s own, (machine c).exec ops (init c) = some s ∧
      (UMon.machine c.umon).exec (ops.filterMap (opOf partition)) (UMon.init c.umon) = some own ∧
      (∀ b ≤ c.buckets, (∃ after, s.get c partition b =
        some (after, own.getMisses c.umon (fun _ => 0) (r * b))) ↔ Kept c r s partition b) ∧
      (∀ a b, a ≤ b → b ≤ c.buckets → own.getMisses c.umon (fun _ => 0) (r * b) ≤
        own.getMisses c.umon (fun _ => 0) (r * a)) ∧
      (c.buckets * c.numPartitions < 2 ^ 32 →
        (∀ b < c.buckets, Kept c r s partition b ↔
          own.getMisses c.umon (fun _ => 0) (r * b) < 2 ^ 32) ∧
        (Kept c r s partition c.buckets ↔ ∃ next, s.getNumAccesses c (partition + 1) = some next ∧
          u32 next = own.curMisses)) := by
  obtain ⟨s, run, inv⟩ := (inv_preserved whole).exec (Inv.start c r) legal
  have own := monitors_exec whole (Inv.start c r) legal run partition
  have ways : ∀ b ≤ c.buckets, r * b ≤ c.umon.buckets := by
    intro b le
    rw [whole]
    exact Nat.mul_le_mul_left r le
  refine ⟨s, s.monitors partition, run, own, ?_, ?_, fun fits => ⟨?_, ?_⟩⟩
  · intro b le
    rw [UMon.getMisses_eq _ (ways b le)]
    exact get_iff_kept whole inv inside le
  · intro a b le bound
    rw [UMon.getMisses_eq _ (ways b bound), UMon.getMisses_eq _ (ways a (le.trans bound))]
    exact UMon.missesFrom_anti (Nat.mul_le_mul_left r le) (ways b bound)
  · intro b lt
    rw [UMon.getMisses_eq _ (ways b lt.le)]
    exact kept_inner fits inside lt
  · have last : (s.monitors partition).missesFrom c.umon (r * c.buckets) =
        (s.monitors partition).curMisses := by
      rw [UMon.missesFrom, ← whole, Ico_self, sum_empty, Nat.add_zero]
    rw [kept_end fits inside, last]
    constructor
    · rintro ⟨more, count⟩
      exact ⟨_, if_pos more, by rw [UMon.getNumAccesses_eq, count]⟩
    · rintro ⟨next, accesses, count⟩
      obtain ⟨more, same⟩ := Option.ite_none_right_eq_some.mp accesses
      rw [← UMon.getNumAccesses_eq, Option.some.inj same]
      exact ⟨more, count⟩

/-- Two partitions of two buckets, with one set of two ways for each. -/
def twoCurves : MonitorConfig where
  umon :=
    { bankLines := 2
      umonLines := 2
      buckets := 2
      hash := fun _ lineAddr => lineAddr
      buckets_pos := Nat.two_pos
      sets_pos := Nat.one_pos }
  numPartitions := 2
  buckets := 2
  interpolate m0 _ _ _ := m0
  partitions_pos := Nat.two_pos
  buckets_pos := Nat.two_pos

theorem curves_kept_two :
    ∃ s own, (machine twoCurves).exec [.access 0 3, .access 1 5, .get 0 1, .reset, .access 0 3]
        (init twoCurves) = some s ∧
      (UMon.machine twoCurves.umon).exec ([.access 0 3, .access 1 5, .get 0 1, .reset,
        .access 0 3].filterMap (opOf 0)) (UMon.init twoCurves.umon) = some own ∧
      (∀ b ≤ 2, (∃ after, s.get twoCurves 0 b =
        some (after, own.getMisses twoCurves.umon (fun _ => 0) (1 * b))) ↔
          Kept twoCurves 1 s 0 b) ∧
      (∀ a b, a ≤ b → b ≤ 2 → own.getMisses twoCurves.umon (fun _ => 0) (1 * b) ≤
        own.getMisses twoCurves.umon (fun _ => 0) (1 * a)) ∧
      (2 * 2 < 2 ^ 32 →
        (∀ b < 2, Kept twoCurves 1 s 0 b ↔
          own.getMisses twoCurves.umon (fun _ => 0) (1 * b) < 2 ^ 32) ∧
        (Kept twoCurves 1 s 0 2 ↔ ∃ next, s.getNumAccesses twoCurves (0 + 1) = some next ∧
          u32 next = own.curMisses)) :=
  curves_kept twoCurves 1 rfl _ (by decide) 0 Nat.two_pos

/-- Partition 1 is accessed once.  The last point of the curve of partition 0, which misses
nothing, is read as 1, and the last point of partition 1 lies after the end of the array. -/
theorem last_points_lost :
    ∃ s, (machine twoCurves).exec [.access 1 5] (init twoCurves) = some s ∧
      (s.get twoCurves 0 2).map Prod.snd = some 1 ∧
      (s.monitors 0).getMisses twoCurves.umon (fun _ => 0) 2 = 0 ∧
      s.get twoCurves 1 2 = none := by
  refine ⟨_, rfl, ?_, ?_, ?_⟩
  · decide
  · decide
  · rfl

end UMonMonitor

end Zsim.Umon
