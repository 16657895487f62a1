import Zsim.Lib.Machine
import Zsim.Lib.Count
import Zsim.Partition.Mapper

/-!
# Vantage

`VantageReplPolicy` of part_repl_policies.h.  The region after the last partition is the
unmanaged one.  The profiling counters and timestamps are left out, and of the monitor
only the assertion on the partition is kept.  `none` is a failed assertion or a panic.
-/

set_option autoImplicit false

namespace Zsim.Partition

/-- What the comparisons of doubles in the aperture control decide on the setpoint. -/
inductive Adjustment where
  | increase
  | decrease
  | keep

structure VantageConfig where
  partitions : Nat
  /-- the partition of a request, by a mapper of any kind -/
  getPartition : MemReq → Option Nat
  totalSize : Nat
  assoc : Nat
  /-- `(uint32_t)(((double)totalSize)*partPortion)`, where `partPortion` is at most 1 -/
  targetManagedSize : Nat
  partGranularity : Nat
  smoothTransients : Bool
  /-- by the target size, the size, and the candidates and demotions of the interval -/
  feedback : Nat → Nat → Nat → Nat → Option Adjustment
  /-- the `k`-th number that `rng.randInt` draws, from 0 to the one given -/
  randInt : Nat → Nat → Nat
  partitions_pos : 0 < partitions
  granularity_pos : 0 < partGranularity
  lines_word : totalSize < 2 ^ 32
  managed_le : targetManagedSize ≤ totalSize
  randInt_le : ∀ k n, randInt k n ≤ n

theorem defaultBuckets_pos : 0 < 256 := Nat.succ_pos 255

/-- What the controller keeps of a region besides its sizes. -/
structure VantagePartInfo where
  curBts : Nat
  curBtsHits : Nat
  setpointBts : Nat
  curIntervalIns : Nat
  curIntervalDems : Nat
  curIntervalCands : Nat

structure LineInfo where
  addr : Nat
  /-- 0 if the line is empty -/
  ts : Nat
  bts : Nat
  p : Nat
  op : Nat

structure Vantage where
  size : Nat → Nat
  extendedSize : Nat → Nat
  targetSize : Nat → Nat
  longTermTargetSize : Nat → Nat
  info : Nat → VantagePartInfo
  array : Nat → LineInfo
  /-- the first `candIdx` entries -/
  candList : List Nat
  incomingLineAddr : Nat
  timestamp : Nat
  /-- how many numbers were drawn -/
  draws : Nat

namespace Vantage

def init (c : VantageConfig) : Vantage where
  size := Function.update (fun _ => 0) c.partitions c.totalSize
  extendedSize := Function.update (fun _ => 0) c.partitions c.totalSize
  targetSize := Function.update (fun _ => c.targetManagedSize / c.partitions) c.partitions 0
  longTermTargetSize := Function.update (fun _ => c.targetManagedSize / c.partitions) c.partitions 0
  info _ := ⟨0, 0, 0, 0, 0, 0⟩
  array _ := ⟨0, 0, 0, c.partitions, c.partitions⟩
  candList := []
  incomingLineAddr := 0
  timestamp := 1
  draws := 0

def setLine (s : Vantage) (id : Nat) (e : LineInfo) : Vantage :=
  { s with array := Function.update s.array id e }

def setInfo (s : Vantage) (p : Nat) (info : VantagePartInfo) : Vantage :=
  { s with info := Function.update s.info p info }

def setTarget (s : Vantage) (p target : Nat) : Vantage :=
  { s with targetSize := Function.update s.targetSize p target }

/-! ## Targets -/

/-- `MAX(left, 0)`, where `left` is the difference of the sizes as an `int32_t`. -/
def surplus (s : Vantage) (p : Nat) : Nat :=
  let left := u32 (u64Sub (s.targetSize p) (s.longTermTargetSize p))
  if left < 2 ^ 31 then left else 0

def linesLeft (s : Vantage) (partitions : Nat) : Nat :=
  (List.range partitions).foldl (fun linesLeft p => u32 (linesLeft + s.surplus p)) 0

/-- The second loop of `takeOneLine`, over the partitions that are left. -/
def donor (s : Vantage) (l : Nat) : List Nat → Nat → Option Nat
  | [], _ => none
  | p :: rest, curLines =>
    let curLines := u32 (curLines + s.surplus p)
    if 0 < s.surplus p ∧ l < curLines then some p else donor s l rest curLines

def takeOneLine (c : VantageConfig) (s : Vantage) : Option Vantage :=
  let linesLeft := s.linesLeft c.partitions
  if c.smoothTransients = true ∧ 0 < linesLeft then do
    let l := c.randInt s.draws (linesLeft - 1)
    let p ← s.donor l (List.range c.partitions) 0
    some { s.setTarget p (u64Sub (s.targetSize p) 1) with draws := s.draws + 1 }
  else none

def takeLines (c : VantageConfig) : Nat → Vantage → Option Vantage
  | 0, s => some s
  | linesToTakeAway + 1, s => (s.takeOneLine c).bind (takeLines c linesToTakeAway)

/-- The lines `s[p]` that a partition is given. -/
def linesOf (c : VantageConfig) (sizes : Nat → Nat) (p : Nat) : Nat :=
  u32 (c.totalSize * sizes p) / c.partGranularity

/-- One round of the loop over the partitions; the number is `linesToTakeAway`. -/
def resize (c : VantageConfig) (sizes : Nat → Nat) (s : Vantage × Nat) (p : Nat) : Vantage × Nat :=
  let lines := linesOf c sizes p
  let long := { s.1 with longTermTargetSize := Function.update s.1.longTermTargetSize p lines }
  if c.smoothTransients then
    if s.1.targetSize p < lines then
      let newTarget := u32 (max (s.1.targetSize p) (min lines (u64 (s.1.size p + 1))))
      (long.setTarget p newTarget, u32 (s.2 + u32Sub newTarget (u32 (s.1.targetSize p))))
    else (long, s.2)
  else (long.setTarget p lines, s.2)

def setPartitionSizes (c : VantageConfig) (sizes : Nat → Nat) (s : Vantage) : Option Vantage :=
  let (s, linesToTakeAway) := (List.range c.partitions).foldl (resize c sizes) (s, 0)
  takeLines c linesToTakeAway s

/-! ## Lines -/

def promote (c : VantageConfig) (s : Vantage) (id p : Nat) : Vantage :=
  let s := s.setInfo p { s.info p with curIntervalIns := u32 ((s.info p).curIntervalIns + 1) }
  { s.setLine id { s.array id with p := p } with
    size := decr (incr s.size p) c.partitions }

/-- A line is filled after a miss; its old regions lose it. -/
def fill (s : Vantage) (id p : Nat) : Vantage :=
  let e := s.array id
  let s := s.setInfo p { s.info p with curIntervalIns := u32 ((s.info p).curIntervalIns + 1) }
  { s.setLine id { e with p := p, op := p } with
    size := incr (decr s.size e.p) p
    extendedSize := incr (decr s.extendedSize e.op) p }

def grow (c : VantageConfig) (s : Vantage) (p : Nat) : Option Vantage :=
  if s.targetSize p < s.longTermTargetSize p then
    if c.smoothTransients then (s.setTarget p (u64 (s.targetSize p + 1))).takeOneLine c else none
  else some s

/-- The end of `update`, with the assertion of `UMonMonitor::access`. -/
def stamp (c : VantageConfig) (s : Vantage) (id : Nat) : Option Vantage :=
  let e := s.array id
  let info := s.info e.p
  let hits := u32 (info.curBtsHits + 1)
  let s' := s.setLine id { e with bts := info.curBts }
  if e.p < c.partitions then
    some
      (if u32 (s.size e.p) / 16 ≤ hits then
        s'.setInfo e.p
          { info with
            curBts := u64 (info.curBts + 1)
            setpointBts := u64 (info.setpointBts + 1)
            curBtsHits := 0 }
      else s'.setInfo e.p { info with curBtsHits := hits })
  else none

def update (c : VantageConfig) (s : Vantage) (id : Nat) (req : MemReq) : Option Vantage := do
  let e := s.array id
  let touched := { s.setLine id { e with ts := s.timestamp } with timestamp := s.timestamp + 1 }
  if 0 < e.ts then
    if e.p = c.partitions then
      let p ← c.getPartition req
      (touched.promote c id p).stamp c id
    else touched.stamp c id
  else
    let p ← c.getPartition req
    let grown ← (touched.fill id p).grow c p
    grown.stamp c id

/-! ## Replacement -/

def startReplacement (s : Vantage) (req : MemReq) : Vantage :=
  { s with incomingLineAddr := req.lineAddr }

def recordCandidate (c : VantageConfig) (s : Vantage) (id : Nat) : Option Vantage :=
  if s.candList.length < c.assoc then some { s with candList := s.candList ++ [id] } else none

/-- `curBts - bts` and `curBts - setpointBts`, in 8 bits. -/
def belowSetpoint (info : VantagePartInfo) (bts : Nat) : Bool :=
  u64Sub info.curBts info.setpointBts % 256 ≤ u64Sub info.curBts bts % 256

def demote (c : VantageConfig) (s : Vantage) (id : Nat) : Vantage :=
  let e := s.array id
  let s := s.setInfo e.p
    { s.info e.p with curIntervalDems := u32 ((s.info e.p).curIntervalDems + 1) }
  { s.setLine id { e with p := c.partitions } with
    size := incr (decr s.size e.p) c.partitions }

def adjustSetpoint (info : VantagePartInfo) : Adjustment → Nat
  | .increase =>
    if info.setpointBts < info.curBts then u64 (info.setpointBts + 1) else info.setpointBts
  | .decrease =>
    if u64Sub info.curBts info.setpointBts < 255 then u64Sub info.setpointBts 1
    else info.setpointBts
  | .keep => info.setpointBts

/-- One more candidate of the interval, which may end it. -/
def countCandidate (c : VantageConfig) (s : Vantage) (p : Nat) : Option Vantage :=
  let info := s.info p
  let cands := u32 (info.curIntervalCands + 1)
  if 256 ≤ cands then do
    let adjustment ← c.feedback (s.targetSize p) (s.size p) cands info.curIntervalDems
    some (s.setInfo p
      { info with
        setpointBts := adjustSetpoint info adjustment
        curIntervalCands := 0
        curIntervalIns := 0
        curIntervalDems := 0 })
  else some (s.setInfo p { info with curIntervalCands := cands })

/-- One round of the first loop of `getBestCandidate`. -/
def considerDemotion (c : VantageConfig) (s : Vantage) (id : Nat) : Option Vantage :=
  let e := s.array id
  if e.ts = 0 then some s
  else if e.p = c.partitions then some s
  else if u32 (s.size e.p) ≤ s.targetSize e.p then some s
  else if belowSetpoint (s.info e.p) e.bts then (s.demote c id).countCandidate c e.p
  else s.countCandidate c e.p

/-- The candidate is a better victim than the best so far. -/
def prefers (c : VantageConfig) (e best : LineInfo) : Bool :=
  if e.p = c.partitions ∧ best.p ≠ c.partitions then true
  else if e.p ≠ c.partitions ∧ best.p = c.partitions then false
  else e.ts < best.ts

/-- The second loop, which an empty line ends. -/
def pick (c : VantageConfig) (s : Vantage) : List Nat → Nat → Nat
  | [], best => best
  | id :: rest, best =>
    if (s.array id).ts = 0 then id
    else pick c s rest (if prefers c (s.array id) (s.array best) then id else best)

def getBestCandidate (c : VantageConfig) (s : Vantage) : Option (Nat × Vantage) :=
  match s.candList with
  | [] => none
  | first :: rest =>
    if s.candList.length ≤ c.assoc then do
      let s ← (first :: rest).foldlM (considerDemotion c) s
      let bestId := s.pick c (first :: rest) first
      if bestId < 2 ^ 31 ∧ bestId < c.totalSize then some (bestId, s) else none
    else none

def replaced (s : Vantage) (id : Nat) : Vantage :=
  { s.setLine id { s.array id with ts := 0, bts := 0, addr := s.incomingLineAddr } with
    candList := [] }

/-! ## Runs -/

inductive Op where
  | startReplacement (req : MemReq)
  | recordCandidate (id : Nat)
  | getBestCandidate
  | replaced (id : Nat)
  | update (id : Nat) (req : MemReq)
  | setPartitionSizes (sizes : Nat → Nat)

def step (c : VantageConfig) (s : Vantage) : Op → Option Vantage
  | .startReplacement req => some (s.startReplacement req)
  | .recordCandidate id => s.recordCandidate c id
  | .getBestCandidate => (s.getBestCandidate c).map Prod.snd
  | .replaced id => some (s.replaced id)
  | .update id req => s.update c id req
  | .setPartitionSizes sizes => s.setPartitionSizes c sizes

/-- The lines are lines of the array, and the mapper returns a partition in range. -/
def Legal (c : VantageConfig) : Op → Prop
  | .startReplacement _ => True
  | .recordCandidate id => id < c.totalSize
  | .getBestCandidate => True
  | .replaced id => id < c.totalSize
  | .update id req => id < c.totalSize ∧ ∃ p < c.partitions, c.getPartition req = some p
  | .setPartitionSizes _ => True

instance (c : VantageConfig) : (op : Op) → Decidable (Legal c op)
  | .startReplacement _ => .isTrue trivial
  | .recordCandidate id => inferInstanceAs (Decidable (id < c.totalSize))
  | .getBestCandidate => .isTrue trivial
  | .replaced id => inferInstanceAs (Decidable (id < c.totalSize))
  | .update id req => inferInstanceAs
      (Decidable (id < c.totalSize ∧ ∃ p < c.partitions, c.getPartition req = some p))
  | .setPartitionSizes _ => .isTrue trivial

def machine (c : VantageConfig) : Machine Vantage Op where
  legal _ := Legal c
  step := step c

instance (c : VantageConfig) (s : Vantage) (op : Op) : Decidable ((machine c).legal s op) :=
  inferInstanceAs (Decidable (Legal c op))

end Vantage

end Zsim.Partition
