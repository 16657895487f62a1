import Mathlib.Algebra.Order.Field.Rat
import Zsim.InLists.Model
import Zsim.Lib.Count
import Zsim.Partition.Mapper

/-!
# The ideal partitioned LRU array

`IdealLRUPartReplPolicy` and `IdealLRUPartArray` of ideal_arrays.h.  The partitions and the lines are
tables; the indices into the arrays of the partitions and of the monitor are recorded, also those beyond
the end.  The profiling counters are left out, and of the monitor all but the index.  `none` is a failed
assertion.
-/

set_option autoImplicit false

namespace Zsim

open Zsim.Partition (MemReq)

/-- The rounding of a quotient to a double -/
structure Rounding where
  round : ℚ → ℚ
  mono : ∀ x y, x ≤ y → round x ≤ round y
  int : ∀ n : Int, -2 ^ 53 ≤ n → n ≤ 2 ^ 53 → round n = n
  power : ∀ k ≤ 1022, round (1 / 2 ^ k) = 1 / 2 ^ k

structure IdPartConfig where
  partitions : Nat
  numLines : Nat
  numBuckets : Nat
  /-- the partition of a request, by a mapper of any kind -/
  getPartition : MemReq → Option Nat
  rounding : Rounding
  partitions_pos : 0 < partitions
  lines_pos : 0 < numLines
  lines_word : numLines < 2 ^ 32
  buckets_pos : 0 < numBuckets

structure IdPartEntry where
  p : Nat
  /-- careful, true except when just evicted, even if invalid -/
  used : Bool

structure IdPartInfo where
  size : Nat
  targetSize : Nat

structure IdealLRUPart where
  array : Nat → IdPartEntry
  partInfo : Nat → IdPartInfo
  /-- the lists of the partitions -/
  lruList : InLists Nat Nat
  lineMap : Nat → Option Nat
  /-- the addresses of the lines, 0 if they were never filled -/
  lineAddrs : Nat → Nat
  /-- the indices of partitions, the last one first -/
  touched : List Nat

namespace IdealLRUPart

def touch (s : IdealLRUPart) (p : Nat) : IdealLRUPart := { s with touched := p :: s.touched }

def setInfo (s : IdealLRUPart) (p : Nat) (info : IdPartInfo) : IdealLRUPart :=
  { s with partInfo := Function.update s.partInfo p info, touched := p :: s.touched }

/-! ## The policy -/

def addLine (s : IdealLRUPart) (i : Nat) : Option IdealLRUPart := do
  let l ← s.lruList.pushFront 0 i
  let s := { s with array := Function.update s.array i ⟨0, true⟩, lruList := l }
  some (s.setInfo 0 { s.partInfo 0 with size := u64 ((s.partInfo 0).size + 1) })

/-- The first loop goes to the index `partitions`. -/
def construct (c : IdPartConfig) : Option IdealLRUPart :=
  let s : IdealLRUPart := ⟨fun _ => ⟨0, false⟩, fun _ => ⟨0, 0⟩, InLists.new, fun _ => none, fun _ => 0, []⟩
  let s := (List.range (c.partitions + 1)).foldl
    (fun s p => s.setInfo p ⟨0, c.numLines / c.partitions⟩) s
  (List.range c.numLines).foldlM addLine s

def setPartitionSizes (c : IdPartConfig) (s : IdealLRUPart) (sizes : Nat → Nat) : IdealLRUPart :=
  (List.range c.partitions).foldl
    (fun s p => s.setInfo p
      { s.partInfo p with targetSize := u32 (sizes p * c.numLines) / c.numBuckets }) s

/-- From the list of one partition to the front of the list of another, or of the same -/
def moveToFront (s : IdealLRUPart) (oldPart newPart id : Nat) : Option IdealLRUPart := do
  let l ← s.lruList.remove oldPart id
  let l ← l.pushFront newPart id
  some (({ s with lruList := l }.touch oldPart).touch newPart)

/-- The counters of a miss -/
def moveSize (s : IdealLRUPart) (oldPart newPart : Nat) : IdealLRUPart :=
  if oldPart ≠ newPart then
    let s := s.setInfo oldPart { s.partInfo oldPart with size := u64Sub (s.partInfo oldPart).size 1 }
    s.setInfo newPart { s.partInfo newPart with size := u64 ((s.partInfo newPart).size + 1) }
  else s.touch oldPart

/-- The monitor gets the partition of the entry last. -/
def update (c : IdPartConfig) (s : IdealLRUPart) (id : Nat) (req : MemReq) : Option IdealLRUPart :=
  let e := s.array id
  if e.used then (s.moveToFront e.p e.p id).map (touch · e.p)
  else do
    let newPart ← c.getPartition req
    let s := s.moveSize e.p newPart
    let s := { s with array := Function.update s.array id ⟨newPart, true⟩ }
    let s ← s.moveToFront e.p newPart id
    some (s.touch newPart)

def replaced (s : IdealLRUPart) (id : Nat) : IdealLRUPart :=
  { s with array := Function.update s.array id { s.array id with used := false } }

/-- The difference is one of two `int32_t`. -/
def diff (c : IdPartConfig) (info : IdPartInfo) : ℚ :=
  c.rounding.round (((Int32.ofNat info.size - Int32.ofNat info.targetSize).toInt : ℚ) /
    ((info.targetSize + 1 : Nat) : ℚ))

/-- `victimPart` and `maxPartDiff` after the round of a partition -/
def choose (c : IdPartConfig) (s : IdealLRUPart) (best : Nat × ℚ) (p : Nat) : Nat × ℚ :=
  if best.2 < diff c (s.partInfo p) ∧ 0 < (s.partInfo p).size then (p, diff c (s.partInfo p)) else best

def victimPart (c : IdPartConfig) (s : IdealLRUPart) (own : Nat) : Nat :=
  ((List.range c.partitions).foldl (s.choose c) (own, if (s.partInfo own).size = 0 then -2 else 0)).1

def rank (c : IdPartConfig) (s : IdealLRUPart) (req : MemReq) : Option (Nat × IdealLRUPart) := do
  let own ← c.getPartition req
  let victimPart := s.victimPart c own
  let s := { s with touched := victimPart :: ((List.range c.partitions).reverse ++ own :: s.touched) }
  if 0 < (s.partInfo victimPart).size ∧ (s.partInfo victimPart).size = s.lruList.size victimPart then
    (s.lruList.back victimPart).map fun lineId => (lineId, s)
  else none

/-! ## The array -/

/-- The line id, where `none` is -1 -/
def lookup (c : IdPartConfig) (s : IdealLRUPart) (req : MemReq) (updateReplacement : Bool) :
    Option (Option Nat × IdealLRUPart) :=
  match s.lineMap req.lineAddr with
  | none => some (none, s)
  | some lineId =>
    if updateReplacement then (s.update c lineId req).map fun s => (some lineId, s)
    else some (some lineId, s)

/-- The address to write back and the line id -/
def preinsert (c : IdPartConfig) (s : IdealLRUPart) (req : MemReq) : Option (Nat × Nat × IdealLRUPart) :=
  (s.rank c req).map fun (lineId, s) => (s.lineAddrs lineId, lineId, s)

def postinsert (c : IdPartConfig) (s : IdealLRUPart) (req : MemReq) (lineId : Nat) : Option IdealLRUPart :=
  let lineMap := Function.update s.lineMap (s.lineAddrs lineId) none
  if lineMap req.lineAddr = none then
    let s := { s with
      lineAddrs := Function.update s.lineAddrs lineId req.lineAddr
      lineMap := Function.update lineMap req.lineAddr (some lineId) }
    (s.replaced lineId).update c lineId req
  else none

inductive Op where
  /-- with what the cache decides about the request -/
  | access (req : MemReq) (updateReplacement shouldAllocate : Bool)
  | setPartitionSizes (sizes : Nat → Nat)

def step (c : IdPartConfig) (s : IdealLRUPart) : Op → Option IdealLRUPart
  | .access req updateReplacement shouldAllocate => do
    let (found, s) ← s.lookup c req updateReplacement
    match found with
    | some _ => some s
    | none =>
      if shouldAllocate then do
        let (_, lineId, s) ← s.preinsert c req
        s.postinsert c req lineId
      else some s
  | .setPartitionSizes sizes => some (s.setPartitionSizes c sizes)

def InRange (c : IdPartConfig) (req : MemReq) : Prop := ∃ p < c.partitions, c.getPartition req = some p

def Legal (c : IdPartConfig) : Op → Prop
  | .access req _ _ => InRange c req
  | .setPartitionSizes _ => True

def machine (c : IdPartConfig) : Machine IdealLRUPart Op where
  legal _ := Legal c
  step := step c

end IdealLRUPart

end Zsim
