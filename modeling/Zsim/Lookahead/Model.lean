import Mathlib.Algebra.Group.Nat.Defs
import Mathlib.Logic.Function.Basic
import Zsim.Lib.Word

/-!
# Lookahead partitioning

`lookahead::computeBestPartitioning` and `LookaheadPartitioner` of lookahead.cpp, and
`WayPartReplPolicy::setPartitionSizes` of part_repl_policies.h.  The two utilities that
`partition` computes decide nothing, as it switches in any case, and are left out.
-/

set_option autoImplicit false

namespace Zsim.Lookahead

structure Doubles where
  Double : Type
  /-- from an unsigned word -/
  ofNat : Nat → Double
  /-- to a `uint32_t` -/
  toNat : Double → Nat
  mul : Double → Double → Double
  div : Double → Double → Double
  gt : Double → Double → Bool
  ge : Double → Double → Bool
  minusOne : Double
  zero : Double
  one : Double
  -- no quotient of unsigned numbers is negative
  quot_gt : ∀ a i, 0 < i → gt (div (ofNat a) (ofNat i)) minusOne = true
  one_mul : ∀ n, n < 2 ^ 32 → toNat (mul one (ofNat n)) = n
  -- a product with a factor between zero and one is not larger than the other factor
  mul_le : ∀ x n, n < 2 ^ 32 → ge x zero = true → gt x one = false → toNat (mul x (ofNat n)) ≤ n

/-- The misses of a partition with a number of buckets. -/
abbrev PartitionMonitor := Nat → Nat → Nat

variable (d : Doubles)

/-- One round of the loop over `i`; the pair is `maxMu` and `maxMuAlloc`. -/
def marginalUtility (monitor : PartitionMonitor) (part partAlloc : Nat) (best : d.Double × Nat)
    (i : Nat) : d.Double × Nat :=
  let extraHits := u32Sub (monitor part partAlloc) (monitor part (partAlloc + i))
  let mu := d.div (d.ofNat extraHits) (d.ofNat i)
  if d.gt mu best.1 then (mu, i) else best

def getMaxMarginalUtility (monitor : PartitionMonitor) (part partAlloc balance : Nat) :
    Option (d.Double × Nat) :=
  -- every uint32_t is at most 2^32 - 1, and the loop would not end
  if balance + 1 < 2 ^ 32 then
    some ((List.range balance).foldl
      (fun best k => marginalUtility d monitor part partAlloc best (k + 1)) (d.minusOne, 0))
  else none

structure Best where
  maxMu : d.Double
  maxMuPart : Nat
  maxMuAlloc : Nat

def bestOf (forbidden : Nat → Bool) (monitor : PartitionMonitor) (allocs : Nat → Nat)
    (balance : Nat) (best : Best d) (i : Nat) : Option (Best d) :=
  if forbidden i then some best
  else do
    let (mu, muAlloc) ← getMaxMarginalUtility d monitor i (allocs i) balance
    some (if d.gt mu best.maxMu then ⟨mu, i, muAlloc⟩ else best)

structure Allocation where
  allocs : Nat → Nat
  balance : Nat

/-- The body of the `while`.  A balance that would wrap is `none`, as is the assertion. -/
def round (numPartitions : Nat) (forbidden : Nat → Bool) (monitor : PartitionMonitor)
    (s : Allocation) : Option Allocation := do
  let best ← (List.range numPartitions).foldlM (bestOf d forbidden monitor s.allocs s.balance)
    ⟨d.minusOne, numPartitions, 0⟩
  if best.maxMuPart < numPartitions ∧ best.maxMuAlloc ≤ s.balance then
    some
      { allocs := Function.update s.allocs best.maxMuPart
          (u32 (s.allocs best.maxMuPart + best.maxMuAlloc))
        balance := s.balance - best.maxMuAlloc }
  else none

/-- The `while`, with at most `fuel` rounds. -/
def rounds (numPartitions : Nat) (forbidden : Nat → Bool) (monitor : PartitionMonitor) :
    Nat → Allocation → Option Allocation
  | 0, s => if s.balance = 0 then some s else none
  | fuel + 1, s =>
    if s.balance = 0 then some s
    else (round d numPartitions forbidden monitor s).bind
      (rounds numPartitions forbidden monitor fuel)

def computeBestPartitioning (numPartitions buckets minAlloc : Nat) (forbidden : Nat → Bool)
    (monitor : PartitionMonitor) (fuel : Nat) : Option (Nat → Nat) :=
  if minAlloc ≤ buckets then do
    let final ← rounds d numPartitions forbidden monitor fuel ⟨fun _ => minAlloc, buckets - minAlloc⟩
    some final.allocs
  else none

/-- No partition is forbidden where `forbidden` is a null pointer. -/
structure LookaheadPartitioner where
  numPartitions : Nat
  buckets : Nat
  minAlloc : Nat
  allocPortion : d.Double
  forbidden : Nat → Bool

namespace LookaheadPartitioner

variable {d} (l : LookaheadPartitioner d)

/-- `allocPortion*buckets` as a `uint32_t`. -/
def allocBuckets : Nat := d.toNat (d.mul l.allocPortion (d.ofNat l.buckets))

/-- The `curAllocs` that the policy is given.  The array has `buckets + 1` entries. -/
def partition (monitor : PartitionMonitor) (fuel : Nat) : Option (Nat → Nat) := do
  let bestAllocs ← computeBestPartitioning d l.numPartitions l.allocBuckets
    (u32 (l.minAlloc * l.numPartitions)) l.forbidden monitor fuel
  if l.numPartitions ≤ u32 (l.buckets + 1) then some bestAllocs else none

end LookaheadPartitioner

structure WayPartReplPolicy where
  partitions : Nat
  ways : Nat
  totalSize : Nat
  targetSize : Nat → Nat
  wayPartIndex : Nat → Nat

namespace WayPartReplPolicy

/-- One round of the loop over the ways of a partition; the number is `curWay`, which must
be an index of `wayPartIndex`. -/
def assignWay (p : Nat) (s : WayPartReplPolicy × Nat) (_ : Nat) : Option (WayPartReplPolicy × Nat) :=
  if s.2 < s.1.ways then
    some ({ s.1 with wayPartIndex := Function.update s.1.wayPartIndex s.2 p }, s.2 + 1)
  else none

def assignPartition (waysPart : Nat → Nat) (s : WayPartReplPolicy × Nat) (p : Nat) :
    Option (WayPartReplPolicy × Nat) :=
  (List.range (waysPart p)).foldlM (assignWay p)
    ({ s.1 with
      targetSize := Function.update s.1.targetSize p (u32 (s.1.totalSize * waysPart p) / s.1.ways) },
     s.2)

def setPartitionSizes (waysPart : Nat → Nat) (rp : WayPartReplPolicy) : Option WayPartReplPolicy := do
  let (rp', curWay) ← (List.range rp.partitions).foldlM (assignPartition waysPart) (rp, 0)
  if curWay = rp.ways then some rp' else none

end WayPartReplPolicy

end Zsim.Lookahead
