import Mathlib.Data.Nat.Log
import Mathlib.Logic.Function.Basic
import Zsim.Lib.Machine
import Zsim.Lib.Word

/-!
# Utility monitors

`UMon` of utility_monitor.h and utility_monitor.cpp.  Each set is a linked list of
`buckets` nodes, the most recently used one first.  The profiling counters are left out.
`none` is a failed assertion or a null pointer that is followed.
-/

set_option autoImplicit false

namespace Zsim.Umon

/-- What the constructor is given, with the hash functions of `hf`. -/
structure UMonConfig where
  bankLines : Nat
  umonLines : Nat
  buckets : Nat
  hash : Nat → Nat → Nat
  buckets_pos : 0 < buckets
  sets_pos : 0 < umonLines / buckets

namespace UMonConfig

variable (c : UMonConfig)

def sets : Nat := c.umonLines / c.buckets

def samplingFactor : Nat := c.bankLines / c.umonLines

/-- The number of times that the `while` shifts. -/
def samplingFactorBits : Nat := Nat.log2 c.samplingFactor

def setsBits : Nat := Nat.log2 c.sets

def sampleSel (lineAddr : Nat) : Nat := c.hash 0 lineAddr &&& (2 ^ c.samplingFactorBits - 1)

def set (lineAddr : Nat) : Nat := c.hash 1 lineAddr &&& (2 ^ c.setsBits - 1)

end UMonConfig

structure UMon where
  curWayHits : Nat → Nat
  curMisses : Nat
  /-- `addr` and `next` of the nodes of a set; `none` is a null pointer -/
  addr : Nat → Nat → Nat
  next : Nat → Nat → Option Nat
  heads : Nat → Nat

namespace UMon

def init (c : UMonConfig) : UMon where
  curWayHits _ := 0
  curMisses := 0
  addr _ _ := 0
  next _ j := if j < c.buckets - 1 then some (j + 1) else none
  heads _ := 0

/-- Where the loop over the buckets ends; a hit is at a position. -/
structure Found where
  prev : Option Nat
  cur : Nat
  hit : Option Nat

/-- The loop from bucket `b` on, with `left` buckets to go. -/
def find (c : UMonConfig) (u : UMon) (set lineAddr : Nat) :
    (left b : Nat) → (prev : Option Nat) → (cur : Nat) → Option Found
  | 0, _, prev, cur => some ⟨prev, cur, none⟩
  | left + 1, b, prev, cur =>
    if u.addr set cur = lineAddr then some ⟨prev, cur, some b⟩
    else if b < c.buckets - 1 then do
      let next ← u.next set cur
      find c u set lineAddr left (b + 1) (some cur) next
    else find c u set lineAddr left (b + 1) prev cur

/-- Profile the hit, or the miss, which puts the line in. -/
def profile (u : UMon) (set lineAddr : Nat) (found : Found) : Option UMon :=
  match found.hit with
  | some b => some { u with curWayHits := Function.update u.curWayHits b (u.curWayHits b + 1) }
  | none =>
    if u.next set found.cur = none then
      some
        { u with
          curMisses := u.curMisses + 1
          addr := Function.update u.addr set (Function.update (u.addr set) found.cur lineAddr) }
    else none

/-- Move `cur` to the MRU position. -/
def moveToMRU (u : UMon) (set : Nat) (found : Found) : UMon :=
  match found.prev with
  | some prev =>
    let unlinked := Function.update (u.next set) prev (u.next set found.cur)
    { u with
      next := Function.update u.next set
        (Function.update unlinked found.cur (some (u.heads set)))
      heads := Function.update u.heads set found.cur }
  | none => u

def access (c : UMonConfig) (u : UMon) (lineAddr : Nat) : Option UMon :=
  if c.sampleSel lineAddr ≠ 0 then some u
  else do
    let set := c.set lineAddr
    let found ← u.find c set lineAddr c.buckets 0 none (u.heads set)
    let profiled ← u.profile set lineAddr found
    some (profiled.moveToMRU set found)

def getNumAccesses (c : UMonConfig) (u : UMon) : Nat :=
  (List.range c.buckets).foldl (fun total i => total + u.curWayHits (c.buckets - i - 1)) u.curMisses

/-- One round of the loop of `getMisses`; the number is `total`. -/
def accumulate (c : UMonConfig) (u : UMon) (s : (Nat → Nat) × Nat) (i : Nat) : (Nat → Nat) × Nat :=
  (Function.update s.1 (c.buckets - i) s.2, s.2 + u.curWayHits (c.buckets - i - 1))

/-- What `getMisses` leaves in the array `misses`, which needs `buckets + 1` entries. -/
def getMisses (c : UMonConfig) (u : UMon) (misses : Nat → Nat) : Nat → Nat :=
  let (misses, total) := (List.range c.buckets).foldl (accumulate c u) (misses, u.curMisses)
  Function.update misses 0 total

def startNextInterval (c : UMonConfig) (u : UMon) : UMon :=
  { u with
    curMisses := 0
    curWayHits := fun b => if b < c.buckets then 0 else u.curWayHits b }

inductive Op where
  | access (lineAddr : Nat)
  | startNextInterval

def step (c : UMonConfig) (u : UMon) : Op → Option UMon
  | .access lineAddr => u.access c lineAddr
  | .startNextInterval => some (u.startNextInterval c)

/-- No line address is zero, which marks an empty node. -/
def Legal : Op → Prop
  | .access lineAddr => lineAddr ≠ 0
  | .startNextInterval => True

instance : (op : Op) → Decidable (Legal op)
  | .access lineAddr => inferInstanceAs (Decidable (lineAddr ≠ 0))
  | .startNextInterval => .isTrue trivial

def machine (c : UMonConfig) : Machine UMon Op where
  legal _ := Legal
  step := step c

instance (c : UMonConfig) (u : UMon) (op : Op) : Decidable ((machine c).legal u op) :=
  inferInstanceAs (Decidable (Legal op))

end UMon

end Zsim.Umon
