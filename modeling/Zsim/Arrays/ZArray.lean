import Mathlib.Logic.Function.Basic
import Zsim.Lib.Rotation

/-!
# The zcache array

`ZArray` of cache_arrays.cpp.  `array` maps a line id to its address, 0 for a
line that holds nothing, and `lookupArray` a physical position to a line id.  The
hash family is any function; the replacement policy enters through the candidate
that `rankCands` picks.  `none` is a panic, a failed assertion, a write past the
end of `candidates` or of `swapArray`, or a walk that does not end.
-/

set_option autoImplicit false

namespace Zsim

structure ZConfig where
  numSets : Nat
  ways : Nat
  cands : Nat
  hash : Nat → Nat → Nat
  /-- zcaches need >=2 ways to work -/
  waysGt : 1 < ways
  /-- candidates < ways does not make sense in a zcache -/
  candsGe : ways ≤ cands
  isPow2 : numSets ≠ 0 ∧ numSets &&& (numSets - 1) = 0

structure ZArray where
  array : Nat → Nat
  lookupArray : Nat → Nat
  /-- the first `swapArrayLen` entries -/
  swapArray : List Nat

structure ZWalkInfo where
  pos : Nat
  lineId : Nat
  /-- -1 is `none` -/
  parentIdx : Option Nat

structure ZWalk where
  candidates : Nat → ZWalkInfo
  numCandidates : Nat
  allValid : Bool
  fringeStart : Nat

/-- `rankCands` of a policy that returns one of the presented candidates. -/
structure RankCands where
  rank : List Nat → Nat
  presented : ∀ cands, cands ≠ [] → rank cands ∈ cands

namespace ZConfig

variable (c : ZConfig)

def numLines : Nat := c.ways * c.numSets

def setMask : Nat := c.numSets - 1

def pos (w lineAddr : Nat) : Nat := w * c.numSets + (c.hash w lineAddr &&& c.setMask)

/-- The constructor: a linear mapping, and no line holds an address. -/
def init : ZArray where
  array _ := 0
  lookupArray i := i
  swapArray := []

/-! ## lookup -/

def lookupWays (z : ZArray) (lineAddr : Nat) : Option Nat :=
  (List.range c.ways).findSome? fun w =>
    let lineId := z.lookupArray (c.pos w lineAddr)
    if z.array lineId = lineAddr then some lineId else none

/-- The line id, or `some none` for -1. -/
def lookup (z : ZArray) (lineAddr : Nat) : Option (Option Nat) :=
  if lineAddr = 0 then none else some (c.lookupWays z lineAddr)

/-! ## preinsert -/

/-- A write to `candidates`, which has `cands + ways` entries. -/
def setCandidate (walk : ZWalk) (i : Nat) (info : ZWalkInfo) : Option ZWalk :=
  if i < c.cands + c.ways then
    some { walk with candidates := Function.update walk.candidates i info }
  else none

def seed (z : ZArray) (lineAddr : Nat) (walk : ZWalk) (w : Nat) : Option ZWalk := do
  let pos := c.pos w lineAddr
  let lineId := z.lookupArray pos
  let walk ← c.setCandidate walk w ⟨pos, lineId, none⟩
  some { walk with allValid := walk.allValid && z.array lineId ≠ 0 }

/-- One way of an expansion.  A candidate that is the fringe itself is written,
but the next one overwrites it. -/
def expandWay (z : ZArray) (fringeId fringeAddr : Nat) (walk : ZWalk) (w : Nat) : Option ZWalk := do
  let pos := c.pos w fringeAddr
  let lineId := z.lookupArray pos
  let walk ← c.setCandidate walk walk.numCandidates ⟨pos, lineId, some walk.fringeStart⟩
  some { walk with
    allValid := walk.allValid && z.array lineId ≠ 0
    numCandidates := walk.numCandidates + if lineId ≠ fringeId then 1 else 0 }

def expand (z : ZArray) (walk : ZWalk) : Option ZWalk := do
  let fringeId := (walk.candidates walk.fringeStart).lineId
  let fringeAddr := z.array fringeId
  if fringeAddr ≠ 0 then
    let walk ← (List.range c.ways).foldlM (c.expandWay z fringeId fringeAddr) walk
    some { walk with fringeStart := walk.fringeStart + 1 }
  else none

/-- Expand fringe in BFS fashion; the fuel bounds the iterations. -/
def walkFrom (z : ZArray) : Nat → ZWalk → Option ZWalk
  | fuel, walk =>
    if walk.numCandidates < c.cands ∧ walk.allValid = true then
      match fuel with
      | 0 => none
      | fuel + 1 => (c.expand z walk).bind (walkFrom z fuel)
    else some walk

def walk (z : ZArray) (lineAddr : Nat) : Option ZWalk := do
  let start := {
    candidates := fun _ => ⟨0, 0, none⟩
    numCandidates := c.ways
    allValid := true
    fringeStart := 0 }
  let seeded ← (List.range c.ways).foldlM (c.seed z lineAddr) start
  c.walkFrom z c.cands seeded

/-- The positions from a candidate up to its seed; `slots` entries of `swapArray`
are left. -/
def swapChain (walk : ZWalk) : Nat → Option Nat → Option (List Nat)
  | _, none => some []
  | 0, some _ => none
  | slots + 1, some idx =>
    let cand := walk.candidates idx
    (swapChain walk slots cand.parentIdx).map (cand.pos :: ·)

/-- The array with its swaps, the candidate and the address it gives up. -/
def preinsert (z : ZArray) (lineAddr : Nat) (rp : RankCands) : Option (ZArray × Nat × Nat) := do
  let walk ← c.walk z lineAddr
  if walk.allValid = true → c.cands ≤ walk.numCandidates then
    let numCandidates := min walk.numCandidates c.cands
    let lines := (List.range numCandidates).map fun i => (walk.candidates i).lineId
    let bestCandidate := rp.rank lines
    if bestCandidate < c.numLines then
      -- the minimum index of the candidates that match, in case there are loops
      let minIdx := (List.range numCandidates).find? fun i =>
        bestCandidate = (walk.candidates i).lineId
      let swaps ← swapChain walk (c.cands / c.ways + 2) minIdx
      if swaps ≠ [] then
        some ({ z with swapArray := swaps }, bestCandidate, z.array bestCandidate)
      else none
    else none
  else none

/-! ## postinsert -/

def postinsert (z : ZArray) (lineAddr candidate : Nat) : Option ZArray :=
  match z.swapArray with
  | [] => none
  | first :: rest =>
    if z.lookupArray first = candidate then
      some { z with
        lookupArray := rotate candidate (first :: rest) z.lookupArray
        array := Function.update z.array candidate lineAddr }
    else none

end ZConfig

end Zsim
