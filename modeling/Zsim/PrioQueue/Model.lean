import Mathlib.Logic.Function.Basic
import Zsim.Lib.Word

/-!
# The priority queue of the contention simulation

`PrioQueue<T, B>` of prio_queue.h.  A block covers 64 consecutive cycles; the
next `B` blocks are kept in a ring and what lies further ahead in a multimap,
which is a list here, sorted by cycle and with equal cycles in the order of
their insertion.  `none` and `Failure.assertion` are a failed assertion or a
null dereference.
-/

set_option autoImplicit false

namespace Zsim

structure PQBlock (T : Type) where
  array : Nat → Option T
  /-- bit i is 1 if array[i] is populated -/
  occ : BitVec 64

structure PrioQueue (T : Type) where
  blocks : Nat → PQBlock T
  feMap : List (Nat × T)
  curBlock : Nat
  elems : Nat
  /-- the `next` field of the elements, which belongs to the queue -/
  next : T → Option T

namespace PrioQueue

variable {T : Type} [DecidableEq T]

inductive Failure where
  | assertion
  | outOfFuel
  deriving DecidableEq, Repr

/-- The constructor; `next` is what the fields of the elements hold then. -/
def init (next : T → Option T) : PrioQueue T where
  blocks _ := { array := fun _ => none, occ := 0 }
  feMap := []
  curBlock := 0
  elems := 0
  next := next

/-! ## PQBlock -/

/-- `PQBlock::dequeue` on `blocks[i]`: the element and its offset. -/
def blockDequeue (pq : PrioQueue T) (i : Nat) : Option (PrioQueue T × T × Nat) :=
  let block := pq.blocks i
  if block.occ ≠ 0 then
    let pos := block.occ.ctz.toNat
    match block.array pos with
    | none => none
    | some res =>
      let next := pq.next res
      let occ := if next = none then block.occ ^^^ BitVec.twoPow 64 pos else block.occ
      let block := { array := Function.update block.array pos next, occ := occ }
      some ({ pq with
        blocks := Function.update pq.blocks i block
        next := Function.update pq.next res none }, res, pos)
  else none

/-- `PQBlock::enqueue` on `blocks[i]`. -/
def blockEnqueue (pq : PrioQueue T) (i : Nat) (obj : T) (pos : Nat) : Option (PrioQueue T) :=
  let block := pq.blocks i
  if pq.next obj = none then
    let block := {
      array := Function.update block.array pos (some obj)
      occ := block.occ ||| BitVec.twoPow 64 pos }
    some { pq with
      blocks := Function.update pq.blocks i block
      next := Function.update pq.next obj ((pq.blocks i).array pos) }
  else none

/-! ## PrioQueue -/

/-- Insertion into the multimap, behind the elements of the same cycle. -/
def insertFar (cycle : Nat) (obj : T) : List (Nat × T) → List (Nat × T)
  | [] => [(cycle, obj)]
  | e :: rest =>
    if e.1 ≤ cycle then e :: insertFar cycle obj rest else (cycle, obj) :: e :: rest

section
variable (B : Nat)

def enqueue (pq : PrioQueue T) (obj : T) (cycle : Nat) : Option (PrioQueue T) :=
  let absBlock := cycle / 64
  if pq.curBlock ≤ absBlock then do
    let pq ←
      if absBlock < u64 (pq.curBlock + B) then pq.blockEnqueue (absBlock % B) obj (cycle % 64)
      else some { pq with feMap := insertFar cycle obj pq.feMap }
    -- a count of distinct objects, which does not wrap
    some { pq with elems := pq.elems + 1 }
  else none

/-- The loop that moves every element with a cycle below `topCycle` to the
blocks, over the elements of the multimap from its beginning. -/
def refillFrom (topCycle : Nat) : List (Nat × T) → PrioQueue T → Option (PrioQueue T)
  | [], pq => some { pq with feMap := [] }
  | (cycle, obj) :: rest, pq =>
    if cycle < topCycle then
      let absBlock := cycle / 64
      if pq.curBlock ≤ absBlock ∧ absBlock < u64 (pq.curBlock + B) then do
        let pq ← pq.blockEnqueue (absBlock % B) obj (cycle % 64)
        refillFrom topCycle rest pq
      else none
    else some { pq with feMap := (cycle, obj) :: rest }

/-- One iteration of the loop of `dequeue` over empty blocks. -/
def advance (pq : PrioQueue T) : Option (PrioQueue T) :=
  let pq := { pq with curBlock := u64 (pq.curBlock + 1) }
  if pq.curBlock % (B / 2) = 0 ∧ pq.feMap ≠ [] then
    refillFrom B (u64 (u64 (pq.curBlock + B) * 64)) pq.feMap pq
  else some pq

def seek : Nat → PrioQueue T → Except Failure (PrioQueue T)
  | 0, _ => .error .outOfFuel
  | fuel + 1, pq =>
    if (pq.blocks (pq.curBlock % B)).occ = 0 then
      match pq.advance B with
      | none => .error .assertion
      | some pq => seek fuel pq
    else .ok pq

/-- The element, the cycle it leaves with and the queue it leaves behind. -/
def dequeue (fuel : Nat) (pq : PrioQueue T) : Except Failure (PrioQueue T × T × Nat) :=
  if pq.elems ≠ 0 then
    match seek B fuel pq with
    | .error e => .error e
    | .ok pq =>
      match pq.blockDequeue (pq.curBlock % B) with
      | none => .error .assertion
      | some (pq, obj, offset) =>
        let deqCycle := u64 (u64 (pq.curBlock * 64) + offset)
        .ok ({ pq with elems := pq.elems - 1 }, obj, deqCycle)
  else .error .assertion

def size (pq : PrioQueue T) : Nat := pq.elems

def populated (pq : PrioQueue T) (i : Nat) : Bool :=
  (pq.blocks (u64 (pq.curBlock + i) % B)).occ ≠ 0

def blockCycle (pq : PrioQueue T) (i : Nat) : Nat :=
  let pos := (pq.blocks (u64 (pq.curBlock + i) % B)).occ.ctz.toNat
  u64 (u64 (u64 (pq.curBlock + i) * 64) + pos)

def firstCycle (pq : PrioQueue T) : Option Nat :=
  if pq.elems ≠ 0 then
    match (List.range (B / 2)).find? (pq.populated B) with
    | some i => some (pq.blockCycle B i)
    | none =>
      match (List.range' (B / 2) (B - B / 2)).find? (pq.populated B) with
      | some i =>
        -- beyond B/2 blocks, there may be a far element that comes earlier
        match pq.feMap with
        | [] => some (pq.blockCycle B i)
        | e :: _ => some (min (pq.blockCycle B i) e.1)
      | none => pq.feMap.head?.map Prod.fst
  else none

end

end PrioQueue

end Zsim
