import Mathlib.Logic.Function.Basic
import Zsim.Lib.Extents
import Zsim.Lib.Machine
import Zsim.Lib.Word

/-!
# The slab allocator

`slab::Slab` and `slab::SlabAlloc` (slab_alloc.h).  Slabs are numbered as `gm_memalign` hands them
out, and slab `k` is at address `k * SLAB_SIZE`, so that an element's address tells its slab.
-/

set_option autoImplicit false

namespace Zsim.Slabs

def SLAB_SIZE : Nat := 2 ^ 16

/-- `allocator`, `liveElems` and `usedBytes` -/
def headerSize : Nat := 16

def bufSize : Nat := SLAB_SIZE - headerSize

structure Slab where
  liveElems : Nat
  usedBytes : Nat

def Slab.cleared : Slab := ⟨0, 0⟩

/-- The offset of the element in `buf`; none if the slab is full.  `usedBytes` is advanced in both cases. -/
def Slab.alloc (s : Slab) (bytes : Nat) : Slab × Option Nat :=
  let usedBytes := u32 (s.usedBytes + bytes)
  if usedBytes < bufSize then (⟨u32 (s.liveElems + 1), usedBytes⟩, some s.usedBytes)
  else (⟨s.liveElems, usedBytes⟩, none)

structure SlabAlloc where
  curSlab : Nat
  /-- `freeList`, its back last -/
  freeList : List Nat
  liveSlabs : Nat
  slab : Nat → Slab
  /-- ghost: the slabs that there are -/
  numSlabs : Nat
  /-- ghost: the live elements, by address and size -/
  elems : List Extent

/-- `buf` of a slab -/
def bufAddr (slab : Nat) : Nat := slab * SLAB_SIZE + headerSize

/-- `ptr & SLAB_MASK` -/
def slabOf (ptr : Nat) : Nat := ptr / SLAB_SIZE

namespace SlabAlloc

def setSlab (a : SlabAlloc) (k : Nat) (s : Slab) : SlabAlloc :=
  { a with slab := Function.update a.slab k s }

/-- A slab of the free list is clear. -/
def allocSlab (a : SlabAlloc) : SlabAlloc :=
  match a.freeList.getLast? with
  | some s => { a with
      curSlab := s, freeList := a.freeList.dropLast, liveSlabs := u32 (a.liveSlabs + 1) }
  | none => { a.setSlab a.numSlabs .cleared with
      curSlab := a.numSlabs, numSlabs := a.numSlabs + 1, liveSlabs := u32 (a.liveSlabs + 1) }

def new : SlabAlloc := allocSlab ⟨0, [], 0, fun _ => .cleared, 0, []⟩

/-- `curSlab->alloc(sz)` -/
def curAlloc (a : SlabAlloc) (sz : Nat) : SlabAlloc × Option Nat :=
  let (slab, offset) := (a.slab a.curSlab).alloc sz
  (a.setSlab a.curSlab slab, offset.map (bufAddr a.curSlab + ·))

def alloc (a : SlabAlloc) (sz : Nat) : Option (SlabAlloc × Nat) :=
  if ¬ sz < SLAB_SIZE then none  -- assertion
  else do
    let (a, ptr) ← match a.curAlloc sz with
      | (a, some ptr) => some (a, ptr)
      | (a, none) =>
        match a.allocSlab.curAlloc sz with
        | (a, some ptr) => some (a, ptr)
        | (_, none) => none  -- assertion
    if slabOf ptr = a.curSlab then some (a, ptr) else none  -- assertion

def freeSlab (a : SlabAlloc) (s : Nat) : Option SlabAlloc :=
  let a := a.setSlab s .cleared
  let a := if s ≠ a.curSlab then
      { a with freeList := a.freeList ++ [s], liveSlabs := u32Sub a.liveSlabs 1 }
    else a
  if a.liveSlabs ≠ 0 then some a else none  -- assertion

def freeElem (a : SlabAlloc) (elem : Nat) : Option SlabAlloc :=
  let s := slabOf elem
  let prevLiveElems := (a.slab s).liveElems
  let usedBytes := (a.slab s).usedBytes
  let a := a.setSlab s ⟨u32Sub prevLiveElems 1, usedBytes⟩
  if ¬ (prevLiveElems ≠ 0 ∧ prevLiveElems < usedBytes) then none  -- assertion
  else if prevLiveElems = 1 then a.freeSlab s
  else some a

end SlabAlloc

/-! ## Runs -/

inductive Op
  | alloc (sz : Nat)
  | freeElem (elem : Extent)
  deriving DecidableEq

def allocator : Machine SlabAlloc Op where
  legal a
    | .alloc sz => 0 < sz ∧ sz < bufSize
    | .freeElem elem => elem ∈ a.elems
  step a
    | .alloc sz => (a.alloc sz).map fun (a, ptr) => { a with elems := a.elems ++ [⟨ptr, sz⟩] }
    | .freeElem elem => (a.freeElem elem.start).map fun a => { a with elems := a.elems.erase elem }

instance (a : SlabAlloc) : ∀ op, Decidable (allocator.legal a op)
  | .alloc sz => inferInstanceAs (Decidable (0 < sz ∧ sz < bufSize))
  | .freeElem elem => inferInstanceAs (Decidable (elem ∈ a.elems))

end Zsim.Slabs
