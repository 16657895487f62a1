import Zsim.Slabs.Model

/-!
# Slabs are safe

Elements lie one behind the other in the part of their slab that was handed out since it was clear,
and a slab is clear again when its last element dies.
-/

set_option autoImplicit false

namespace Zsim.Slabs

open Extent

namespace SlabAlloc

/-- The number of live elements of a slab -/
def liveIn (a : SlabAlloc) (k : Nat) : Nat := a.elems.countP fun e => slabOf e.start = k

/-- The slabs that are not in the free list -/
def outside (a : SlabAlloc) : Finset Nat := (Finset.range a.numSlabs).filter fun k => k ∉ a.freeList

end SlabAlloc

structure Safe (a : SlabAlloc) : Prop where
  disjoint : a.elems.Pairwise Apart
  inside : ∀ e ∈ a.elems, slabOf e.start < a.numSlabs ∧ bufAddr (slabOf e.start) ≤ e.start ∧
    e.start + e.len ≤ (slabOf e.start + 1) * SLAB_SIZE
  liveElems_eq : ∀ k, k < a.numSlabs → (a.slab k).liveElems = a.liveIn k
  mem_freeList_iff : ∀ k, k < a.numSlabs → (k ∈ a.freeList ↔ k ≠ a.curSlab ∧ a.liveIn k = 0)
  freeList_nodup : a.freeList.Nodup
  liveSlabs_eq : a.liveSlabs = a.outside.card
  liveSlabs_pos : 1 ≤ a.liveSlabs

/-- Every byte that was handed out in the slab since it was clear is a live element of one byte. -/
def AllOneByte (a : SlabAlloc) (s : Nat) : Prop :=
  ∀ addr, bufAddr s ≤ addr → addr < bufAddr s + (a.slab s).usedBytes → ⟨addr, 1⟩ ∈ a.elems

instance (a : SlabAlloc) (s : Nat) : Decidable (AllOneByte a s) :=
  decidable_of_iff (∀ addr, addr < bufAddr s + (a.slab s).usedBytes → bufAddr s ≤ addr → ⟨addr, 1⟩ ∈ a.elems)
    (forall_congr' fun _ => forall_comm)

/-- No element is freed in a slab of one-byte elements, and `liveSlabs` does not overflow. -/
def Allowed (a : SlabAlloc) : Op → Prop
  | .alloc sz => bufSize ≤ (a.slab a.curSlab).usedBytes + sz → a.liveSlabs + 1 < 2 ^ 32
  | .freeElem elem => ¬ AllOneByte a (slabOf elem.start)

/-- Where the live elements are -/
structure Placed (a : SlabAlloc) : Prop where
  slabOf_lt : ∀ e ∈ a.elems, slabOf e.start < a.numSlabs
  used : ∀ e ∈ a.elems, e.Within (bufAddr (slabOf e.start)) (a.slab (slabOf e.start)).usedBytes
  inBuf : ∀ e ∈ a.elems, e.Within (bufAddr (slabOf e.start)) bufSize
  disjoint : a.elems.Pairwise Apart
  liveElems_eq : ∀ k, k < a.numSlabs → (a.slab k).liveElems = a.liveIn k
  clear : ∀ k, k < a.numSlabs → a.liveIn k = 0 → (a.slab k).usedBytes = 0

instance (a : SlabAlloc) : ∀ op, Decidable (Allowed a op)
  | .alloc sz => inferInstanceAs
      (Decidable (bufSize ≤ (a.slab a.curSlab).usedBytes + sz → a.liveSlabs + 1 < 2 ^ 32))
  | .freeElem elem => inferInstanceAs (Decidable (¬ AllOneByte a (slabOf elem.start)))

/-- What holds also while `alloc` is between two slabs. -/
structure Layout (a : SlabAlloc) : Prop extends Placed a where
  curSlab_lt : a.curSlab < a.numSlabs
  mem_freeList_iff : ∀ k, k ∈ a.freeList ↔ k < a.numSlabs ∧ k ≠ a.curSlab ∧ a.liveIn k = 0
  freeList_nodup : a.freeList.Nodup
  liveSlabs_add : a.liveSlabs + a.freeList.length = a.numSlabs
  liveSlabs_lt : a.liveSlabs < 2 ^ 32

structure Inv (a : SlabAlloc) : Prop extends Layout a where
  cur_lt : (a.slab a.curSlab).usedBytes < bufSize

variable {a : SlabAlloc} {e elem : Extent} {k s sz : Nat}

/-! ## The elements of a slab -/

/-- The live elements of a slab -/
def elemsOf (a : SlabAlloc) (k : Nat) : List Extent := a.elems.filter fun e => slabOf e.start = k

theorem mem_elemsOf : e ∈ elemsOf a k ↔ e ∈ a.elems ∧ slabOf e.start = k := by
  simp [elemsOf]

theorem length_elemsOf (a : SlabAlloc) (k : Nat) : (elemsOf a k).length = a.liveIn k :=
  List.countP_eq_length_filter.symm

theorem Placed.elemsOf_apart (placed : Placed a) (k : Nat) : (elemsOf a k).Pairwise Apart :=
  placed.disjoint.sublist List.filter_sublist

theorem Placed.elemsOf_used (placed : Placed a) (k : Nat) :
    ∀ e ∈ elemsOf a k, e.Within (bufAddr k) (a.slab k).usedBytes := by
  intro e member
  obtain ⟨live, isIn⟩ := mem_elemsOf.mp member
  have within := placed.used e live
  rw [isIn] at within
  exact within

theorem Placed.liveIn_le_used (placed : Placed a) (k : Nat) : a.liveIn k ≤ (a.slab k).usedBytes := by
  rw [← length_elemsOf]
  exact length_le (placed.elemsOf_used k) (placed.elemsOf_apart k)

theorem Placed.liveIn_le_buf (placed : Placed a) (k : Nat) : a.liveIn k ≤ bufSize := by
  have inBuf : ∀ e ∈ elemsOf a k, e.Within (bufAddr k) bufSize := by
    intro e member
    obtain ⟨live, isIn⟩ := mem_elemsOf.mp member
    have within := placed.inBuf e live
    rw [isIn] at within
    exact within
  rw [← length_elemsOf]
  exact length_le inBuf (placed.elemsOf_apart k)

theorem slabOf_of_within {ptr : Nat} (le : bufAddr k ≤ ptr) (lt : ptr < bufAddr k + bufSize) :
    slabOf ptr = k := by
  simp only [slabOf, bufAddr, bufSize, headerSize, SLAB_SIZE] at *
  omega

/-- The used bytes are live elements of one byte exactly if there are as many elements as bytes. -/
theorem Placed.liveIn_eq_used_iff (placed : Placed a) (s : Nat) :
    a.liveIn s = (a.slab s).usedBytes ↔ AllOneByte a s := by
  rw [← length_elemsOf, length_eq_iff (placed.elemsOf_used s) (placed.elemsOf_apart s)]
  constructor
  · intro all addr le lt
    exact (mem_elemsOf.mp (all addr le lt)).1
  · intro all addr le lt
    have inBuf : addr < bufAddr s + bufSize := by
      by_contra beyond
      -- the byte behind the buffer is the header of the next slab
      have behind := (placed.inBuf _ (all (bufAddr s + bufSize) (Nat.le_add_right _ _) (by omega))).le
      simp only [slabOf, bufAddr, bufSize, headerSize, SLAB_SIZE] at behind
      omega
    exact mem_elemsOf.mpr ⟨all addr le lt, slabOf_of_within le inBuf⟩

/-! ## The slabs that are not free -/

theorem Layout.card_outside (layout : Layout a) : a.outside.card + a.freeList.length = a.numSlabs := by
  have inRange : (Finset.range a.numSlabs).filter (fun k => k ∈ a.freeList) = a.freeList.toFinset := by
    ext k
    rw [Finset.mem_filter, Finset.mem_range, List.mem_toFinset, layout.mem_freeList_iff]
    exact ⟨fun both => both.2, fun free => ⟨free.1, free⟩⟩
  have both := Finset.card_filter_add_card_filter_not (s := Finset.range a.numSlabs) fun k => k ∈ a.freeList
  rw [inRange, List.toFinset_card_of_nodup layout.freeList_nodup, Finset.card_range] at both
  rw [Nat.add_comm]
  exact both

/-- Slabs that are not in the free list are counted by `liveSlabs`. -/
theorem Layout.length_le_liveSlabs (layout : Layout a) {slabs : List Nat} (nodup : slabs.Nodup)
    (areSlabs : ∀ k ∈ slabs, k < a.numSlabs ∧ k ∉ a.freeList) : slabs.length ≤ a.liveSlabs := by
  have subset : slabs.toFinset ⊆ a.outside := by
    intro k member
    obtain ⟨isSlab, notFree⟩ := areSlabs k (List.mem_toFinset.mp member)
    exact Finset.mem_filter.mpr ⟨Finset.mem_range.mpr isSlab, notFree⟩
  have atMost := Finset.card_le_card subset
  rw [List.toFinset_card_of_nodup nodup] at atMost
  have card := layout.card_outside
  have add := layout.liveSlabs_add
  omega

theorem Layout.curSlab_notMem (layout : Layout a) : a.curSlab ∉ a.freeList :=
  fun free => ((layout.mem_freeList_iff _).mp free).2.1 rfl

theorem Layout.liveSlabs_pos (layout : Layout a) : 1 ≤ a.liveSlabs := by
  apply layout.length_le_liveSlabs (List.nodup_singleton a.curSlab)
  intro k member
  cases List.mem_singleton.mp member
  exact ⟨layout.curSlab_lt, layout.curSlab_notMem⟩

theorem Layout.safe (layout : Layout a) : Safe a where
  disjoint := layout.disjoint
  inside e live := by
    have within := layout.inBuf e live
    refine ⟨layout.slabOf_lt e live, within.le, Nat.le_trans within.end_le ?_⟩
    simp only [bufAddr, bufSize, headerSize, SLAB_SIZE]
    omega
  liveElems_eq := layout.liveElems_eq
  mem_freeList_iff k isSlab := (layout.mem_freeList_iff k).trans (and_iff_right isSlab)
  freeList_nodup := layout.freeList_nodup
  liveSlabs_eq := by
    have card := layout.card_outside
    have add := layout.liveSlabs_add
    omega
  liveSlabs_pos := layout.liveSlabs_pos

end Zsim.Slabs
