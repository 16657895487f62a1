import Mathlib.Data.Nat.Bitwise
import Mathlib.Tactic.Common

/-!
# Partition mappers

partition_mapper.h and partition_mapper.cpp: the partition of the line that a request
brings in.  The groups of processes are those of process_tree.cpp.  `none` is a failed
assertion or a panic.
-/

set_option autoImplicit false

namespace Zsim.Partition

structure MemReq where
  lineAddr : Nat
  srcId : Nat
  flags : Nat
  /-- the global `procIdx` of the process that makes the request -/
  procIdx : Nat

def MemReq.IFETCH : Nat := 1 <<< 1

/-- The group of each process by its index.  A group is smaller than `numProcGroups`. -/
structure ProcessTree where
  groupIdx : List Nat
  numProcGroups : Nat
  bounded : ∀ g ∈ groupIdx, g < numProcGroups

namespace ProcessTree

/-- What one process of the configuration adds to the tree in `PopulateLevel`. -/
def populate (tree : ProcessTree) (groupWithPrevious : Bool) : Option ProcessTree :=
  if groupWithPrevious then
    if previous : tree.groupIdx ≠ [] ∧ 0 < tree.numProcGroups then
      some
        { groupIdx := tree.groupIdx ++ [tree.numProcGroups - 1]
          numProcGroups := tree.numProcGroups - 1 + 1
          bounded := by
            intro g member
            rcases List.mem_append.mp member with old | new
            · have := tree.bounded g old
              omega
            · rw [List.mem_singleton.mp new]
              omega }
    else none
  else
    some
      { groupIdx := tree.groupIdx ++ [tree.numProcGroups]
        numProcGroups := tree.numProcGroups + 1
        bounded := by
          intro g member
          rcases List.mem_append.mp member with old | new
          · have := tree.bounded g old
            omega
          · rw [List.mem_singleton.mp new]
            omega }

/-- The processes are given in the order of their indices. -/
def create (processes : List Bool) : Option ProcessTree :=
  processes.foldlM populate ⟨[], 0, by simp⟩

/-- A child that is created on the fly is of the group of its parent. -/
def getNextChild (tree : ProcessTree) (parent : Nat) : Option ProcessTree :=
  if inside : parent < tree.groupIdx.length then
    some
      { groupIdx := tree.groupIdx ++ [tree.groupIdx[parent]]
        numProcGroups := tree.numProcGroups
        bounded := by
          intro g member
          rcases List.mem_append.mp member with old | new
          · exact tree.bounded g old
          · rw [List.mem_singleton.mp new]
            exact tree.bounded _ (List.getElem_mem inside) }
  else none

end ProcessTree

inductive PartMapper where
  | core (numCores : Nat)
  | instrData
  | instrDataCore (numCores : Nat)
  | process (numProcs : Nat)
  | instrDataProcess (numProcs : Nat)
  | processGroup (tree : ProcessTree)

namespace PartMapper

def getNumPartitions : PartMapper → Nat
  | core numCores => numCores
  | instrData => 2
  | instrDataCore numCores => 2 * numCores
  | process numProcs => numProcs
  | instrDataProcess numProcs => 2 * numProcs
  | processGroup tree => tree.numProcGroups

def getPartition (mapper : PartMapper) (req : MemReq) : Option Nat :=
  let instr := req.flags &&& MemReq.IFETCH ≠ 0
  match mapper with
  | core _ => some req.srcId
  | instrData => some (req.flags &&& MemReq.IFETCH)
  | instrDataCore numCores => some (req.srcId + if instr then numCores else 0)
  | process numProcs => if req.procIdx < numProcs then some req.procIdx else none
  | instrDataProcess numProcs =>
    if req.procIdx < numProcs then some (req.procIdx + if instr then numProcs else 0) else none
  | processGroup tree => do
    let groupIdx ← tree.groupIdx[req.procIdx]?
    if groupIdx < tree.numProcGroups then some groupIdx else none

def InRange : PartMapper → MemReq → Prop
  | core numCores, req => req.srcId < numCores
  | instrData, _ => True
  | instrDataCore numCores, req => req.srcId < numCores
  | process numProcs, req => req.procIdx < numProcs
  | instrDataProcess numProcs, req => req.procIdx < numProcs
  | processGroup tree, req => req.procIdx < tree.groupIdx.length

instance (mapper : PartMapper) (req : MemReq) : Decidable (mapper.InRange req) :=
  match mapper with
  | core numCores => inferInstanceAs (Decidable (req.srcId < numCores))
  | instrData => .isTrue trivial
  | instrDataCore numCores => inferInstanceAs (Decidable (req.srcId < numCores))
  | process numProcs => inferInstanceAs (Decidable (req.procIdx < numProcs))
  | instrDataProcess numProcs => inferInstanceAs (Decidable (req.procIdx < numProcs))
  | processGroup tree => inferInstanceAs (Decidable (req.procIdx < tree.groupIdx.length))

/-- An instruction fetch through `InstrDataPartMapper`, whose partition is the masked bit
and not the truth value that its siblings take. -/
def Masked (mapper : PartMapper) (req : MemReq) : Prop :=
  match mapper with
  | instrData => req.flags &&& MemReq.IFETCH ≠ 0
  | _ => False

instance (mapper : PartMapper) (req : MemReq) : Decidable (mapper.Masked req) :=
  match mapper with
  | instrData => inferInstanceAs (Decidable (req.flags &&& MemReq.IFETCH ≠ 0))
  | core _ => .isFalse id
  | instrDataCore _ => .isFalse id
  | process _ => .isFalse id
  | instrDataProcess _ => .isFalse id
  | processGroup _ => .isFalse id

theorem getPartition_lt {mapper : PartMapper} {req : MemReq} (inRange : mapper.InRange req)
    (unmasked : ¬ mapper.Masked req) :
    ∃ p, mapper.getPartition req = some p ∧ p < mapper.getNumPartitions := by
  cases mapper with
  | core numCores => exact ⟨req.srcId, rfl, inRange⟩
  | instrData =>
      have zero : req.flags &&& MemReq.IFETCH = 0 := not_not.mp unmasked
      exact ⟨_, rfl, by rw [zero]; exact Nat.two_pos⟩
  | instrDataCore numCores =>
      refine ⟨_, rfl, ?_⟩
      simp only [InRange] at inRange
      simp only [getNumPartitions]
      split <;> omega
  | process numProcs =>
      simp only [InRange] at inRange
      exact ⟨req.procIdx, by simp only [getPartition, if_pos inRange], inRange⟩
  | instrDataProcess numProcs =>
      simp only [InRange] at inRange
      refine ⟨req.procIdx + if req.flags &&& MemReq.IFETCH ≠ 0 then numProcs else 0,
        by simp only [getPartition, if_pos inRange], ?_⟩
      simp only [getNumPartitions]
      split <;> omega
  | processGroup tree =>
      simp only [InRange] at inRange
      have bounded := tree.bounded _ (List.getElem_mem inRange)
      refine ⟨tree.groupIdx[req.procIdx], ?_, bounded⟩
      simp only [getPartition, List.getElem?_eq_getElem inRange, Option.bind_eq_bind,
        Option.bind_some, if_pos bounded]

end PartMapper

end Zsim.Partition
