import Mathlib.Data.List.Nodup
import Mathlib.Data.List.Perm.Subperm
import Mathlib.Data.Set.Card
import Mathlib.Logic.Relation

/-!
# Acyclic relations

A relation stays acyclic when edges to a leaf are added, or a detour over a new node that
does not close a cycle.  In a finite acyclic relation the nodes behind a node are counted,
and every edge leads to a smaller count.

A worklist search from a root puts the children of every node that it takes off the list on it.  If
no node is the child of two nodes and the root is the child of none, no node is met twice, and what
is met has a depth.
-/

set_option autoImplicit false

open Relation

namespace Zsim

variable {α : Type*} {r r' : α → α → Prop}

def Acyclic (r : α → α → Prop) : Prop := ∀ x, ¬ TransGen r x x

theorem Acyclic.of_rank (rank : α → Nat) (up : ∀ x y, r x y → rank x < rank y) : Acyclic r := by
  have rises : ∀ x y, TransGen r x y → rank x < rank y := by
    intro x y path
    induction path with
    | single edge => exact up x _ edge
    | tail _ edge ih => exact ih.trans (up _ _ edge)
  exact fun x path => Nat.lt_irrefl _ (rises x x path)

/-- The relation `r'` has a detour from `first` over `new` to `last` and edges to `leaf`
that `r` does not have. -/
structure Detour (r r' : α → α → Prop) (first new last leaf : α) : Prop where
  noEdgeTo : ∀ x, ¬ r x new
  noEdgeFrom : ∀ y, ¬ r new y
  first_ne : first ≠ new
  last_ne : last ≠ new
  /-- the detour does not close a cycle -/
  noReturn : ¬ ReflTransGen r last first
  noEdgeFromLeaf : ∀ y, ¬ r' leaf y
  edges : ∀ x y, r' x y → r x y ∨ (x = first ∧ y = new) ∨ (x = new ∧ y = last) ∨ y = leaf

namespace Detour

variable {first new last leaf : α}

theorem noPathTo (detour : Detour r r' first new last leaf) {x : α} (ne : x ≠ new) :
    ¬ ReflTransGen r x new := by
  intro path
  rcases ReflTransGen.cases_tail path with same | ⟨w, -, edge⟩
  · exact ne same.symm
  · exact detour.noEdgeTo w edge

theorem path (detour : Detour r r' first new last leaf) {x y : α} (path : TransGen r' x y) :
    y = leaf ∨ TransGen r x y ∨ (ReflTransGen r x first ∧ (y = new ∨ ReflTransGen r last y)) ∨
      (x = new ∧ ReflTransGen r last y) := by
  induction path with
  | single edge =>
      rcases detour.edges _ _ edge with old | ⟨rfl, rfl⟩ | ⟨rfl, rfl⟩ | isLeaf
      · exact .inr (.inl (.single old))
      · exact .inr (.inr (.inl ⟨.refl, .inl rfl⟩))
      · exact .inr (.inr (.inr ⟨rfl, .refl⟩))
      · exact .inl isLeaf
  | @tail z y _ edge ih =>
      have notLeaf : z ≠ leaf := by
        rintro rfl
        exact detour.noEdgeFromLeaf _ edge
      rcases detour.edges _ _ edge with old | ⟨rfl, rfl⟩ | ⟨rfl, rfl⟩ | isLeaf
      · rcases ih with isLeaf | path | ⟨toFirst, rfl | path⟩ | ⟨isNew, path⟩
        · exact absurd isLeaf notLeaf
        · exact .inr (.inl (path.tail old))
        · exact absurd old (detour.noEdgeFrom y)
        · exact .inr (.inr (.inl ⟨toFirst, .inr (path.tail old)⟩))
        · exact .inr (.inr (.inr ⟨isNew, path.tail old⟩))
      · -- the path comes to the detour: not from its own end
        rcases ih with isLeaf | path | ⟨toFirst, isNew | path⟩ | ⟨isNew, path⟩
        · exact absurd isLeaf notLeaf
        · exact .inr (.inr (.inl ⟨path.to_reflTransGen, .inl rfl⟩))
        · exact absurd isNew detour.first_ne
        · exact absurd path detour.noReturn
        · exact absurd path detour.noReturn
      · rcases ih with isLeaf | path | ⟨toFirst, isNew | path⟩ | ⟨isNew, path⟩
        · exact absurd isLeaf notLeaf
        · obtain ⟨w, -, edge⟩ := TransGen.tail'_iff.mp path
          exact absurd edge (detour.noEdgeTo w)
        · exact .inr (.inr (.inl ⟨toFirst, .inr .refl⟩))
        · exact absurd path (detour.noPathTo detour.last_ne)
        · exact absurd path (detour.noPathTo detour.last_ne)
      · exact .inl isLeaf

theorem acyclic (detour : Detour r r' first new last leaf) (acyclic : Acyclic r) : Acyclic r' := by
  intro x cycle
  rcases detour.path cycle with rfl | path | ⟨toFirst, rfl | path⟩ | ⟨rfl, path⟩
  · obtain ⟨y, edge, -⟩ := TransGen.head'_iff.mp cycle
    exact detour.noEdgeFromLeaf y edge
  · exact acyclic x path
  · rcases ReflTransGen.cases_head toFirst with same | ⟨y, edge, -⟩
    · exact detour.first_ne same.symm
    · exact detour.noEdgeFrom y edge
  · exact detour.noReturn (path.trans toFirst)
  · exact detour.noPathTo detour.last_ne path

end Detour

/-! ## Heights -/

/-- The number of nodes behind a node. -/
noncomputable def height (r : α → α → Prop) (x : α) : Nat := {y | TransGen r x y}.ncard

theorem Acyclic.height_lt (acyclic : Acyclic r) {x y : α} (finite : {z | TransGen r x z}.Finite)
    (edge : r x y) : height r y < height r x := by
  apply Set.ncard_lt_ncard _ finite
  refine ⟨fun z path => TransGen.head edge path, fun sub => ?_⟩
  exact acyclic y (sub (TransGen.single edge))

/-! ## Searching a forest -/

section Forest

variable {ν : Type*} (kids : ν → List ν) (root : ν)

/-- What a search has visited, and what it still has on its list. -/
structure Searched (visited fringe : List ν) : Prop where
  met : (visited ++ fringe).Perm (root :: visited.flatMap kids)
  depth : ∃ depth : ν → Nat, depth root = 0 ∧ ∀ p ∈ visited, ∀ c ∈ kids p, depth c = depth p + 1

/-- The children of all nodes, of which none is met twice, nor the root. -/
structure Forest (all : List ν) : Prop where
  unique : (all.flatMap kids).Nodup
  top : root ∉ all.flatMap kids

namespace Searched

variable {kids root} {all visited fringe : List ν} {n : ν}

theorem start : Searched kids root [] [root] where
  met := .refl _
  depth := ⟨fun _ => 0, rfl, nofun⟩

theorem nodup_kids (forest : Forest kids root all) (nodup : visited.Nodup) (inside : visited ⊆ all) :
    (root :: visited.flatMap kids).Nodup := by
  obtain ⟨order, perm, sublist⟩ := List.subperm_of_subset nodup inside
  have unique : (order.flatMap kids).Nodup := forest.unique.sublist (sublist.flatMap kids)
  refine List.nodup_cons.mpr ⟨fun member => ?_, (perm.flatMap_right kids).nodup_iff.mp unique⟩
  obtain ⟨p, isVisited, isKid⟩ := List.mem_flatMap.mp member
  exact forest.top (List.mem_flatMap.mpr ⟨p, inside isVisited, isKid⟩)

theorem nodup (searched : Searched kids root visited fringe) (forest : Forest kids root all)
    (nodup : visited.Nodup) (inside : visited ⊆ all) : (visited ++ fringe).Nodup :=
  searched.met.nodup_iff.mpr (nodup_kids forest nodup inside)

theorem pop (searched : Searched kids root visited (n :: fringe)) (forest : Forest kids root all)
    (nodup : visited.Nodup) (inside : visited ⊆ all) (member : n ∈ all) :
    Searched kids root (visited ++ [n]) (fringe ++ kids n) := by
  classical
  have distinct := searched.nodup forest nodup inside
  have fresh : (visited ++ [n]).Nodup := by
    rw [List.append_cons] at distinct
    exact distinct.of_append_left
  have inside' : visited ++ [n] ⊆ all :=
    List.append_subset.mpr ⟨inside, by simpa using member⟩
  have later := nodup_kids forest fresh inside'
  rw [List.flatMap_append, List.flatMap_singleton] at later
  constructor
  · rw [List.flatMap_append, List.flatMap_singleton]
    have met := searched.met.append_right (kids n)
    rw [List.append_cons, List.append_assoc] at met
    exact met
  · obtain ⟨depth, atRoot, below⟩ := searched.depth
    -- what has a depth already is no child of `n`
    have old {c : ν} (met : c ∈ root :: visited.flatMap kids) : c ∉ kids n := fun isKid => by
      rw [← List.cons_append] at later
      exact (List.nodup_append.mp later).2.2 c met c isKid rfl
    have isMet : n ∈ root :: visited.flatMap kids :=
      searched.met.mem_iff.mp (List.mem_append_right _ List.mem_cons_self)
    refine ⟨fun c => if c ∈ kids n then depth n + 1 else depth c, ?_, fun p isVisited c isKid => ?_⟩
    · exact (if_neg (old List.mem_cons_self)).trans atRoot
    · rcases List.mem_append.mp isVisited with isOld | isNew
      · have parent : p ∈ root :: visited.flatMap kids :=
          searched.met.mem_iff.mp (List.mem_append_left _ isOld)
        have child : c ∈ root :: visited.flatMap kids :=
          List.mem_cons_of_mem _ (List.mem_flatMap.mpr ⟨p, isOld, isKid⟩)
        dsimp only
        rw [if_neg (old child), if_neg (old parent)]
        exact below p isOld c isKid
      · rw [List.mem_singleton.mp isNew] at isKid ⊢
        dsimp only
        rw [if_pos isKid, if_neg (old isMet)]

theorem closed (searched : Searched kids root visited []) {p c : ν} (isVisited : p ∈ visited)
    (isKid : c ∈ kids p) :
    c ∈ visited := by
  have met := searched.met
  rw [List.append_nil] at met
  exact met.mem_iff.mpr (List.mem_cons_of_mem _ (List.mem_flatMap.mpr ⟨p, isVisited, isKid⟩))

theorem root_mem (searched : Searched kids root visited []) : root ∈ visited := by
  have met := searched.met
  rw [List.append_nil] at met
  exact met.mem_iff.mpr List.mem_cons_self

end Searched

end Forest

end Zsim
