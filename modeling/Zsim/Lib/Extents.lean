import Mathlib.Data.Finset.Card
import Mathlib.Data.List.Pairwise
import Mathlib.Order.Interval.Finset.Nat

/-!
# Disjoint extents

Extents of natural numbers that do not overlap and are not empty: there are no more of them than
numbers, and as many exactly if each number is an extent of its own.
-/

set_option autoImplicit false

namespace Zsim

structure Extent where
  start : Nat
  len : Nat
  deriving DecidableEq, Repr

namespace Extent

def Apart (x y : Extent) : Prop := x.start + x.len ≤ y.start ∨ y.start + y.len ≤ x.start

instance : Std.Symm Apart := ⟨fun _ _ apart => Or.symm apart⟩

/-- Within the `n` numbers from `lo` on -/
structure Within (lo n : Nat) (x : Extent) : Prop where
  pos : 0 < x.len
  le : lo ≤ x.start
  end_le : x.start + x.len ≤ lo + n

theorem Within.mono {lo n more : Nat} {x : Extent} (within : Within lo n x) (le : n ≤ more) : Within lo more x :=
  ⟨within.pos, within.le, Nat.le_trans within.end_le (Nat.add_le_add_left le lo)⟩

variable {lo n : Nat} {extents : List Extent}

theorem nodup_starts (pos : ∀ x ∈ extents, 0 < x.len) (apart : extents.Pairwise Apart) :
    (extents.map start).Nodup := by
  rw [List.Nodup, List.pairwise_map]
  refine apart.imp_of_mem fun {x y} first second apart same => ?_
  have xPos := pos x first
  have yPos := pos y second
  rcases apart with before | after <;> omega

theorem starts_subset (within : ∀ x ∈ extents, Within lo n x) :
    (extents.map start).toFinset ⊆ Finset.Ico lo (lo + n) := by
  intro k isStart
  obtain ⟨x, member, rfl⟩ := List.mem_map.mp (List.mem_toFinset.mp isStart)
  have inside := within x member
  have pos := inside.pos
  have le := inside.le
  have end_le := inside.end_le
  exact Finset.mem_Ico.mpr ⟨le, by omega⟩

theorem card_starts (pos : ∀ x ∈ extents, 0 < x.len) (apart : extents.Pairwise Apart) :
    (extents.map start).toFinset.card = extents.length := by
  rw [List.toFinset_card_of_nodup (nodup_starts pos apart), List.length_map]

theorem length_le (within : ∀ x ∈ extents, Within lo n x) (apart : extents.Pairwise Apart) :
    extents.length ≤ n := by
  have atMost := Finset.card_le_card (starts_subset within)
  rw [card_starts (fun x member => (within x member).pos) apart, Nat.card_Ico] at atMost
  omega

theorem length_eq_iff (within : ∀ x ∈ extents, Within lo n x) (apart : extents.Pairwise Apart) :
    extents.length = n ↔ ∀ k, lo ≤ k → k < lo + n → ⟨k, 1⟩ ∈ extents := by
  have card := card_starts (fun x member => (within x member).pos) apart
  constructor
  · intro full
    have all : (extents.map start).toFinset = Finset.Ico lo (lo + n) := by
      apply Finset.eq_of_subset_of_card_le (starts_subset within)
      rw [card, Nat.card_Ico]
      omega
    have starts : ∀ k, lo ≤ k → k < lo + n → ∃ x ∈ extents, x.start = k := by
      intro k le lt
      have isStart : k ∈ (extents.map start).toFinset := by
        rw [all]
        exact Finset.mem_Ico.mpr ⟨le, lt⟩
      exact List.mem_map.mp (List.mem_toFinset.mp isStart)
    intro k le lt
    obtain ⟨x, member, rfl⟩ := starts k le lt
    have inside := within x member
    have pos := inside.pos
    have end_le := inside.end_le
    have single : x.len = 1 := by
      by_contra longer
      -- the second number of the extent starts another one
      obtain ⟨y, member', isNext⟩ := starts (x.start + 1) (by omega) (by omega)
      have other : x ≠ y := fun same => by
        rw [same] at isNext
        omega
      have posY := (within y member').pos
      rcases apart.forall member member' other with before | after <;> omega
    rw [← single]
    exact member
  · intro all
    have subset : Finset.Ico lo (lo + n) ⊆ (extents.map start).toFinset := by
      intro k inside
      obtain ⟨le, lt⟩ := Finset.mem_Ico.mp inside
      exact List.mem_toFinset.mpr (List.mem_map.mpr ⟨⟨k, 1⟩, all k le lt, rfl⟩)
    have atLeast := Finset.card_le_card subset
    rw [card, Nat.card_Ico] at atLeast
    have atMost := length_le within apart
    omega

end Extent

end Zsim
