import Mathlib.Order.Lattice
import Mathlib.Tactic.Common

/-!
# Ordered maps

A map as the list of its entries by increasing key.
-/

set_option autoImplicit false

namespace Zsim.OrderedMap

variable {κ α : Type*} [LinearOrder κ]

def Sorted (m : List (κ × α)) : Prop := m.Pairwise fun a b => a.1 < b.1

def get (k : κ) : List (κ × α) → Option α
  | [] => none
  | e :: rest => if e.1 = k then some e.2 else get k rest

/-- The entry of `k` is replaced, or comes in before the first larger key. -/
def put (k : κ) (a : α) : List (κ × α) → List (κ × α)
  | [] => [(k, a)]
  | e :: rest =>
    if e.1 < k then e :: put k a rest
    else if e.1 = k then (k, a) :: rest
    else (k, a) :: e :: rest

variable {m : List (κ × α)} {k other : κ} {a : α} {e : κ × α}

theorem get_eq_none (absent : ∀ e ∈ m, e.1 ≠ k) : get k m = none := by
  induction m with
  | nil => rfl
  | cons e rest ih =>
      rw [get, if_neg (absent e List.mem_cons_self)]
      exact ih fun e member => absent e (List.mem_cons_of_mem _ member)

theorem get_put_self : get k (put k a m) = some a := by
  induction m with
  | nil => simp [put, get]
  | cons e rest ih =>
      rw [put]
      split
      next smaller =>
        rw [get, if_neg (ne_of_lt smaller)]
        exact ih
      next =>
        split
        next => simp [get]
        next => simp [get]

theorem get_put_of_ne (ne : other ≠ k) : get other (put k a m) = get other m := by
  induction m with
  | nil => simp [put, get, ne.symm]
  | cons e rest ih =>
      rw [put]
      split
      next => rw [get, get, ih]
      next =>
        split
        next same => simp [get, same, ne.symm]
        next => simp [get, ne.symm]

theorem mem_put (member : e ∈ put k a m) : e = (k, a) ∨ e ∈ m := by
  induction m with
  | nil => exact .inl (List.mem_singleton.mp member)
  | cons first rest ih =>
      rw [put] at member
      split at member
      next =>
        rcases List.mem_cons.mp member with rfl | member
        · exact .inr List.mem_cons_self
        · exact (ih member).imp_right (List.mem_cons_of_mem first)
      next =>
        split at member
        next => exact (List.mem_cons.mp member).imp_right (List.mem_cons_of_mem first)
        next => exact List.mem_cons.mp member

theorem Sorted.put (sorted : Sorted m) : Sorted (put k a m) := by
  induction m with
  | nil => exact List.pairwise_singleton _ _
  | cons e rest ih =>
      obtain ⟨smaller, sortedRest⟩ := List.pairwise_cons.mp sorted
      rw [OrderedMap.put]
      split
      next less =>
        refine List.pairwise_cons.mpr ⟨fun f member => ?_, ih sortedRest⟩
        rcases mem_put member with rfl | member
        · exact less
        · exact smaller f member
      next notLess =>
        split
        next same =>
          subst same
          exact List.pairwise_cons.mpr ⟨smaller, sortedRest⟩
        next ne =>
          have less : k < e.1 := lt_of_le_of_ne (not_lt.mp notLess) (Ne.symm ne)
          refine List.pairwise_cons.mpr ⟨fun f member => ?_, sorted⟩
          rcases List.mem_cons.mp member with rfl | member
          · exact less
          · exact lt_trans less (smaller f member)

/-- `lower_bound` passes entries with smaller keys only. -/
theorem get_dropWhile {first : κ} (notBefore : first ≤ k) :
    get k (m.dropWhile fun e => e.1 < first) = get k m := by
  induction m with
  | nil => rfl
  | cons e rest ih =>
      rw [List.dropWhile_cons]
      split
      next smaller =>
        rw [get, if_neg (ne_of_lt (lt_of_lt_of_le (of_decide_eq_true smaller) notBefore))]
        exact ih
      next => rfl

theorem le_of_mem_dropWhile (sorted : Sorted m) {first : κ}
    (member : e ∈ m.dropWhile fun e => e.1 < first) : first ≤ e.1 := by
  induction m with
  | nil => exact absurd member List.not_mem_nil
  | cons f rest ih =>
      obtain ⟨smaller, sortedRest⟩ := List.pairwise_cons.mp sorted
      rw [List.dropWhile_cons] at member
      split at member
      next => exact ih sortedRest member
      next reached =>
        have le : first ≤ f.1 := not_lt.mp fun less => reached (decide_eq_true less)
        rcases List.mem_cons.mp member with rfl | member
        · exact le
        · exact le_trans le (le_of_lt (smaller e member))

end Zsim.OrderedMap
