import Mathlib.Data.List.Sort
import Mathlib.Order.BoundedOrder.Basic
import Mathlib.Tactic.Common

/-!
# The largest elements of a list

`largest n items` is the sorted list of the `n` largest elements, with the least value in place of
those that are missing.  A new element takes the place of the first one.
-/

set_option autoImplicit false

namespace Zsim

variable {α : Type*} [LinearOrder α]

theorem sorted_getElem_le_iff {items : List α} (sorted : items.Pairwise (· ≤ ·)) {k : Nat}
    (bound : k < items.length) (c : α) :
    items[k] ≤ c ↔ (items.filter fun x => c < x).length + k < items.length := by
  induction items generalizing k with
  | nil => cases bound
  | cons x rest ih =>
      obtain ⟨least, sorted⟩ := List.pairwise_cons.mp sorted
      have count := List.length_filter_le (fun x => decide (c < x)) rest
      by_cases above : c < x
      · have all : rest.filter (fun x => decide (c < x)) = rest :=
          List.filter_eq_self.mpr fun y member => decide_eq_true (lt_of_lt_of_le above (least y member))
        have atLeast : x ≤ (x :: rest)[k] := by
          cases k with
          | zero => exact le_refl x
          | succ k => exact least _ (List.getElem_mem _)
        rw [List.filter_cons_of_pos (by simpa using above), all]
        constructor
        · intro le
          exact absurd (le_trans atLeast le) (not_le_of_gt above)
        · intro few
          omega
      · rw [List.filter_cons_of_neg (by simpa using above), List.length_cons]
        cases k with
        | zero =>
            constructor
            · intro _
              omega
            · intro _
              exact le_of_not_gt above
        | succ k =>
            rw [List.length_cons] at bound
            rw [List.getElem_cons_succ, ih sorted (by omega)]
            omega

theorem drop_orderedInsert {items : List α} (sorted : items.Pairwise (· ≤ ·)) (c : α) (k : Nat) :
    (items.orderedInsert (· ≤ ·) c).drop (k + 1) = ((items.drop k).orderedInsert (· ≤ ·) c).tail := by
  induction items generalizing k with
  | nil => simp
  | cons x rest ih =>
      obtain ⟨least, sorted⟩ := List.pairwise_cons.mp sorted
      cases k with
      | zero => rw [List.drop_zero, List.drop_one]
      | succ k =>
          rw [List.drop_succ_cons]
          by_cases first : c ≤ x
          · rw [List.orderedInsert_cons_of_le _ rest first, List.drop_succ_cons, List.drop_succ_cons]
            have head : (rest.drop k).orderedInsert (· ≤ ·) c = c :: rest.drop k := by
              cases later : rest.drop k with
              | nil => rfl
              | cons y more =>
                  have member : y ∈ rest :=
                    List.mem_of_mem_drop (by rw [later]; exact List.mem_cons_self)
                  exact List.orderedInsert_cons_of_le _ more (le_trans first (least y member))
            rw [head, List.tail_cons]
          · rw [List.orderedInsert_of_not_le _ rest first, List.drop_succ_cons]
            exact ih sorted k

theorem orderedInsert_tail {first c : α} {rest : List α} {j : Nat}
    (sorted : (first :: rest).Pairwise (· ≤ ·)) (fits : first ≤ c) (earlier : ∀ x ∈ rest.take j, x ≤ c)
    (later : ∀ x ∈ rest.drop j, c ≤ x) :
    ((first :: rest).orderedInsert (· ≤ ·) c).tail = rest.take j ++ c :: rest.drop j := by
  have sortedRest := (List.pairwise_cons.mp sorted).2
  have insert : ((first :: rest).orderedInsert (· ≤ ·) c).tail = rest.orderedInsert (· ≤ ·) c := by
    by_cases same : c ≤ first
    · cases le_antisymm fits same
      rw [List.orderedInsert_cons_of_le _ rest same, List.tail_cons]
      cases rest with
      | nil => rfl
      | cons y more =>
          have le : first ≤ y := (List.pairwise_cons.mp sorted).1 y List.mem_cons_self
          rw [List.orderedInsert_cons_of_le _ more le]
    · rw [List.orderedInsert_of_not_le _ rest same, List.tail_cons]
  rw [insert]
  refine List.Perm.eq_of_pairwise' (r := (· ≤ ·)) (sortedRest.orderedInsert c rest) ?_ ?_
  · rw [List.pairwise_append, List.pairwise_cons]
    refine ⟨sortedRest.sublist (List.take_sublist j rest),
      ⟨later, sortedRest.sublist (List.drop_sublist j rest)⟩, fun x inFront y behind => ?_⟩
    rcases List.mem_cons.mp behind with rfl | behind
    · exact earlier x inFront
    · exact le_trans (earlier x inFront) (later y behind)
  · have middle : List.Perm (c :: (rest.take j ++ rest.drop j)) (rest.take j ++ c :: rest.drop j) :=
      List.perm_middle.symm
    rw [List.take_append_drop] at middle
    exact (List.perm_orderedInsert (· ≤ ·) c rest).trans middle

variable [OrderBot α]

def largest (n : Nat) (items : List α) : List α :=
  ((items ++ List.replicate n ⊥).insertionSort (· ≤ ·)).drop items.length

theorem largest_length (n : Nat) (items : List α) : (largest n items).length = n := by
  rw [largest, List.length_drop, List.length_insertionSort, List.length_append, List.length_replicate]
  omega

theorem largest_sorted (n : Nat) (items : List α) : (largest n items).Pairwise (· ≤ ·) :=
  (List.pairwise_insertionSort _ _).sublist (List.drop_sublist _ _)

theorem largest_nil (n : Nat) : largest n ([] : List α) = List.replicate n ⊥ := by
  rw [largest, List.nil_append, List.length_nil, List.drop_zero]
  exact (List.pairwise_replicate.mpr (.inr (le_refl ⊥))).insertionSort_eq

theorem largest_cons (n : Nat) (c : α) (items : List α) :
    largest n (c :: items) = ((largest n items).orderedInsert (· ≤ ·) c).tail := by
  rw [largest, List.cons_append, List.insertionSort_cons, List.length_cons,
    drop_orderedInsert (List.pairwise_insertionSort _ _), largest]

theorem largest_getElem_le_iff {n i : Nat} (items : List α) (bound : i < (largest n items).length) (c : α) :
    (largest n items)[i] ≤ c ↔ (items.filter fun x => c < x).length + i < n := by
  have sorted := List.pairwise_insertionSort (· ≤ ·) (items ++ List.replicate n ⊥)
  have size : ((items ++ List.replicate n ⊥).insertionSort (· ≤ ·)).length = items.length + n := by
    rw [List.length_insertionSort, List.length_append, List.length_replicate]
  have inRange := bound
  rw [largest_length] at inRange
  have count : (((items ++ List.replicate n ⊥).insertionSort (· ≤ ·)).filter fun x => c < x).length =
      (items.filter fun x => c < x).length := by
    rw [((List.perm_insertionSort (· ≤ ·) _).filter _).length_eq, List.filter_append]
    have none : (List.replicate n (⊥ : α)).filter (fun x => c < x) = [] := by simp
    rw [none, List.append_nil]
  have later : items.length + i < ((items ++ List.replicate n ⊥).insertionSort (· ≤ ·)).length := by omega
  have here : (largest n items)[i] =
      ((items ++ List.replicate n ⊥).insertionSort (· ≤ ·))[items.length + i] := by
    simp only [largest, List.getElem_drop]
  rw [here, sorted_getElem_le_iff sorted, count, size]
  omega

end Zsim
