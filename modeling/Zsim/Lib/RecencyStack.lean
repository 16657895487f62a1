import Mathlib.Data.List.Basic
import Mathlib.Tactic.Common

/-!
# Recency stacks

The pages in the order of their last use, the latest first.  The cache of any number of
ways that replaces the least recently used page is a prefix of the stack, so one stack
stands for the caches of all sizes.
-/

set_option autoImplicit false

namespace Zsim

variable {α : Type*} [DecidableEq α]

def touch (a : α) (stack : List α) : List α := a :: stack.erase a

/-- A cache of `k` ways with its most recently used page first.  A miss brings the page in
and drops the least recently used one if the cache is full. -/
def lruAccess (k : Nat) (cache : List α) (a : α) : List α :=
  if a ∈ cache then touch a cache else (a :: cache).take k

theorem take_erase_of_notMem {a : α} {k : Nat} {stack : List α} (absent : a ∉ stack.take k) :
    (stack.erase a).take k = stack.take k := by
  induction stack generalizing k with
  | nil => rfl
  | cons b rest ih =>
      cases k with
      | zero => rfl
      | succ k =>
          rw [List.take_succ_cons, List.mem_cons, not_or] at absent
          rw [List.erase_cons_tail (by simpa using Ne.symm absent.1), List.take_succ_cons,
            List.take_succ_cons, ih absent.2]

theorem erase_take_of_mem {a : α} {k : Nat} {stack : List α} (member : a ∈ stack.take k) :
    (stack.take k).erase a = (stack.erase a).take (k - 1) := by
  induction stack generalizing k with
  | nil => simp at member
  | cons b rest ih =>
      cases k with
      | zero => simp at member
      | succ k =>
          rw [List.take_succ_cons] at member ⊢
          by_cases same : b = a
          · subst same
            rw [List.erase_cons_head, List.erase_cons_head, Nat.add_sub_cancel]
          · have later : a ∈ rest.take k := by
              rcases List.mem_cons.mp member with here | later
              · exact absurd here.symm same
              · exact later
            have other : (b == a) = false := by simpa using same
            have room : k ≠ 0 := by
              rintro rfl
              simp at later
            obtain ⟨m, rfl⟩ := Nat.exists_eq_succ_of_ne_zero room
            rw [List.erase_cons, List.erase_cons, other, ih later]
            simp

/-- The cache of `k` ways is the prefix of length `k` of the stack, and stays it. -/
theorem lruAccess_take (k : Nat) (stack : List α) (a : α) :
    lruAccess k (stack.take k) a = (touch a stack).take k := by
  unfold lruAccess touch
  cases k with
  | zero => simp
  | succ k =>
      by_cases hit : a ∈ stack.take (k + 1)
      · rw [if_pos hit, erase_take_of_mem hit, List.take_succ_cons, Nat.add_sub_cancel]
      · rw [if_neg hit]
        have absent : a ∉ stack.take k := fun member =>
          hit (List.take_subset_take_left stack (Nat.le_succ k) member)
        rw [List.take_succ_cons, List.take_succ_cons, take_erase_of_notMem absent, List.take_take,
          Nat.min_eq_left (Nat.le_succ k)]

end Zsim
