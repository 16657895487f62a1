import Mathlib.Order.Bounds.Basic
import Mathlib.Tactic.Common

/-!
# Linear search

A loop that goes from a number on to the first one with a property, for a given number of steps.
-/

set_option autoImplicit false

namespace Zsim

section
variable (p : Nat → Prop) [DecidablePred p]

def search : Nat → Nat → Nat
  | 0, c => c
  | left + 1, c => if p c then c else search left (c + 1)

variable {p} {left c d : Nat}

theorem le_search : c ≤ search p left c := by
  induction left generalizing c with
  | zero => exact Nat.le_refl c
  | succ left ih =>
      rw [search]
      split
      next => exact Nat.le_refl c
      next => exact Nat.le_of_succ_le ih

theorem search_le : search p left c ≤ c + left := by
  induction left generalizing c with
  | zero => exact Nat.le_refl c
  | succ left ih =>
      rw [search]
      split
      next => exact Nat.le_add_right c _
      next =>
        have later := ih (c := c + 1)
        omega

/-- What the search passes does not have the property. -/
theorem not_of_lt_search (from' : c ≤ d) (before : d < search p left c) : ¬ p d := by
  induction left generalizing c with
  | zero => exact absurd before (Nat.not_lt_of_le from')
  | succ left ih =>
      rw [search] at before
      split at before
      next => exact absurd before (Nat.not_lt_of_le from')
      next fails =>
        rcases Nat.eq_or_lt_of_le from' with rfl | later
        · exact fails
        · exact ih later before

theorem search_of_lt (early : search p left c < c + left) : p (search p left c) := by
  induction left generalizing c with
  | zero => exact absurd early (Nat.lt_irrefl c)
  | succ left ih =>
      rw [search] at early ⊢
      split
      next holds => exact holds
      next fails =>
        rw [if_neg fails] at early
        apply ih
        omega

theorem isLeast_search (from' : c ≤ d) (within : d ≤ c + left) (holds : p d) :
    IsLeast {e | c ≤ e ∧ p e} (search p left c) := by
  have least : ∀ e, c ≤ e ∧ p e → search p left c ≤ e := fun e member =>
    Nat.le_of_not_lt fun before => not_of_lt_search member.1 before member.2
  refine ⟨⟨le_search, ?_⟩, fun e member => least e member⟩
  rcases Nat.eq_or_lt_of_le (least d ⟨from', holds⟩) with found | early
  · rw [found]
    exact holds
  · exact search_of_lt (Nat.lt_of_lt_of_le early within)

end

section
variable {n : Nat} (x : BitVec n)

/-- The place of the lowest bit that is set, `__builtin_ffs(x) - 1`. -/
def lowest : Nat := search (fun i => x.getLsbD i = true) n 0

variable {x}

theorem getLsbD_lowest (some : x ≠ 0) : x.getLsbD (lowest x) = true := by
  have set : ∃ i, i < n ∧ x.getLsbD i = true := by
    by_contra clear
    apply some
    apply BitVec.eq_of_getLsbD_eq
    intro i lt
    rw [BitVec.ofNat_eq_ofNat, BitVec.getLsbD_zero]
    exact Bool.eq_false_iff.mpr fun isSet => clear ⟨i, lt, isSet⟩
  obtain ⟨i, lt, isSet⟩ := set
  have within : i ≤ 0 + n := by omega
  exact (isLeast_search (p := fun i => x.getLsbD i = true) (Nat.zero_le i) within isSet).1.2

theorem lowest_lt (some : x ≠ 0) : lowest x < n := by
  by_contra beyond
  have isSet := getLsbD_lowest some
  rw [BitVec.getLsbD_of_ge x _ (Nat.le_of_not_lt beyond)] at isSet
  cases isSet

end

end Zsim
