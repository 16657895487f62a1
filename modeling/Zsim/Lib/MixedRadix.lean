import Mathlib.Algebra.BigOperators.Group.List.Basic
import Mathlib.Tactic.Common

/-!
# Fields of a number

A number is cut into fields from the low end on; a field takes as many values as its radix
says, which need not be a power of two.  What is left above the fields is not bounded.
-/

set_option autoImplicit false

namespace Zsim.MixedRadix

variable {φ : Type*} [DecidableEq φ] (radix : φ → Nat)

/-- The number of values that the fields of a layout take together. -/
def size (layout : List φ) : Nat := (layout.map radix).prod

/-- The value of a field; the layout begins with the lowest one. -/
def value : List φ → φ → Nat → Nat
  | [], _, _ => 0
  | lowest :: rest, field, n =>
    if field = lowest then n % radix lowest else value rest field (n / radix lowest)

variable {radix}

omit [DecidableEq φ] in
@[simp] theorem size_nil : size radix [] = 1 := rfl

omit [DecidableEq φ] in
@[simp] theorem size_cons (lowest : φ) (rest : List φ) :
    size radix (lowest :: rest) = radix lowest * size radix rest :=
  List.prod_cons

omit [DecidableEq φ] in
theorem size_append (low high : List φ) :
    size radix (low ++ high) = size radix low * size radix high := by
  rw [size, List.map_append, List.prod_append]
  rfl

omit [DecidableEq φ] in
theorem size_pos (pos : ∀ field, 0 < radix field) (layout : List φ) : 0 < size radix layout := by
  induction layout with
  | nil => exact Nat.one_pos
  | cons lowest rest ih =>
      rw [size_cons]
      exact Nat.mul_pos (pos lowest) ih

theorem value_lt {layout : List φ} {field : φ} (pos : 0 < radix field) (n : Nat) :
    value radix layout field n < radix field := by
  induction layout generalizing n with
  | nil => exact pos
  | cons lowest rest ih =>
      rw [value]
      split
      · next same =>
        rw [same] at pos ⊢
        exact Nat.mod_lt n pos
      · exact ih (n / radix lowest)

theorem ext {layout : List φ} (nodup : layout.Nodup) {m n : Nat}
    (fields : ∀ field ∈ layout, value radix layout field m = value radix layout field n)
    (above : m / size radix layout = n / size radix layout) : m = n := by
  induction layout generalizing m n with
  | nil =>
      rw [size_nil, Nat.div_one, Nat.div_one] at above
      exact above
  | cons lowest rest ih =>
      obtain ⟨fresh, nodup⟩ := List.nodup_cons.mp nodup
      have low := fields lowest List.mem_cons_self
      rw [value, value, if_pos rfl, if_pos rfl] at low
      apply Nat.ext_div_mod _ low
      apply ih nodup
      · intro field member
        have apart : field ≠ lowest := fun same => fresh (same ▸ member)
        have here := fields field (List.mem_cons_of_mem lowest member)
        rwa [value, value, if_neg apart, if_neg apart] at here
      · rwa [Nat.div_div_eq_div_mul, Nat.div_div_eq_div_mul, ← size_cons]

theorem value_append (low high : List φ) (field : φ) (n : Nat) :
    value radix (low ++ high) field n =
      if field ∈ low then value radix low field n
      else value radix high field (n / size radix low) := by
  induction low generalizing n with
  | nil => simp
  | cons lowest rest ih =>
      rw [List.cons_append, value, value, ih, size_cons, Nat.div_div_eq_div_mul]
      by_cases same : field = lowest
      · simp [same]
      · simp [same]

theorem value_zero (layout : List φ) (field : φ) : value radix layout field 0 = 0 := by
  induction layout with
  | nil => rfl
  | cons lowest rest ih => simp [value, ih]

theorem value_mul (pos : ∀ field, 0 < radix field) (layout : List φ) (field : φ) (n : Nat) :
    value radix layout field (size radix layout * n) = 0 := by
  induction layout with
  | nil => rfl
  | cons lowest rest ih =>
      rw [size_cons, Nat.mul_assoc, value, Nat.mul_mod_right, Nat.mul_div_cancel_left _ (pos lowest),
        ih, ite_self]

theorem value_single (pos : ∀ field, 0 < radix field) {low high : List φ} {field : φ} {d : Nat}
    (fresh : field ∉ low) (lt : d < radix field) (other : φ) :
    value radix (low ++ field :: high) other (size radix low * d) =
      if other = field then d else 0 := by
  rw [value_append, value_mul pos, Nat.mul_div_cancel_left _ (size_pos pos low), value,
    Nat.mod_eq_of_lt lt, Nat.div_eq_of_lt lt, value_zero]
  by_cases same : other = field
  · simp [same, fresh]
  · simp [same]

end Zsim.MixedRadix
