import Mathlib.Data.List.Perm.Basic
import Mathlib.Order.Lattice
import Mathlib.Tactic.Common

/-!
# The least of a list

A loop that goes through a list and keeps the best element so far ends with one whose key is
the least.  If it gives up an element only for a strictly smaller key, that is the first of them.
-/

set_option autoImplicit false

namespace Zsim

variable {α β : Type*} [LinearOrder β] {key : α → β}

def Least (key : α → β) (items : List α) (least : α) : Prop :=
  least ∈ items ∧ ∀ x ∈ items, key least ≤ key x

def FirstLeast (key : α → β) (items : List α) (first : α) : Prop :=
  ∃ before after, items = before ++ first :: after ∧
    (∀ x ∈ before, key first < key x) ∧ ∀ x ∈ after, key first ≤ key x

namespace Least

theorem singleton (key : α → β) (x : α) : Least key [x] x :=
  ⟨List.mem_singleton_self x, fun _ member => by rw [List.mem_singleton.mp member]⟩

theorem perm {items items' : List α} {least : α} (isLeast : Least key items least)
    (perm : items.Perm items') : Least key items' least :=
  ⟨perm.mem_iff.mp isLeast.1, fun x member => isLeast.2 x (perm.mem_iff.mpr member)⟩

theorem key_eq {items : List α} {a b : α} (isA : Least key items a) (isB : Least key items b) :
    key a = key b :=
  le_antisymm (isA.2 b isB.1) (isB.2 a isA.1)

theorem foldl {choose : α → α → α} (picks : ∀ best x, choose best x = best ∨ choose best x = x)
    (better : ∀ best x, key (choose best x) ≤ key best ∧ key (choose best x) ≤ key x)
    (items : List α) (best : α) : Least key (best :: items) (items.foldl choose best) := by
  induction items generalizing best with
  | nil => exact singleton key best
  | cons x rest ih =>
      obtain ⟨member, least⟩ := ih (choose best x)
      have notAbove := better best x
      have atMost := least (choose best x) List.mem_cons_self
      refine ⟨?_, fun y isItem => ?_⟩
      · rcases List.mem_cons.mp member with isFirst | later
        · rw [List.foldl_cons, isFirst]
          rcases picks best x with same | same
          · rw [same]
            exact List.mem_cons_self
          · rw [same]
            exact List.mem_cons_of_mem best List.mem_cons_self
        · exact List.mem_cons_of_mem best (List.mem_cons_of_mem x later)
      · rcases List.mem_cons.mp isItem with isBest | later
        · rw [isBest]
          exact le_trans atMost notAbove.1
        · rcases List.mem_cons.mp later with isX | later
          · rw [isX]
            exact le_trans atMost notAbove.2
          · exact least y (List.mem_cons_of_mem _ later)

end Least

namespace FirstLeast

theorem least {items : List α} {first : α} (isFirst : FirstLeast key items first) :
    Least key items first := by
  obtain ⟨before, after, split, smaller, atMost⟩ := isFirst
  subst split
  refine ⟨List.mem_append_right before List.mem_cons_self, fun x member => ?_⟩
  rcases List.mem_append.mp member with earlier | later
  · exact le_of_lt (smaller x earlier)
  · rcases List.mem_cons.mp later with isFirst | later
    · rw [isFirst]
    · exact atMost x later

theorem unique {items : List α} {a b : α} (isA : FirstLeast key items a)
    (isB : FirstLeast key items b) : a = b := by
  have same := isA.least.key_eq isB.least
  obtain ⟨before, after, split, smaller, -⟩ := isA
  obtain ⟨before', after', split', smaller', -⟩ := isB
  rcases List.append_eq_append_iff.mp (split.symm.trans split') with
    ⟨between, isBefore, isRest⟩ | ⟨between, isBefore, isRest⟩
  · cases between with
    | nil => exact (List.cons.inj isRest).1
    | cons x between =>
        cases (List.cons.inj isRest).1
        have earlier := smaller' a (by rw [isBefore]; exact List.mem_append_right _ List.mem_cons_self)
        exact absurd same.symm (ne_of_lt earlier)
  · cases between with
    | nil => exact (List.cons.inj isRest).1.symm
    | cons x between =>
        cases (List.cons.inj isRest).1
        have earlier := smaller b (by rw [isBefore]; exact List.mem_append_right _ List.mem_cons_self)
        exact absurd same (ne_of_lt earlier)

theorem congr {γ : Type*} [LinearOrder γ] {key' : α → γ} {items : List α} {first : α}
    (same : ∀ x ∈ items, ∀ y ∈ items, key x < key y ↔ key' x < key' y)
    (isFirst : FirstLeast key items first) : FirstLeast key' items first := by
  have member := isFirst.least.1
  obtain ⟨before, after, split, smaller, atMost⟩ := isFirst
  refine ⟨before, after, split, fun x earlier => ?_, fun x later => ?_⟩
  · have isItem : x ∈ items := by rw [split]; exact List.mem_append_left _ earlier
    exact (same first member x isItem).mp (smaller x earlier)
  · have isItem : x ∈ items := by
      rw [split]
      exact List.mem_append_right _ (List.mem_cons_of_mem _ later)
    exact not_lt.mp fun lt => absurd ((same x isItem first member).mpr lt) (not_lt.mpr (atMost x later))

theorem foldl (key : α → β) (items : List α) (best : α) : FirstLeast key (best :: items)
    (items.foldl (fun best x => if key x < key best then x else best) best) := by
  -- the items still to come follow what the loop has seen
  have scan : ∀ (rest seen : List α) (best : α), FirstLeast key seen best →
      FirstLeast key (seen ++ rest)
        (rest.foldl (fun best x => if key x < key best then x else best) best) := by
    intro rest
    induction rest with
    | nil =>
        intro seen best isFirst
        rw [List.append_nil]
        exact isFirst
    | cons x rest ih =>
        intro seen best isFirst
        rw [List.append_cons, List.foldl_cons]
        apply ih
        by_cases less : key x < key best
        · rw [if_pos less]
          exact ⟨seen, [], rfl, fun y earlier => lt_of_lt_of_le less (isFirst.least.2 y earlier),
            fun _ none => absurd none List.not_mem_nil⟩
        · rw [if_neg less]
          obtain ⟨before, after, split, smaller, atMost⟩ := isFirst
          refine ⟨before, after ++ [x], by rw [split]; simp, smaller, fun y later => ?_⟩
          rcases List.mem_append.mp later with later | isX
          · exact atMost y later
          · rw [List.mem_singleton.mp isX]
            exact not_lt.mp less
  exact scan items [best] best
    ⟨[], [], rfl, fun _ none => absurd none List.not_mem_nil, fun _ none => absurd none List.not_mem_nil⟩

theorem exists_of_ne_nil (key : α → β) {items : List α} (some : items ≠ []) :
    ∃ first, FirstLeast key items first := by
  cases items with
  | nil => exact absurd rfl some
  | cons x rest => exact ⟨_, foldl key rest x⟩

end FirstLeast

end Zsim
