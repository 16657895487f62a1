import Mathlib.Logic.Function.Basic
import Zsim.Lib.Search

/-!
# Reservations

A table of `n` units that are taken or free at each cycle.  It has no last cycle, but from some
cycle on all units are free, so that one of any given units is free eventually.
-/

set_option autoImplicit false

namespace Zsim

structure Reservations (n : Nat) where
  taken : Nat → BitVec n
  bound : Nat
  untaken : ∀ c, bound ≤ c → taken c = 0

namespace Reservations

variable {n : Nat}

def empty : Reservations n := ⟨fun _ => 0, 0, fun _ _ => rfl⟩

/-- The units of `mask` that are free at `c`. -/
def free (r : Reservations n) (mask : BitVec n) (c : Nat) : BitVec n := ~~~r.taken c &&& mask

/-- The first cycle from `start` on at which a unit of `mask` is free. -/
def earliest (r : Reservations n) (mask : BitVec n) (start : Nat) : Nat :=
  search (fun c => r.free mask c ≠ 0) (r.bound - start) start

def reserve (r : Reservations n) (units : BitVec n) (c : Nat) : Reservations n where
  taken := Function.update r.taken c (r.taken c ||| units)
  bound := max r.bound (c + 1)
  untaken d beyond := by
    have later : c < d := Nat.le_trans (Nat.le_max_right _ _) beyond
    rw [Function.update_of_ne (Nat.ne_of_gt later)]
    exact r.untaken d (Nat.le_trans (Nat.le_max_left _ _) beyond)

variable {r : Reservations n} {mask units : BitVec n} {c d start : Nat}

theorem isLeast_earliest (some : mask ≠ 0) :
    IsLeast {c | start ≤ c ∧ r.free mask c ≠ 0} (r.earliest mask start) := by
  have free : ∀ c, r.bound ≤ c → r.free mask c ≠ 0 := by
    intro c beyond
    rw [Reservations.free, r.untaken c beyond]
    simpa using some
  apply isLeast_search (Nat.le_max_right r.bound start)
  · omega
  · exact free _ (Nat.le_max_left r.bound start)

theorem le_earliest : start ≤ r.earliest mask start := le_search

/-- Where the least free cycle is does not depend on how it is looked for. -/
theorem earliest_eq (some : mask ≠ 0) (notBefore : start ≤ c) (isFree : r.free mask c ≠ 0)
    (passed : ∀ d, start ≤ d → d < c → r.free mask d = 0) : r.earliest mask start = c := by
  have least : IsLeast {c | start ≤ c ∧ r.free mask c ≠ 0} (r.earliest mask start) :=
    isLeast_earliest some
  apply Nat.le_antisymm (least.2 ⟨notBefore, isFree⟩)
  exact Nat.le_of_not_lt fun before => least.1.2 (passed _ least.1.1 before)

@[simp] theorem taken_reserve_self : (r.reserve units c).taken c = r.taken c ||| units :=
  Function.update_self c _ r.taken

@[simp] theorem taken_reserve_of_ne (ne : d ≠ c) : (r.reserve units c).taken d = r.taken d :=
  Function.update_of_ne ne _ r.taken

theorem bound_le_reserve : r.bound ≤ (r.reserve units c).bound := Nat.le_max_left _ _

theorem lt_bound_reserve : c < (r.reserve units c).bound := Nat.le_max_right _ _

theorem lt_bound (isTaken : r.taken c ≠ 0) : c < r.bound :=
  Nat.lt_of_not_le fun beyond => isTaken (r.untaken c beyond)

theorem free_reserve_self : (r.reserve mask c).free mask c = 0 := by
  rw [free, taken_reserve_self]
  apply BitVec.eq_of_getLsbD_eq
  intro i lt
  cases isUnit : mask.getLsbD i
  · simp [isUnit]
  · simp [isUnit]

theorem getLsbD_reserve {unit : Nat} (isTaken : (r.taken d).getLsbD unit = true) :
    ((r.reserve units c).taken d).getLsbD unit = true := by
  by_cases here : d = c
  · subst here
    rw [taken_reserve_self, BitVec.getLsbD_or, isTaken, Bool.true_or]
  · rw [taken_reserve_of_ne here]
    exact isTaken

theorem not_taken_of_free {unit : Nat} (isFree : (r.free mask c).getLsbD unit = true) :
    (r.taken c).getLsbD unit = false ∧ mask.getLsbD unit = true := by
  rw [free, BitVec.getLsbD_and, BitVec.getLsbD_not, Bool.and_eq_true, Bool.and_eq_true] at isFree
  exact ⟨by simpa using isFree.1.2, isFree.2⟩

end Reservations

end Zsim
