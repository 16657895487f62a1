import Mathlib.Algebra.Group.Nat.Defs
import Mathlib.Tactic.Common

/-!
# Machine words

Unsigned words are natural numbers; a result that may not fit is wrapped where
the source computes it.
-/

set_option autoImplicit false

namespace Zsim

def u32 (n : Nat) : Nat := n % 2 ^ 32

def u64 (n : Nat) : Nat := n % 2 ^ 64

theorem u32_of_lt {n : Nat} (fits : n < 2 ^ 32) : u32 n = n := Nat.mod_eq_of_lt fits

theorem u64_of_lt {n : Nat} (fits : n < 2 ^ 64) : u64 n = n := Nat.mod_eq_of_lt fits

/-- Subtraction of `uint32_t`, which wraps below 0. -/
def u32Sub (a b : Nat) : Nat := u32 (a + 2 ^ 32 - b)

theorem u32Sub_of_le {a b : Nat} (fits : a < 2 ^ 32) (le : b ≤ a) : u32Sub a b = a - b := by
  unfold u32Sub u32
  omega

/-- Subtraction of `uint64_t`, which wraps below 0. -/
def u64Sub (a b : Nat) : Nat := u64 (a + 2 ^ 64 - b)

theorem u64Sub_of_le {a b : Nat} (fits : a < 2 ^ 64) (le : b ≤ a) : u64Sub a b = a - b := by
  unfold u64Sub u64
  omega

/-- `n` words of a ring are told apart by their index modulo `n`. -/
theorem eq_of_mod_eq {n first a b : Nat} (aFrom : first ≤ a) (aTo : a < first + n)
    (bFrom : first ≤ b) (bTo : b < first + n) (same : a % n = b % n) : a = b := by
  have apart : ∀ x y : Nat, first ≤ x → y < first + n → x ≤ y → x % n = y % n → x = y := by
    intro x y xFrom yTo le same
    have divides : n ∣ y - x :=
      Nat.dvd_of_mod_eq_zero (Nat.sub_mod_eq_zero_of_mod_eq same.symm)
    have zero : y - x = 0 := Nat.eq_zero_of_dvd_of_lt divides (by omega)
    omega
  rcases Nat.le_total a b with le | le
  · exact apart a b aFrom bTo le same
  · exact (apart b a bFrom aTo le same.symm).symm

theorem mod_mul_eq_iff {x y a b : Nat} (pos : 0 < a) :
    x % (a * b) = y % (a * b) ↔ x % a = y % a ∧ x / a % b = y / a % b := by
  rw [Nat.mod_mul, Nat.mod_mul]
  constructor
  · intro same
    have low := congrArg (· % a) same
    have high := congrArg (· / a) same
    simp only [Nat.add_mul_mod_self_left, Nat.mod_mod] at low
    simp only [Nat.add_mul_div_left _ _ pos, Nat.div_eq_of_lt (Nat.mod_lt _ pos), Nat.zero_add]
      at high
    exact ⟨low, high⟩
  · rintro ⟨low, high⟩
    rw [low, high]

end Zsim
