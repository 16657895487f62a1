import Mathlib.Algebra.Ring.Parity
import Mathlib.Data.List.Range
import Mathlib.Tactic.Common

/-!
# Sums without carry

Rotations of a word and its sums without carry.  A loop that adds a word and rotates is such a
sum, in which each word is rotated as often as the loop has rounds left.
-/

set_option autoImplicit false

namespace Zsim

variable {w : Nat}

/-- The bit at a position that counts round the word. -/
def bitAt (x : BitVec w) (i : Nat) : Bool := x.getLsbD (i % w)

theorem bitAt_add_mul (x : BitVec w) (i k : Nat) : bitAt x (i + w * k) = bitAt x i := by
  rw [bitAt, Nat.add_mul_mod_self_left, bitAt]

theorem bitAt_of_lt (x : BitVec w) {i : Nat} (lt : i < w) : bitAt x i = x.getLsbD i := by
  rw [bitAt, Nat.mod_eq_of_lt lt]

theorem eq_of_bitAt {x y : BitVec w} (same : ∀ i < w, bitAt x i = bitAt y i) : x = y := by
  apply BitVec.eq_of_getLsbD_eq
  intro i lt
  simpa only [bitAt_of_lt _ lt] using same i lt

theorem bitAt_xor (x y : BitVec w) (i : Nat) : bitAt (x ^^^ y) i = (bitAt x i ^^ bitAt y i) :=
  BitVec.getLsbD_xor

/-- A rotation by `r` moves every bit `r` positions on. -/
theorem bitAt_rotateLeft (x : BitVec w) (r i : Nat) : bitAt (x.rotateLeft r) (i + r) = bitAt x i := by
  rcases Nat.eq_zero_or_pos w with rfl | pos
  · simp [bitAt]
  · have inRange := Nat.mod_lt (i + r) pos
    have split := Nat.add_mod i r w
    have below := Nat.mod_lt i pos
    have rBelow := Nat.mod_lt r pos
    unfold bitAt
    rw [BitVec.getLsbD_rotateLeft]
    by_cases wraps : i % w + r % w < w
    · rw [Nat.mod_eq_of_lt wraps] at split
      have notLess : ¬ (i + r) % w < r % w := by omega
      have back : (i + r) % w - r % w = i % w := by omega
      simp [notLess, inRange, back]
    · have once : (i % w + r % w) % w = i % w + r % w - w := by
        rw [Nat.mod_eq_sub_mod (Nat.le_of_not_lt wraps)]
        exact Nat.mod_eq_of_lt (by omega)
      rw [once] at split
      have less : (i + r) % w < r % w := by omega
      have back : w - r % w + (i + r) % w = i % w := by omega
      simp [less, back]

theorem bitAt_rotateLeft_eq (x : BitVec w) {r i k : Nat} (le : r ≤ w * k) :
    bitAt (x.rotateLeft r) i = bitAt x (i + w * k - r) := by
  rw [← bitAt_rotateLeft x r, Nat.sub_add_cancel (by omega), bitAt_add_mul]

theorem rotateLeft_xor (x y : BitVec w) (r : Nat) :
    (x ^^^ y).rotateLeft r = x.rotateLeft r ^^^ y.rotateLeft r := by
  apply eq_of_bitAt
  intro i lt
  have le : r ≤ w * r := Nat.le_mul_of_pos_left r (by omega)
  rw [bitAt_xor, bitAt_rotateLeft_eq _ le, bitAt_rotateLeft_eq _ le, bitAt_rotateLeft_eq _ le,
    bitAt_xor]

theorem rotateLeft_rotateLeft (x : BitVec w) (r s : Nat) :
    (x.rotateLeft r).rotateLeft s = x.rotateLeft (r + s) := by
  apply eq_of_bitAt
  intro i lt
  have first : r ≤ w * r := Nat.le_mul_of_pos_left r (by omega)
  have second : s ≤ w * s := Nat.le_mul_of_pos_left s (by omega)
  have split := Nat.mul_add w r s
  rw [bitAt_rotateLeft_eq _ second, bitAt_rotateLeft_eq _ first,
    bitAt_rotateLeft_eq x (k := r + s) (by omega)]
  congr 1
  omega

@[simp] theorem rotateLeft_zero_bits (x : BitVec w) : x.rotateLeft 0 = x := by
  apply eq_of_bitAt
  intro i _
  exact bitAt_rotateLeft x 0 i

theorem xor_xor_xor_cancel (x y z : BitVec w) : (x ^^^ z) ^^^ (y ^^^ z) = x ^^^ y := by
  rw [BitVec.xor_comm y z, BitVec.xor_assoc, ← BitVec.xor_assoc z z y, BitVec.xor_self,
    BitVec.zero_xor]

theorem xor_ushiftRight_inj {x y : BitVec w} {k : Nat} (pos : 0 < k) :
    (x >>> k) ^^^ x = (y >>> k) ^^^ y ↔ x = y := by
  refine ⟨fun same => ?_, fun same => by rw [same]⟩
  apply BitVec.xor_eq_zero_iff.mp
  -- the difference is its own upper part, so it is 0
  have fixed : (x ^^^ y) >>> k = x ^^^ y := by
    have cancelled : (x >>> k) ^^^ (y >>> k) = x ^^^ y := by
      calc (x >>> k) ^^^ (y >>> k) = ((x >>> k) ^^^ x) ^^^ ((y >>> k) ^^^ x) :=
            (xor_xor_xor_cancel _ _ x).symm
        _ = (y ^^^ (y >>> k)) ^^^ (x ^^^ (y >>> k)) := by
            rw [same, BitVec.xor_comm (y >>> k) y, BitVec.xor_comm (y >>> k) x]
        _ = y ^^^ x := xor_xor_xor_cancel y x _
        _ = x ^^^ y := BitVec.xor_comm y x
    rw [BitVec.ushiftRight_xor_distrib, cancelled]
  apply BitVec.eq_of_toNat_eq
  have smaller := congrArg BitVec.toNat fixed
  rw [BitVec.toNat_ushiftRight, Nat.shiftRight_eq_div_pow] at smaller
  have atLeast : 1 < 2 ^ k := Nat.one_lt_two_pow (by omega)
  rcases Nat.eq_zero_or_pos (x ^^^ y).toNat with zero | positive
  · simpa using zero
  · exact absurd smaller (Nat.ne_of_lt (Nat.div_lt_self positive atLeast))

/-! ## Sums -/

def xorSum (term : Nat → BitVec w) : Nat → BitVec w
  | 0 => 0
  | n + 1 => xorSum term n ^^^ term n

theorem xorSum_congr {term other : Nat → BitVec w} {n : Nat} (same : ∀ k < n, term k = other k) :
    xorSum term n = xorSum other n := by
  induction n with
  | zero => rfl
  | succ n ih =>
      rw [xorSum, xorSum, same n (Nat.lt_succ_self n), ih fun k lt => same k (Nat.lt_succ_of_lt lt)]

theorem xorSum_xor (term other : Nat → BitVec w) (n : Nat) :
    xorSum (fun k => term k ^^^ other k) n = xorSum term n ^^^ xorSum other n := by
  induction n with
  | zero => simp [xorSum]
  | succ n ih =>
      rw [xorSum, xorSum, xorSum, ih]
      grind

theorem rotateLeft_xorSum (term : Nat → BitVec w) (n r : Nat) :
    (xorSum term n).rotateLeft r = xorSum (fun k => (term k).rotateLeft r) n := by
  induction n with
  | zero =>
      have zero := rotateLeft_xor (0 : BitVec w) 0 r
      simpa [xorSum] using zero
  | succ n ih => rw [xorSum, xorSum, rotateLeft_xor, ih]

theorem xorSum_add (term : Nat → BitVec w) (n m : Nat) :
    xorSum term (n + m) = xorSum term n ^^^ xorSum (fun k => term (n + k)) m := by
  induction m with
  | zero => simp [xorSum]
  | succ m ih => rw [← Nat.add_assoc, xorSum, xorSum, ih, BitVec.xor_assoc]

/-- A sum taken in blocks of `b` terms. -/
theorem xorSum_mul (term : Nat → BitVec w) (b n : Nat) :
    xorSum term (b * n) = xorSum (fun k => xorSum (fun j => term (b * k + j)) b) n := by
  induction n with
  | zero => rfl
  | succ n ih => rw [Nat.mul_succ, xorSum_add, ih, xorSum]

/-- The loop that adds a word and rotates by `r`. -/
theorem foldl_rotateLeft (term : Nat → BitVec w) (r n : Nat) :
    (List.range n).foldl (fun res k => (res ^^^ term k).rotateLeft r) 0 =
      xorSum (fun k => (term k).rotateLeft (r * (n - k))) n := by
  induction n with
  | zero => rfl
  | succ n ih =>
      rw [List.range_succ, List.foldl_append, ih]
      simp only [List.foldl_cons, List.foldl_nil]
      rw [rotateLeft_xor, rotateLeft_xorSum, xorSum, Nat.add_sub_cancel_left, Nat.mul_one]
      congr 1
      apply xorSum_congr
      intro k lt
      rw [rotateLeft_rotateLeft, Nat.sub_add_comm (Nat.le_of_lt lt), Nat.mul_succ]

theorem bitAt_xorSum (term : Nat → BitVec w) (n i : Nat) :
    bitAt (xorSum term n) i = true ↔ Odd ((List.range n).countP fun k => bitAt (term k) i) := by
  induction n with
  | zero => simp [xorSum, bitAt]
  | succ n ih =>
      rw [xorSum, bitAt_xor, List.range_succ, List.countP_append, List.countP_singleton]
      cases bitAt (term n) i with
      | false => simpa using ih
      | true =>
          rw [Bool.xor_true, if_pos rfl, Nat.odd_add_one, ← ih]
          simp

theorem xorSum_eq_zero_iff (term : Nat → BitVec w) (n : Nat) :
    xorSum term n = 0#w ↔ ∀ i < w, Even ((List.range n).countP fun k => bitAt (term k) i) := by
  constructor
  · intro zero i _
    rw [← Nat.not_odd_iff_even, ← bitAt_xorSum, zero]
    simp [bitAt]
  · intro even
    apply eq_of_bitAt
    intro i lt
    have clear : ¬ bitAt (xorSum term n) i = true := by
      rw [bitAt_xorSum, Nat.not_odd_iff_even]
      exact even i lt
    rw [Bool.not_eq_true] at clear
    rw [clear]
    simp [bitAt]

end Zsim
