import Mathlib.Data.Nat.Periodic
import Zsim.Lib.Word
import Zsim.Lib.Xor

/-!
# H3 hash functions

`H3HashFamily::hash` of hash.cpp and the loop that its comment gives for it.  A function has one
matrix word for each bit of its output.
-/

set_option autoImplicit false

namespace Zsim.Hash

structure H3HashFamily where
  numFuncs : Nat
  resShift : Nat
  hMatrix : Array (BitVec 64)
  resShift_le : resShift ≤ 3
  size_eq : hMatrix.size = (64 >>> resShift) * numFuncs
  /-- the words are counted in a `uint32_t` -/
  size_lt : hMatrix.size < 2 ^ 32

namespace H3HashFamily

variable (h : H3HashFamily) (id : Nat) (val : BitVec 64)

def maxBits : Nat := 64 >>> h.resShift

def word (i : Nat) : BitVec 64 := h.hMatrix.getD i 0

/-- One round of the unrolled loop. -/
def round (base : Nat) (res : BitVec 64) : BitVec 64 :=
  let res0 := val &&& h.word base
  let res1 := val &&& h.word (base + 1)
  let res2 := val &&& h.word (base + 2)
  let res3 := val &&& h.word (base + 3)
  let res4 := val &&& h.word (base + 4)
  let res5 := val &&& h.word (base + 5)
  let res6 := val &&& h.word (base + 6)
  let res7 := val &&& h.word (base + 7)
  let res := res ^^^ (res0 ^^^ (res1 <<< 1 ||| res1 >>> 63) ^^^ (res2 <<< 2 ||| res2 >>> 62) ^^^
    (res3 <<< 3 ||| res3 >>> 61))
  let res := res ^^^ ((res4 <<< 4 ||| res4 >>> 60) ^^^ (res5 <<< 5 ||| res5 >>> 59) ^^^
    (res6 <<< 6 ||| res6 >>> 58) ^^^ (res7 <<< 7 ||| res7 >>> 57))
  res <<< 8 ||| res >>> 56

/-- Folds the bits to match the output. -/
def foldBits (res : BitVec 64) : BitVec 64 :=
  match h.resShift with
  | 1 => res >>> 32 ^^^ res
  | 2 =>
    let res := res >>> 32 ^^^ res
    res >>> 16 ^^^ res
  | 3 =>
    let res := res >>> 32 ^^^ res
    let res := res >>> 16 ^^^ res
    res >>> 8 ^^^ res
  | _ => res

def hash : Option (BitVec 64) :=
  if id < h.numFuncs then
    some (h.foldBits ((List.range (h.maxBits / 8)).foldl
      (fun res k => h.round val (u32 (id <<< (6 - h.resShift) + 8 * k)) res) 0))
  else none

/-- One round of the loop in the comment. -/
def simpleRound (res : BitVec 64) (x : Nat) : BitVec 64 :=
  let res := res ^^^ (val &&& h.word (id * h.maxBits + x))
  res <<< 1 ||| res >>> 63

/-- The loop in the comment, over the words of one function, and the same folding. -/
def simpleHash : BitVec 64 :=
  h.foldBits ((List.range h.maxBits).foldl (h.simpleRound id val) 0)

/-! ## Which bits of the words meet -/

def masked (x : Nat) : BitVec 64 := val &&& h.word (id * h.maxBits + x)

/-- Word `x` is the one at `x % 8` of its round.  The two loops rotate it equally far, but by
`x % 8` more or less: they differ in an output bit if an odd number of words have unequal bits at
these two places. -/
def BalancedAt (i : Nat) : Prop :=
  Even ((List.range h.maxBits).countP fun x =>
    bitAt (h.masked id val x) (i + 8 * (x / 8 + 1) - x % 8) !=
      bitAt (h.masked id val x) (i + 8 * (x / 8 + 1) + x % 8))

def Balanced : Prop := ∀ i < 64, h.BalancedAt id val i

instance decidableBalanced : Decidable (h.Balanced id val) :=
  inferInstanceAs (Decidable (∀ i < 64, Even _))

theorem balancedAt_periodic : Function.Periodic (h.BalancedAt id val) 64 := by
  intro i
  have back : ∀ x, bitAt (h.masked id val x) (i + 64 + 8 * (x / 8 + 1) - x % 8) =
      bitAt (h.masked id val x) (i + 8 * (x / 8 + 1) - x % 8) := by
    intro x
    rw [← bitAt_add_mul (h.masked id val x) (i + 8 * (x / 8 + 1) - x % 8) 1]
    congr 1
    omega
  have on : ∀ x, bitAt (h.masked id val x) (i + 64 + 8 * (x / 8 + 1) + x % 8) =
      bitAt (h.masked id val x) (i + 8 * (x / 8 + 1) + x % 8) := by
    intro x
    rw [← bitAt_add_mul (h.masked id val x) (i + 8 * (x / 8 + 1) + x % 8) 1]
    congr 1
    omega
  simp only [BalancedAt, back, on]

variable {h id}

theorem maxBits_eq : h.maxBits = 8 * (h.maxBits / 8) ∧ h.maxBits = 2 ^ (6 - h.resShift) ∧
    h.maxBits / 8 ≤ 8 := by
  have cases : ∀ s ≤ 3, 64 >>> s = 8 * (64 >>> s / 8) ∧ 64 >>> s = 2 ^ (6 - s) ∧ 64 >>> s / 8 ≤ 8 := by
    decide
  exact cases h.resShift h.resShift_le

/-- The words of a round are in the matrix, and the index of the first one has not wrapped. -/
theorem base_eq (isFunc : id < h.numFuncs) {k : Nat} (lt : k < h.maxBits / 8) :
    u32 (id <<< (6 - h.resShift) + 8 * k) = id * h.maxBits + 8 * k ∧
      id * h.maxBits + 8 * k + 7 < h.hMatrix.size := by
  obtain ⟨blocks, power, -⟩ := maxBits_eq (h := h)
  have inMatrix : id * h.maxBits + h.maxBits ≤ h.hMatrix.size := by
    rw [h.size_eq, ← Nat.succ_mul, Nat.mul_comm]
    exact Nat.mul_le_mul_left _ isFunc
  have fits := h.size_lt
  rw [Nat.shiftLeft_eq, ← power]
  exact ⟨u32_of_lt (by omega), by omega⟩

theorem round_eq (base : Nat) (res : BitVec 64) :
    h.round val base res =
      (res ^^^ xorSum (fun j => (val &&& h.word (base + j)).rotateLeft j) 8).rotateLeft 8 := by
  have shifts : ∀ x : BitVec 64, x <<< 1 ||| x >>> 63 = x.rotateLeft 1 ∧
      x <<< 2 ||| x >>> 62 = x.rotateLeft 2 ∧ x <<< 3 ||| x >>> 61 = x.rotateLeft 3 ∧
      x <<< 4 ||| x >>> 60 = x.rotateLeft 4 ∧ x <<< 5 ||| x >>> 59 = x.rotateLeft 5 ∧
      x <<< 6 ||| x >>> 58 = x.rotateLeft 6 ∧ x <<< 7 ||| x >>> 57 = x.rotateLeft 7 ∧
      x <<< 8 ||| x >>> 56 = x.rotateLeft 8 := fun x => ⟨rfl, rfl, rfl, rfl, rfl, rfl, rfl, rfl⟩
  unfold round
  simp only [shifts, xorSum, Nat.add_zero, rotateLeft_zero_bits, BitVec.zero_xor, BitVec.xor_assoc,
    BitVec.ofNat_eq_ofNat]

theorem rounds_eq (isFunc : id < h.numFuncs) :
    (List.range (h.maxBits / 8)).foldl
      (fun res k => h.round val (u32 (id <<< (6 - h.resShift) + 8 * k)) res) 0 =
    xorSum (fun x => (h.masked id val x).rotateLeft (8 * (h.maxBits / 8 - x / 8) + x % 8))
      h.maxBits := by
  have body : ∀ (res : BitVec 64), ∀ k ∈ List.range (h.maxBits / 8),
      h.round val (u32 (id <<< (6 - h.resShift) + 8 * k)) res =
        (res ^^^ xorSum (fun j => (h.masked id val (8 * k + j)).rotateLeft j) 8).rotateLeft 8 := by
    intro res k member
    rw [(base_eq isFunc (List.mem_range.mp member)).1, round_eq]
    simp only [masked, Nat.add_assoc]
  rw [List.foldl_ext _ _ _ body, foldl_rotateLeft]
  conv_rhs => rw [(maxBits_eq (h := h)).1, xorSum_mul]
  apply xorSum_congr
  intro k lt
  rw [rotateLeft_xorSum]
  apply xorSum_congr
  intro j small
  rw [rotateLeft_rotateLeft, ← (maxBits_eq (h := h)).1, Nat.mul_add_div (by decide),
    Nat.div_eq_of_lt small, Nat.mul_add_mod, Nat.mod_eq_of_lt small, Nat.add_zero, Nat.add_comm j]

/-- Where the loop of the comment leaves each word. -/
theorem simpleRounds_eq :
    (List.range h.maxBits).foldl (h.simpleRound id val) 0 =
      xorSum (fun x => (h.masked id val x).rotateLeft (h.maxBits - x)) h.maxBits := by
  have sum := foldl_rotateLeft (h.masked id val) 1 h.maxBits
  simp only [Nat.one_mul] at sum
  exact sum

theorem foldBits_inj {x y : BitVec 64} : h.foldBits x = h.foldBits y ↔ x = y := by
  unfold foldBits
  split <;> simp [xor_ushiftRight_inj]

theorem forall_lt_add_iff {w : Nat} {P : Nat → Prop} (periodic : Function.Periodic P w) (s : Nat) :
    (∀ i < w, P (i + s)) ↔ ∀ i < w, P i := by
  constructor
  · intro shifted i lt
    have le : s ≤ w * s := Nat.le_mul_of_pos_left s (by omega)
    have here := shifted ((i + w * s - s) % w) (Nat.mod_lt _ (by omega))
    rw [← periodic.map_mod_nat, Nat.mod_add_mod, Nat.sub_add_cancel (by omega),
      Nat.add_mul_mod_self_left, periodic.map_mod_nat] at here
    exact here
  · intro all i lt
    rw [← periodic.map_mod_nat]
    exact all _ (Nat.mod_lt _ (by omega))

theorem sums_eq_iff :
    xorSum (fun x => (h.masked id val x).rotateLeft (8 * (h.maxBits / 8 - x / 8) + x % 8)) h.maxBits =
      xorSum (fun x => (h.masked id val x).rotateLeft (h.maxBits - x)) h.maxBits ↔
    h.Balanced id val := by
  obtain ⟨blocks, -, few⟩ := maxBits_eq (h := h)
  rw [← BitVec.xor_eq_zero_iff, ← xorSum_xor, xorSum_eq_zero_iff, Balanced]
  -- seen from the other end of its rotation, bit `i` of the output is bit `i + 120 - maxBits`
  rw [← forall_lt_add_iff (h.balancedAt_periodic id val) (120 - h.maxBits)]
  refine forall₂_congr fun i _ => ?_
  rw [BalancedAt]
  have same : ∀ x ∈ List.range h.maxBits,
      bitAt ((h.masked id val x).rotateLeft (8 * (h.maxBits / 8 - x / 8) + x % 8) ^^^
        (h.masked id val x).rotateLeft (h.maxBits - x)) i =
      (bitAt (h.masked id val x) (i + (120 - h.maxBits) + 8 * (x / 8 + 1) - x % 8) !=
        bitAt (h.masked id val x) (i + (120 - h.maxBits) + 8 * (x / 8 + 1) + x % 8)) := by
    intro x member
    have lt := List.mem_range.mp member
    rw [bitAt_xor, bitAt_rotateLeft_eq _ (k := 2) (by omega),
      bitAt_rotateLeft_eq _ (k := 2) (by omega)]
    congr 2 <;> omega
  rw [List.countP_congr fun x member => by rw [same x member]]

/-- The unrolled loop computes the hash of its comment exactly for the values whose words are
balanced. -/
theorem hash_eq_simpleHash_iff (isFunc : id < h.numFuncs) (val : BitVec 64) :
    h.hash id val = some (h.simpleHash id val) ↔ h.Balanced id val := by
  rw [hash, if_pos isFunc, Option.some_inj, simpleHash, foldBits_inj, rounds_eq val isFunc,
    simpleRounds_eq, sums_eq_iff]

/-- One function with 64-bit output, whose only word that is not 0 is the second. -/
def secondWord : H3HashFamily where
  numFuncs := 1
  resShift := 0
  hMatrix := (Array.replicate 64 0).set 1 1 (by simp)
  resShift_le := by decide
  size_eq := by simp
  size_lt := by simp

/-- The second word of the first round is rotated once more, not once less, than the first one. -/
theorem hash_of_second_word :
    secondWord.hash 0 1 = some 2 ∧ secondWord.simpleHash 0 1 = .twoPow 64 63 ∧
      secondWord.hash 0 1 ≠ some (secondWord.simpleHash 0 1) := by
  decide +kernel

theorem hash_eq_simpleHash_iff_second_word :
    0 < secondWord.numFuncs ∧
      (secondWord.hash 0 1 = some (secondWord.simpleHash 0 1) ↔ secondWord.Balanced 0 1) :=
  ⟨by decide, hash_eq_simpleHash_iff (by decide) 1⟩

end H3HashFamily

end Zsim.Hash
