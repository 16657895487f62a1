import Mathlib.Data.Nat.Bitwise
import Mathlib.Logic.Function.Basic
import Mathlib.Tactic.Common
import Zsim.Lib.Machine

/-!
# The branch predictor

`BranchPredictorPAg` of ooo_core.h: a shift register of outcomes for each branch, and a table of
two-bit counters for the patterns in them.  A branch that always goes the same way is
predicted right after its register is full and its counter has come to the other side.
-/

set_option autoImplicit false

namespace Zsim.OOO

/-- The template's parameters; `LB` is between the other two for the XOR of the index. -/
structure BranchConfig where
  NB : Nat
  HB : Nat
  LB : Nat
  tooManyEntries : LB ≤ HB
  tooFewEntries : NB ≤ LB
  word : HB < 32

namespace BranchConfig

variable (c : BranchConfig)

def bhsrMask : BitVec 32 := BitVec.ofNat 32 (2 ^ c.NB - 1)

def histMask : BitVec 32 := BitVec.ofNat 32 (2 ^ c.HB - 1)

def phtMask : BitVec 32 := BitVec.ofNat 32 (2 ^ c.LB - 1)

end BranchConfig

structure BranchPredictorPAg where
  bhsr : Nat → BitVec 32
  pht : Nat → Nat
  useA2 : Bool

namespace BranchPredictorPAg

def init : BranchPredictorPAg := ⟨fun _ => 0, fun _ => 1, true⟩  -- weak non-taken

def useA3 (b : BranchPredictorPAg) : BranchPredictorPAg := { b with useA2 := false }

/-- A 2-bit saturating counter, or Automaton 3. -/
def nextCounter (useA2 : Bool) (counter : Nat) (taken : Bool) : Nat :=
  let pred := 1 < counter
  if useA2 then
    if taken then if pred then 3 else counter + 1
    else if pred then counter - 1 else 0
  else
    if taken then if 0 < counter then 3 else 1
    else if counter < 3 then 0 else 2

variable (c : BranchConfig)

def bhsrIdx (branchPc : Nat) : Nat := (BitVec.ofNat 32 (branchPc >>> 1) &&& c.bhsrMask).toNat

/-- Shift-XOR-mask to fit in the table. -/
def phtIdx (history : BitVec 32) : Nat :=
  ((history ^^^ (history &&& ~~~c.phtMask) >>> (c.HB - c.LB)) &&& c.phtMask).toNat

def shift (history : BitVec 32) (taken : Bool) : BitVec 32 :=
  (history <<< 1 &&& c.histMask) ||| (if taken then 1 else 0)

variable (b : BranchPredictorPAg)

/-- Predicts and updates; false if mispredicted. -/
def predict (branchPc : Nat) (taken : Bool) : BranchPredictorPAg × Bool :=
  let history := b.bhsr (bhsrIdx c branchPc)
  let idx := phtIdx c history
  let pred := decide (1 < b.pht idx)
  ({ b with
      pht := Function.update b.pht idx (nextCounter b.useA2 (b.pht idx) taken)
      bhsr := Function.update b.bhsr (bhsrIdx c branchPc) (shift c history taken) },
    taken == pred)

/-! ## Runs -/

/-- The predictor after some branches, each with its outcome. -/
def after (branches : List (Nat × Bool)) : BranchPredictorPAg :=
  branches.foldl (fun b branch => (b.predict c branch.1 branch.2).1) b

/-- How many of `n` executions of a branch that goes the same way are mispredicted. -/
def mispredictions (branchPc : Nat) (taken : Bool) : Nat → BranchPredictorPAg → Nat
  | 0, _ => 0
  | n + 1, b =>
    (!(b.predict c branchPc taken).2).toNat + mispredictions branchPc taken n (b.predict c branchPc taken).1

def Sound : Prop := ∀ idx, b.pht idx ≤ 3

variable {c b}

theorem nextCounter_le {useA2 taken : Bool} {counter : Nat} (le : counter ≤ 3) :
    nextCounter useA2 counter taken ≤ 3 := by
  unfold nextCounter
  cases useA2 <;> cases taken <;> simp <;> split <;> omega

theorem Sound.predict (sound : b.Sound) (branchPc : Nat) (taken : Bool) :
    (b.predict c branchPc taken).1.Sound := by
  intro idx
  simp only [BranchPredictorPAg.predict]
  by_cases here : idx = phtIdx c (b.bhsr (bhsrIdx c branchPc))
  · rw [here, Function.update_self]
    exact nextCounter_le (sound _)
  · rw [Function.update_of_ne here]
    exact sound idx

theorem Sound.after (sound : b.Sound) (branches : List (Nat × Bool)) : (b.after c branches).Sound := by
  induction branches generalizing b with
  | nil => exact sound
  | cons branch rest ih => exact ih (sound.predict branch.1 branch.2)

theorem bhsrIdx_lt (branchPc : Nat) : bhsrIdx c branchPc < 2 ^ c.NB := by
  have pos : 0 < 2 ^ c.NB := Nat.two_pow_pos _
  have mask : c.bhsrMask.toNat ≤ 2 ^ c.NB - 1 := by
    rw [BranchConfig.bhsrMask, BitVec.toNat_ofNat]
    exact Nat.mod_le _ _
  have le : bhsrIdx c branchPc ≤ c.bhsrMask.toNat := by
    rw [bhsrIdx, BitVec.toNat_and]
    exact Nat.and_le_right
  omega

theorem phtIdx_lt (history : BitVec 32) : phtIdx c history < 2 ^ c.LB := by
  have pos : 0 < 2 ^ c.LB := Nat.two_pow_pos _
  have mask : c.phtMask.toNat ≤ 2 ^ c.LB - 1 := by
    rw [BranchConfig.phtMask, BitVec.toNat_ofNat]
    exact Nat.mod_le _ _
  have le : phtIdx c history ≤ c.phtMask.toNat := by
    rw [phtIdx, BitVec.toNat_and]
    exact Nat.and_le_right
  omega

/-! ## A branch that always goes the same way -/

theorem getLsbD_histMask (i : Nat) : c.histMask.getLsbD i = decide (i < c.HB) := by
  have small : 2 ^ c.HB - 1 < 2 ^ 32 :=
    lt_of_le_of_lt (Nat.sub_le _ _) (Nat.pow_lt_pow_right (by decide) c.word)
  rw [BranchConfig.histMask, BitVec.getLsbD_ofNat, Nat.testBit_two_pow_sub_one]
  have word := c.word
  by_cases inside : i < c.HB
  · simp [inside, Nat.lt_trans inside word]
  · simp [inside]

theorem getLsbD_shift (history : BitVec 32) (taken : Bool) (i : Nat) :
    (shift c history taken).getLsbD i =
      if i = 0 then taken else decide (i < c.HB) && history.getLsbD (i - 1) := by
  have word := c.word
  unfold shift
  rw [BitVec.getLsbD_or, BitVec.getLsbD_and, BitVec.getLsbD_shiftLeft, getLsbD_histMask]
  by_cases first : i = 0
  · subst first
    cases taken <;> simp
  · rw [if_neg first]
    have low : (if taken then (1 : BitVec 32) else 0).getLsbD i = false := by
      cases taken
      · simp
      · simp [first]
    rw [low]
    by_cases inside : i < c.HB
    · simp [inside, Nat.lt_trans inside word]
      omega
    · simp [inside]

/-- The history of a branch that has often enough gone the same way. -/
def Settled (c : BranchConfig) (history : BitVec 32) (taken : Bool) : Prop :=
  ∀ i, history.getLsbD i = (decide (i = 0 ∨ i < c.HB) && taken)

theorem Settled.unique {first second : BitVec 32} {taken : Bool} (settled : Settled c first taken)
    (other : Settled c second taken) : first = second :=
  BitVec.eq_of_getLsbD_eq fun i _ => (settled i).trans (other i).symm

theorem Settled.shift {history : BitVec 32} {taken : Bool} (settled : Settled c history taken) :
    Settled c (shift c history taken) taken := by
  intro i
  rw [getLsbD_shift, settled (i - 1)]
  by_cases first : i = 0
  · simp [first]
  · by_cases inside : i < c.HB
    · have before : i - 1 < c.HB := by omega
      simp [first, inside, before]
    · simp [first, inside]

/-- The last `n` outcomes are the same. -/
def SameFor (c : BranchConfig) (history : BitVec 32) (taken : Bool) (n : Nat) : Prop :=
  ∀ i, i < n ∨ c.HB ≤ i → history.getLsbD i = (decide (i = 0 ∨ i < c.HB) && taken)

theorem SameFor.shift {history : BitVec 32} {taken : Bool} {n : Nat} (same : n = 0 ∨ SameFor c history taken n) :
    SameFor c (shift c history taken) taken (n + 1) := by
  intro i within
  rw [getLsbD_shift]
  by_cases first : i = 0
  · simp [first]
  · by_cases inside : i < c.HB
    · have before : i - 1 < n := by omega
      have bit := (same.resolve_left (by omega)) (i - 1) (.inl before)
      have inside' : i - 1 < c.HB := by omega
      simp [first, inside, bit, inside']
    · simp [first, inside]

/-- How often a counter is still wrong. -/
def wrongs (taken : Bool) (counter : Nat) : Nat := if taken then 2 - counter else counter - 1

theorem wrongs_step (useA2 taken : Bool) {counter : Nat} (le : counter ≤ 3) :
    (!(taken == decide (1 < counter))).toNat + wrongs taken (nextCounter useA2 counter taken) ≤
      wrongs taken counter := by
  have cases' : counter = 0 ∨ counter = 1 ∨ counter = 2 ∨ counter = 3 := by omega
  rcases cases' with rfl | rfl | rfl | rfl
  all_goals cases useA2 <;> cases taken <;> decide

theorem mispredictions_settled {branchPc : Nat} {taken : Bool} (n : Nat) (sound : b.Sound)
    (settled : Settled c (b.bhsr (bhsrIdx c branchPc)) taken) :
    mispredictions c branchPc taken n b ≤ wrongs taken (b.pht (phtIdx c (b.bhsr (bhsrIdx c branchPc)))) := by
  induction n generalizing b with
  | zero => exact Nat.zero_le _
  | succ n ih =>
      have stays : (b.predict c branchPc taken).1.bhsr (bhsrIdx c branchPc) =
          b.bhsr (bhsrIdx c branchPc) := by
        simp only [predict, Function.update_self]
        exact settled.shift.unique settled
      have later := ih (sound.predict branchPc taken) (by rw [stays]; exact settled)
      have step := wrongs_step b.useA2 taken (sound (phtIdx c (b.bhsr (bhsrIdx c branchPc))))
      rw [stays] at later
      simp only [predict, Function.update_self] at later
      rw [mispredictions]
      simp only [predict] at later ⊢
      omega

theorem mispredictions_filling {branchPc : Nat} {taken : Bool} (left n seen : Nat) (sound : b.Sound)
    (same : seen = 0 ∨ SameFor c (b.bhsr (bhsrIdx c branchPc)) taken seen)
    (full : max c.HB 1 ≤ seen + left) :
    mispredictions c branchPc taken n b ≤ left + 2 := by
  induction left generalizing b n seen with
  | zero =>
      have settled : Settled c (b.bhsr (bhsrIdx c branchPc)) taken := fun i =>
        (same.resolve_left (by omega)) i (by omega)
      have few := mispredictions_settled n sound settled
      have two : wrongs taken (b.pht (phtIdx c (b.bhsr (bhsrIdx c branchPc)))) ≤ 2 := by
        have le := sound (phtIdx c (b.bhsr (bhsrIdx c branchPc)))
        unfold wrongs
        split <;> omega
      omega
  | succ left ih =>
      cases n with
      | zero => exact Nat.zero_le _
      | succ n =>
          have once := Bool.toNat_le (!(b.predict c branchPc taken).2)
          have same' :
              SameFor c ((b.predict c branchPc taken).1.bhsr (bhsrIdx c branchPc)) taken (seen + 1) := by
            simp only [predict, Function.update_self]
            exact SameFor.shift same
          have later := ih n (seen + 1) (sound.predict branchPc taken) (.inr same') (by omega)
          rw [mispredictions]
          omega

/-- The predictor of `OOOCore`. -/
def oooCore : BranchConfig := ⟨11, 18, 14, by decide, by decide, by decide⟩

end BranchPredictorPAg

end Zsim.OOO
