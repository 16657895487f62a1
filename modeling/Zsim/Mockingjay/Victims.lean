import Mathlib.Data.Prod.Lex
import Mathlib.Order.BooleanAlgebra.Basic
import Zsim.Lib.Least
import Zsim.Mockingjay.Predictions

/-!
# The victim

The loop of `rank` keeps the largest absolute value of a counter and compares the sign of the
present candidate only.  Its victim has the least key: the larger value comes first, and of
two equal ones that of an overdue line.
-/

set_option autoImplicit false

namespace Zsim.Mockingjay

namespace MockingjayReplPolicy

/-- How far the predicted reuse of a line is ahead, or how long ago it should have been. -/
def distance (p : MockingjayReplPolicy) (id : Nat) : Nat := (p.etr id).natAbs

def victimKey (p : MockingjayReplPolicy) (id : Nat) : Int ×ₗ Bool :=
  toLex (-(p.distance id : Int), decide (0 ≤ p.etr id))

/-- What the loop keeps of two candidates. -/
def choose (p : MockingjayReplPolicy) (best id : Nat) : Nat :=
  if p.distance best < p.distance id ∨ (p.distance id = p.distance best ∧ p.etr id < 0) then id
  else best

theorem better_eq (p : MockingjayReplPolicy) (best id : Nat) :
    p.better (p.distance best, best) id = (↑(p.distance (p.choose best id)), p.choose best id) := by
  unfold better choose
  have same : ((p.etr id).natAbs : Int) > ↑(p.distance best) ∨
      (((p.etr id).natAbs : Int) = ↑(p.distance best) ∧ p.etr id < 0) ↔
      p.distance best < p.distance id ∨ (p.distance id = p.distance best ∧ p.etr id < 0) := by
    unfold distance
    omega
  dsimp only
  by_cases taken : p.distance best < p.distance id ∨ (p.distance id = p.distance best ∧ p.etr id < 0)
  · rw [if_pos taken, if_pos (same.mpr taken)]
    rfl
  · rw [if_neg taken, if_neg fun h => taken (same.mp h)]

theorem foldl_better (p : MockingjayReplPolicy) (cands : List Nat) (best : Nat) :
    cands.foldl p.better (p.distance best, best) =
      (↑(p.distance (cands.foldl p.choose best)), cands.foldl p.choose best) := by
  induction cands generalizing best with
  | nil => rfl
  | cons id rest ih => rw [List.foldl_cons, better_eq, ih, List.foldl_cons]

theorem better_first (p : MockingjayReplPolicy) (id : Nat) :
    p.better (-1, 0) id = (↑(p.distance id), id) := by
  unfold better
  have above : ((p.etr id).natAbs : Int) > -1 := by omega
  rw [if_pos (.inl above)]
  rfl

theorem victimKey_le_iff (p : MockingjayReplPolicy) (a b : Nat) : p.victimKey a ≤ p.victimKey b ↔
    p.distance b < p.distance a ∨ (p.distance a = p.distance b ∧ (p.etr b < 0 → p.etr a < 0)) := by
  unfold victimKey
  rw [Prod.Lex.toLex_le_toLex]
  simp only [Bool.le_iff_imp, decide_eq_true_eq]
  omega

theorem least_choose (p : MockingjayReplPolicy) (cands : List Nat) (best : Nat) :
    Least p.victimKey (best :: cands) (cands.foldl p.choose best) := by
  apply Least.foldl
  · intro best id
    unfold choose
    split
    · exact .inr rfl
    · exact .inl rfl
  · intro best id
    rw [victimKey_le_iff, victimKey_le_iff]
    unfold choose
    split <;> omega

theorem rank_least (p : MockingjayReplPolicy) {isValid : Nat → Bool} {cands : List Nat}
    (some : cands ≠ []) (valid : ∀ id ∈ cands, isValid id = true) :
    Least p.victimKey cands (p.rank isValid cands) := by
  have noneInvalid : cands.find? (fun id => !isValid id) = none :=
    List.find?_eq_none.mpr fun id member => by simp [valid id member]
  cases cands with
  | nil => exact absurd rfl some
  | cons id rest =>
      unfold rank
      rw [noneInvalid, List.foldl_cons, better_first, foldl_better]
      exact least_choose p rest id

end MockingjayReplPolicy

/-- What is promised of the victim of a search. -/
structure IsVictim (p : MockingjayReplPolicy) (isValid : Nat → Bool) (cands : List Nat) (victim : Nat) :
    Prop where
  /-- the first candidate that is not valid -/
  invalid : (∃ id ∈ cands, isValid id = false) → ∃ before after, cands = before ++ victim :: after ∧
    isValid victim = false ∧ ∀ id ∈ before, isValid id = true
  presented : victim ∈ cands
  largest : (∀ id ∈ cands, isValid id = true) → ∀ id ∈ cands, p.distance id ≤ p.distance victim
  overdue : (∀ id ∈ cands, isValid id = true) →
    (∃ id ∈ cands, p.distance id = p.distance victim ∧ p.etr id < 0) → p.etr victim < 0
  /-- an overdue line is kept only for one whose predicted reuse is further away -/
  kept : (∀ id ∈ cands, isValid id = true) → ∀ id ∈ cands, p.etr id < 0 → 0 ≤ p.etr victim →
    (p.distance id : Int) < p.etr victim

/-- In every state, whatever the counters are. -/
theorem rank_overdue_first (p : MockingjayReplPolicy) (isValid : Nat → Bool) {cands : List Nat}
    (some : cands ≠ []) : IsVictim p isValid cands (p.rank isValid cands) := by
  cases found : cands.find? fun id => !isValid id with
  | some id =>
      have isRank : p.rank isValid cands = id := by
        unfold MockingjayReplPolicy.rank
        rw [found]
      obtain ⟨notValid, before, after, split, others⟩ := List.find?_eq_some_iff_append.mp found
      have notValid : isValid id = false := by simpa using notValid
      have member : id ∈ cands := List.mem_of_find?_eq_some found
      have mixed : ¬ ∀ id ∈ cands, isValid id = true := fun valid => by
        rw [valid id member] at notValid
        cases notValid
      rw [isRank]
      exact ⟨fun _ => ⟨before, after, split, notValid, fun x earlier => by simpa using others x earlier⟩,
        member, fun valid => absurd valid mixed, fun valid => absurd valid mixed,
        fun valid => absurd valid mixed⟩
  | none =>
      have valid : ∀ id ∈ cands, isValid id = true := fun id member => by
        simpa using List.find?_eq_none.mp found id member
      obtain ⟨member, least⟩ := p.rank_least some valid
      have order := fun id (isCand : id ∈ cands) => (p.victimKey_le_iff _ _).mp (least id isCand)
      refine ⟨?_, member, fun _ id isCand => ?_, ?_, fun _ id isCand overdue notOverdue => ?_⟩
      · rintro ⟨id, isCand, notValid⟩
        rw [valid id isCand] at notValid
        cases notValid
      · have := order id isCand
        omega
      · rintro - ⟨id, isCand, same, overdue⟩
        have := order id isCand
        omega
      · have further := order id isCand
        have isDistance : p.distance (p.rank isValid cands) = (p.etr (p.rank isValid cands)).natAbs := rfl
        omega

/-- A line that was written back is as far from its reuse as can be. -/
theorem rank_overdue_first_writeback :
    IsVictim ((MockingjayReplPolicy.init fourKB).writeback 2 .PUTX) (fun _ => true) [0, 1, 2, 3]
      (((MockingjayReplPolicy.init fourKB).writeback 2 .PUTX).rank (fun _ => true) [0, 1, 2, 3]) :=
  rank_overdue_first _ (fun _ => true) (List.cons_ne_nil 0 [1, 2, 3])

end Zsim.Mockingjay
