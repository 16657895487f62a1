import Mathlib.Data.Prod.Lex
import Mathlib.Order.BooleanAlgebra.Basic
import Zsim.Filter.LRU
import Zsim.Lib.Least
import Zsim.Lib.Machine
import Zsim.Repl.Legacy

/-!
# The victims of LRU

`LRUReplPolicy` of repl_policies.h for both values of `sharersAware`.  The score puts validity,
sharers and recency into one 64-bit word, and `rank` compares the low halves of the scores.
-/

set_option autoImplicit false

namespace Zsim

open Repl (CC)

namespace LRUReplPolicy

section
variable (sharersAware : Bool) (cc : CC) (rp : LRUReplPolicy)

/-- The sharers that count. -/
def sharers (id : Nat) : Nat := if sharersAware then cc.numSharers id else 0

/-- `score` of `LRUReplPolicy<sharersAware>`. -/
def sharersScore (id : Nat) : Nat :=
  u64 (sharers sharersAware cc id * rp.timestamp + rp.array id * (cc.isValid id).toNat)

/-- `rank` of `LRUReplPolicy<sharersAware>`. -/
def sharersRank (cands : List Nat) : Nat :=
  (cands.foldl (better (rp.sharersScore sharersAware cc)) (2 ^ 32 - 1, 2 ^ 64 - 1)).1

/-- What `rank` keeps of a score. -/
def lowWord (id : Nat) : Nat := u32 (rp.sharersScore sharersAware cc id)

/-- The lexicographic order of the victims: invalid before valid, then fewer sharers first,
then least recently updated. -/
def victimKey (recency : Nat → Nat) (id : Nat) : Bool ×ₗ Nat ×ₗ Nat :=
  toLex (cc.isValid id, toLex (sharers sharersAware cc id, recency id))

/-- The last update of a line, which is that of no line if it is not valid. -/
def lastUpdate (id : Nat) : Nat := if cc.isValid id then rp.array id else 0

end

variable {sharersAware : Bool} {cc : CC} {rp : LRUReplPolicy}

theorem u32_u64 (n : Nat) : u32 (u64 n) = u32 n := by
  unfold u32 u64
  exact Nat.mod_mod_of_dvd n (by decide)

theorem sharersRank_false (cands : List Nat) :
    rp.sharersRank false cc cands = rp.rank cc.isValid cands := by
  have same : ∀ id, u32 (rp.sharersScore false cc id) = u32 (rp.score cc.isValid id) := fun id => by
    rw [sharersScore, u32_u64, sharers, if_neg Bool.false_ne_true, Nat.zero_mul, Nat.zero_add]
    rfl
  refine better_congr rfl (fun id _ => by rw [same]) fun x _ y _ => by rw [same, same]

/-! ## The first of the least low words -/

theorem foldl_better_lowWord (cands : List Nat) (best : Nat) :
    (cands.foldl (better (rp.sharersScore sharersAware cc)) (best, rp.lowWord sharersAware cc best)).1 =
      cands.foldl (fun best id =>
        if rp.lowWord sharersAware cc id < rp.lowWord sharersAware cc best then id else best) best := by
  induction cands generalizing best with
  | nil => rfl
  | cons id rest ih =>
      have one : better (rp.sharersScore sharersAware cc) (best, rp.lowWord sharersAware cc best) id =
          (if rp.lowWord sharersAware cc id < rp.lowWord sharersAware cc best then id else best,
            rp.lowWord sharersAware cc
              (if rp.lowWord sharersAware cc id < rp.lowWord sharersAware cc best then id else best)) := by
        unfold better
        change (if rp.lowWord sharersAware cc id < rp.lowWord sharersAware cc best then id else best,
          min (rp.lowWord sharersAware cc id) (rp.lowWord sharersAware cc best)) = _
        by_cases less : rp.lowWord sharersAware cc id < rp.lowWord sharersAware cc best
        · rw [if_pos less, min_eq_left (le_of_lt less)]
        · rw [if_neg less, min_eq_right (not_lt.mp less)]
      rw [List.foldl_cons, one, ih, List.foldl_cons]

theorem sharersRank_firstLeast {cands : List Nat} (some : cands ≠ []) :
    FirstLeast (rp.lowWord sharersAware cc) cands (rp.sharersRank sharersAware cc cands) := by
  cases cands with
  | nil => exact absurd rfl some
  | cons id rest =>
      -- the first candidate beats the initial best score, which no uint32_t reaches
      have below : rp.lowWord sharersAware cc id < 2 ^ 64 - 1 :=
        lt_trans (Nat.mod_lt _ (by decide)) (by decide)
      have first : better (rp.sharersScore sharersAware cc) (2 ^ 32 - 1, 2 ^ 64 - 1) id =
          (id, rp.lowWord sharersAware cc id) := by
        unfold better
        change (if rp.lowWord sharersAware cc id < 2 ^ 64 - 1 then id else 2 ^ 32 - 1,
          min (rp.lowWord sharersAware cc id) (2 ^ 64 - 1)) = _
        rw [if_pos below, min_eq_left (le_of_lt below)]
      rw [sharersRank, List.foldl_cons, first, foldl_better_lowWord]
      exact FirstLeast.foldl (rp.lowWord sharersAware cc) rest id

theorem sharersRank_iff {cands : List Nat} (some : cands ≠ []) {wanted : Nat} :
    rp.sharersRank sharersAware cc cands = wanted ↔
      FirstLeast (rp.lowWord sharersAware cc) cands wanted := by
  constructor
  · intro isWanted
    rw [← isWanted]
    exact sharersRank_firstLeast some
  · exact fun isFirst => (sharersRank_firstLeast some).unique isFirst

/-! ## Scores that fit -/

def Given (rp : LRUReplPolicy) : Prop := ∀ id, rp.array id < rp.timestamp

theorem Given.update (given : Given rp) (fits : rp.timestamp + 1 < 2 ^ 64) (id : Nat) :
    Given (rp.update id) := by
  intro other
  have later : (rp.update id).timestamp = rp.timestamp + 1 := u64_of_lt fits
  have before := given other
  rw [later, update_array, Function.update_apply]
  split
  · exact Nat.lt_succ_self _
  · omega

theorem Given.replaced (given : Given rp) (id : Nat) : Given (rp.replaced id) := by
  intro other
  have before := given other
  rw [replaced_timestamp, replaced_array, Function.update_apply]
  split
  · omega
  · exact before

/-- The scores of the candidates are below 2^32, and what is valid was updated. -/
structure ScoresFit (sharersAware : Bool) (cc : CC) (rp : LRUReplPolicy) (cands : List Nat) : Prop where
  word : ∀ id ∈ cands, sharers sharersAware cc id * rp.timestamp + rp.array id < 2 ^ 32
  updated : ∀ id ∈ cands, cc.isValid id = true → rp.array id ≠ 0

theorem sharers_of_invalid {id : Nat} (invalid : cc.isValid id = false) : sharers sharersAware cc id = 0 := by
  have none : cc.numSharers id = 0 := by
    by_contra some
    have valid := cc.sharersValid id (Nat.pos_of_ne_zero some)
    rw [invalid] at valid
    cases valid
  rw [sharers, none, ite_self]

theorem mul_add_lt_iff {s t a b base : Nat} (aLt : a < base) (bLt : b < base) :
    s * base + a < t * base + b ↔ s < t ∨ (s = t ∧ a < b) := by
  rcases Nat.lt_trichotomy s t with less | same | more
  · have step : (s + 1) * base ≤ t * base := Nat.mul_le_mul_right base less
    rw [Nat.succ_mul] at step
    omega
  · subst same
    omega
  · have step : (t + 1) * base ≤ s * base := Nat.mul_le_mul_right base more
    rw [Nat.succ_mul] at step
    omega

theorem ScoresFit.lowWord {cands : List Nat} (fit : ScoresFit sharersAware cc rp cands) {id : Nat}
    (isCand : id ∈ cands) : rp.lowWord sharersAware cc id =
      sharers sharersAware cc id * rp.timestamp + rp.lastUpdate cc id := by
  have word := fit.word id isCand
  have masked : rp.array id * (cc.isValid id).toNat = rp.lastUpdate cc id := by
    unfold lastUpdate
    cases cc.isValid id <;> simp
  have le : rp.lastUpdate cc id ≤ rp.array id := by
    unfold lastUpdate
    split
    · exact Nat.le_refl _
    · exact Nat.zero_le _
  rw [LRUReplPolicy.lowWord, sharersScore, u32_u64, masked]
  exact u32_of_lt (by omega)

theorem ScoresFit.lt_iff {cands : List Nat} (fit : ScoresFit sharersAware cc rp cands)
    (given : Given rp) {x y : Nat} (isX : x ∈ cands) (isY : y ∈ cands) :
    victimKey sharersAware cc (rp.lastUpdate cc) x < victimKey sharersAware cc (rp.lastUpdate cc) y ↔
      rp.lowWord sharersAware cc x < rp.lowWord sharersAware cc y := by
  have lt : ∀ id, rp.lastUpdate cc id < rp.timestamp := fun id => by
    have before := given id
    unfold lastUpdate
    split <;> omega
  rw [fit.lowWord isX, fit.lowWord isY, mul_add_lt_iff (lt x) (lt y)]
  unfold victimKey
  rw [Prod.Lex.toLex_lt_toLex, Prod.Lex.toLex_lt_toLex]
  cases validX : cc.isValid x with
  | false =>
      have noneX : sharers sharersAware cc x = 0 := sharers_of_invalid validX
      have zeroX : rp.lastUpdate cc x = 0 := by simp [lastUpdate, validX]
      cases validY : cc.isValid y with
      | false =>
          have noneY : sharers sharersAware cc y = 0 := sharers_of_invalid validY
          have zeroY : rp.lastUpdate cc y = 0 := by simp [lastUpdate, validY]
          simp [noneX, zeroX, noneY, zeroY]
      | true =>
          have updated := fit.updated y isY validY
          have isUpdate : rp.lastUpdate cc y = rp.array y := by simp [lastUpdate, validY]
          simp only [noneX, zeroX, isUpdate, Bool.false_lt_true, true_or, true_iff]
          omega
  | true =>
      cases validY : cc.isValid y with
      | false =>
          have noneY : sharers sharersAware cc y = 0 := sharers_of_invalid validY
          have zeroY : rp.lastUpdate cc y = 0 := by simp [lastUpdate, validY]
          simp [noneY, zeroY]
      | true => simp

theorem ScoresFit.firstLeast {cands : List Nat} (fit : ScoresFit sharersAware cc rp cands)
    (given : Given rp) {first : Nat}
    (isFirst : FirstLeast (victimKey sharersAware cc (rp.lastUpdate cc)) cands first) :
    FirstLeast (rp.lowWord sharersAware cc) cands first :=
  isFirst.congr fun _ isX _ isY => fit.lt_iff given isX isY

end LRUReplPolicy

/-! ## Runs -/

inductive LRUOp where
  | update (id : Nat)
  | replaced (id : Nat)
  deriving DecidableEq, Repr

namespace LRUReplPolicy

def step (rp : LRUReplPolicy) : LRUOp → LRUReplPolicy
  | .update id => rp.update id
  | .replaced id => rp.replaced id

/-- The timestamp does not wrap. -/
def legal (rp : LRUReplPolicy) : LRUOp → Prop
  | .update _ => rp.timestamp + 1 < 2 ^ 64
  | .replaced _ => True

end LRUReplPolicy

def lruMachine : Machine LRUReplPolicy LRUOp := ⟨LRUReplPolicy.legal, fun rp op => some (rp.step op)⟩

instance decidableLruLegal (rp : LRUReplPolicy) : ∀ op, Decidable (lruMachine.legal rp op)
  | .update _ => inferInstanceAs (Decidable (rp.timestamp + 1 < 2 ^ 64))
  | .replaced _ => .isTrue trivial

namespace LRUReplPolicy

theorem given_preserves : lruMachine.Preserves Given := by
  intro rp op given legal
  cases op with
  | update id => exact ⟨_, rfl, given.update legal id⟩
  | replaced id => exact ⟨_, rfl, given.replaced id⟩

/-- In every reachable state the victim is the first in the lexicographic order if the scores fit into
a word.  It is exactly if the low words of the scores lead to that candidate, whether or not the last
update of a line counts that is not valid. -/
theorem lru_victim_iff (sharersAware : Bool) {ops : List LRUOp} (legal : lruMachine.LegalRun ops init)
    (cc : CC) {cands : List Nat} (some : cands ≠ []) :
    ∃ rp, lruMachine.exec ops init = .some rp ∧
      (ScoresFit sharersAware cc rp cands → FirstLeast (victimKey sharersAware cc (rp.lastUpdate cc)) cands
        (rp.sharersRank sharersAware cc cands)) ∧
      (∀ recency, recency = rp.lastUpdate cc ∨ recency = rp.array →
        (FirstLeast (victimKey sharersAware cc recency) cands (rp.sharersRank sharersAware cc cands) ↔
          ∀ first, FirstLeast (victimKey sharersAware cc recency) cands first →
            FirstLeast (rp.lowWord sharersAware cc) cands first)) := by
  obtain ⟨rp, run, given⟩ := given_preserves.exec (show Given init from fun _ => Nat.one_pos) legal
  have iff : ∀ recency, FirstLeast (victimKey sharersAware cc recency) cands
      (rp.sharersRank sharersAware cc cands) ↔
        ∀ first, FirstLeast (victimKey sharersAware cc recency) cands first →
          FirstLeast (rp.lowWord sharersAware cc) cands first := by
    intro recency
    constructor
    · intro isVictim first isFirst
      rw [← sharersRank_iff some]
      exact isVictim.unique isFirst
    · intro lead
      obtain ⟨first, isFirst⟩ := FirstLeast.exists_of_ne_nil (victimKey sharersAware cc recency) some
      rw [(sharersRank_iff some).mpr (lead first isFirst)]
      exact isFirst
  exact ⟨rp, run, fun fit => (iff _).mpr fun first isFirst => fit.firstLeast given isFirst,
    fun recency _ => iff recency⟩

theorem lru_victim_iff_twoWays :
    ∃ rp, lruMachine.exec [.update 0, .update 1, .update 0, .replaced 1, .update 1] init = some rp ∧
      FirstLeast (victimKey true .allValid (rp.lastUpdate .allValid)) [0, 1]
        (rp.sharersRank true .allValid [0, 1]) := by
  obtain ⟨rp, run, fits, -⟩ := lru_victim_iff true
    (show lruMachine.LegalRun [.update 0, .update 1, .update 0, .replaced 1, .update 1] init by
      decide +kernel)
    .allValid (List.cons_ne_nil 0 [1])
  refine ⟨rp, run, fits ?_⟩
  cases Option.some.inj run
  exact ⟨by decide, by decide⟩

/-! ## A timestamp of 33 bits -/

theorem updates_of_one (n id : Nat) (rp : LRUReplPolicy) (fits : rp.timestamp + n < 2 ^ 64) :
    lruMachine.LegalRun (List.replicate n (.update id)) rp ∧
      ∃ next, lruMachine.exec (List.replicate n (.update id)) rp = some next ∧
        next.timestamp = rp.timestamp + n ∧ (∀ other, other ≠ id → next.array other = rp.array other) ∧
        (0 < n → next.array id = rp.timestamp + (n - 1)) := by
  induction n generalizing rp with
  | zero =>
      exact ⟨trivial, rp, rfl, rfl, fun _ _ => rfl, fun pos => absurd pos (Nat.lt_irrefl 0)⟩
  | succ n ih =>
      have later : (rp.update id).timestamp = rp.timestamp + 1 := u64_of_lt (by omega)
      obtain ⟨legal, next, run, time, others, own⟩ := ih (rp.update id) (by omega)
      refine ⟨⟨show rp.timestamp + 1 < 2 ^ 64 by omega, fun mid step => ?_⟩, next, run, by omega,
        fun other apart => ?_, fun _ => ?_⟩
      · cases Option.some.inj step
        exact legal
      · rw [others other apart, update_array, Function.update_of_ne apart]
      · cases n with
        | zero =>
            cases Option.some.inj run
            rw [update_array, Function.update_self]
            rfl
        | succ n =>
            rw [own (Nat.succ_pos n), later]
            omega

/-- The older of two lines survives the one whose last access was the 2^32nd. -/
theorem lru_victim_truncated :
    ¬ ∀ (sharersAware : Bool) (ops : List LRUOp) (cc : CC) (cands : List Nat) (rp : LRUReplPolicy),
      lruMachine.LegalRun ops init → lruMachine.exec ops init = some rp → cands ≠ [] →
      FirstLeast (victimKey sharersAware cc (rp.lastUpdate cc)) cands
        (rp.sharersRank sharersAware cc cands) := by
  intro claim
  obtain ⟨legalOld, old, runOld, time, -, own⟩ := updates_of_one (2 ^ 32 - 1) 1 init (by decide)
  have time : old.timestamp = 2 ^ 32 := time
  have own : old.array 1 = 2 ^ 32 - 1 := own (by decide)
  have legal : lruMachine.LegalRun (List.replicate (2 ^ 32 - 1) (.update 1) ++ [.update 0]) init := by
    refine Machine.Along.append legalOld fun mid run => ⟨?_, fun _ _ => trivial⟩
    cases Option.some.inj (runOld.symm.trans run)
    change old.timestamp + 1 < 2 ^ 64
    omega
  have run : lruMachine.exec (List.replicate (2 ^ 32 - 1) (.update 1) ++ [.update 0]) init =
      some (old.update 0) := by
    rw [Machine.exec_concat, runOld]
    rfl
  have array : (old.update 0).array 0 = 2 ^ 32 ∧ (old.update 0).array 1 = 2 ^ 32 - 1 := by
    rw [update_array, Function.update_self, Function.update_of_ne Nat.one_ne_zero]
    exact ⟨time, own⟩
  have isVictim := claim false _ .allValid [0, 1] (old.update 0) legal run (List.cons_ne_nil 0 [1])
  have isRank : (old.update 0).sharersRank false .allValid [0, 1] = 0 := by
    rw [sharersRank_iff (List.cons_ne_nil 0 [1])]
    have low : (old.update 0).lowWord false .allValid 0 = 0 := by
      have valid : (CC.allValid.isValid 0).toNat = 1 := rfl
      rw [lowWord, sharersScore, array.1, u32_u64, sharers, if_neg Bool.false_ne_true, Nat.zero_mul,
        valid, Nat.zero_add, Nat.mul_one]
      exact Nat.mod_self _
    refine ⟨[], [1], rfl, fun _ none => absurd none List.not_mem_nil, fun id _ => ?_⟩
    rw [low]
    exact Nat.zero_le _
  rw [isRank] at isVictim
  have le := isVictim.least.2 1 (List.mem_cons_of_mem 0 List.mem_cons_self)
  have recency : ∀ id, (old.update 0).lastUpdate .allValid id = (old.update 0).array id := fun _ => rfl
  have valid : CC.allValid.isValid 0 = CC.allValid.isValid 1 := rfl
  unfold victimKey at le
  rw [Prod.Lex.toLex_le_toLex, Prod.Lex.toLex_le_toLex, recency, recency, array.1, array.2] at le
  rcases le with less | ⟨-, less | ⟨-, le⟩⟩
  · exact absurd less (lt_irrefl _)
  · exact absurd less (lt_irrefl _)
  · omega

end LRUReplPolicy

end Zsim
