import Mathlib.Data.List.Range
import Zsim.Repl.LRUVictims

/-!
# Tree LRU

`TreeLRUReplPolicy` of repl_policies.h, with a power of two of candidates.  It has methods that
record the candidates and descend a tree over them, but nothing calls these: `rankCands` is that
of `LRUReplPolicy<true>`.
-/

set_option autoImplicit false

namespace Zsim

open Repl (CC)

structure TreeLRUReplPolicy where
  lru : LRUReplPolicy
  candArray : Nat → Nat
  candIdx : Nat

def mostRecent (array : Nat → Nat) (ids : List Nat) : Nat := ids.foldl (fun t id => max t (array id)) 0

/-- The descent over a list of `2 ^ height` candidates, always into the half whose most recent
update is older. -/
def treeVictim (array : Nat → Nat) : Nat → List Nat → Nat
  | 0, cands => cands.headD 0
  | height + 1, cands =>
    let left := cands.take (2 ^ height)
    let right := cands.drop (2 ^ height)
    if mostRecent array right < mostRecent array left then treeVictim array height right
    else treeVictim array height left

namespace TreeLRUReplPolicy

def init : TreeLRUReplPolicy := ⟨.init, fun _ => 0, 0⟩

def update (id : Nat) (t : TreeLRUReplPolicy) : TreeLRUReplPolicy := { t with lru := t.lru.update id }

def replaced (id : Nat) (t : TreeLRUReplPolicy) : TreeLRUReplPolicy :=
  { t with candIdx := 0, lru := t.lru.replaced id }

/-- The method that is inherited. -/
def rank (cc : CC) (cands : List Nat) (t : TreeLRUReplPolicy) : Nat := t.lru.sharersRank true cc cands

/-! ## The methods that are not called -/

/-- `none` is a write past the end of `candArray`. -/
def recordCandidate (numCands id : Nat) (t : TreeLRUReplPolicy) : Option TreeLRUReplPolicy :=
  if t.candIdx < numCands then
    some { t with candArray := Function.update t.candArray t.candIdx id, candIdx := t.candIdx + 1 }
  else none

/-- The loop of `getBestCandidate` from `start` to `stop`, which it halves. -/
def descend (array candArray : Nat → Nat) : Nat → Nat → Nat → Nat
  | 0, start, _ => start
  | fuel + 1, start, stop =>
    if 1 < stop - start then
      let pivot := start + (stop - start) / 2
      let t1 := mostRecent array ((List.range' start (pivot - start)).map candArray)
      let t2 := mostRecent array ((List.range' pivot (stop - pivot)).map candArray)
      if t2 < t1 then descend array candArray fuel pivot stop
      else descend array candArray fuel start pivot
    else start

def getBestCandidate (numCands : Nat) (t : TreeLRUReplPolicy) : Option Nat :=
  if t.candIdx = numCands then
    some (t.candArray (descend t.lru.array t.candArray numCands 0 numCands))
  else none

theorem descend_eq (array candArray : Nat → Nat) {height fuel : Nat} (enough : height ≤ fuel) (start : Nat) :
    candArray (descend array candArray fuel start (start + 2 ^ height)) =
      treeVictim array height ((List.range' start (2 ^ height)).map candArray) := by
  induction height generalizing fuel start with
  | zero =>
      have single : ¬ 1 < start + 2 ^ 0 - start := by omega
      cases fuel with
      | zero => rfl
      | succ fuel =>
          rw [descend, if_neg single]
          rfl
  | succ height ih =>
      obtain ⟨fuel, rfl⟩ : ∃ f, fuel = f + 1 := ⟨fuel - 1, by omega⟩
      have pos : 0 < 2 ^ height := Nat.two_pow_pos height
      have double : 2 ^ (height + 1) = 2 ^ height + 2 ^ height := by rw [Nat.pow_succ, Nat.mul_two]
      have several : 1 < start + 2 ^ (height + 1) - start := by omega
      have half : (start + 2 ^ (height + 1) - start) / 2 = 2 ^ height := by omega
      have left : start + 2 ^ height - start = 2 ^ height := by omega
      have right : start + 2 ^ (height + 1) - (start + 2 ^ height) = 2 ^ height := by omega
      have isTake : (List.range' start (2 ^ (height + 1))).take (2 ^ height) =
          List.range' start (2 ^ height) := by
        rw [double, ← List.range'_append_1]
        exact List.take_left' (List.length_range' ..)
      have isDrop : (List.range' start (2 ^ (height + 1))).drop (2 ^ height) =
          List.range' (start + 2 ^ height) (2 ^ height) := by
        rw [double, ← List.range'_append_1]
        exact List.drop_left' (List.length_range' ..)
      rw [descend, if_pos several, treeVictim]
      dsimp only
      rw [half, left, right, ← List.map_take, ← List.map_drop, isTake, isDrop]
      have back : start + 2 ^ (height + 1) = start + 2 ^ height + 2 ^ height := by omega
      split
      · rw [back]
        exact ih (by omega) (start + 2 ^ height)
      · exact ih (by omega) start

structure Recorded (t : TreeLRUReplPolicy) (seen : List Nat) (t' : TreeLRUReplPolicy) : Prop where
  lru : t'.lru = t.lru
  count : t'.candIdx = seen.length
  cands : ∀ i (lt : i < seen.length), t'.candArray i = seen[i]

theorem Recorded.record {t t' : TreeLRUReplPolicy} {seen : List Nat} (recorded : Recorded t seen t')
    {numCands : Nat} (room : seen.length < numCands) (id : Nat) :
    ∃ next, recordCandidate numCands id t' = some next ∧ Recorded t (seen ++ [id]) next := by
  have count := recorded.count
  refine ⟨_, if_pos (by omega), recorded.lru, by simp [count], fun i lt => ?_⟩
  rw [List.length_append, List.length_singleton] at lt
  dsimp only
  by_cases last : i = seen.length
  · subst last
    rw [count, Function.update_self, List.getElem_concat_length rfl]
  · have lt : i < seen.length := by omega
    rw [Function.update_of_ne (by omega), recorded.cands i lt, List.getElem_append_left lt]

theorem foldlM_recordCandidate {numCands : Nat} {cands : List Nat} {t : TreeLRUReplPolicy}
    (none : t.candIdx = 0) (room : cands.length ≤ numCands) :
    ∃ t', cands.foldlM (fun t id => recordCandidate numCands id t) t = some t' ∧ Recorded t cands t' := by
  apply foldlM_prefix (Recorded t)
  · exact ⟨rfl, none, fun i lt => absurd lt (Nat.not_lt_zero i)⟩
  · intro seen id mid isPrefix recorded
    have le := isPrefix.length_le
    rw [List.length_append, List.length_singleton] at le
    exact recorded.record (by omega) id

/-- The methods of the class would find the line of the descent. -/
theorem getBestCandidate_recorded {height : Nat} {cands : List Nat} (length : cands.length = 2 ^ height)
    {t : TreeLRUReplPolicy} (none : t.candIdx = 0) :
    (cands.foldlM (fun t id => recordCandidate (2 ^ height) id t) t).bind (getBestCandidate (2 ^ height)) =
      some (treeVictim t.lru.array height cands) := by
  obtain ⟨t', run, recorded⟩ := foldlM_recordCandidate none (Nat.le_of_eq length)
  have full : t'.candIdx = 2 ^ height := recorded.count.trans length
  have inOrder : (List.range' 0 (2 ^ height)).map t'.candArray = cands := by
    apply List.ext_getElem
    · rw [List.length_map, List.length_range', length]
    · intro i _ lt
      rw [List.getElem_map, List.getElem_range', Nat.one_mul, Nat.zero_add]
      exact recorded.cands i lt
  have descent := descend_eq t.lru.array t'.candArray (Nat.le_of_lt (Nat.lt_two_pow_self (n := height))) 0
  rw [Nat.zero_add, inOrder] at descent
  rw [run, Option.bind_some, getBestCandidate, if_pos full, recorded.lru, descent]

/-! ## Runs -/

/-- A search does not change the state. -/
def step (t : TreeLRUReplPolicy) : LRUOp → TreeLRUReplPolicy
  | .update id => t.update id
  | .replaced id => t.replaced id

def run (ops : List LRUOp) : TreeLRUReplPolicy := ops.foldl step init

theorem run_candIdx (ops : List LRUOp) : (run ops).candIdx = 0 := by
  have steps : ∀ t : TreeLRUReplPolicy, t.candIdx = 0 → (ops.foldl step t).candIdx = 0 := by
    induction ops with
    | nil => exact fun _ none => none
    | cons op rest ih =>
        intro t none
        rw [List.foldl_cons]
        apply ih
        cases op with
        | update id => exact none
        | replaced id => rfl
  exact steps init rfl

/-! ## The older halves -/

/-- A candidate is in the half whose most recent update is older, and so on within that half. -/
def InOlderHalves (array : Nat → Nat) (id : Nat) : Nat → List Nat → Prop
  | 0, cands => id ∈ cands
  | height + 1, cands =>
    let left := cands.take (2 ^ height)
    let right := cands.drop (2 ^ height)
    (mostRecent array left ≤ mostRecent array right ∧ InOlderHalves array id height left) ∨
      (mostRecent array right < mostRecent array left ∧ InOlderHalves array id height right)

instance decidableInOlderHalves (array : Nat → Nat) (id : Nat) :
    ∀ height cands, Decidable (InOlderHalves array id height cands)
  | 0, cands => inferInstanceAs (Decidable (id ∈ cands))
  | height + 1, cands =>
    have := decidableInOlderHalves array id height (cands.take (2 ^ height))
    have := decidableInOlderHalves array id height (cands.drop (2 ^ height))
    inferInstanceAs (Decidable ((_ ∧ _) ∨ (_ ∧ _)))

theorem treeVictim_eq_iff {array : Nat → Nat} {id height : Nat} {cands : List Nat}
    (length : cands.length = 2 ^ height) :
    treeVictim array height cands = id ↔ InOlderHalves array id height cands := by
  induction height generalizing cands with
  | zero =>
      obtain ⟨only, rfl⟩ := List.length_eq_one_iff.mp length
      rw [treeVictim, InOlderHalves, List.headD_cons, List.mem_singleton, eq_comm]
  | succ height ih =>
      have double : 2 ^ (height + 1) = 2 ^ height + 2 ^ height := by rw [Nat.pow_succ, Nat.mul_two]
      have left : (cands.take (2 ^ height)).length = 2 ^ height := by
        rw [List.length_take]
        omega
      have right : (cands.drop (2 ^ height)).length = 2 ^ height := by
        rw [List.length_drop]
        omega
      rw [treeVictim, InOlderHalves]
      by_cases older : mostRecent array (cands.drop (2 ^ height)) < mostRecent array (cands.take (2 ^ height))
      · rw [if_pos older, ih right]
        constructor
        · exact fun inRight => .inr ⟨older, inRight⟩
        · rintro (⟨le, -⟩ | ⟨-, inRight⟩)
          · exact absurd older (Nat.not_lt.mpr le)
          · exact inRight
      · rw [if_neg older, ih left]
        constructor
        · exact fun inLeft => .inl ⟨Nat.not_lt.mp older, inLeft⟩
        · rintro (⟨-, inLeft⟩ | ⟨lt, -⟩)
          · exact inLeft
          · exact absurd lt older

/-- At every node of the descent the half whose most recent update is older holds the candidate
that comes first by `key`. -/
def OldestInOlderHalves {β : Type*} [LinearOrder β] (array : Nat → Nat) (key : Nat → β) (height : Nat)
    (cands : List Nat) : Prop :=
  ∃ first, FirstLeast key cands first ∧ InOlderHalves array first height cands

theorem OldestInOlderHalves.congr {β γ : Type*} [LinearOrder β] [LinearOrder γ] {array : Nat → Nat}
    {key : Nat → β} {key' : Nat → γ} {height : Nat} {cands : List Nat}
    (same : ∀ x ∈ cands, ∀ y ∈ cands, key x < key y ↔ key' x < key' y) :
    OldestInOlderHalves array key height cands ↔ OldestInOlderHalves array key' height cands := by
  constructor
  · rintro ⟨first, isFirst, inHalves⟩
    exact ⟨first, isFirst.congr same, inHalves⟩
  · rintro ⟨first, isFirst, inHalves⟩
    exact ⟨first, isFirst.congr fun x isX y isY => (same x isX y isY).symm, inHalves⟩

theorem oldestInOlderHalves_pair (array : Nat → Nat) {height : Nat} {cands : List Nat}
    (length : cands.length = 2 ^ height) (few : height ≤ 1) :
    OldestInOlderHalves array array height cands := by
  have heights : height = 0 ∨ height = 1 := by omega
  rcases heights with rfl | rfl
  · obtain ⟨only, rfl⟩ := List.length_eq_one_iff.mp length
    obtain ⟨first, isFirst⟩ := FirstLeast.exists_of_ne_nil array (List.cons_ne_nil only [])
    exact ⟨first, isFirst, isFirst.least.1⟩
  · obtain ⟨a, b, rfl⟩ := List.length_eq_two.mp length
    have isA : mostRecent array [a] = array a := Nat.zero_max _
    have isB : mostRecent array [b] = array b := Nat.zero_max _
    by_cases older : array b < array a
    · refine ⟨b, ⟨[a], [], rfl, by simpa using older, by simp⟩, .inr ⟨?_, List.mem_singleton_self b⟩⟩
      show mostRecent array [b] < mostRecent array [a]
      rw [isA, isB]
      exact older
    · have le := Nat.not_lt.mp older
      refine ⟨a, ⟨[], [b], rfl, by simp, by simpa using le⟩, .inl ⟨?_, List.mem_singleton_self a⟩⟩
      show mostRecent array [a] ≤ mostRecent array [b]
      rw [isA, isB]
      exact le

/-! ## The timestamps of a run -/

theorem run_given {ops : List LRUOp} (few : ops.length < 2 ^ 32) :
    (run ops).lru.Given ∧ (run ops).lru.timestamp ≤ ops.length + 1 := by
  have steps : ∀ t : TreeLRUReplPolicy, t.lru.Given → t.lru.timestamp + ops.length < 2 ^ 64 →
      (ops.foldl step t).lru.Given ∧
        (ops.foldl step t).lru.timestamp ≤ t.lru.timestamp + ops.length := by
    clear few
    induction ops with
    | nil => exact fun t given _ => ⟨given, Nat.le_refl _⟩
    | cons op rest ih =>
        intro t given fits
        rw [List.length_cons] at fits
        rw [List.foldl_cons, List.length_cons]
        cases op with
        | update id =>
            have later : (t.lru.update id).timestamp = t.lru.timestamp + 1 := u64_of_lt (by omega)
            obtain ⟨kept, le⟩ := ih (t.update id) (given.update (by omega) id)
              (by show (t.lru.update id).timestamp + _ < _; omega)
            refine ⟨kept, Nat.le_trans le ?_⟩
            show (t.lru.update id).timestamp + _ ≤ _
            omega
        | replaced id =>
            obtain ⟨kept, le⟩ := ih (t.replaced id) (given.replaced id)
              (by show t.lru.timestamp + _ < _; omega)
            refine ⟨kept, Nat.le_trans le ?_⟩
            show t.lru.timestamp + _ ≤ _
            omega
  obtain ⟨given, le⟩ := steps init (fun _ => Nat.one_pos) (by show 1 + _ < _; omega)
  refine ⟨given, Nat.le_trans le ?_⟩
  show 1 + _ ≤ _
  omega

def Plain (cc : CC) (cands : List Nat) : Prop :=
  ∀ id ∈ cands, cc.isValid id = true ∧ cc.numSharers id = 0

instance (cc : CC) (cands : List Nat) : Decidable (Plain cc cands) :=
  inferInstanceAs (Decidable (∀ id ∈ cands, _ ∧ _))

theorem Plain.lowWord {ops : List LRUOp} (few : ops.length < 2 ^ 32) {cc : CC} {cands : List Nat}
    (plain : Plain cc cands) {id : Nat} (isCand : id ∈ cands) :
    (run ops).lru.lowWord true cc id = (run ops).lru.array id := by
  obtain ⟨valid, none⟩ := plain id isCand
  obtain ⟨given, le⟩ := run_given few
  have lt := given id
  rw [LRUReplPolicy.lowWord, LRUReplPolicy.sharersScore, LRUReplPolicy.u32_u64, LRUReplPolicy.sharers,
    if_pos rfl, none, valid, Bool.toNat_true, Nat.zero_mul, Nat.zero_add, Nat.mul_one]
  exact u32_of_lt (by omega)

/-! ## When the victim is the line of the tree -/

theorem rank_eq_treeVictim_iff (ops : List LRUOp) (cc : CC) {height : Nat} {cands : List Nat}
    (length : cands.length = 2 ^ height) :
    (run ops).rank cc cands = treeVictim (run ops).lru.array height cands ↔
      OldestInOlderHalves (run ops).lru.array ((run ops).lru.lowWord true cc) height cands := by
  have some : cands ≠ [] := fun none => by
    rw [none] at length
    exact absurd length.symm (Nat.ne_of_gt (Nat.two_pow_pos height))
  have isFirst : FirstLeast ((run ops).lru.lowWord true cc) cands ((run ops).rank cc cands) :=
    LRUReplPolicy.sharersRank_firstLeast some
  constructor
  · intro same
    exact ⟨_, isFirst, (treeVictim_eq_iff length).mp same.symm⟩
  · rintro ⟨first, isFirst', inHalves⟩
    rw [(treeVictim_eq_iff length).mpr inHalves]
    exact isFirst.unique isFirst'

/-- In every run nothing is recorded.  The victim is the line of the descent exactly if at every node
the half whose most recent update is older holds the candidate that LRU puts first.  That is the least
recently updated one where all are valid and without sharers (for two candidates it always is the
line of the descent), the first in the order of the victims as long as the scores fit into a word,
and in any case the first whose score has the least low word. -/
theorem tree_victim_iff (ops : List LRUOp) (cc : CC) {height : Nat} {cands : List Nat}
    (length : cands.length = 2 ^ height) :
    (run ops).candIdx = 0 ∧
      (ops.length < 2 ^ 32 → Plain cc cands →
        ((run ops).rank cc cands = treeVictim (run ops).lru.array height cands ↔
          OldestInOlderHalves (run ops).lru.array (run ops).lru.array height cands) ∧
        (height ≤ 1 → (run ops).rank cc cands = treeVictim (run ops).lru.array height cands)) ∧
      (ops.length < 2 ^ 32 → (run ops).lru.ScoresFit true cc cands →
        ((run ops).rank cc cands = treeVictim (run ops).lru.array height cands ↔
          OldestInOlderHalves (run ops).lru.array
            (LRUReplPolicy.victimKey true cc ((run ops).lru.lastUpdate cc)) height cands)) ∧
      ((run ops).rank cc cands = treeVictim (run ops).lru.array height cands ↔
        OldestInOlderHalves (run ops).lru.array ((run ops).lru.lowWord true cc) height cands) ∧
      (cands.foldlM (fun t id => recordCandidate (2 ^ height) id t) (run ops)).bind
        (getBestCandidate (2 ^ height)) = some (treeVictim (run ops).lru.array height cands) := by
  have iff := rank_eq_treeVictim_iff ops cc length
  refine ⟨run_candIdx ops, fun few plain => ?_, fun few fit => ?_, iff,
    getBestCandidate_recorded length (run_candIdx ops)⟩
  · have byUpdate : OldestInOlderHalves (run ops).lru.array ((run ops).lru.lowWord true cc) height cands ↔
        OldestInOlderHalves (run ops).lru.array (run ops).lru.array height cands :=
      OldestInOlderHalves.congr fun x isX y isY => by
        rw [plain.lowWord few isX, plain.lowWord few isY]
    rw [iff, byUpdate]
    exact ⟨Iff.rfl, oldestInOlderHalves_pair _ length⟩
  · rw [iff]
    exact OldestInOlderHalves.congr fun x isX y isY => (fit.lt_iff (run_given few).1 isX isY).symm

/-- Four lines in the order of their updates, and the oldest beside the newest. -/
theorem tree_victim_iff_four :
    (run [.update 0, .update 1, .update 2, .update 3]).rank .allValid [0, 1, 2, 3] =
        treeVictim (run [.update 0, .update 1, .update 2, .update 3]).lru.array 2 [0, 1, 2, 3] ∧
      (run [.update 0, .update 2, .update 3, .update 1]).rank .allValid [0, 1, 2, 3] ≠
        treeVictim (run [.update 0, .update 2, .update 3, .update 1]).lru.array 2 [0, 1, 2, 3] := by
  have plain : Plain .allValid [0, 1, 2, 3] := by decide
  have isFirst : ∀ ops : List LRUOp, (run ops).lru.array 0 = 1 → 1 ≤ (run ops).lru.array 1 →
      1 ≤ (run ops).lru.array 2 → 1 ≤ (run ops).lru.array 3 →
      FirstLeast (run ops).lru.array [0, 1, 2, 3] 0 := by
    intro ops zero one two three
    refine ⟨[], [1, 2, 3], rfl, by simp, ?_⟩
    simp [zero, one, two, three]
  constructor
  · obtain ⟨-, byUpdate, -⟩ := tree_victim_iff [.update 0, .update 1, .update 2, .update 3] .allValid
      (show [0, 1, 2, 3].length = 2 ^ 2 from rfl)
    refine (byUpdate (by decide) plain).1.mpr ⟨0, isFirst _ ?_ ?_ ?_ ?_, ?_⟩ <;> decide
  · obtain ⟨-, byUpdate, -⟩ := tree_victim_iff [.update 0, .update 2, .update 3, .update 1] .allValid
      (show [0, 1, 2, 3].length = 2 ^ 2 from rfl)
    rw [ne_eq, (byUpdate (by decide) plain).1]
    rintro ⟨first, isOldest, inHalves⟩
    cases isOldest.unique (isFirst _ (by decide) (by decide) (by decide) (by decide))
    exact absurd inHalves (by decide)

/-- The oldest of four lines is the first, but it is next to the newest. -/
theorem tree_not_descended :
    ¬ ∀ (ops : List LRUOp) (cc : CC) (height : Nat) (cands : List Nat), cands.length = 2 ^ height →
      (run ops).rank cc cands = treeVictim (run ops).lru.array height cands := by
  intro claim
  have same := claim [.update 0, .update 2, .update 3, .update 1] .allValid 2 [0, 1, 2, 3] rfl
  exact absurd same (by decide +kernel)

end TreeLRUReplPolicy

end Zsim
