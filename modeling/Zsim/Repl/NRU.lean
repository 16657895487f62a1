import Zsim.Lib.Count
import Zsim.Lib.Least
import Zsim.Repl.Legacy

/-!
# Not recently used

`NRUReplPolicy` of repl_policies.h.  A line is young if bit 1 of its value is set.  The counter of
young lines follows the updates and the shifts, but not the values that `replaced` clears.
-/

set_option autoImplicit false

namespace Zsim.Repl

structure NRUConfig where
  numLines : Nat
  numCands : Nat
  linesWord : numLines < 2 ^ 32

structure NRUReplPolicy where
  array : Nat → Nat
  youngLines : Nat
  candVal : Nat
  candIdx : Nat
  candArray : Nat → Nat

def Young (value : Nat) : Prop := value &&& 2 ≠ 0

instance : DecidablePred Young := fun value => inferInstanceAs (Decidable (value &&& 2 ≠ 0))

namespace NRUReplPolicy

variable (c : NRUConfig)

def init : NRUReplPolicy := ⟨fun _ => 0, 0, 2 ^ 20, 0, fun _ => 0⟩

/-- The loop over all lines. -/
def shift (s : NRUReplPolicy) : NRUReplPolicy :=
  { s with array := fun i => if i < c.numLines then s.array i >>> 1 else s.array i, youngLines := 0 }

def update (id : Nat) (s : NRUReplPolicy) : NRUReplPolicy :=
  -- +0 if young, +1 if old
  let s := { s with
    youngLines := u32 (s.youngLines + u32Sub 1 (s.array id >>> 1))
    array := Function.update s.array id (s.array id ||| 2) }
  if c.numLines / 2 ≤ s.youngLines then s.shift c else s

/-- `none` is a write past the end of `candArray`. -/
def recordCandidate (id : Nat) (s : NRUReplPolicy) : Option NRUReplPolicy :=
  let iVal := s.array id
  if iVal < s.candVal then
    if 0 < c.numCands then
      some { s with candVal := iVal, candArray := Function.update s.candArray 0 id, candIdx := 1 }
    else none
  else if iVal = s.candVal then
    if s.candIdx < c.numCands then
      some { s with candArray := Function.update s.candArray s.candIdx id, candIdx := s.candIdx + 1 }
    else none
  else some s

/-- `youngLines` is used to sort of randomize. -/
def getBestCandidate (s : NRUReplPolicy) : Option (Nat × NRUReplPolicy) :=
  if 0 < s.candIdx then some (s.candArray (s.youngLines % s.candIdx), s) else none

def replaced (id : Nat) (s : NRUReplPolicy) : NRUReplPolicy :=
  { s with candVal := 2 ^ 20, candIdx := 0, array := Function.update s.array id 0 }

end NRUReplPolicy

abbrev nru (c : NRUConfig) : LegacyReplPolicy where
  State := NRUReplPolicy
  init := .init
  update := NRUReplPolicy.update c
  recordCandidate _ := NRUReplPolicy.recordCandidate c
  getBestCandidate := NRUReplPolicy.getBestCandidate
  replaced := NRUReplPolicy.replaced

namespace NRUReplPolicy

variable {c : NRUConfig} {s : NRUReplPolicy}

/-! ## The search -/

/-- What is recorded of the candidates seen so far. -/
structure Recorded (s : NRUReplPolicy) (seen : List Nat) : Prop where
  some : 0 < s.candIdx
  room : s.candIdx ≤ seen.length
  cands : ∀ i < s.candIdx, s.candArray i ∈ seen ∧ s.array (s.candArray i) = s.candVal
  least : ∀ id ∈ seen, s.candVal ≤ s.array id

/-- Nothing but what is recorded changes in a search. -/
structure SameValues (s s' : NRUReplPolicy) : Prop where
  array : s'.array = s.array
  youngLines : s'.youngLines = s.youngLines

theorem Recorded.record {seen : List Nat} (recorded : Recorded s seen) (id : Nat)
    (room : seen.length < c.numCands) : ∃ next, s.recordCandidate c id = .some next ∧
      Recorded next (seen ++ [id]) ∧ SameValues s next := by
  have cands := recorded.cands
  have count := recorded.room
  have least : s.candVal ≤ s.array id → ∀ x ∈ seen ++ [id], s.candVal ≤ s.array x := fun le =>
    List.forall_mem_append.mpr ⟨recorded.least, List.forall_mem_singleton.mpr le⟩
  unfold recordCandidate
  dsimp only
  split
  case isTrue less =>
    rw [if_pos (by omega)]
    refine ⟨_, rfl, ⟨Nat.one_pos, by simp, fun i lt => ?_, List.forall_mem_append.mpr ⟨fun x old => ?_,
      List.forall_mem_singleton.mpr (Nat.le_refl _)⟩⟩, rfl, rfl⟩
    · have isZero : i = 0 := by
        have lt : i < 1 := lt
        omega
      subst isZero
      dsimp only
      rw [Function.update_self]
      exact ⟨List.mem_append_right _ List.mem_cons_self, rfl⟩
    · exact Nat.le_trans (Nat.le_of_lt less) (recorded.least x old)
  case isFalse notLess =>
    split
    case isTrue same =>
      rw [if_pos (by omega)]
      refine ⟨_, rfl, ⟨Nat.succ_pos _, by simpa using count, fun i lt => ?_, least (Nat.not_lt.mp notLess)⟩,
        rfl, rfl⟩
      dsimp only
      by_cases last : i = s.candIdx
      · subst last
        rw [Function.update_self]
        exact ⟨List.mem_append_right _ List.mem_cons_self, same⟩
      · have lt : i < s.candIdx + 1 := lt
        rw [Function.update_of_ne last]
        obtain ⟨member, value⟩ := cands i (by omega)
        exact ⟨List.mem_append_left _ member, value⟩
    case isFalse =>
      refine ⟨s, rfl, ⟨recorded.some, by simp; omega, fun i lt => ?_, least (Nat.not_lt.mp notLess)⟩, rfl, rfl⟩
      obtain ⟨member, value⟩ := cands i lt
      exact ⟨List.mem_append_left _ member, value⟩

theorem Recorded.foldlM {first : Nat} (cc : CC) {rest : List Nat} (recorded : Recorded s [first])
    (room : rest.length < c.numCands) : ∃ next, (nru c).record cc rest s = .some next ∧
      Recorded next (first :: rest) ∧ SameValues s next := by
  apply foldlM_prefix fun seen next => Recorded next (first :: seen) ∧ SameValues s next
  · exact ⟨recorded, rfl, rfl⟩
  · rintro seen id mid isPrefix ⟨recordedMid, same⟩
    have le := isPrefix.length_le
    rw [List.length_append, List.length_singleton] at le
    have roomMid : (first :: seen).length < c.numCands := by
      rw [List.length_cons]
      omega
    obtain ⟨next, step, recordedNext, sameNext⟩ := recordedMid.record id roomMid
    exact ⟨next, step, recordedNext, sameNext.array.trans same.array,
      sameNext.youngLines.trans same.youngLines⟩

/-- No search has left anything behind. -/
structure Ready (s : NRUReplPolicy) : Prop where
  candVal : s.candVal = 2 ^ 20
  candIdx : s.candIdx = 0

/-- The victim has the least value of the candidates. -/
theorem Ready.rank (ready : s.Ready) (values : ∀ id, s.array id ≤ 3) (cc : CC) {cands : List Nat}
    (some : cands ≠ []) (room : cands.length ≤ c.numCands) :
    ∃ victim next, (nru c).rank cc cands s = .some (victim, next) ∧ Least s.array cands victim ∧
      SameValues s next := by
  cases cands with
  | nil => exact absurd rfl some
  | cons id rest =>
      rw [List.length_cons] at room
      obtain ⟨first, isFirst⟩ : ∃ first : NRUReplPolicy, first = { s with
          candVal := s.array id, candArray := Function.update s.candArray 0 id, candIdx := 1 } := ⟨_, rfl⟩
      have step : (nru c).recordCandidate cc id s = .some first := by
        have below : s.array id < s.candVal := by
          have := values id
          have := ready.candVal
          omega
        change s.recordCandidate c id = _
        unfold recordCandidate
        dsimp only
        rw [if_pos below, if_pos (by omega), isFirst]
      have recorded : Recorded first [id] := by
        subst isFirst
        refine ⟨Nat.one_pos, Nat.le_refl _, fun i lt => ?_, fun x member => ?_⟩
        · have lt : i < 1 := lt
          have isZero : i = 0 := by omega
          subst isZero
          dsimp only
          rw [Function.update_self]
          exact ⟨List.mem_cons_self, rfl⟩
        · rw [List.mem_singleton.mp member]
      obtain ⟨final, run, recordedFinal, same⟩ := recorded.foldlM (c := c) cc (show rest.length < _ from room)
      have sameArray : final.array = s.array := by rw [same.array, isFirst]
      have sameYoung : final.youngLines = s.youngLines := by rw [same.youngLines, isFirst]
      obtain ⟨member, value⟩ := recordedFinal.cands _ (Nat.mod_lt final.youngLines recordedFinal.some)
      refine ⟨final.candArray (final.youngLines % final.candIdx), final, ?_, ⟨member, fun x isCand => ?_⟩,
        sameArray, sameYoung⟩
      · have best : (nru c).getBestCandidate final =
            .some (final.candArray (final.youngLines % final.candIdx), final) := if_pos recordedFinal.some
        have search : (nru c).record cc (id :: rest) s = .some final := by
          rw [LegacyReplPolicy.record_cons, step]
          exact run
        rw [LegacyReplPolicy.rank, search]
        exact best
      · rw [← sameArray, value]
        exact recordedFinal.least x isCand

theorem young_lor : ∀ value ≤ 3, Young (value ||| 2) ∧ value ||| 2 ≤ 3 := by decide

theorem not_young_shift : ∀ value ≤ 3, ¬ Young (value >>> 1) ∧ value >>> 1 ≤ 3 := by decide

theorem update_values (values : ∀ id, s.array id ≤ 3) (id : Nat) : ∀ other, (s.update c id).array other ≤ 3 := by
  have marked : ∀ other, Function.update s.array id (s.array id ||| 2) other ≤ 3 := by
    intro other
    rw [Function.update_apply]
    split
    · exact (young_lor _ (values id)).2
    · exact values other
  intro other
  unfold update shift
  dsimp only
  split
  · dsimp only
    split
    · exact (not_young_shift _ (marked other)).2
    · exact marked other
  · exact marked other

theorem replaced_values (values : ∀ id, s.array id ≤ 3) (id : Nat) :
    ∀ other, (s.replaced id).array other ≤ 3 := by
  intro other
  unfold replaced
  dsimp only
  rw [Function.update_apply]
  split
  · exact Nat.zero_le 3
  · exact values other

theorem Ready.update (ready : s.Ready) (id : Nat) : Ready (s.update c id) := by
  unfold NRUReplPolicy.update
  dsimp only
  split
  · exact ⟨ready.candVal, ready.candIdx⟩
  · exact ⟨ready.candVal, ready.candIdx⟩

/-- Every search of at most `numCands` candidates ends with one of them. -/
theorem keepsValues (c : NRUConfig) : (nru c).Keeps c.numLines (fun s => ∀ id, s.array id ≤ 3) Ready
    fun cands => cands.length ≤ c.numCands where
  init := ⟨fun _ => Nat.zero_le 3, ⟨rfl, rfl⟩⟩
  update _ values := update_values values _
  updateReady id ready := ready.update id
  rank cc values ready presented room := by
    obtain ⟨victim, next, run, least, same⟩ := ready.rank values cc presented.1 room
    exact ⟨victim, next, run, least.1, by rw [same.array]; exact values⟩
  replaced _ values := ⟨replaced_values values _, ⟨rfl, rfl⟩⟩

end NRUReplPolicy

end Zsim.Repl
