import Zsim.Repl.Legacy

/-!
# Random replacement

`RandReplPolicy` of repl_policies.h.  It asserts that as many candidates were recorded as the
array presents at most.
-/

set_option autoImplicit false

namespace Zsim.Repl

/-- The numbers that `randInt` draws, the first one first; they are at most its argument. -/
structure MTRand where
  randInt : Nat → Nat → Nat
  randInt_le : ∀ draw n, randInt draw n ≤ n

structure RandReplPolicy where
  candArray : Nat → Nat
  candIdx : Nat
  /-- the numbers that have been drawn -/
  draws : Nat

namespace RandReplPolicy

def init : RandReplPolicy := ⟨fun _ => 0, 0, 0⟩

/-- `none` is a write past the end of `candArray`. -/
def recordCandidate (numCands id : Nat) (s : RandReplPolicy) : Option RandReplPolicy :=
  if s.candIdx < numCands then
    some { s with candArray := Function.update s.candArray s.candIdx id, candIdx := s.candIdx + 1 }
  else none

def getBestCandidate (numCands : Nat) (rnd : MTRand) (s : RandReplPolicy) : Option (Nat × RandReplPolicy) :=
  if s.candIdx = numCands then
    some (s.candArray (rnd.randInt s.draws (numCands - 1)), { s with draws := s.draws + 1 })
  else none

def replaced (_ : Nat) (s : RandReplPolicy) : RandReplPolicy := { s with candIdx := 0 }

end RandReplPolicy

abbrev rand (numCands : Nat) (rnd : MTRand) : LegacyReplPolicy where
  State := RandReplPolicy
  init := .init
  update _ s := s
  recordCandidate _ := RandReplPolicy.recordCandidate numCands
  getBestCandidate := RandReplPolicy.getBestCandidate numCands rnd
  replaced := RandReplPolicy.replaced

namespace RandReplPolicy

variable {numCands : Nat} {rnd : MTRand} {s : RandReplPolicy}

def Ready (s : RandReplPolicy) : Prop := s.candIdx = 0

/-- The candidates seen so far are recorded. -/
structure Recorded (s : RandReplPolicy) (seen : List Nat) : Prop where
  count : s.candIdx = seen.length
  cands : ∀ i < seen.length, s.candArray i ∈ seen

theorem Recorded.record {seen : List Nat} (recorded : Recorded s seen) (id : Nat)
    (room : seen.length < numCands) : ∃ next, s.recordCandidate numCands id = some next ∧
      Recorded next (seen ++ [id]) := by
  have count := recorded.count
  refine ⟨_, if_pos (by omega), by simp [count], fun i lt => ?_⟩
  rw [List.length_append, List.length_singleton] at lt
  dsimp only
  by_cases last : i = s.candIdx
  · rw [last, Function.update_self]
    exact List.mem_append_right _ List.mem_cons_self
  · rw [Function.update_of_ne last]
    exact List.mem_append_left _ (recorded.cands i (by omega))

theorem Ready.record (ready : s.Ready) (rnd : MTRand) (cc : CC) {cands : List Nat}
    (room : cands.length ≤ numCands) :
    ∃ next, (rand numCands rnd).record cc cands s = some next ∧ Recorded next cands := by
  apply foldlM_prefix fun seen next => Recorded next seen
  · exact ⟨ready, fun i lt => absurd lt (Nat.not_lt_zero i)⟩
  · intro seen id mid isPrefix recorded
    have le := isPrefix.length_le
    rw [List.length_append, List.length_singleton] at le
    exact recorded.record id (by omega)

/-- A search passes exactly if there are `numCands` candidates. -/
theorem Ready.rank (ready : s.Ready) (cc : CC) {cands : List Nat} (some' : cands ≠ [])
    (room : cands.length ≤ numCands) :
    (cands.length = numCands → ∃ victim next,
        (rand numCands rnd).rank cc cands s = some (victim, next) ∧ victim ∈ cands) ∧
      (cands.length ≠ numCands → (rand numCands rnd).rank cc cands s = none) := by
  obtain ⟨next, run, recorded⟩ := ready.record rnd cc room
  have count := recorded.count
  rw [LegacyReplPolicy.rank, run, Option.bind_some]
  constructor
  · intro full
    have pos : 0 < cands.length := List.length_pos_iff.mpr some'
    have drawn := rnd.randInt_le next.draws (numCands - 1)
    have isCand := recorded.cands (rnd.randInt next.draws (numCands - 1)) (by omega)
    exact ⟨_, _, if_pos (count.trans full), isCand⟩
  · intro notFull
    exact if_neg (by rw [count]; exact notFull)

theorem keeps {numLines : Nat} : (rand numCands rnd).Keeps numLines (fun _ => True) Ready
    fun cands => cands.length = numCands where
  init := ⟨trivial, rfl⟩
  update _ _ := trivial
  updateReady _ ready := ready
  rank cc _ ready presented full := by
    obtain ⟨victim, next, run, member⟩ := (ready.rank cc presented.1 (Nat.le_of_eq full)).1 full
    exact ⟨victim, next, run, member, trivial⟩
  replaced _ _ := ⟨trivial, rfl⟩

end RandReplPolicy

end Zsim.Repl
