import Zsim.Lib.Machine
import Zsim.Lib.PriorityQueue
import Zsim.PrioQueue.Operations

/-!
# Runs of the priority queue

Any sequence of `enqueue` and `dequeue`.  An element that is enqueued is not in
the queue and not linked, its cycle is a `uint64_t` and its block is not before
the current one; `dequeue` is called on a queue that is not empty.  `fuel` bounds
the iterations of the loop in `dequeue`.
-/

set_option autoImplicit false

namespace Zsim.PrioQueue

open PriorityQueue

variable {T : Type} [DecidableEq T]

inductive Op (T : Type) where
  | enqueue (obj : T) (cycle : Nat)
  | dequeue

structure Run (T : Type) where
  pq : PrioQueue T
  history : List (Entry Nat T)

def Run.start (next : T → Option T) : Run T := ⟨init next, []⟩

def legal (run : Run T) : Op T → Prop
  | .enqueue obj cycle => run.pq.next obj = none ∧ Outside obj run.history ∧
      run.pq.curBlock ≤ cycle / 64 ∧ cycle < 2 ^ 64
  | .dequeue => inside run.history ≠ []

def step (B fuel : Nat) (run : Run T) : Op T → Option (Run T)
  | .enqueue obj cycle => (run.pq.enqueue B obj cycle).map fun pq =>
      ⟨pq, .enqueued obj cycle :: run.history⟩
  | .dequeue => (run.pq.dequeue B fuel).toOption.map fun (pq, obj, cycle) =>
      ⟨pq, .dequeued obj cycle :: run.history⟩

def machine (B fuel : Nat) : Machine (Run T) (Op T) := ⟨legal, step B fuel⟩

instance (B fuel : Nat) (run : Run T) : (op : Op T) → Decidable ((machine B fuel).legal run op)
  | .enqueue obj cycle => inferInstanceAs (Decidable (run.pq.next obj = none ∧
      Outside obj run.history ∧ run.pq.curBlock ≤ cycle / 64 ∧ cycle < 2 ^ 64))
  | .dequeue => inferInstanceAs (Decidable (inside run.history ≠ []))

/-- The cycle stays so far below 2^64 that the end of the ring, when the element
is moved to it, is still a `uint64_t`. -/
def InRange (B : Nat) (_ : Run T) : Op T → Prop
  | .enqueue _ cycle => cycle / 64 + B / 2 < 2 ^ 58
  | .dequeue => True

instance (B : Nat) (run : Run T) : (op : Op T) → Decidable (InRange B run op)
  | .enqueue _ cycle => inferInstanceAs (Decidable (cycle / 64 + B / 2 < 2 ^ 58))
  | .dequeue => .isTrue trivial

/-! ## The invariant over runs -/

structure RunInv (B : Nat) (run : Run T) : Prop where
  inv : ∃ near, Inv B run.pq near (inside run.history)
  served : Served run.history

theorem preserves_runInv {B : Nat} (count : BlockCount B) {fuel : Nat} (enough : 2 ^ 58 ≤ fuel) :
    ((machine B fuel).restrict (InRange B)).Preserves (RunInv (T := T) B) := by
  intro run op ⟨⟨near, inv⟩, served⟩ ⟨legal, range⟩
  cases op with
  | enqueue obj cycle =>
      obtain ⟨unlinked, outside, notBefore, -⟩ := legal
      obtain ⟨next, near', eq, inv'⟩ := inv.enqueue count notBefore range unlinked outside
      refine ⟨⟨next, .enqueued obj cycle :: run.history⟩, ?_, ⟨near', inv'⟩, outside, served⟩
      show (run.pq.enqueue B obj cycle).map _ = some _
      rw [eq]
      rfl
  | dequeue =>
      obtain ⟨next, near', obj, cycle, eq, inv', member, least⟩ := inv.dequeue count legal enough
      refine ⟨⟨next, .dequeued obj cycle :: run.history⟩, ?_, ⟨near', inv'⟩, ⟨member, least⟩, served⟩
      show (run.pq.dequeue B fuel).toOption.map _ = some _
      rw [eq]
      rfl

/-- The queue is a priority queue. -/
structure Refines (B fuel : Nat) (run : Run T) : Prop where
  /-- an element leaves with its own cycle, and none inside has an earlier one -/
  least : ∀ later earlier obj cycle, run.history = later ++ .dequeued obj cycle :: earlier →
    First obj cycle earlier
  /-- elements leave in order unless one is put in behind the last that left -/
  nondecreasing : ∀ later during earlier obj cycle obj' cycle',
    run.history = later ++ .dequeued obj' cycle' :: (during ++ .dequeued obj cycle :: earlier) →
    (∀ o c, .enqueued o c ∈ during → cycle ≤ c) → cycle ≤ cycle'
  /-- what is put in is still inside or has left -/
  kept : ∀ later earlier obj cycle, run.history = later ++ .enqueued obj cycle :: earlier →
    (cycle, obj) ∈ inside run.history ∨ .dequeued obj cycle ∈ later
  /-- an element that leaves again was put in again -/
  once : ∀ later during earlier obj cycle cycle',
    run.history = later ++ .dequeued obj cycle' :: (during ++ .dequeued obj cycle :: earlier) →
    .enqueued obj cycle' ∈ during
  size : run.pq.size = (inside run.history).length
  /-- `dequeue` returns, with the cycle that `firstCycle` names -/
  first : inside run.history ≠ [] → ∃ next obj cycle,
    run.pq.dequeue B fuel = .ok (next, obj, cycle) ∧ run.pq.firstCycle B = some cycle ∧
      First obj cycle run.history

theorem RunInv.refines {B : Nat} (count : BlockCount B) {fuel : Nat} (enough : 2 ^ 58 ≤ fuel)
    {run : Run T} (runInv : RunInv B run) : Refines B fuel run where
  least later earlier obj cycle split := by
    have served := runInv.served
    rw [split] at served
    exact served.of_append.1
  nondecreasing later during earlier obj cycle obj' cycle' split notBefore := by
    have served := runInv.served
    rw [split] at served
    exact served.nondecreasing notBefore
  kept later earlier obj cycle split := by
    rw [split]
    exact inside_or_dequeued later earlier obj cycle
  once later during earlier obj cycle cycle' split := by
    have served := runInv.served
    rw [split] at served
    exact served.once
  size := by
    obtain ⟨near, inv⟩ := runInv.inv
    exact inv.size
  first nonempty := by
    obtain ⟨near, inv⟩ := runInv.inv
    obtain ⟨next, -, obj, cycle, eq, -, member, least⟩ := inv.dequeue count nonempty enough
    exact ⟨next, obj, cycle, eq, inv.firstCycle count member least, member, least⟩

/-- A legal run passes every assertion and serves the elements as a priority
queue does. -/
theorem refines_priority_queue {B : Nat} (count : BlockCount B) {fuel : Nat} (enough : 2 ^ 58 ≤ fuel)
    (next : T → Option T) (ops : List (Op T))
    (legal : ((machine B fuel).restrict (InRange B)).LegalRun ops (Run.start next)) :
    ∃ run, (machine B fuel).exec ops (Run.start next) = some run ∧ Refines B fuel run := by
  have start : RunInv B (Run.start next) := ⟨⟨_, Inv.init count next⟩, trivial⟩
  obtain ⟨run, reached, runInv⟩ := (preserves_runInv count enough).exec_restrict start legal
  exact ⟨run, reached, runInv.refines count enough⟩

/-- Two elements near and one far ahead. -/
theorem refines_priority_queue_three :
    ∃ run, (machine 1024 (2 ^ 58)).exec
      [.enqueue 0 70, .enqueue 1 10, .enqueue 2 200000, .dequeue, .dequeue]
      (Run.start fun _ : Nat => none) = some run ∧ Refines 1024 (2 ^ 58) run :=
  refines_priority_queue ⟨by decide, by decide, by decide⟩ (Nat.le_refl _) (fun _ => none)
    [.enqueue 0 70, .enqueue 1 10, .enqueue 2 200000, .dequeue, .dequeue] (by decide +kernel)

/-! ## Where order and termination end -/

/-- A far element in the last block of all is never moved to the ring: the end of
the ring wraps to a cycle below it. -/
theorem seek_starves (B : Nat) {pq : PrioQueue T} {cycle : Nat} {obj : T}
    (empty : ∀ i, (pq.blocks i).occ = 0) (far : pq.feMap = [(cycle, obj)])
    (last : 2 ^ 64 - 64 ≤ cycle) (fuel : Nat) : seek B fuel pq = .error .outOfFuel := by
  induction fuel generalizing pq with
  | zero => rfl
  | succ fuel ih =>
      have notBelow : ¬ cycle < u64 (u64 (u64 (pq.curBlock + 1) + B) * 64) := by
        unfold u64
        omega
      have moved : pq.advance B = some { pq with curBlock := u64 (pq.curBlock + 1) } := by
        unfold advance
        dsimp only
        split
        · rw [far, refillFrom, if_neg notBelow, ← far]
        · rfl
      unfold seek
      rw [if_pos (empty _), moved]
      exact ih empty far

/-- The queue gives back an element out of order if one is enqueued in the current
block behind the last dequeued cycle; it never gives back one of the last block. -/
theorem order_and_termination_fail :
    (¬ ∀ (ops : List (Op Nat)) (run : Run Nat),
      (machine 1024 (2 ^ 58)).LegalRun ops (Run.start fun _ => none) →
      (machine 1024 (2 ^ 58)).exec ops (Run.start fun _ => none) = some run →
      ∀ later during earlier obj cycle obj' cycle',
        run.history = later ++ .dequeued obj' cycle' :: (during ++ .dequeued obj cycle :: earlier) →
        cycle ≤ cycle') ∧
    ∃ run : Run Nat,
      (machine 1024 (2 ^ 58)).exec [.enqueue 0 (2 ^ 64 - 1)] (Run.start fun _ => none) = some run ∧
      (machine 1024 (2 ^ 58)).LegalRun [.enqueue 0 (2 ^ 64 - 1)] (Run.start fun _ => none) ∧
      (machine 1024 (2 ^ 58)).legal run .dequeue ∧
      ∀ fuel, run.pq.dequeue 1024 fuel = .error .outOfFuel := by
  constructor
  · intro claim
    have behind : ((machine 1024 (2 ^ 58)).exec [.enqueue 0 10, .dequeue, .enqueue 1 5, .dequeue]
        (Run.start fun _ : Nat => none)).map Run.history =
        some [.dequeued 1 5, .enqueued 1 5, .dequeued 0 10, .enqueued 0 10] := by decide +kernel
    obtain ⟨run, reached, history⟩ := Option.map_eq_some_iff.mp behind
    have ordered := claim _ run (by decide +kernel) reached [] [.enqueued 1 5] [.enqueued 0 10]
      0 10 1 5 history
    exact absurd ordered (by decide)
  · refine ⟨_, rfl, by decide +kernel, ?_, fun fuel => ?_⟩
    · show inside [.enqueued 0 (2 ^ 64 - 1)] ≠ []
      decide
    · unfold dequeue
      rw [if_pos (by decide), seek_starves 1024 (fun _ => rfl) rfl (by decide) fuel]

end Zsim.PrioQueue
