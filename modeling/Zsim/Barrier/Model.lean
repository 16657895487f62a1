import Mathlib.Algebra.Group.Nat.Defs
import Mathlib.Logic.Function.Basic

/-!
# The phase barrier

`Barrier` of barrier.h.  Thread ids index `threadList`; `runList` is the array of
which the first `runListSize` slots are in use, and what lies beyond them is
garbage.  A function returns `none` where the source asserts or panics.  Besides
the new state it returns, in order, the calls that leave the barrier: the
FUTEX_WAKE of a thread and the callback at the end of a phase.  `rand i` is the
number that `rnd.randInt(i)` draws during the call; the reduction below keeps it
in {0, ..., i} for every function `rand`.
-/

set_option autoImplicit false

namespace Zsim

/-- `MAX_THREADS` of constants.h, the length of `threadList` and of `runList`. -/
def maxThreads : Nat := 2048

namespace Barrier

inductive State where
  | offline
  | waiting
  | running
  | left
  deriving DecidableEq, Repr

structure ThreadSyncInfo where
  state : State
  futexWord : Nat
  lastIdx : Nat

end Barrier

structure Barrier where
  parallelThreads : Nat
  threadList : Nat → Barrier.ThreadSyncInfo
  runList : Nat → Nat
  runListSize : Nat
  curThreadIdx : Nat
  runningThreads : Nat
  leftThreads : Nat
  phaseCount : Nat

namespace Barrier

/-- The constructor.  It sets no `lastIdx`: `lastIdx tid` is what the memory held. -/
def init (parallelThreads : Nat) (lastIdx : Nat → Nat) : Barrier where
  parallelThreads := parallelThreads
  threadList tid := { state := .offline, futexWord := 0, lastIdx := lastIdx tid }
  runList _ := 0
  runListSize := 0
  curThreadIdx := 0
  runningThreads := 0
  leftThreads := 0
  phaseCount := 0

/-- A call that leaves the barrier; the end of a phase is recorded with the
barrier that it ends in. -/
inductive Event where
  | wake (tid : Nat)
  | phaseEnd (bar : Barrier)

def stateOf (b : Barrier) (tid : Nat) : State := (b.threadList tid).state

def lastIdxOf (b : Barrier) (tid : Nat) : Nat := (b.threadList tid).lastIdx

def futexWordOf (b : Barrier) (tid : Nat) : Nat := (b.threadList tid).futexWord

def setThread (b : Barrier) (tid : Nat) (info : ThreadSyncInfo) : Barrier :=
  { b with threadList := Function.update b.threadList tid info }

def setState (b : Barrier) (tid : Nat) (state : State) : Barrier :=
  b.setThread tid { b.threadList tid with state := state }

def setLastIdx (b : Barrier) (tid idx : Nat) : Barrier :=
  b.setThread tid { b.threadList tid with lastIdx := idx }

def setRunList (b : Barrier) (idx tid : Nat) : Barrier :=
  { b with runList := Function.update b.runList idx tid }

/-! ## checkRunList -/

/-- One waiting thread is woken: RUNNING, at list position `idx`. -/
def wakeThread (b : Barrier) (wtid idx : Nat) : Barrier :=
  { b.setThread wtid { state := .running, futexWord := 0, lastIdx := idx } with
    runningThreads := b.runningThreads + 1 }

/-- The loop of `checkRunList`; the fuel is the length of the list not yet walked. -/
def checkRunListFrom : Nat → Barrier → Option (Barrier × List Nat)
  | 0, b => some (b, [])
  | fuel + 1, b =>
    if b.runningThreads < b.parallelThreads ∧ b.curThreadIdx < b.runListSize then
      let idx := b.curThreadIdx
      let wtid := b.runList idx
      let next := { b with curThreadIdx := idx + 1 }
      if b.stateOf wtid = .waiting then
        -- the compare-and-swap of the futex word panics on anything but 1
        if b.futexWordOf wtid = 1 then do
          let (final, woken) ← checkRunListFrom fuel (next.wakeThread wtid idx)
          some (final, wtid :: woken)
        else none
      else checkRunListFrom fuel next
    else some (b, [])

def checkRunList (b : Barrier) : Option (Barrier × List Nat) :=
  checkRunListFrom (b.runListSize - b.curThreadIdx) b

/-! ## checkEndPhase -/

/-- The cleanup pass: a LEFT thread goes OFFLINE and the last entry takes its
slot.  `newSize` entries are still in the list. -/
def cleanupFrom : Nat → Barrier → Nat → Nat → Barrier × Nat
  | 0, b, _, newSize => (b, newSize)
  | fuel + 1, b, idx, newSize =>
    if idx < newSize then
      let wtid := b.runList idx
      if b.stateOf wtid = .left then
        let stid := b.runList (newSize - 1)
        let b := ((b.setState wtid .offline).setRunList idx stid).setLastIdx stid idx
        cleanupFrom fuel b idx (newSize - 1)
      else cleanupFrom fuel b (idx + 1) newSize
    else (b, newSize)

/-- One out of 32 times, the threads that left are taken off the list. -/
def cleanup (b : Barrier) : Option Barrier :=
  if 0 < b.runListSize then
    let (final, newSize) := cleanupFrom b.runListSize b 0 b.runListSize
    if b.runListSize - newSize = b.leftThreads then
      some { final with leftThreads := 0, runListSize := newSize }
    else none
  else none

/-- The swap of list positions `i` and `j` in the Fisher-Yates shuffle. -/
def swap (b : Barrier) (i j : Nat) : Barrier :=
  let itid := b.runList i
  let jtid := b.runList j
  (((b.setRunList i jtid).setRunList j itid).setLastIdx itid j).setLastIdx jtid i

def shuffleFrom (rand : Nat → Nat) : Nat → Barrier → Barrier
  | 0, b => b
  | i + 1, b => shuffleFrom rand i (b.swap (i + 1) (rand (i + 1) % (i + 2)))

def shuffle (rand : Nat → Nat) (b : Barrier) : Barrier :=
  if b.parallelThreads < b.runListSize then shuffleFrom rand (b.runListSize - 1) b else b

def endOfPhase (b : Barrier) : Prop :=
  b.curThreadIdx = b.runListSize ∧ b.runningThreads = 0 ∧ b.leftThreads ≠ b.runListSize

instance (b : Barrier) : Decidable b.endOfPhase :=
  inferInstanceAs (Decidable (_ ∧ _ ∧ _))

/-- What the barrier does between the callback and the next phase. -/
def rewind (rand : Nat → Nat) (b : Barrier) : Option Barrier := do
  let rewound := { b with curThreadIdx := 0, phaseCount := (b.phaseCount + 1) % 2 ^ 32 }
  let cleaned ← if b.phaseCount % 32 = 0 then rewound.cleanup else some rewound
  some (cleaned.shuffle rand)

section
variable {σ : Type} (callback : σ → Option σ) (rand : Nat → Nat)

def checkEndPhase (b : Barrier) (s : σ) : Option (Barrier × σ × List Event) :=
  if b.endOfPhase then do
    let s ← callback s
    let next ← b.rewind rand
    some (next, s, [.phaseEnd b])
  else some (b, s, [])

def tryWakeNext (b : Barrier) (s : σ) : Option (Barrier × σ × List Event) := do
  let (b, first) ← b.checkRunList
  let (b, s, ended) ← b.checkEndPhase callback rand s
  let (b, second) ← b.checkRunList
  some (b, s, first.map .wake ++ ended ++ second.map .wake)

/-! ## The operations -/

/-- The LEFT branch of `join`: a thread that has already run in this phase takes
the slot in front of the cursor. -/
def rejoin (b : Barrier) (tid : Nat) : Option Barrier :=
  let b := { b with leftThreads := b.leftThreads - 1 }
  let lastIdx := b.lastIdxOf tid
  if lastIdx < b.curThreadIdx then
    let cur := b.curThreadIdx - 1
    if tid = b.runList lastIdx then
      let otherTid := b.runList cur
      let b := { b with curThreadIdx := cur }
      some ((((b.setRunList lastIdx otherTid).setRunList cur tid).setLastIdx otherTid lastIdx).setLastIdx
        tid cur)
    else none
  else some b

/-- The OFFLINE branch of `join`; the slot is not stored in `lastIdx`. -/
def append (b : Barrier) (tid : Nat) : Barrier :=
  { b.setRunList b.runListSize tid with runListSize := b.runListSize + 1 }

/-- A thread is about to block on its futex word. -/
def setWaiting (b : Barrier) (tid : Nat) : Barrier :=
  b.setThread tid { b.threadList tid with state := .waiting, futexWord := 1 }

def join (b : Barrier) (tid : Nat) (s : σ) : Option (Barrier × σ × List Event) := do
  let listed ←
    match b.stateOf tid with
    | .offline => some (b.append tid)
    | .left => b.rejoin tid
    | _ => none
  (listed.setWaiting tid).tryWakeNext callback rand s

def leave (b : Barrier) (tid : Nat) (s : σ) : Option (Barrier × σ × List Event) :=
  let gone := { b.setState tid .left with leftThreads := b.leftThreads + 1 }
  match b.stateOf tid with
  | .running =>
      { gone with runningThreads := b.runningThreads - 1 }.tryWakeNext callback rand s
  | .waiting => some (gone, s, [])
  | _ => none

def sync (b : Barrier) (tid : Nat) (s : σ) : Option (Barrier × σ × List Event) :=
  match b.stateOf tid with
  | .running =>
      { b.setWaiting tid with runningThreads := b.runningThreads - 1 }.tryWakeNext callback rand s
  | _ => none

/-- The end of `join` and of `sync`: the thread is out of its futex wait. -/
def resume (b : Barrier) (tid : Nat) : Option Barrier :=
  if b.stateOf tid = .running then some b else none

end

end Barrier

end Zsim
