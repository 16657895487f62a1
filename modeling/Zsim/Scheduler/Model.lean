import Mathlib.Logic.Equiv.Basic
import Zsim.Barrier.Model

/-!
# The scheduler

`Scheduler` of scheduler.h.  A thread is named by its gid and a context by its cid; a pointer
to one is an `Option`.  A function returns `none` where the source asserts, panics or follows
a pointer to nothing.  Each of them is what happens between taking `schedLock` and releasing
it; `calls` says where a thread stands that has released it in the middle of a call.  The
intrusive lists are lists, so that an element's `owner` is the list it is found in.  The wake
and wait matching of futexes, which only delays joins, is modelled in `Zsim.Futex`.
-/

set_option autoImplicit false

namespace Zsim

namespace Scheduler

inductive ThreadState
  | started | running | out | blocked | sleeping | queued
  deriving DecidableEq, Repr

inductive ContextState
  | idle | used
  deriving DecidableEq, Repr

structure ThreadInfo where
  state : ThreadState
  cid : Nat
  handoffThread : Option Nat
  futexWord : Nat
  needsJoin : Bool
  markedForSleep : Bool
  wakeupPhase : Nat
  mask : Nat → Bool
  /-- the thread has an entry in `fakeLeaves` -/
  fakeLeave : Bool

/-- The constructor; `needsJoin` is written before it is read. -/
def ThreadInfo.create (mask : Nat → Bool) : ThreadInfo where
  state := .started
  cid := 0
  handoffThread := none
  futexWord := 0
  needsJoin := false
  markedForSleep := false
  wakeupPhase := 0
  mask := mask
  fakeLeave := false

structure ContextInfo where
  state : ContextState
  curThread : Option Nat
  deriving DecidableEq

inductive Queue
  | runQueue | outQueue | sleepQueue
  deriving DecidableEq, Repr

/-- Where a thread stands in the calls it makes. -/
inductive Call
  /-- in no call of the scheduler -/
  | outside
  /-- in the futex wait of `bar.join(cid)`; `sync` checks the thread's state afterwards -/
  | barJoin (cid : Nat) (ofSync : Bool)
  /-- in the futex wait of `bar.sync(cid)` -/
  | barSync (cid : Nat)
  /-- `sync` has found a thread to hand its context to -/
  | handoff
  /-- in the futex wait of `waitForContext` -/
  | waitForContext (ofSync : Bool)
  /-- `finish` is about to call `leave`, after a fake leave or without -/
  | finishLeave (suppressed : Bool)
  /-- `finish` is about to check whether the thread is RUNNING -/
  | finishCheck
  /-- `finish` is about to take the thread off its list -/
  | finishEnd
  deriving DecidableEq, Repr

end Scheduler

structure Scheduler where
  numCores : Nat
  schedQuantum : Nat
  bar : Barrier
  /-- the ThreadInfo objects that are allocated -/
  threads : Nat → Option Scheduler.ThreadInfo
  gidMap : List Nat
  contexts : Nat → Scheduler.ContextInfo
  freeList : List Nat
  queue : Scheduler.Queue → List Nat
  fakeLeaves : List Nat
  curPhase : Nat
  scheduledThreads : Nat
  calls : Nat → Scheduler.Call

namespace Scheduler

def init (parallelThreads numCores schedQuantum : Nat) (lastIdx : Nat → Nat) : Scheduler where
  numCores := numCores
  schedQuantum := schedQuantum
  bar := Barrier.init parallelThreads lastIdx
  threads _ := none
  gidMap := []
  contexts _ := ⟨.idle, none⟩
  freeList := List.range numCores
  queue _ := []
  fakeLeaves := []
  curPhase := 0
  scheduledThreads := 0
  calls _ := .outside

/-! ## Reading and writing -/

def stateOf (s : Scheduler) (gid : Nat) : Option ThreadState := (s.threads gid).map (·.state)

def cidOf (s : Scheduler) (gid : Nat) : Nat := ((s.threads gid).map (·.cid)).getD 0

def wakeupPhaseOf (s : Scheduler) (gid : Nat) : Nat := ((s.threads gid).map (·.wakeupPhase)).getD 0

def maskOf (s : Scheduler) (gid cid : Nat) : Bool :=
  ((s.threads gid).map fun th => th.mask cid).getD false

def setThread (s : Scheduler) (gid : Nat) (th : ThreadInfo) : Scheduler :=
  { s with threads := Function.update s.threads gid (some th) }

def setContext (s : Scheduler) (cid : Nat) (ctx : ContextInfo) : Scheduler :=
  { s with contexts := Function.update s.contexts cid ctx }

def setQueue (s : Scheduler) (q : Queue) (gids : List Nat) : Scheduler :=
  { s with queue := Function.update s.queue q gids }

def setBar (s : Scheduler) (bar : Barrier) : Scheduler := { s with bar := bar }

def setCall (s : Scheduler) (gid : Nat) (call : Call) : Scheduler :=
  { s with calls := Function.update s.calls gid call }

/-! ## The intrusive lists -/

def owner (s : Scheduler) (gid : Nat) : Option Queue :=
  if gid ∈ s.queue .runQueue then some .runQueue
  else if gid ∈ s.queue .outQueue then some .outQueue
  else if gid ∈ s.queue .sleepQueue then some .sleepQueue
  else none

def pushBack (s : Scheduler) (q : Queue) (gid : Nat) : Option Scheduler :=
  if s.owner gid = none then some (s.setQueue q (s.queue q ++ [gid])) else none

def remove (s : Scheduler) (q : Queue) (gid : Nat) : Option Scheduler :=
  if s.owner gid = some q then some (s.setQueue q ((s.queue q).erase gid)) else none

/-- The ordered insert into `sleepQueue`: behind every thread that does not wake up later. -/
def insertByPhase (wakeupPhase : Nat → Nat) (gid : Nat) : List Nat → List Nat
  | [] => [gid]
  | cur :: rest =>
    if wakeupPhase cur ≤ wakeupPhase gid then cur :: insertByPhase wakeupPhase gid rest
    else gid :: cur :: rest

def insertSleep (s : Scheduler) (gid : Nat) : Option Scheduler :=
  if s.owner gid = none then
    some (s.setQueue .sleepQueue (insertByPhase s.wakeupPhaseOf gid (s.queue .sleepQueue)))
  else none

def pushFree (s : Scheduler) (cid : Nat) : Option Scheduler :=
  if cid ∈ s.freeList then none else some { s with freeList := s.freeList ++ [cid] }

def removeFree (s : Scheduler) (cid : Nat) : Option Scheduler :=
  if cid ∈ s.freeList then some { s with freeList := s.freeList.erase cid } else none

/-! ## schedule, deschedule, wakeup -/

def schedule (s : Scheduler) (gid cid : Nat) : Option Scheduler := do
  let th ← s.threads gid
  if (th.state = .started ∨ th.state = .blocked ∨ th.state = .queued) ∧
      (s.contexts cid).state = .idle ∧ (s.contexts cid).curThread = none then
    some { (s.setThread gid { th with state := .running, cid := cid }).setContext cid
        ⟨.used, some gid⟩ with
      scheduledThreads := s.scheduledThreads + 1 }
  else none

/-- `deschedule`; the callers pass BLOCKED, QUEUED or SLEEPING as `targetState`. -/
def deschedule (s : Scheduler) (gid cid : Nat) (targetState : ThreadState) : Option Scheduler := do
  let th ← s.threads gid
  if (th.state = .running ∨ th.state = .out) ∧ (s.contexts cid).state = .used ∧ cid = th.cid ∧
      (s.contexts cid).curThread = some gid then
    some { (s.setThread gid { th with state := targetState }).setContext cid ⟨.idle, none⟩ with
      scheduledThreads := s.scheduledThreads - 1 }
  else none

/-- The compare-and-swap of `futexWord`, from 1 to 0, panics on anything else. -/
def wakeup (s : Scheduler) (gid : Nat) (needsJoin : Bool) : Option Scheduler := do
  let th ← s.threads gid
  if th.futexWord = 1 then
    some (s.setThread gid { th with needsJoin := needsJoin, futexWord := 0 })
  else none

/-! ## schedThread, schedContext, schedTick -/

/-- The third try of `schedThread`: a context is taken from a thread that is OUT. -/
def stealContext (s : Scheduler) (th : ThreadInfo) : Option (Scheduler × Option Nat) :=
  match (s.queue .outQueue).find? fun outTh => th.mask (s.cidOf outTh) with
  | some outTh => do
      let taken ← s.remove .outQueue outTh
      let freed ← taken.deschedule outTh (s.cidOf outTh) .blocked
      some (freed, some (s.cidOf outTh))
  | none => some (s, none)

/-- A context for a thread, taken off `freeList` or from a thread that is OUT. -/
def schedThread (s : Scheduler) (gid : Nat) : Option (Scheduler × Option Nat) := do
  let th ← s.threads gid
  if th.cid < s.numCores then
    -- the last context the thread was running at, then the list in its order
    if (s.contexts th.cid).state = .idle ∧ th.mask th.cid = true then
      (s.removeFree th.cid).map fun s => (s, some th.cid)
    else match s.freeList.find? th.mask with
      | some cid => (s.removeFree cid).map fun s => (s, some cid)
      | none => s.stealContext th
  else none

def schedContext (s : Scheduler) (cid : Nat) : Option (Scheduler × Option Nat) :=
  match (s.queue .runQueue).find? fun blockedTh => s.maskOf blockedTh cid with
  | some inTh => (s.remove .runQueue inTh).map fun s => (s, some inTh)
  | none => some (s, none)

/-- The shuffle of `availVec`, of which `i + 1` entries are still to be drawn. -/
def shuffleFrom (rand : Nat → Nat) : Nat → (Nat → Nat) → Nat → Nat
  | 0, availVec => availVec
  | i + 1, availVec =>
    shuffleFrom rand i fun k => availVec (Equiv.swap (i + 1) (rand (i + 1) % (i + 2)) k)

/-- All cores, in the order in which `schedTick` offers them. -/
def avail (rand : Nat → Nat) (numCores : Nat) : List Nat :=
  (List.range numCores).map (shuffleFrom rand (numCores - 1) id)

def assign : List Nat → List Nat → Scheduler → Option Scheduler
  | [], _, s => some s
  | gid :: rest, avail, s =>
    match avail.find? (s.maskOf gid) with
    | none => assign rest avail s
    | some cid => do
        let victim ← (s.contexts cid).curThread
        let victimTh ← s.threads victim
        let chosen ← (s.setThread victim { victimTh with handoffThread := some gid }).remove .runQueue gid
        assign rest (avail.erase cid) chosen

def schedTick (rand : Nat → Nat) (s : Scheduler) : Option Scheduler :=
  assign (s.queue .runQueue) (avail rand s.numCores) s

/-! ## callback -/

def wakeSleepers : List Nat → Scheduler → Option Scheduler
  | [], s => some s
  | gid :: rest, s => do
      let th ← s.threads gid
      if th.wakeupPhase ≤ s.curPhase then
        if th.wakeupPhase = s.curPhase then do
          let awake ← (s.setThread gid { th with state := .blocked }).wakeup gid false
          wakeSleepers rest (awake.setQueue .sleepQueue rest)
        else none
      else some s

/-- What the barrier calls at the end of a phase; `rand` is the scheduler's own source. -/
def callback (rand : Nat → Nat) (s : Scheduler) : Option Scheduler :=
  if s.scheduledThreads ≤ s.numCores then do
    let next := { s with curPhase := s.curPhase + 1 }
    let awake ← wakeSleepers (s.queue .sleepQueue) next
    if awake.queue .runQueue = [] then some awake
    else if awake.schedQuantum = 0 then none
    else if awake.curPhase % awake.schedQuantum = 0 then awake.schedTick rand
    else some awake
  else none

/-- The numbers drawn during a call, by the barrier and by the scheduler. -/
structure Draws where
  bar : Nat → Nat
  sched : Nat → Nat

section
variable (draws : Draws)

def barJoin (s : Scheduler) (cid : Nat) : Option Scheduler :=
  (s.bar.join (callback draws.sched) draws.bar cid s).map fun (bar, s, _) => s.setBar bar

def barLeave (s : Scheduler) (cid : Nat) : Option Scheduler :=
  (s.bar.leave (callback draws.sched) draws.bar cid s).map fun (bar, s, _) => s.setBar bar

def barSync (s : Scheduler) (cid : Nat) : Option Scheduler :=
  (s.bar.sync (callback draws.sched) draws.bar cid s).map fun (bar, s, _) => s.setBar bar

/-! ## start and join -/

/-- `start`, up to the panic of the constructor on an empty mask. -/
def start (s : Scheduler) (gid : Nat) (mask : Nat → Bool) : Option Scheduler :=
  if gid ∈ s.gidMap then none
  else if (List.range s.numCores).any mask then
    some { s.setThread gid (.create mask) with gidMap := s.gidMap ++ [gid] }
  else none

/-- The end of a fake leave; the thread is back as if it had never left. -/
def finishFakeLeave (s : Scheduler) (gid : Nat) : Option Scheduler := do
  let th ← s.threads gid
  if th.fakeLeave = true ∧ th.state = .running ∧ gid ∈ s.fakeLeaves then
    some { s.setThread gid { th with fakeLeave := false } with fakeLeaves := s.fakeLeaves.erase gid }
  else none

/-- The first half of `waitForContext`, up to the futex wait. -/
def waitForContext (s : Scheduler) (gid : Nat) (ofSync : Bool) : Option Scheduler := do
  let th ← s.threads gid
  some ((s.setThread gid { th with futexWord := 1 }).setCall gid (.waitForContext ofSync))

/-- The end of `join` and of the handoff: the thread runs on the context that was found for
it, or waits in `runQueue`. -/
def scheduleOrQueue (s : Scheduler) (gid : Nat) (ctx : Option Nat) (ofSync : Bool) :
    Option Scheduler :=
  match ctx with
  | some cid => do
      let scheduled ← s.schedule gid cid
      (scheduled.setCall gid (.barJoin cid ofSync)).barJoin draws cid
  | none => do
      let th ← s.threads gid
      let waiting ← (s.setThread gid { th with state := .queued }).pushBack .runQueue gid
      waiting.waitForContext gid ofSync

/-- `join` of a thread that is not asleep. -/
def joinAwake (s : Scheduler) (gid : Nat) : Option Scheduler := do
  let th ← s.threads gid
  match th.state with
  | .out => do
      let back ← (s.setThread gid { th with state := .running }).remove .outQueue gid
      (back.setCall gid (.barJoin th.cid false)).barJoin draws th.cid
  | .blocked | .started => do
      let (taken, ctx) ← s.schedThread gid
      taken.scheduleOrQueue draws gid ctx false
  | _ => none

def join (s : Scheduler) (gid : Nat) : Option Scheduler := do
  let th ← s.threads gid
  if gid ∉ s.gidMap then none
  else if th.fakeLeave = true then s.finishFakeLeave gid
  else if th.markedForSleep = true then none
  else if th.state = .sleeping then do
    let awake ← s.remove .sleepQueue gid
    (awake.setThread gid { th with state := .blocked }).joinAwake draws gid
  else s.joinAwake draws gid

/-! ## leave -/

/-- A context that its thread has just left to another one; the barrier does not notice. -/
def giveTo (s : Scheduler) (inTh cid : Nat) : Option Scheduler := do
  let scheduled ← s.schedule inTh cid
  scheduled.wakeup inTh false

/-- `leave` of a thread marked for sleep, which gives its context up. -/
def leaveToSleep (s : Scheduler) (gid cid : Nat) (th : ThreadInfo) : Option Scheduler := do
  let freed ← (s.setThread gid { th with markedForSleep := false }).deschedule gid cid .sleeping
  let asleep ← freed.insertSleep gid
  let (taken, inTh) ← asleep.schedContext cid
  match inTh with
  | some inTh => taken.giveTo inTh cid
  | none => do
      let free ← taken.pushFree cid
      free.barLeave draws cid

/-- `leave` of a thread that goes BLOCKED if another one wants its context, and OUT if not. -/
def leaveToOut (s : Scheduler) (gid cid : Nat) (th : ThreadInfo) : Option Scheduler := do
  let (taken, inTh) ← s.schedContext cid
  match inTh with
  | some inTh => do
      let freed ← taken.deschedule gid cid .blocked
      freed.giveTo inTh cid
  | none => do
      let out ← (taken.setThread gid { th with state := .out }).pushBack .outQueue gid
      out.barLeave draws cid

def leave (s : Scheduler) (gid cid : Nat) : Option Scheduler := do
  let th ← s.threads gid
  if (s.contexts cid).curThread = some gid ∧ th.state = .running then
    if th.markedForSleep = true then s.leaveToSleep draws gid cid th
    else s.leaveToOut draws gid cid th
  else none

/-! ## sync -/

/-- The first critical section of `sync`, called by the thread that runs on the context. -/
def sync (s : Scheduler) (gid cid : Nat) : Option Scheduler := do
  let th ← s.threads gid
  if (s.contexts cid).curThread = some gid ∧ th.markedForSleep = false then
    (s.setCall gid (.barSync cid)).barSync draws cid
  else none

/-- The second critical section of `sync`, in which the context is handed over. -/
def handoff (s : Scheduler) (gid : Nat) : Option Scheduler := do
  let th ← s.threads gid
  let dst ← th.handoffThread
  let freed ← (s.setThread gid { th with handoffThread := none }).deschedule gid th.cid .queued
  let given ← freed.giveTo dst th.cid
  let (taken, ctx) ← given.schedThread gid
  taken.scheduleOrQueue draws gid ctx true

/-- `sync` returns, or checks the thread's state and returns. -/
def endCall (s : Scheduler) (gid : Nat) (ofSync : Bool) : Option Scheduler :=
  if ofSync = true ∧ s.stateOf gid ≠ some .running then none else some (s.setCall gid .outside)

def resume (s : Scheduler) (gid : Nat) : Option Scheduler := do
  let th ← s.threads gid
  match s.calls gid with
  | .barJoin cid ofSync => do
      let bar ← s.bar.resume cid
      (s.setBar bar).endCall gid ofSync
  | .barSync cid => do
      let bar ← s.bar.resume cid
      if th.handoffThread = none then (s.setBar bar).endCall gid true
      else some ((s.setBar bar).setCall gid .handoff)
  | .waitForContext ofSync =>
      if th.needsJoin = true then (s.setCall gid (.barJoin th.cid ofSync)).barJoin draws th.cid
      else s.endCall gid ofSync
  | _ => none

/-! ## Sleeping -/

def markForSleep (s : Scheduler) (gid wakeupPhase : Nat) : Option Scheduler := do
  let th ← s.threads gid
  if gid ∈ s.gidMap ∧ th.markedForSleep = false then
    some (s.setThread gid
      { th with markedForSleep := true, wakeupPhase := wakeupPhase, futexWord := 1 })
  else none

def notifySleepEnd (s : Scheduler) (gid : Nat) : Option Scheduler := do
  let th ← s.threads gid
  if gid ∈ s.gidMap ∧ th.markedForSleep = false then
    match th.state with
    | .blocked => some s
    | .sleeping => do
        let awake ← s.remove .sleepQueue gid
        some (awake.setThread gid { th with state := .blocked })
    | _ => none
  else none

/-- The round of the watchdog's loop that drives time forward: every context is held by a
thread that is OUT, and a thread sleeps. -/
def watchdog (s : Scheduler) : Option Scheduler :=
  if s.scheduledThreads = (s.queue .outQueue).length ∧ s.queue .sleepQueue ≠ [] then
    s.callback draws.sched
  else none

/-! ## Fake leaves -/

def syscallLeave (s : Scheduler) (gid cid : Nat) (blacklisted : Bool) : Option Scheduler := do
  let th ← s.threads gid
  if (s.contexts cid).curThread = some gid ∧ th.cid = cid ∧ th.state = .running then
    if blacklisted = true ∨ th.markedForSleep = true then s.leave draws gid cid
    else if th.fakeLeave = true ∨ gid ∈ s.fakeLeaves then none
    else some { s.setThread gid { th with fakeLeave := true } with
      fakeLeaves := s.fakeLeaves ++ [gid] }
  else none

/-! ## finish -/

def delete (s : Scheduler) (gid : Nat) : Scheduler :=
  { s.setCall gid .outside with threads := Function.update s.threads gid none }

/-- The end of `finish`: the thread is taken off its list, and its context becomes free. -/
def finishEnd (s : Scheduler) (gid : Nat) : Option Scheduler := do
  let th ← s.threads gid
  if th.state = .started ∨ th.state = .out ∨ th.state = .blocked ∨ th.state = .queued then
    if th.state = .queued then (s.remove .runQueue gid).map (·.delete gid)
    else if s.owner gid = none then some (s.delete gid)
    else do
      let removed ← s.remove .outQueue gid
      let freed ← removed.deschedule gid th.cid .blocked
      (freed.pushFree th.cid).map (·.delete gid)
  else none

/-- From the check for RUNNING on. -/
def finishCheck (s : Scheduler) (gid : Nat) : Option Scheduler := do
  let th ← s.threads gid
  if th.state = .running then some (s.setCall gid (.finishLeave false)) else s.finishEnd gid

/-- The first critical section of `finish`. -/
def finish (s : Scheduler) (gid : Nat) : Option Scheduler := do
  let th ← s.threads gid
  if gid ∈ s.gidMap then
    let erased := { s with gidMap := s.gidMap.erase gid }
    if th.fakeLeave = true then
      (erased.finishFakeLeave gid).map (·.setCall gid (.finishLeave true))
    else erased.finishCheck gid
  else none

def finishLeave (s : Scheduler) (gid : Nat) (suppressed : Bool) : Option Scheduler := do
  let th ← s.threads gid
  let left ← s.leave draws gid th.cid
  some (left.setCall gid (if suppressed = true then .finishCheck else .finishEnd))

end

end Scheduler

end Zsim
