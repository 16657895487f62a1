import Mathlib.Data.List.Perm.Basic
import Mathlib.Data.List.Nodup
import Zsim.DetailedMem.Address
import Zsim.Lib.Machine

/-!
# The scheduler of the detailed memory

`MemSchedulerDefault` of detailed_mem.cpp on one channel, with what
`MemControllerBase::enqueue` and `TickScheduler` do with its answers.  The first component
of an entry of the write queues is always null and is left out.
-/

set_option autoImplicit false

namespace Zsim.DetailedMem

structure SchedulerConfig where
  schedulerQueueCount : Nat
  schedulerQueueCount_pos : 0 < schedulerQueueCount

namespace SchedulerConfig

variable (c : SchedulerConfig)

def wrQueueSize : Nat := c.schedulerQueueCount

def wrQueueHighWatermark : Nat := u32 (c.schedulerQueueCount * 2) / 3

def wrQueueLowWatermark : Nat := c.schedulerQueueCount / 3

end SchedulerConfig

structure MemScheduler where
  prioritizedAccessType : MemAccessType
  /-- events with their addresses -/
  rdQueue : List (Nat × Nat)
  wrQueue : List Nat
  wrDoneQueue : List Nat

/-- What `GetEvent` returns. -/
inductive Request where
  | read (ev addr : Nat)
  | write (addr : Nat)

namespace MemScheduler

def init : MemScheduler where
  prioritizedAccessType := .read
  rdQueue := []
  wrQueue := []
  wrDoneQueue := []

/-- The scheduler afterwards, and whether the request was a hit.  With an empty
`wrDoneQueue` an overflow only gives a warning. -/
def checkSetEvent (c : SchedulerConfig) (s : MemScheduler) (type : MemAccessType) (ev addr : Nat) :
    MemScheduler × Bool :=
  if addr ∈ s.wrQueue then
    match type with
    | .write => ({ s with wrQueue := s.wrQueue.erase addr ++ [addr] }, true)
    | .read => (s, true)
  else if addr ∈ s.wrDoneQueue then
    match type with
    | .read => ({ s with wrDoneQueue := s.wrDoneQueue.erase addr ++ [addr] }, true)
    | .write =>
      ({ s with wrDoneQueue := s.wrDoneQueue.erase addr, wrQueue := s.wrQueue ++ [addr] }, true)
  else
    match type with
    | .read => ({ s with rdQueue := s.rdQueue ++ [(ev, addr)] }, false)
    | .write =>
      let s := { s with wrQueue := s.wrQueue ++ [addr] }
      if s.wrQueue.length + s.wrDoneQueue.length = c.wrQueueSize then
        ({ s with wrDoneQueue := s.wrDoneQueue.tail }, false)
      else (s, false)

/-- The first row-buffer hit, or the first entry if there is none. -/
def findBestRequest (rowHit : Nat → Bool) (queue : List Nat) : Option Nat :=
  if queue = [] then none else some ((queue.findIdx? rowHit).getD 0)

def getRead (rowHit : Nat → Bool) (s : MemScheduler) : Option (MemScheduler × Request) := do
  let idx ← findBestRequest rowHit (s.rdQueue.map Prod.snd)
  let (ev, addr) ← s.rdQueue[idx]?
  some ({ s with rdQueue := s.rdQueue.eraseIdx idx }, .read ev addr)

def getWrite (rowHit : Nat → Bool) (s : MemScheduler) : Option (MemScheduler × Request) := do
  let idx ← findBestRequest rowHit s.wrQueue
  let addr ← s.wrQueue[idx]?
  some
    ({ s with wrQueue := s.wrQueue.eraseIdx idx, wrDoneQueue := s.wrDoneQueue ++ [addr] },
      .write addr)

def checkPriority (c : SchedulerConfig) (s : MemScheduler) : MemScheduler :=
  if c.wrQueueHighWatermark ≤ s.wrQueue.length then { s with prioritizedAccessType := .write }
  else if s.wrQueue.length ≤ c.wrQueueLowWatermark then { s with prioritizedAccessType := .read }
  else s

/-- What `GetEvent` leaves behind, whether it found a request or not. -/
def answer (s : MemScheduler) : Option (MemScheduler × Request) → MemScheduler × Option Request
  | some (next, request) => (next, some request)
  | none => (s, none)

def getEvent (c : SchedulerConfig) (rowHit : Nat → Bool) (s : MemScheduler) :
    MemScheduler × Option Request :=
  let s := s.checkPriority c
  let read := if s.prioritizedAccessType = .read then s.getRead rowHit else none
  s.answer (read.or (s.getWrite rowHit))

end MemScheduler

/-- What the controller does with a request. -/
inductive Event where
  | enqueued (addr : Nat)
  | issued (addr : Nat)
  | done (ev : Nat)
  deriving DecidableEq

/-- A scheduler and what happened to its reads and to the lines of its writes, the latest
event first. -/
structure MemController where
  sched : MemScheduler
  log : List Event

namespace MemController

def init : MemController := ⟨MemScheduler.init, []⟩

def enqueue (c : SchedulerConfig) (s : MemController) (type : MemAccessType) (ev addr : Nat) :
    MemController :=
  let (sched, hit) := s.sched.checkSetEvent c type ev addr
  match type with
  | .read => if hit then ⟨sched, .done ev :: s.log⟩ else ⟨sched, s.log⟩
  | .write => ⟨sched, .enqueued addr :: s.log⟩

def tickScheduler (c : SchedulerConfig) (rowHit : Nat → Bool) (s : MemController) : MemController :=
  match s.sched.getEvent c rowHit with
  | (sched, some (.read ev _)) => ⟨sched, .done ev :: s.log⟩
  | (sched, some (.write addr)) => ⟨sched, .issued addr :: s.log⟩
  | (sched, none) => ⟨sched, s.log⟩

inductive Op where
  | enqueue (type : MemAccessType) (ev addr : Nat)
  /-- `rowHit` is what the banks say at this cycle. -/
  | tick (rowHit : Nat → Bool)

def step (c : SchedulerConfig) (s : MemController) : Op → MemController
  | .enqueue type ev addr => s.enqueue c type ev addr
  | .tick rowHit => s.tickScheduler c rowHit

def machine (c : SchedulerConfig) : Machine MemController Op where
  legal _ _ := True
  step s op := some (s.step c op)

end MemController

end Zsim.DetailedMem
