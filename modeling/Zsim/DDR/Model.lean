import Mathlib.Data.List.Basic
import Mathlib.Logic.Function.Basic
import Zsim.DDR.Config
import Zsim.Lib.Machine

/-!
# The DDR controller

`DDRMemory` and `SchedEvent` of ddr_mem.h and ddr_mem.cpp.  A request is a value that is in
one of the queues and in the list of its bank; its name is that of the event it answers.
The nodes of a request queue are interchangeable, so a queue is full when as many are used.
The cycle `-1ul` is `none`.  `none` as a result is a failed assertion.
-/

set_option autoImplicit false

namespace Zsim.DDR

structure Request where
  id : Nat
  loc : AddrLoc
  write : Bool
  rowHitSeq : Nat
  arrivalCycle : Nat
  ev : Option Nat
  deriving DecidableEq, Repr

structure Bank where
  openRow : Nat
  isOpen : Bool
  minPreCycle : Nat
  lastActCycle : Nat
  lastCmdCycle : Nat
  curRowHits : Nat
  rdReqs : List Request
  wrReqs : List Request

namespace Bank

def init : Bank := ⟨0, false, 0, 0, 0, 0, [], []⟩

/-- `wrReqs` or `rdReqs`. -/
def reqs (b : Bank) (wr : Bool) : List Request := if wr then b.wrReqs else b.rdReqs

def setReqs (b : Bank) (wr : Bool) (q : List Request) : Bank :=
  if wr then { b with wrReqs := q } else { b with rdReqs := q }

def rowHit (b : Bank) (r : Request) : Bool := r.loc.row = b.openRow ∧ b.isOpen = true

end Bank

/-! ## The activation window -/

structure ActWindow where
  buf : Fin 4 → Nat
  idx : Fin 4

namespace ActWindow

def init : ActWindow := ⟨fun _ => 0, 0⟩

def minActCycle (w : ActWindow) : Nat := w.buf w.idx

/-- The loop of `addActivation`, which comes back to `idx` after four steps. -/
def reorder (actCycle : Nat) (idx : Fin 4) : Nat → (Fin 4 → Nat) → Fin 4 → (Fin 4 → Nat) × Fin 4
  | 0, buf, cur => (buf, cur)
  | steps + 1, buf, cur =>
    if actCycle < buf (cur - 1) then
      let buf := Function.update buf cur (buf (cur - 1))
      if cur - 1 = idx then (buf, cur - 1) else reorder actCycle idx steps buf (cur - 1)
    else (buf, cur)

def addActivation (w : ActWindow) (actCycle : Nat) : Option ActWindow :=
  if w.buf w.idx ≤ actCycle then
    let (buf, cur) := reorder actCycle w.idx 4 w.buf w.idx
    some ⟨Function.update buf cur actCycle, w.idx + 1⟩
  else none

end ActWindow

/-! ## The scheduled event -/

inductive SchedState
  | idle | queued | running | annulled
  deriving DecidableEq, Repr

/-- A SchedEvent, with the cycle at which the contention simulation holds it. -/
structure SchedEvent where
  state : SchedState
  cycle : Nat
  deriving DecidableEq, Repr

/-- The fields of DDRMemory that are about its events. -/
structure Scheduling where
  events : Nat → SchedEvent
  /-- the events below are those that have been allocated -/
  allocated : Nat
  nextSchedEvent : Option Nat
  nextSchedCycle : Option Nat
  eventFreelist : List Nat

namespace Scheduling

def init : Scheduling := ⟨fun _ => ⟨.idle, 0⟩, 0, none, none, []⟩

def set (d : Scheduling) (e : Nat) (event : SchedEvent) : Scheduling :=
  { d with events := Function.update d.events e event }

def annul (d : Scheduling) (e : Nat) : Option Scheduling :=
  if (d.events e).state = .queued then some (d.set e { d.events e with state := .annulled }) else none

/-- The first of the free list, or a new event. -/
def take (d : Scheduling) : Nat × Scheduling :=
  match d.eventFreelist with
  | e :: rest => (e, { d with eventFreelist := rest })
  | [] => (d.allocated, { d.set d.allocated ⟨.idle, 0⟩ with allocated := d.allocated + 1 })

/-- `SchedEvent::enqueue`. -/
def enqueue (d : Scheduling) (e cycle : Nat) : Option Scheduling :=
  if (d.events e).state = .idle then some (d.set e ⟨.queued, cycle⟩) else none

def annulNext (d : Scheduling) : Option Scheduling :=
  match d.nextSchedEvent with
  | some e => d.annul e
  | none => some d

/-- The end of `DDRMemory::enqueue`: an event for `minSchedCycle` in place of the present one. -/
def schedule (d : Scheduling) (minSchedCycle enqSysCycle : Nat) : Option Scheduling := do
  let d ← d.annulNext
  let (e, d) := d.take
  let d ← d.enqueue e enqSysCycle
  some { d with nextSchedEvent := some e, nextSchedCycle := some minSchedCycle }

/-- `recycleEvent`; the `next` of an event is null unless it is in the free list. -/
def recycle (d : Scheduling) (e : Nat) : Option Scheduling :=
  if some e ≠ d.nextSchedEvent ∧ e ∉ d.eventFreelist then
    some { d with eventFreelist := e :: d.eventFreelist }
  else none

end Scheduling

/-- `nextSchedCycle > minSchedCycle`. -/
def later : Option Nat → Nat → Bool
  | none, _ => true
  | some cycle, minSchedCycle => minSchedCycle < cycle

def minCycle : Option Nat → Nat → Nat
  | none, cycle => cycle
  | some a, cycle => min a cycle

/-! ## The controller -/

inductive Command
  | act (bank : Nat × Nat) (row cycle : Nat)
  | column (bank : Nat × Nat) (row : Nat) (write : Bool) (cycle : Nat)
  | refresh (start done : Nat)
  deriving DecidableEq, Repr

structure DDRMemory where
  minRespCycle : Nat
  lastCmdWasWrite : Bool
  rdQueue : List Request
  wrQueue : List Request
  overflowQueue : List Request
  banks : Nat × Nat → Bank
  rankActWindows : Nat → ActWindow
  scheduling : Scheduling
  /-- the requests that `enqueue` was called for, and whether they write -/
  accepted : List (Nat × Bool)
  /-- the events between `hold` and `release` -/
  held : List Nat
  /-- the calls of `done`, with their cycles -/
  answered : List (Nat × Nat)
  /-- the requests whose column command has been issued -/
  served : List Nat
  /-- the commands, newest first -/
  commands : List Command

namespace DDRMemory

variable (c : Config)

/-- The constructor, which does not initialize `lastCmdWasWrite`. -/
def init (lastCmdWasWrite : Bool) : DDRMemory where
  minRespCycle := c.timing.tCL + c.timing.tBL + 1
  lastCmdWasWrite := lastCmdWasWrite
  rdQueue := []
  wrQueue := []
  overflowQueue := []
  banks := fun _ => .init
  rankActWindows := fun _ => .init
  scheduling := .init
  accepted := []
  held := []
  answered := []
  served := []
  commands := []

def useWrQueue (r : Request) : Bool := c.deferredWrites && r.write

def bank (s : DDRMemory) (r : Request) : Bank := s.banks r.loc.key

def setBank (s : DDRMemory) (r : Request) (b : Bank) : DDRMemory :=
  { s with banks := Function.update s.banks r.loc.key b }

/-- `!req->prev` -/
def isFirst (s : DDRMemory) (r : Request) : Bool :=
  ((s.bank r).reqs (useWrQueue c r)).head?.map Request.id = some r.id

def reqQueue (s : DDRMemory) (wr : Bool) : List Request := if wr then s.wrQueue else s.rdQueue

def setQueue (s : DDRMemory) (wr : Bool) (q : List Request) : DDRMemory :=
  if wr then { s with wrQueue := q } else { s with rdQueue := q }

def full (q : List Request) : Bool := c.queueDepth ≤ q.length

/-- `release` and `done` of a request's event. -/
def respond (s : DDRMemory) (ev doneCycle : Nat) : Option DDRMemory :=
  if ev ∈ s.held then
    some { s with held := s.held.erase ev, answered := (ev, doneCycle) :: s.answered }
  else none

/-! ### `queue` -/

/-- The last request for the row, with those before and behind it. -/
def lastOfRow (row : Nat) : List Request → Option (List Request × Request × List Request)
  | [] => none
  | r :: rest =>
    match lastOfRow row rest with
    | some (front, m, behind) => some (r :: front, m, behind)
    | none => if r.loc.row = row then some ([], r, rest) else none

/-- The place of a request in the list of its bank, in FR order. -/
def insert (b : Bank) (q : List Request) (req : Request) : Request × List Request :=
  match lastOfRow req.loc.row q with
  | some (front, m, behind) =>
    if m.rowHitSeq < c.rowHitLimit then
      let req := { req with rowHitSeq := m.rowHitSeq + 1 }
      (req, front ++ m :: req :: behind)
    else
      let req := { req with rowHitSeq := 0 }
      (req, q ++ [req])
  | none =>
    if b.isOpen ∧ req.loc.row = b.openRow ∧ b.curRowHits < c.rowHitLimit ∧ q = [] then
      let req := { req with rowHitSeq := b.curRowHits + 1 }
      (req, req :: q)
    else
      let req := { req with rowHitSeq := 0 }
      (req, q ++ [req])

/-- A write is answered when it is queued. -/
def respondWrite (s : DDRMemory) (req : Request) (memCycle : Nat) : Option (Request × DDRMemory) :=
  if req.write then do
    let ev ← req.ev
    let respCycle := c.memToSysCycle memCycle + c.minWrLatency
    let s ← s.respond ev (respCycle - c.preDelay - Config.postDelayWr)
    some ({ req with ev := none }, s)
  else some (req, s)

/-- `alloc` and `queue`. -/
def queue (s : DDRMemory) (req : Request) (memCycle : Nat) : Option (Request × DDRMemory) :=
  let wr := useWrQueue c req
  if full c (s.reqQueue wr) then none
  else do
    let (req, s) ← s.respondWrite c req memCycle
    let req := { req with arrivalCycle := memCycle }
    let b := s.bank req
    let (req, q) := insert c b (b.reqs wr) req
    some (req, (s.setBank req (b.setReqs wr q)).setQueue wr (s.reqQueue wr ++ [req]))

/-! ### `findMinCmdCycle` and `trySchedule` -/

/-- When the bank has to be activated for the request. -/
def actCycle (s : DDRMemory) (r : Request) : Nat :=
  let b := s.bank r
  let preCycle := if b.isOpen then max r.arrivalCycle b.minPreCycle else b.minPreCycle
  let actCycle := max r.arrivalCycle
    (max (preCycle + c.timing.tRP) (b.lastActCycle + c.timing.tRRD))
  max actCycle ((s.rankActWindows r.loc.rank).minActCycle + c.timing.tFAW)

def findMinCmdCycle (s : DDRMemory) (r : Request) : Nat :=
  if (s.bank r).rowHit r then max r.arrivalCycle ((s.bank r).lastCmdCycle + 1)
  else s.actCycle c r + c.timing.tRCD

def findReady (s : DDRMemory) (curCycle : Nat) :
    List Request → Option Nat → Option Request × Option Nat
  | [], minSchedCycle => (none, minSchedCycle)
  | r :: rest, minSchedCycle =>
    if s.isFirst c r then
      let minCmdCycle := s.findMinCmdCycle c r
      if minCmdCycle ≤ curCycle then (some r, some (minCycle minSchedCycle minCmdCycle))
      else findReady s curCycle rest (some (minCycle minSchedCycle minCmdCycle))
    else findReady s curCycle rest minSchedCycle

/-- Opens the row of the request; returns the bound that this puts on its command. -/
def openRow (s : DDRMemory) (r : Request) : Option (DDRMemory × Nat) :=
  let b := s.bank r
  if b.rowHit r then some (s, 0)
  else do
    let preCycle := max r.arrivalCycle b.minPreCycle
    let actCycle := s.actCycle c r
    let window ← (s.rankActWindows r.loc.rank).addActivation actCycle
    let b := { b with
      isOpen := true
      openRow := r.loc.row
      minPreCycle := if b.isOpen then preCycle + c.timing.tRAS else b.minPreCycle
      lastActCycle := actCycle }
    let s := { s.setBank r b with
      rankActWindows := Function.update s.rankActWindows r.loc.rank window
      commands := .act r.loc.key r.loc.row actCycle :: s.commands }
    some (s, actCycle + c.timing.tRCD)

/-- The column command, and what it leaves in the bank. -/
def issue (s : DDRMemory) (r : Request) (minCmdCycle : Nat) : Option DDRMemory :=
  let cmdCycle := max minCmdCycle (s.minRespCycle - c.timing.tCL)
  let minRespCycle := cmdCycle + c.timing.tCL + c.timing.tBL
  let b := s.bank r
  -- `r` is the first of its list, and `r->next` the second
  let nextHits := ((b.reqs (useWrQueue c r))[1]?).any fun next => next.rowHitSeq ≠ 0
  if b.lastCmdCycle < cmdCycle then
    let b := { b with
      isOpen := if c.closedPage && !nextHits then false else b.isOpen
      minPreCycle := max b.minPreCycle (max (b.lastActCycle + c.timing.tRAS)
        (if r.write then minRespCycle + c.timing.tWR else cmdCycle + c.timing.tRTP))
      lastCmdCycle := cmdCycle
      curRowHits := r.rowHitSeq }
    some { s.setBank r b with
      minRespCycle := minRespCycle
      lastCmdWasWrite := r.write
      commands := .column r.loc.key r.loc.row r.write cmdCycle :: s.commands }
  else none

/-- A read is answered when it is served. -/
def respondRead (s : DDRMemory) (r : Request) (sysCycle : Nat) : Option DDRMemory :=
  match r.ev with
  | some ev =>
    let doneSysCycle := c.memToSysCycle s.minRespCycle + c.controllerSysLatency
    if r.write = false ∧ sysCycle ≤ doneSysCycle then
      s.respond ev (doneSysCycle - c.preDelay - c.postDelayRd)
    else none
  | none => some s

def dequeue (s : DDRMemory) (isWriteQueue : Bool) (r : Request) : DDRMemory :=
  let b := s.bank r
  let s := s.setQueue isWriteQueue ((s.reqQueue isWriteQueue).eraseP fun x => x.id = r.id)
  let s := s.setBank r (b.setReqs isWriteQueue (b.reqs isWriteQueue).tail)
  { s with served := r.id :: s.served }

/-- The part of `trySchedule` behind the search. -/
def serve (s : DDRMemory) (curCycle sysCycle : Nat) (isWriteQueue : Bool) (r : Request) :
    Option (Option Nat × DDRMemory) := do
  let minCmdCycle := max curCycle (s.minRespCycle - c.timing.tCL)
  let minCmdCycle := if s.lastCmdWasWrite && !r.write then
    max minCmdCycle (s.minRespCycle + c.timing.tWTR) else minCmdCycle
  let (s, bound) ← s.openRow c r
  let s ← s.issue c r (max minCmdCycle bound)
  let s ← s.respondRead c r sysCycle
  let s := s.dequeue isWriteQueue r
  some (if s.rdQueue = [] ∧ s.wrQueue = [] then none else some (s.minRespCycle - c.timing.tCL), s)

def trySchedule (s : DDRMemory) (curCycle sysCycle : Nat) : Option (Option Nat × DDRMemory) :=
  if s.rdQueue = [] ∧ s.wrQueue = [] then some (none, s)
  else if curCycle + c.timing.tCL < s.minRespCycle then
    some (some (s.minRespCycle - c.timing.tCL), s)
  else
    let prioWrites := 3 * c.queueDepth / 4 < s.wrQueue.length ∨
      s.lastCmdWasWrite = true ∧ c.queueDepth / 4 < s.wrQueue.length
    let isWriteQueue : Bool := s.rdQueue = [] ∨ prioWrites
    let queue := s.reqQueue isWriteQueue
    if queue = [] then none
    else
      match s.findReady c curCycle queue none with
      | (none, minSchedCycle) => some (minSchedCycle, s)
      | (some r, _) => s.serve c curCycle sysCycle isWriteQueue r

/-! ### `enqueue`, `tick` and `refresh` -/

def minQueuedSchedCycle (s : DDRMemory) (memCycle : Nat) : Nat :=
  max memCycle (s.minRespCycle - c.timing.tCL - c.timing.tBL)

def scheduleFor (s : DDRMemory) (req : Request) (memCycle sysCycle : Nat) : Option DDRMemory :=
  let next := s.scheduling.nextSchedCycle
  let minSchedCycle := s.minQueuedSchedCycle c memCycle
  let minSchedCycle :=
    if later next minSchedCycle then max minSchedCycle (s.findMinCmdCycle c req) else minSchedCycle
  if later next minSchedCycle then do
    let enqSysCycle := max (c.matchingMemToSysCycle minSchedCycle) sysCycle
    let scheduling ← s.scheduling.schedule minSchedCycle enqSysCycle
    some { s with scheduling := scheduling }
  else some s

def enqueue (s : DDRMemory) (ev lineAddr : Nat) (isWrite : Bool) (sysCycle : Nat) :
    Option DDRMemory := do
  let memCycle := c.sysToMemCycle sysCycle
  let loc ← c.mapLineAddr lineAddr
  let req : Request :=
    { id := ev, loc := loc, write := isWrite, rowHitSeq := 0, arrivalCycle := memCycle, ev := some ev }
  let overflow := full c s.rdQueue || full c s.wrQueue
  let s := { s with held := ev :: s.held, accepted := (ev, isWrite) :: s.accepted }
  if overflow then some { s with overflowQueue := s.overflowQueue ++ [req] }
  else do
    let (req, s) ← s.queue c req memCycle
    if s.isFirst c req then s.scheduleFor c req memCycle sysCycle else some s

/-- One request of the overflow queue is queued, and may lower `minSchedCycle`. -/
def drainOverflow (s : DDRMemory) (memCycle : Nat) (minSchedCycle : Option Nat) :
    Option (Option Nat × DDRMemory) :=
  match s.overflowQueue with
  | [] => some (minSchedCycle, s)
  | ovfReq :: rest =>
    if full c s.rdQueue || full c s.wrQueue then some (minSchedCycle, s)
    else do
      let (req, s) ← { s with overflowQueue := rest }.queue c ovfReq memCycle
      if s.isFirst c req then
        let minQueued := s.minQueuedSchedCycle c memCycle
        let minSchedCycle := if later minSchedCycle minQueued then
          some (max minQueued (s.findMinCmdCycle c req)) else minSchedCycle
        some (if later minSchedCycle minQueued then some minQueued else minSchedCycle, s)
      else some (minSchedCycle, s)

/-- The result 0 is that of no further tick. -/
def tick (s : DDRMemory) (sysCycle : Nat) : Option (Nat × DDRMemory) := do
  let memCycle := c.sysToMemCycle sysCycle
  if s.scheduling.nextSchedCycle = some memCycle then do
    let (minSchedCycle, s) ← s.trySchedule c memCycle sysCycle
    if ∀ cycle ∈ minSchedCycle, memCycle ≤ cycle then do
      let (minSchedCycle, s) ← s.drainOverflow c memCycle minSchedCycle
      match minSchedCycle with
      | none => some (0, { s with scheduling :=
          { s.scheduling with nextSchedCycle := none, nextSchedEvent := none } })
      | some cycle => some (max (c.matchingMemToSysCycle cycle) sysCycle, { s with scheduling :=
          { s.scheduling with nextSchedCycle := some cycle } })
    else none
  else none

def setEvent (s : DDRMemory) (e : Nat) (event : SchedEvent) : DDRMemory :=
  { s with scheduling := s.scheduling.set e event }

def recycle (s : DDRMemory) (e : Nat) : Option DDRMemory := do
  let scheduling ← s.scheduling.recycle e
  some { s with scheduling := scheduling }

/-- `SchedEvent::simulate`. -/
def simulate (s : DDRMemory) (e : Nat) : Option DDRMemory :=
  let event := s.scheduling.events e
  match event.state with
  | .queued => do
    let (nextCycle, s) ← (s.setEvent e { event with state := .running }).tick c event.cycle
    if nextCycle ≠ 0 then some (s.setEvent e ⟨.queued, nextCycle⟩)
    else (s.setEvent e { event with state := .idle }).recycle e
  | .annulled => (s.setEvent e { event with state := .idle }).recycle e
  | _ => none

def refresh (s : DDRMemory) (sysCycle : Nat) : Option DDRMemory :=
  let memCycle := c.sysToMemCycle sysCycle
  let minRefreshCycle := c.banks.foldl (fun cycle key =>
    max cycle (max (s.banks key).minPreCycle (s.banks key).lastCmdCycle)) memCycle
  if memCycle ≤ minRefreshCycle ∧ c.timing.tRP ≤ c.timing.tRFC then
    let refreshDoneCycle := minRefreshCycle + c.timing.tRFC
    some { s with
      banks := fun key => if key ∈ c.banks then
        { s.banks key with minPreCycle := refreshDoneCycle - c.timing.tRP, isOpen := false }
        else s.banks key
      commands := .refresh minRefreshCycle refreshDoneCycle :: s.commands }
  else none

/-! ### The machine -/

inductive Input
  /-- a DDRMemoryAccEvent is simulated -/
  | enqueue (ev lineAddr : Nat) (isWrite : Bool) (sysCycle : Nat)
  | simulate (e : Nat)
  | refresh (sysCycle : Nat)
  /-- `tick` calls it at the cycle it was queued for; the commands do not depend on that -/
  | trySchedule (sysCycle : Nat)
  deriving DecidableEq, Repr

def step (s : DDRMemory) : Input → Option DDRMemory
  | .enqueue ev lineAddr isWrite sysCycle => s.enqueue c ev lineAddr isWrite sysCycle
  | .simulate e => s.simulate c e
  | .refresh sysCycle => s.refresh c sysCycle
  | .trySchedule sysCycle => (s.trySchedule c (c.sysToMemCycle sysCycle) sysCycle).map Prod.snd

def legal (s : DDRMemory) : Input → Prop
  | .enqueue ev lineAddr _ _ => ev ∉ s.accepted.map Prod.fst ∧ (c.mapLineAddr lineAddr).isSome = true
  | .simulate e => (s.scheduling.events e).state = .queued ∨ (s.scheduling.events e).state = .annulled
  | .refresh _ | .trySchedule _ => True

end DDRMemory

def machine (c : Config) : Machine DDRMemory DDRMemory.Input := ⟨DDRMemory.legal c, DDRMemory.step c⟩

instance decidableLegal (c : Config) (s : DDRMemory) : ∀ input, Decidable ((machine c).legal s input)
  | .enqueue ev lineAddr _ _ => inferInstanceAs (Decidable (ev ∉ s.accepted.map Prod.fst ∧
      (c.mapLineAddr lineAddr).isSome = true))
  | .simulate e => inferInstanceAs (Decidable ((s.scheduling.events e).state = .queued ∨
      (s.scheduling.events e).state = .annulled))
  | .refresh _ | .trySchedule _ => .isTrue trivial

end Zsim.DDR
