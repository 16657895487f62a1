import Mathlib.Algebra.Group.Nat.Defs
import Zsim.Lib.Machine
import Zsim.PrioQueue.Model

/-!
# The contention simulation

`ContentionSim` of contention_sim.cpp: domains with a priority queue of events and a
published clock, and the two loops of `simulatePhaseThread`, one event at a time.  What an
event does is left to the inputs of the machine: while it runs it may enqueue events in
its own domain and set the priority of the domain.  `none` is a failed assertion.
-/

set_option autoImplicit false

namespace Zsim.Contention

structure Config where
  numDomains : Nat
  numSimThreads : Nat
  phaseLength : Nat
  threadsPos : 0 < numSimThreads
  multiple : numDomains % numSimThreads = 0

namespace Config

variable (c : Config)

def firstDomain (thid : Nat) : Nat := thid * c.numDomains / c.numSimThreads

def supDomain (thid : Nat) : Nat := (thid + 1) * c.numDomains / c.numSimThreads

def thDomains (thid : Nat) : Nat := c.supDomain thid - c.firstDomain thid

end Config

/-- PQ_BLOCKS -/
def pqBlocks : Nat := 1024

/-- The number of blocks of 64 cycles, which bounds the loop of `dequeue`. -/
def pqFuel : Nat := 2 ^ 58

/-! ## A domain -/

/-- What happened in a domain, newest first. -/
inductive Entry (T : Type) where
  | published (cycle : Nat)
  | executed (ev : T) (cycle : Nat)
  deriving DecidableEq, Repr

def Entry.cycle {T : Type} : Entry T → Nat
  | .published cycle | .executed _ cycle => cycle

/-- What the proofs keep track of: the events in the queue, and those that were there
when the phase began, were enqueued and were executed since. -/
structure Trace (T : Type) where
  queued : List (Nat × T)
  before : List (Nat × T)
  enqueued : List (Nat × T)
  executed : List (Nat × T)
  history : List (Entry T)

structure Domain (T : Type) where
  pq : PrioQueue T
  curCycle : Nat
  prio : Nat
  queuePrio : Nat
  trace : Trace T

namespace Domain

variable {T : Type} [DecidableEq T]

def init : Domain T := ⟨PrioQueue.init fun _ => none, 0, 0, 0, ⟨[], [], [], [], []⟩⟩

/-- A store to `curCycle`. -/
def publish (cycle : Nat) (d : Domain T) : Domain T :=
  { d with
    curCycle := cycle
    trace := { d.trace with history := .published cycle :: d.trace.history } }

def enqueue (ev : T) (cycle : Nat) (d : Domain T) : Option (Domain T) := do
  let pq ← d.pq.enqueue pqBlocks ev cycle
  some
    { d with
      pq := pq
      trace := { d.trace with
        queued := (cycle, ev) :: d.trace.queued
        enqueued := (cycle, ev) :: d.trace.enqueued } }

/-- `pq.firstCycle()`, or `none` for an empty queue. -/
def firstCycle (d : Domain T) : Option Nat :=
  if d.pq.size ≠ 0 then d.pq.firstCycle pqBlocks else none

def advance (cycle : Nat) (d : Domain T) : Domain T :=
  if cycle ≠ d.curCycle then d.publish cycle else d

/-- The event has been taken out of the queue and is run. -/
def execute (pq : PrioQueue T) (te : T) (cycle : Nat) (d : Domain T) : Domain T :=
  { d with
    pq := pq
    trace := { d.trace with
      queued := d.trace.queued.erase (cycle, te)
      executed := (cycle, te) :: d.trace.executed
      history := .executed te cycle :: d.trace.history } }

def start (d : Domain T) : Option (Domain T) :=
  match d.pq.dequeue pqBlocks pqFuel with
  | .error _ => none
  | .ok (pq, te, cycle) => some ((d.advance cycle).execute pq te cycle)

def newCycle (limit : Nat) (d : Domain T) : Nat := d.firstCycle.getD limit

end Domain

/-! ## The threads -/

inductive Place
  | domains | stalled
  deriving DecidableEq, Repr

/-- `domPq`, the two stalled queues with their backs first, and `numFinished`. -/
structure Queues where
  domPq : List Nat
  stalledQueue : List Nat
  nextStalledQueue : List Nat
  numFinished : Nat
  place : Place
  deriving DecidableEq, Repr

inductive Loop
  | single
  | several (q : Queues)
  deriving DecidableEq, Repr

/-- A thread in a phase, and the domain whose event it runs. -/
structure Thread where
  loop : Loop
  running : Option Nat
  deriving DecidableEq, Repr

/-- A thread waits on its `wakeLock` where it is `none`. -/
structure ContentionSim (T : Type) where
  domains : Nat → Domain T
  threads : Nat → Option Thread
  limit : Nat
  lastLimit : Nat
  inCSim : Bool

namespace ContentionSim

variable {T : Type} [DecidableEq T] (c : Config)

def init : ContentionSim T := ⟨fun _ => .init, fun _ => none, 0, 0, false⟩

def setDomain (s : ContentionSim T) (i : Nat) (d : Domain T) : ContentionSim T :=
  { s with domains := Function.update s.domains i d }

def setThread (s : ContentionSim T) (thid : Nat) (th : Option Thread) : ContentionSim T :=
  { s with threads := Function.update s.threads thid th }

def enqueue (i : Nat) (ev : T) (cycle : Nat) (s : ContentionSim T) : Option (ContentionSim T) :=
  if s.inCSim = true ∧ s.lastLimit ≤ cycle ∧
      cycle < u64 (s.lastLimit + u32 (10 * c.phaseLength) + 1000000) ∧
      (s.domains i).curCycle ≤ cycle then do
    let d ← (s.domains i).enqueue ev cycle
    some (s.setDomain i d)
  else none

def enqueueSynced (i : Nat) (ev : T) (cycle : Nat) (s : ContentionSim T) :
    Option (ContentionSim T) :=
  if s.inCSim = false ∧ s.lastLimit ≤ cycle ∧
      cycle < u64 (s.lastLimit + u32 (10 * c.phaseLength) + 10000) then do
    let d ← (s.domains i).enqueue ev cycle
    some (s.setDomain i d)
  else none

/-- The start of `simulatePhaseThread`. -/
def startThread (thid : Nat) : Option Thread :=
  if thid < c.numSimThreads then
    if c.thDomains thid = 1 then some ⟨.single, none⟩
    else
      some ⟨.several
        { domPq := List.range' (c.firstDomain thid) (c.thDomains thid)
          stalledQueue := []
          nextStalledQueue := []
          numFinished := 0
          place := .domains }, none⟩
  else none

def simulatePhase (limit : Nat) (s : ContentionSim T) : Option (ContentionSim T) :=
  if s.lastLimit ≤ limit then
    some
      { s with
        domains := fun i =>
          { s.domains i with
            trace := { (s.domains i).trace with
              before := (s.domains i).trace.queued
              enqueued := []
              executed := [] } }
        threads := startThread c
        limit := limit
        inCSim := true }
  else none

/-- The end of `simulatePhase`, when the last thread has unlocked `waitLock`. -/
def phaseEnd (s : ContentionSim T) : Option (ContentionSim T) :=
  some { s with inCSim := false, lastLimit := s.limit }

/-! ### One domain for the thread -/

/-- The test of the `while` and, if it holds, its body up to the start of the event. -/
def turnSingle (thid : Nat) (s : ContentionSim T) : Option (ContentionSim T) :=
  let i := c.firstDomain thid
  let d := s.domains i
  match d.firstCycle with
  | some first =>
    if first < s.limit then do
      let d' ← d.start
      -- the cycle that was dequeued is the one that is published now
      if d.curCycle ≤ d'.curCycle then
        some ((s.setDomain i d').setThread thid (some ⟨.single, some i⟩))
      else none
    else some ((s.setDomain i (d.publish s.limit)).setThread thid none)
  | none => some ((s.setDomain i (d.publish s.limit)).setThread thid none)

def returnedSingle (thid i : Nat) (s : ContentionSim T) : Option (ContentionSim T) :=
  let d := s.domains i
  let newCycle := d.newCycle s.limit
  if d.curCycle ≤ newCycle then
    some ((s.setDomain i (d.advance newCycle)).setThread thid (some ⟨.single, none⟩))
  else none

/-! ### Several domains for the thread -/

/-- The ends of the body of the loop over the stalled domains, of that loop and of the
outer loop. -/
def afterStalled (thDomains : Nat) (q : Queues) : Option Queues :=
  if q.domPq ≠ [] ∨ q.stalledQueue = [] then
    let q :=
      if q.stalledQueue = [] then
        { q with stalledQueue := q.nextStalledQueue, nextStalledQueue := [] }
      else q
    if q.numFinished < thDomains then some { q with place := .domains } else none
  else some q

def queuesThread (q : Option Queues) : Option Thread := q.map fun q => ⟨.several q, none⟩

/-- The common body of both inner loops, up to the start of the event; `after` is what
follows in the loop when the domain is finished. -/
def turnDomain (thid i : Nat) (q : Queues) (after : Queues → Option Queues)
    (s : ContentionSim T) : Option (ContentionSim T) :=
  let d := s.domains i
  let finished : Option (ContentionSim T) :=
    some ((s.setDomain i (d.publish s.limit)).setThread thid
      (queuesThread (after { q with numFinished := q.numFinished + 1 })))
  match d.firstCycle with
  | none => finished
  | some first =>
    if s.limit < first then finished
    else do
      let d' ← d.start
      some ((s.setDomain i d').setThread thid (some ⟨.several q, some i⟩))

/-- `pick` is the top of `domPq`. -/
def turnSeveral (thid pick : Nat) (q : Queues) (s : ContentionSim T) : Option (ContentionSim T) :=
  match q.place with
  | .domains =>
    if q.domPq = [] then
      some (s.setThread thid (queuesThread
        (afterStalled (c.thDomains thid) { q with place := .stalled })))
    else s.turnDomain thid pick { q with domPq := q.domPq.erase pick } some
  | .stalled =>
    match q.stalledQueue with
    | [] => none
    | i :: rest => s.turnDomain thid i { q with stalledQueue := rest } (afterStalled (c.thDomains thid))

/-- Where the loops put a domain with the priority after its event. -/
def requeue (thDomains i prio : Nat) (q : Queues) : Option Queues :=
  match q.place with
  | .domains =>
    if prio = 0 then some { q with domPq := i :: q.domPq }
    else some { q with stalledQueue := i :: q.stalledQueue }
  | .stalled =>
    if prio = 0 then afterStalled thDomains { q with domPq := i :: q.domPq }
    else afterStalled thDomains { q with nextStalledQueue := i :: q.nextStalledQueue }

def returnedSeveral (thid i : Nat) (q : Queues) (s : ContentionSim T) : Option (ContentionSim T) :=
  let d := (s.domains i).publish ((s.domains i).newCycle s.limit)
  let d := { d with queuePrio := d.curCycle }
  some ((s.setDomain i d).setThread thid (queuesThread (requeue (c.thDomains thid) i d.prio q)))

/-! ## The machine -/

/-- The event that runs is the one of the thread's `running` domain. -/
inductive Input (T : Type) where
  | enqueueSynced (domain : Nat) (ev : T) (cycle : Nat)
  | simulatePhase (limit : Nat)
  /-- the thread goes on to its next event, of the domain `pick` if it takes a top -/
  | turn (thid pick : Nat)
  | enqueue (thid : Nat) (ev : T) (cycle : Nat)
  | setPrio (thid prio : Nat)
  | returned (thid : Nat)
  | phaseEnd
  deriving DecidableEq, Repr

def turn (thid pick : Nat) (s : ContentionSim T) : Option (ContentionSim T) := do
  let th ← s.threads thid
  match th.running, th.loop with
  | some _, _ => none
  | none, .single => s.turnSingle c thid
  | none, .several q => s.turnSeveral c thid pick q

def returned (thid : Nat) (s : ContentionSim T) : Option (ContentionSim T) := do
  let th ← s.threads thid
  let i ← th.running
  match th.loop with
  | .single => s.returnedSingle thid i
  | .several q => s.returnedSeveral c thid i q

def step (s : ContentionSim T) : Input T → Option (ContentionSim T)
  | .enqueueSynced i ev cycle => s.enqueueSynced c i ev cycle
  | .simulatePhase limit => s.simulatePhase c limit
  | .turn thid pick => s.turn c thid pick
  | .enqueue thid ev cycle => do
    let th ← s.threads thid
    let i ← th.running
    s.enqueue c i ev cycle
  | .setPrio thid prio => do
    let th ← s.threads thid
    let i ← th.running
    some (s.setDomain i { s.domains i with prio := prio })
  | .returned thid => s.returned c thid
  | .phaseEnd => s.phaseEnd

def Fresh (s : ContentionSim T) (i : Nat) (ev : T) : Prop :=
  (s.domains i).pq.next ev = none ∧ ev ∉ (s.domains i).trace.queued.map Prod.snd

/-- `pick` is a top of `domPq`: no other domain precedes it in `CompareDomains`. -/
def IsTop (s : ContentionSim T) (pick : Nat) (domPq : List Nat) : Prop :=
  pick ∈ domPq ∧ ∀ i ∈ domPq, (s.domains pick).queuePrio ≤ (s.domains i).queuePrio

def legal (s : ContentionSim T) : Input T → Prop
  | .enqueueSynced i ev _ => s.inCSim = false ∧ i < c.numDomains ∧ s.Fresh i ev
  | .simulatePhase _ => s.inCSim = false
  | .turn thid pick =>
    match s.threads thid with
    | some ⟨.several ⟨d :: rest, _, _, _, .domains⟩, none⟩ => s.IsTop pick (d :: rest)
    | some ⟨_, none⟩ => True
    | _ => False
  | .enqueue thid ev _ =>
    match s.threads thid with
    | some ⟨_, some i⟩ => s.Fresh i ev
    | _ => False
  | .setPrio thid _ | .returned thid =>
    match s.threads thid with
    | some ⟨_, some _⟩ => True
    | _ => False
  | .phaseEnd => s.inCSim = true ∧ ∀ thid < c.numSimThreads, s.threads thid = none

instance decidableFresh (s : ContentionSim T) (i : Nat) (ev : T) : Decidable (s.Fresh i ev) :=
  inferInstanceAs (Decidable (_ ∧ _))

instance decidableIsTop (s : ContentionSim T) (pick : Nat) (domPq : List Nat) :
    Decidable (s.IsTop pick domPq) :=
  inferInstanceAs (Decidable (_ ∧ _))

instance decidableLegal (s : ContentionSim T) : ∀ input, Decidable (s.legal c input)
  | .enqueueSynced _ _ _ => inferInstanceAs (Decidable (_ ∧ _))
  | .simulatePhase _ => inferInstanceAs (Decidable (_ = _))
  | .turn thid pick =>
    match isThread : s.threads thid with
    | some ⟨.several ⟨d :: rest, _, _, _, .domains⟩, none⟩ =>
      decidable_of_iff (s.IsTop pick (d :: rest)) (by simp only [legal, isThread])
    | some ⟨.several ⟨[], _, _, _, .domains⟩, none⟩ => .isTrue (by simp only [legal, isThread])
    | some ⟨.several ⟨_, _, _, _, .stalled⟩, none⟩ => .isTrue (by simp only [legal, isThread])
    | some ⟨.single, none⟩ => .isTrue (by simp only [legal, isThread])
    | some ⟨_, some _⟩ => .isFalse (by simp only [legal, isThread, not_false_eq_true])
    | none => .isFalse (by simp only [legal, isThread, not_false_eq_true])
  | .enqueue thid ev _ =>
    match isThread : s.threads thid with
    | some ⟨_, some i⟩ => decidable_of_iff (s.Fresh i ev) (by simp only [legal, isThread])
    | some ⟨_, none⟩ => .isFalse (by simp only [legal, isThread, not_false_eq_true])
    | none => .isFalse (by simp only [legal, isThread, not_false_eq_true])
  | .setPrio thid _ | .returned thid =>
    match isThread : s.threads thid with
    | some ⟨_, some _⟩ => .isTrue (by simp only [legal, isThread])
    | some ⟨_, none⟩ => .isFalse (by simp only [legal, isThread, not_false_eq_true])
    | none => .isFalse (by simp only [legal, isThread, not_false_eq_true])
  | .phaseEnd => inferInstanceAs (Decidable (_ ∧ _))

end ContentionSim

open ContentionSim in
def machine {T : Type} [DecidableEq T] (c : Config) : Machine (ContentionSim T) (Input T) :=
  ⟨legal c, step c⟩

instance decidableMachineLegal {T : Type} [DecidableEq T] (c : Config) (s : ContentionSim T)
    (input : ContentionSim.Input T) : Decidable ((machine c).legal s input) :=
  s.decidableLegal c input

end Zsim.Contention
