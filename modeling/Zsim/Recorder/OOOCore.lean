import Mathlib.Data.List.Sort
import Zsim.Lib.Machine
import Zsim.Lib.Word
import Zsim.Recorder.Events

/-!
# The recorder of an out-of-order core

`OOOCoreRecorder` of ooo_core_recorder.cpp with the `OOOCore` that drives it.  An issue event
waits for the issue event before it and for the responses before it in the zero-load clock.
The `minStartCycle` of other events than issue events is left out, as are the numbers of the
events, which are only traced.
-/

set_option autoImplicit false

namespace Zsim.Recorder

inductive Failure where
  | assertion
  /-- an assertion of `addIssueEvent` on zero-load cycles -/
  | zeroLoad
  | negativeSkew
  /-- the assertion of `cSimEnd` that a core without a last event is draining -/
  | notDraining
  deriving DecidableEq

structure IssueEvent where
  ev : Nat
  zllStartCycle : Nat
  deriving DecidableEq

structure FutureResponse where
  zllStartCycle : Nat
  /-- null once the event has been simulated -/
  ev : Option Nat
  deriving DecidableEq

structure OOOCoreRecorder where
  state : State
  gapCycles : Nat
  lastEvProduced : Option IssueEvent
  /-- the entries of the heap, in the order in which they are popped -/
  futureResponses : List FutureResponse
  lastEvSimulatedZllStartCycle : Nat
  lastEvSimulatedStartCycle : Nat
  totalGapCycles : Nat
  totalHaltedCycles : Nat
  lastUnhaltedCycle : Nat
  startSlack : Nat
  deriving DecidableEq

structure OOOCore where
  curCycle : Nat
  phaseEndCycle : Nat
  /-- The thread of the core is in `TakeBarrier`. -/
  atBarrier : Bool
  cRec : OOOCoreRecorder
  events : List TimingEvent
  globPhaseCycles : Nat
  inCSim : Bool
  deriving DecidableEq

def FutureResponse.Before (a b : FutureResponse) : Prop := a.zllStartCycle ≤ b.zllStartCycle

instance (a b : FutureResponse) : Decidable (a.Before b) :=
  inferInstanceAs (Decidable (_ ≤ _))

/-- A response that has been simulated is forgotten. -/
def FutureResponse.refresh (events : List TimingEvent) (fr : FutureResponse) :
    FutureResponse :=
  { fr with ev := fr.ev.filter fun ev => Unstarted events ev }

/-- `addChild` with its assertion. -/
def add (events : List TimingEvent) (parents : List Nat) (kind : EventKind) (preDelay : Nat) :
    Except Failure (List TimingEvent × Nat) :=
  match addChild events parents kind preDelay 0 with
  | some added => .ok added
  | none => .error .assertion

/-- The first loop of `addIssueEvent`: the responses that stay, the cycle of the last one that is
linked, and the parents of the issue event. -/
def linkResponses (events : List TimingEvent) (zllCycle lastZllCycle : Nat) :
    List FutureResponse → Nat → List Nat →
      Except Failure (List FutureResponse × Nat × List Nat)
  | [], maxCycle, parents => .ok ([], maxCycle, parents)
  | firstResp :: rest, maxCycle, parents =>
    if zllCycle ≤ firstResp.zllStartCycle then .ok (firstResp :: rest, maxCycle, parents)
    else
      match firstResp.ev with
      | some ev =>
        if ¬ Unstarted events ev then .error .assertion
        else if maxCycle ≤ firstResp.zllStartCycle ∧ lastZllCycle ≤ firstResp.zllStartCycle then
          linkResponses events zllCycle lastZllCycle rest firstResp.zllStartCycle (parents ++ [ev])
        else .error .zeroLoad
      -- this event was already simulated
      | none => linkResponses events zllCycle lastZllCycle rest maxCycle parents

def issuePreDelay (maxCycle zllCycle : Nat) : Nat :=
  if maxCycle = 0 then 0 else if maxCycle < zllCycle then u32 (zllCycle - maxCycle) else 0

/-- Links a dispatch event with the responses before it, each through a delay. -/
def linkDispatch (zllDispatchCycle : Nat) :
    List FutureResponse → List TimingEvent → List Nat →
      Except Failure (List TimingEvent × List Nat)
  | [], events, parents => .ok (events, parents)
  | fr :: rest, events, parents =>
    match fr.ev with
    | some ev =>
      if fr.zllStartCycle < zllDispatchCycle then do
        let (events, dl) ← add events [ev] .delay (u32 (zllDispatchCycle - fr.zllStartCycle))
        linkDispatch zllDispatchCycle rest events (parents ++ [dl])
      else linkDispatch zllDispatchCycle rest events parents
    | none => linkDispatch zllDispatchCycle rest events parents

/-- The events between an issue event and its response. -/
def linkAccess (events : List TimingEvent) (issueEv : Nat) (tr : TimingRecord)
    (curCycle dispatchCycle respCycle gapCycles : Nat) (responses : List FutureResponse) :
    Except Failure (List TimingEvent × Nat) := do
  let (events, dDisp) ← add events [issueEv] .delay (u32 (dispatchCycle - curCycle))
  let (events, dls) ← linkDispatch (dispatchCycle - gapCycles) responses events []
  let (events, dispEv) ← add events (dDisp :: dls) .dispatch 0
  -- link request
  let (events, dUp) ← add events [dispEv] .delay (u32 (tr.reqCycle - dispatchCycle))
  let (events, endEvent) ← add events [dUp] .record tr.latency
  -- link response
  if tr.respCycle ≤ respCycle then add events [endEvent] .resp (u32 (respCycle - tr.respCycle))
  else .error .assertion

namespace OOOCore

def init : OOOCore where
  curCycle := 0
  phaseEndCycle := 0
  atBarrier := false
  cRec :=
    { state := .halted
      gapCycles := 0
      lastEvProduced := none
      futureResponses := []
      lastEvSimulatedZllStartCycle := 0
      lastEvSimulatedStartCycle := 0
      totalGapCycles := 0
      totalHaltedCycles := 0
      lastUnhaltedCycle := 0
      startSlack := 0 }
  events := []
  globPhaseCycles := 0
  inCSim := false

variable (c : PhaseConfig) (s : OOOCore)

def nextPhaseCycle : Nat := s.globPhaseCycles + c.phaseLength

/-! ### The bound phase -/

/-- Its delay is made before the issue event here; the source makes it afterwards. -/
def addIssueEvent (evCycle : Nat) : Except Failure OOOCore :=
  match s.cRec.lastEvProduced with
  | none => .error .assertion
  | some last =>
    let zllCycle := evCycle - s.cRec.gapCycles
    if last.zllStartCycle ≤ zllCycle then do
      -- 1. link with prior outstanding responses
      let (futureResponses, maxCycle, parents) ←
        linkResponses s.events zllCycle last.zllStartCycle s.cRec.futureResponses 0 []
      let preDelay := issuePreDelay maxCycle zllCycle
      -- 2. link with prior issue event
      let issueDelay := u32 (u64Sub (zllCycle - last.zllStartCycle) preDelay)
      let (events, dIssue) ← add s.events [last.ev] .delay issueDelay
      let (events, ev) ← add events (parents ++ [dIssue]) (.core zllCycle evCycle) preDelay
      .ok
        { s with
          events := events
          cRec :=
            { s.cRec with
              lastEvProduced := some ⟨ev, zllCycle⟩
              futureResponses := futureResponses } }
    else .error .zeroLoad

/-- The core advances only to a later cycle. -/
def notifyJoin : Except Failure OOOCore :=
  let r := s.cRec
  match r.state with
  | .halted =>
    let curCycle := s.globPhaseCycles
    if r.lastEvProduced = none ∧ r.lastUnhaltedCycle ≤ curCycle then
      .ok
        { s with
          curCycle := max s.curCycle curCycle
          cRec :=
            { r with
              state := .running
              totalGapCycles := r.totalGapCycles + r.gapCycles
              gapCycles := 0
              totalHaltedCycles := r.totalHaltedCycles + (curCycle - r.lastUnhaltedCycle)
              lastEvProduced := some ⟨s.events.length, curCycle⟩
              startSlack := 0 }
          events := s.events ++ [⟨.core curCycle curCycle, .queued curCycle, 0, 0, none⟩] }
    else .error .assertion
  | .draining =>
    if s.globPhaseCycles ≤ s.curCycle ∧ r.lastEvProduced ≠ none then do
      let s ← s.addIssueEvent s.curCycle
      .ok { s with cRec := { s.cRec with state := .running } }
    else .error .assertion
  | .running => .error .assertion

def join : Except Failure OOOCore := do
  let s ← s.notifyJoin
  .ok { s with phaseEndCycle := s.nextPhaseCycle c }

def leave : Except Failure OOOCore :=
  match s.cRec.state, s.cRec.lastEvProduced with
  | .running, some last =>
    if last.zllStartCycle ≤ s.curCycle - s.cRec.gapCycles then
      { s with atBarrier := false, cRec := { s.cRec with state := .draining } }.addIssueEvent
        s.curCycle
    else .error .assertion
  | _, _ => .error .assertion

def recordGet (tr : TimingRecord) (dispatchCycle respCycle : Nat) : Except Failure OOOCore := do
  let s ← s.addIssueEvent s.curCycle
  match s.cRec.lastEvProduced with
  | none => .error .assertion
  | some last =>
    let (events, respEvent) ← linkAccess s.events last.ev tr s.curCycle dispatchCycle respCycle
      s.cRec.gapCycles s.cRec.futureResponses
    let response := ⟨respCycle - s.cRec.gapCycles, some respEvent⟩
    .ok
      { s with
        events := events
        cRec :=
          { s.cRec with
            futureResponses := s.cRec.futureResponses.orderedInsert FutureResponse.Before
              response } }

def recordPut (tr : TimingRecord) : Except Failure OOOCore :=
  match s.cRec.lastEvProduced with
  | none => .error .assertion
  | some last => do
    let (events, putUp) ← add s.events [last.ev] .delay (u32 (tr.reqCycle - s.curCycle))
    let (events, _) ← add events [putUp] .record tr.latency
    .ok { s with events := events }

def recordAccess (tr : TimingRecord) (dispatchCycle respCycle : Nat) : Except Failure OOOCore :=
  match tr.type with
  | .get => s.recordGet tr dispatchCycle respCycle
  | .put => s.recordPut tr

/-! ### Between the phases -/

def cSimStart : Except Failure OOOCore :=
  let r := s.cRec
  let nextPhaseCycle := s.nextPhaseCycle c
  let s := { s with inCSim := true }
  match r.state with
  | .halted => .ok s
  | .running =>
    match r.lastEvProduced with
    | none => .error .assertion
    | some last =>
      if nextPhaseCycle < s.curCycle ∧ last.zllStartCycle ≤ s.curCycle - r.gapCycles then
        -- taper phase if it is not already tapered
        if last.zllStartCycle < nextPhaseCycle - r.gapCycles then s.addIssueEvent nextPhaseCycle
        else .ok s
      else .error .assertion
  | .draining =>
    .ok
      { s with
        curCycle := max s.curCycle nextPhaseCycle
        cRec := { r with futureResponses := [] } }

/-- Adjusts the clock of the core to the contention; then the next phase begins. -/
def cSimEnd : Except Failure OOOCore :=
  let r := s.cRec
  let s := { s with inCSim := false, atBarrier := false, globPhaseCycles := s.nextPhaseCycle c }
  if r.state = .halted then .ok s
  else
    let lastEvCycle1 := r.lastEvSimulatedZllStartCycle + r.gapCycles
    let lastEvCycle2 := r.lastEvSimulatedStartCycle
    if ¬ (lastEvCycle1 ≤ s.curCycle ∧ lastEvCycle2 ≤ s.curCycle) then .error .assertion
    else if lastEvCycle2 < lastEvCycle1 then .error .negativeSkew
    else
      let skew := lastEvCycle2 - lastEvCycle1
      let r :=
        { r with
          gapCycles := r.gapCycles + skew
          futureResponses := r.futureResponses.map (FutureResponse.refresh s.events) }
      let s := { s with curCycle := s.curCycle + skew }
      if r.lastEvProduced ≠ none then .ok { s with cRec := r }
      else if r.state ≠ .draining then .error .notDraining
      else if r.futureResponses ≠ [] then .error .assertion
      else .ok { s with cRec := { r with lastUnhaltedCycle := lastEvCycle2, state := .halted } }

/-! ### The weave phase -/

def reportIssueEventSimulated (ev startCycle zllStartCycle : Nat) : OOOCore :=
  { s with
    cRec :=
      { s.cRec with
        lastEvSimulatedZllStartCycle := zllStartCycle
        lastEvSimulatedStartCycle := startCycle
        lastEvProduced :=
          if s.cRec.lastEvProduced.map IssueEvent.ev = some ev then none else s.cRec.lastEvProduced
        startSlack := startCycle - zllStartCycle } }

def simulate (ev cycle : Nat) : Except Failure OOOCore :=
  match s.events[ev]? with
  | some event =>
    if event.startCycle = none then
      let s := { s with events := s.events.set ev { event with startCycle := some cycle } }
      match event.kind with
      | .core zllStartCycle minStartCycle =>
        if minStartCycle ≤ cycle then .ok (s.reportIssueEventSimulated ev cycle zllStartCycle)
        else .error .assertion
      | _ => .ok s
    else .error .assertion
  | none => .error .assertion

/-! ### Runs -/

inductive Op where
  | join
  | leave
  /-- instructions, and accesses that leave no record -/
  | advance (cycles : Nat)
  | access (tr : TimingRecord) (dispatchCycle respCycle : Nat)
  | takeBarrier
  | cSimStart
  | simulate (ev cycle : Nat)
  | cSimEnd

def perform : Op → Except Failure OOOCore
  | .join => s.join c
  | .leave => s.leave
  | .advance cycles => .ok { s with curCycle := s.curCycle + cycles }
  | .access tr dispatchCycle respCycle => s.recordAccess tr dispatchCycle respCycle
  | .takeBarrier =>
    .ok { s with atBarrier := true, phaseEndCycle := s.phaseEndCycle + c.phaseLength }
  | .cSimStart => s.cSimStart c
  | .simulate ev cycle => s.simulate ev cycle
  | .cSimEnd => s.cSimEnd c

def Executes : Prop := s.inCSim = false ∧ s.cRec.state = .running ∧ s.atBarrier = false

/-- Which operations the scheduler, the core, the caches, the barrier and the contention
simulation present to a recorder. -/
def legal : Op → Prop
  | .join => s.inCSim = false ∧ s.cRec.state ≠ .running
  | .leave => s.inCSim = false ∧ s.cRec.state = .running
  | .advance _ => s.Executes
  | .access tr dispatchCycle respCycle =>
    s.Executes ∧ s.curCycle ≤ dispatchCycle ∧ dispatchCycle ≤ tr.reqCycle ∧
      tr.reqCycle ≤ tr.respCycle ∧ tr.respCycle ≤ respCycle
  | .takeBarrier => s.Executes ∧ s.phaseEndCycle < s.curCycle
  | .cSimStart => s.inCSim = false ∧ (s.cRec.state = .running → s.atBarrier = true)
  | .simulate ev cycle => s.inCSim = true ∧ Simulates s.events c (s.nextPhaseCycle c) ev cycle
  | .cSimEnd => s.inCSim = true ∧ ∀ event ∈ s.events, Drained (s.nextPhaseCycle c) event

def issueCycle : Op → Option Nat
  | .join => if s.cRec.state = .draining then some s.curCycle else none
  | .leave => some s.curCycle
  | .access tr _ _ => if tr.type = .get then some s.curCycle else none
  | .cSimStart =>
    match s.cRec.state, s.cRec.lastEvProduced with
    | .running, some last =>
      if last.zllStartCycle < s.nextPhaseCycle c - s.cRec.gapCycles then some (s.nextPhaseCycle c)
      else none
    | _, _ => none
  | _ => none

/-- An issue event is less than 2 ^ 32 cycles after the one before it in the zero-load clock. -/
def DelayFits (op : Op) : Prop :=
  ∀ evCycle ∈ s.issueCycle c op, ∀ last ∈ s.cRec.lastEvProduced,
    evCycle - s.cRec.gapCycles - last.zllStartCycle < 2 ^ 32

/-- A run ends at the first failure. -/
def machine : Machine OOOCore Op where
  legal := legal c
  step s op := (s.perform c op).toOption

section

variable {c s}

instance : Decidable s.Executes := inferInstanceAs (Decidable (_ ∧ _ ∧ _))

instance (s : OOOCore) (op : Op) : Decidable ((machine c).legal s op) := by
  cases op with
  | join => exact inferInstanceAs (Decidable (_ ∧ _))
  | leave => exact inferInstanceAs (Decidable (_ ∧ _))
  | advance _ => exact inferInstanceAs (Decidable s.Executes)
  | access _ _ _ => exact inferInstanceAs (Decidable (s.Executes ∧ _))
  | takeBarrier => exact inferInstanceAs (Decidable (s.Executes ∧ _))
  | cSimStart => exact inferInstanceAs (Decidable (_ ∧ (_ → _)))
  | simulate _ _ => exact inferInstanceAs (Decidable (_ ∧ Simulates _ _ _ _ _))
  | cSimEnd => exact inferInstanceAs (Decidable (_ ∧ ∀ event ∈ s.events, Drained _ event))

instance (s : OOOCore) (op : Op) : Decidable (DelayFits c s op) :=
  inferInstanceAs (Decidable (∀ _ ∈ _, _))

end

end OOOCore

end Zsim.Recorder
