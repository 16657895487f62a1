import Zsim.Lib.Machine
import Zsim.Lib.Word
import Zsim.Recorder.Events

/-!
# The recorder of a timing core

`CoreRecorder` of core_recorder.cpp with the `TimingCore` that drives it.  `none` is a failed
assertion, a panic, or a use of a null `prevRespEvent`.
-/

set_option autoImplicit false

namespace Zsim.Recorder

structure CoreRecorder where
  state : State
  gapCycles : Nat
  prevRespCycle : Nat
  prevRespEvent : Option Nat
  lastEventSimulatedStartCycle : Nat
  lastEventSimulatedOrigStartCycle : Nat
  totalGapCycles : Nat
  totalHaltedCycles : Nat
  lastUnhaltedCycle : Nat
  startSlack : Nat
  deriving DecidableEq

structure TimingCore where
  curCycle : Nat
  phaseEndCycle : Nat
  /-- The thread of the core is in `TakeBarrier`. -/
  atBarrier : Bool
  cRec : CoreRecorder
  events : List TimingEvent
  globPhaseCycles : Nat
  inCSim : Bool
  deriving DecidableEq

namespace TimingCore

/-- The constructor of the recorder leaves three of its fields as they are in memory. -/
def init (prevRespCycle lastStartCycle lastOrigStartCycle : Nat) : TimingCore where
  curCycle := 0
  phaseEndCycle := 0
  atBarrier := false
  cRec :=
    { state := .halted
      gapCycles := 0
      prevRespCycle := prevRespCycle
      prevRespEvent := none
      lastEventSimulatedStartCycle := lastStartCycle
      lastEventSimulatedOrigStartCycle := lastOrigStartCycle
      totalGapCycles := 0
      totalHaltedCycles := 0
      lastUnhaltedCycle := 0
      startSlack := 0 }
  events := []
  globPhaseCycles := 0
  inCSim := false

variable (c : PhaseConfig) (s : TimingCore)

/-- The end of the phase, which is the limit of its simulation. -/
def nextPhaseCycle : Nat := s.globPhaseCycles + c.phaseLength

/-! ### Events -/

/-- Makes a `TimingCoreEvent` that starts at `prevRespCycle`, and adds it to the end of the
chain.  The delay becomes a `uint32_t`. -/
def addCoreEvent (delay : Nat) : Option TimingCore := do
  let r := s.cRec
  let prev ← r.prevRespEvent
  let (events, ev) ←
    addChild s.events [prev] (.core (r.prevRespCycle - r.gapCycles) r.prevRespCycle) 0 (u32 delay)
  some { s with events := events, cRec := { r with prevRespEvent := some ev } }

def setPrevRespCycle (cycle : Nat) : TimingCore :=
  { s with cRec := { s.cRec with prevRespCycle := cycle } }

/-! ### The bound phase -/

def notifyJoin : Option TimingCore :=
  let r := s.cRec
  match r.state with
  | .halted =>
    let curCycle := s.globPhaseCycles
    if r.prevRespEvent = none ∧ r.lastUnhaltedCycle ≤ curCycle then
      some
        { s with
          curCycle := curCycle
          cRec :=
            { r with
              state := .running
              totalGapCycles := r.totalGapCycles + r.gapCycles
              gapCycles := 0
              totalHaltedCycles := r.totalHaltedCycles + (curCycle - r.lastUnhaltedCycle)
              prevRespEvent := some s.events.length
              prevRespCycle := curCycle
              startSlack := 0 }
          events := s.events ++ [⟨.core curCycle curCycle, .queued curCycle, 0, 0, none⟩] }
    else none
  | .draining =>
    if s.globPhaseCycles ≤ s.curCycle then some { s with cRec := { r with state := .running } }
    else none
  | .running => none

def join : Option TimingCore := do
  let s ← s.notifyJoin
  some { s with phaseEndCycle := s.nextPhaseCycle c }

def leave : Option TimingCore := do
  let r := s.cRec
  if r.state = .running ∧ r.prevRespEvent ≠ none then
    let s := { s with atBarrier := false, cRec := { r with state := .draining } }
    let s ← s.addCoreEvent (s.curCycle - r.prevRespCycle)
    -- a zero-delay event finishes the sequence
    (s.setPrevRespCycle s.curCycle).addCoreEvent 0
  else none

def recordAccess (tr : TimingRecord) (startCycle : Nat) : Option TimingCore := do
  let r := s.cRec
  if r.prevRespCycle ≤ startCycle ∧ startCycle ≤ tr.reqCycle then
    match tr.type with
    | .get =>
      let s ← s.addCoreEvent (tr.reqCycle - r.prevRespCycle)
      let prev ← s.cRec.prevRespEvent
      let (events, ev) ← addChild s.events [prev] .record tr.latency 0
      some
        { s with
          events := events
          cRec := { s.cRec with prevRespEvent := some ev, prevRespCycle := tr.respCycle } }
    | .put =>
      let prev ← r.prevRespEvent
      let (events, dr) ← addChild s.events [prev] .delay (u32 (tr.reqCycle - r.prevRespCycle)) 0
      let (events, _) ← addChild events [dr] .record tr.latency 0
      some { s with events := events }
  else none

/-- An access that leaves a record; the cache returns `curCycle`. -/
def access (tr : TimingRecord) (curCycle : Nat) : Option TimingCore :=
  { s with curCycle := curCycle }.recordAccess tr s.curCycle

/-! ### Between the phases -/

/-- Covers the delay to `curCycle`, if there is one. -/
def coverDelay : Option TimingCore :=
  if s.cRec.prevRespCycle < s.curCycle then do
    let s ← s.addCoreEvent (s.curCycle - s.cRec.prevRespCycle)
    some (s.setPrevRespCycle s.curCycle)
  else some s

def cSimStart : Option TimingCore :=
  let r := s.cRec
  let nextPhaseCycle := s.nextPhaseCycle c
  let s := { s with inCSim := true }
  match r.state with
  | .halted => some s
  | .running =>
    if nextPhaseCycle ≤ s.curCycle then do
      let s ← s.coverDelay
      -- an event that starts in the next phase, so it is never simulated in this one
      s.addCoreEvent 0
    else none
  | .draining => some { s with curCycle := max s.curCycle nextPhaseCycle }

/-- Adjusts the clock of the core to the contention; then the next phase begins. -/
def cSimEnd : Option TimingCore :=
  let r := s.cRec
  let s := { s with inCSim := false, atBarrier := false, globPhaseCycles := s.nextPhaseCycle c }
  if r.state = .halted then some s
  else
    let lastEvCycle1 := r.lastEventSimulatedOrigStartCycle + r.gapCycles
    let lastEvCycle2 := r.lastEventSimulatedStartCycle
    if lastEvCycle1 ≤ s.curCycle ∧ lastEvCycle2 ≤ s.curCycle ∧ lastEvCycle1 ≤ lastEvCycle2 then
      let skew := lastEvCycle2 - lastEvCycle1
      let r :=
        { r with gapCycles := r.gapCycles + skew, prevRespCycle := r.prevRespCycle + skew }
      let s := { s with curCycle := s.curCycle + skew }
      if r.prevRespEvent = none then
        if r.state = .draining then
          some { s with cRec := { r with lastUnhaltedCycle := lastEvCycle2, state := .halted } }
        else none
      else some { s with cRec := r }
    else none

/-! ### The weave phase -/

def reportEventSimulated (ev startCycle origStartCycle : Nat) : Option TimingCore :=
  let r :=
    { s.cRec with
      lastEventSimulatedStartCycle := startCycle
      lastEventSimulatedOrigStartCycle := origStartCycle
      startSlack := startCycle - origStartCycle }
  if r.prevRespEvent = some ev then
    if r.state = .draining then some { s with cRec := { r with prevRespEvent := none } } else none
  else some { s with cRec := r }

/-- `run` of an event, or `parentDone` of one that is not queued. -/
def simulate (ev cycle : Nat) : Option TimingCore :=
  match s.events[ev]? with
  | some event =>
    if event.startCycle = none then
      let s := { s with events := s.events.set ev { event with startCycle := some cycle } }
      match event.kind with
      | .core origStartCycle minStartCycle =>
        if minStartCycle ≤ cycle then s.reportEventSimulated ev cycle origStartCycle else none
      | _ => some s
    else none
  | none => none

/-! ### Runs -/

inductive Op where
  | join
  | leave
  /-- instructions, and accesses that leave no record -/
  | advance (cycles : Nat)
  | access (tr : TimingRecord) (curCycle : Nat)
  | takeBarrier
  | cSimStart
  | simulate (ev cycle : Nat)
  | cSimEnd

def step : Op → Option TimingCore
  | .join => s.join c
  | .leave => s.leave
  | .advance cycles => some { s with curCycle := s.curCycle + cycles }
  | .access tr curCycle => s.access tr curCycle
  | .takeBarrier =>
    some { s with atBarrier := true, phaseEndCycle := s.phaseEndCycle + c.phaseLength }
  | .cSimStart => s.cSimStart c
  | .simulate ev cycle => s.simulate ev cycle
  | .cSimEnd => s.cSimEnd c

def Executes : Prop := s.inCSim = false ∧ s.cRec.state = .running ∧ s.atBarrier = false

/-- Which operations the scheduler, the caches, the barrier and the contention simulation
present to a core. -/
def legal : Op → Prop
  | .join => s.inCSim = false ∧ s.cRec.state ≠ .running
  | .leave => s.inCSim = false ∧ s.cRec.state = .running
  | .advance _ => s.Executes
  | .access tr curCycle =>
    s.Executes ∧ s.curCycle ≤ tr.reqCycle ∧ tr.reqCycle ≤ tr.respCycle ∧
      tr.respCycle ≤ curCycle ∧ tr.respCycle ≤ tr.reqCycle + tr.latency
  | .takeBarrier => s.Executes ∧ s.phaseEndCycle < s.curCycle
  | .cSimStart => s.inCSim = false ∧ (s.cRec.state = .running → s.atBarrier = true)
  | .simulate ev cycle => s.inCSim = true ∧ Simulates s.events c (s.nextPhaseCycle c) ev cycle
  | .cSimEnd => s.inCSim = true ∧ ∀ event ∈ s.events, Drained (s.nextPhaseCycle c) event

/-- The delay that an operation records on the chain fits in 32 bits. -/
def DelayFits : Op → Prop
  | .leave => s.curCycle - s.cRec.prevRespCycle < 2 ^ 32
  | .access tr _ => tr.type = .get → tr.reqCycle - s.cRec.prevRespCycle < 2 ^ 32
  | .cSimStart => s.cRec.state = .running → s.curCycle - s.cRec.prevRespCycle < 2 ^ 32
  | _ => True

def machine : Machine TimingCore Op := ⟨legal c, step c⟩

section

variable {c s}

instance : Decidable s.Executes := inferInstanceAs (Decidable (_ ∧ _ ∧ _))

instance (s : TimingCore) (op : Op) : Decidable ((machine c).legal s op) := by
  cases op with
  | join => exact inferInstanceAs (Decidable (_ ∧ _))
  | leave => exact inferInstanceAs (Decidable (_ ∧ _))
  | advance _ => exact inferInstanceAs (Decidable s.Executes)
  | access _ _ => exact inferInstanceAs (Decidable (s.Executes ∧ _))
  | takeBarrier => exact inferInstanceAs (Decidable (s.Executes ∧ _))
  | cSimStart => exact inferInstanceAs (Decidable (_ ∧ (_ → _)))
  | simulate _ _ => exact inferInstanceAs (Decidable (_ ∧ Simulates _ _ _ _ _))
  | cSimEnd => exact inferInstanceAs (Decidable (_ ∧ ∀ event ∈ s.events, Drained _ event))

instance (s : TimingCore) (op : Op) : Decidable (DelayFits s op) := by
  unfold DelayFits
  split <;> infer_instance

end

end TimingCore

end Zsim.Recorder
