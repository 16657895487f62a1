import Mathlib.Algebra.BigOperators.Group.Finset.Defs
import Mathlib.Logic.Relation
import Zsim.Lib.Word
import Zsim.Timing.Model
import Zsim.Timing.Slots

/-!
# Domain crossings

`TimingEvent::produceCrossings` with what it calls: `handleCrossing`, the constructors of
`CrossingEvent` and `CrossingSrcEvent`, `addChild` and `ContentionSim::enqueueCrossing`.
Every event has a domain, so that `addChild` does not propagate one.  The recursion over the
graph is a stack of frames, one for each `visitChildren` under way; a step of it visits one
child, goes on to the next block or returns.  `none` is a failed assertion.
-/

set_option autoImplicit false

namespace Zsim.Crossing

open Zsim.Timing

/-- The members of a CrossingEvent that its constructor sets. -/
structure CrossingData where
  srcDomain : Nat
  parentEv : Nat
  origStartCycle : Nat
  preSlack : Nat
  postSlack : Nat
  deriving DecidableEq, Repr

inductive Kind
  | other
  | crossing (x : CrossingData)
  /-- a CrossingSrcEvent of the crossing `ce` -/
  | crossingSrc (ce : Nat)
  deriving DecidableEq, Repr

structure Event where
  domain : Nat
  state : EventState
  minStartCycle : Nat
  children : Children Nat
  numParents : Nat
  preDelay : Nat
  postDelay : Nat
  kind : Kind

structure CrossingEventInfo where
  cycle : Nat
  ev : Nat

/-- The contention simulation between two phases, when events are linked. -/
structure Phase where
  numDomains : Nat
  phaseLength : Nat
  lastLimit : Nat
  /-- `curCycle` of the domains -/
  curCycle : Nat → Nat
  /-- `lastGapCycles` of the recorder -/
  gapCycles : Nat

structure Sim where
  events : Nat → Option Event
  /-- the events made so far are those before it -/
  allocated : Nat
  /-- from its back -/
  crossingStack : List Nat
  /-- `lastCrossing` of the source of the recorder -/
  lastCrossing : Nat → Nat → CrossingEventInfo
  /-- the calls of `pq.enqueue`, the last one first -/
  enqueued : List (Nat × Nat)

namespace Event

def preSlack (parent : Event) : Nat := if parent.postDelay = 0 then 1 else parent.postDelay

def crossingStart (parent : Event) : Nat :=
  let minStartCycle := u64 (parent.minStartCycle + parent.postDelay)
  if parent.postDelay = 0 then u64 (minStartCycle + 1) else minStartCycle

end Event

namespace Sim

variable (ph : Phase)

def modify (id : Nat) (f : Event → Event) (s : Sim) : Sim :=
  { s with events := Function.update s.events id ((s.events id).map f) }

def addChild (parent child : Nat) (s : Sim) : Option Sim := do
  let p ← s.events parent
  let c ← s.events child
  if (p.state = .none ∨ p.state = .queued) ∧ c.state = .none then
    let s := s.modify parent fun e => { e with children := e.children.addChild child }
    some (s.modify child fun e => { e with numParents := e.numParents + 1 })
  else none

def enqueueSynced (id cycle : Nat) (s : Sim) : Option Sim := do
  let ev ← s.events id
  if ev.domain < ph.numDomains ∧ ph.lastLimit ≤ cycle ∧
      cycle < u64 (ph.lastLimit + u32 (10 * ph.phaseLength) + 10000) ∧ ev.numParents = 0 then
    some { s with enqueued := (id, cycle) :: s.enqueued }
  else none

/-- The `parentEv` of the crossing at the back of the stack, if one from `srcDomain` to
`dstDomain` is a response to it. -/
def request (srcDomain dstDomain : Nat) (s : Sim) : Option Nat := do
  let back ← s.crossingStack.head?
  let b ← s.events back
  match b.kind with
  | .crossing x => if x.srcDomain = dstDomain ∧ b.domain = srcDomain then some x.parentEv else none
  | _ => none

/-- The previous crossing between the domains, if the one at `cycle` is chained to it. -/
def previous (srcDomain dstDomain cycle : Nat) (s : Sim) : Option Nat :=
  let last := s.lastCrossing srcDomain dstDomain
  if ph.curCycle srcDomain < last.cycle ∧ last.cycle ≤ cycle then some last.ev else none

/-- A crossing that is no response is chained to the previous one or queued. -/
def enqueueRequest (ev cycle srcDomain dstDomain : Nat) (s : Sim) : Option Sim :=
  match s.previous ph srcDomain dstDomain cycle with
  | some last => s.addChild last ev
  | none => if ph.curCycle srcDomain ≤ cycle then s.enqueueSynced ph ev cycle else none

/-- `srcDomain` and `dstDomain` are those of `ev`. -/
def enqueueCrossing (ev cycle srcDomain dstDomain : Nat) (s : Sim) : Option Sim :=
  match s.request srcDomain dstDomain with
  | some parentEv => addChild parentEv ev { s with crossingStack := s.crossingStack.tail }
  | none => do
    let next ← enqueueRequest ph ev cycle srcDomain dstDomain
      { s with crossingStack := ev :: s.crossingStack }
    some { next with lastCrossing := fun src dst =>
      if src = srcDomain ∧ dst = dstDomain then ⟨cycle, ev⟩ else s.lastCrossing src dst }

def crossingEvent (parent : Nat) (p child : Event) : Event where
  domain := child.domain
  state := .none
  minStartCycle := p.crossingStart
  children := .empty
  numParents := 0
  preDelay := 0
  postDelay := 0
  kind := .crossing
    { srcDomain := p.domain, parentEv := parent
      origStartCycle := u64Sub p.crossingStart ph.gapCycles
      preSlack := p.preSlack, postSlack := child.preDelay }

def crossingSrcEvent (ce : Nat) (p : Event) : Event where
  domain := p.domain
  state := .none
  minStartCycle := 2 ^ 64 - 1
  children := .empty
  numParents := 1
  preDelay := 0
  postDelay := 0
  kind := .crossingSrc ce

/-- `new CrossingEvent(parent, child, parent->minStartCycle + parent->postDelay)`; its `cpe`
is the event after it. -/
def newCrossing (parent childEv : Nat) (s : Sim) : Option Sim := do
  let p ← s.events parent
  let child ← s.events childEv
  if p.domain = child.domain then none
  else
    let made :=
      { s with
        events := Function.update
          (Function.update s.events s.allocated (some (crossingEvent ph parent p child)))
          (s.allocated + 1) (some (crossingSrcEvent s.allocated p))
        allocated := s.allocated + 2 }
    let linked ← made.addChild s.allocated childEv
    linked.enqueueCrossing ph s.allocated (max ph.lastLimit p.crossingStart) p.domain child.domain

def handleCrossing (this childEv : Nat) (s : Sim) : Option (Nat × Sim) := do
  let c ← s.events childEv
  if c.numParents = 0 then none
  else
    let s := s.modify childEv fun e => { e with numParents := e.numParents - 1 }
    let p ← s.events this
    if p.minStartCycle = 2 ^ 64 - 1 then none
    else
      let next ← s.newCrossing ph this childEv
      some (s.allocated + 1, next)

/-- What `pcLambda` of `produceCrossings` does before it recurses. -/
def link (this : Nat) (childPtr : ChildPtr) (c : Nat) (s : Sim) : Option Sim := do
  let p ← s.events this
  let child ← s.events c
  if child.domain ≠ p.domain then
    let (src, s) ← s.handleCrossing ph this c
    some (s.modify this fun e => { e with children := e.children.write src childPtr })
  else some s

end Sim

/-! ## The walk -/

/-- Where a `visitChildren` is. -/
inductive Cursor
  /-- it has no children, or has visited its single one -/
  | past
  | child
  /-- `curBlock` is null or the one with `left - 1` blocks behind it -/
  | blocks (left i visitedChildren : Nat)
  deriving DecidableEq, Repr

structure Frame where
  id : Nat
  cursor : Cursor
  deriving DecidableEq, Repr

structure Walk where
  sim : Sim
  frames : List Frame

namespace Sim

def enter (id : Nat) (s : Sim) : Option Frame := do
  let e ← s.events id
  some ⟨id,
    if e.children.numChildren = 0 then .past
    else if e.children.numChildren = 1 then .child
    else .blocks e.children.numBlocks 0 0⟩

end Sim

namespace Cursor

def childPtr : Cursor → Option ChildPtr
  | .child => some .child
  | .blocks (left + 1) i _ => if h : i < 3 then some (.event left ⟨i, h⟩) else none
  | _ => none

def advance : Cursor → Cursor
  | .blocks left i visitedChildren => .blocks left (i + 1) (visitedChildren + 1)
  | _ => .past

def nextBlock : Cursor → Cursor
  | .blocks left _ visitedChildren => .blocks (left - 1) 0 visitedChildren
  | cursor => cursor

end Cursor

namespace Walk

variable (ph : Phase)

def step (w : Walk) : Option Walk :=
  match w.frames with
  | [] => none
  | ⟨id, cursor⟩ :: rest => do
    let e ← w.sim.events id
    match cursor with
    | .past => some ⟨w.sim, rest⟩
    | .blocks 0 _ visitedChildren =>
      if visitedChildren = e.children.numChildren then some ⟨w.sim, rest⟩ else none
    | cursor =>
      match cursor.childPtr.bind e.children.read with
      | none =>
        -- the end of the block or a null event, or no single child at all
        if cursor = .child then none else some ⟨w.sim, ⟨id, cursor.nextBlock⟩ :: rest⟩
      | some c => do
        let childPtr ← cursor.childPtr
        let s ← w.sim.link ph id childPtr c
        let frame ← s.enter c
        some ⟨s, frame :: ⟨id, cursor.advance⟩ :: rest⟩

def Steps : Walk → Walk → Prop := Relation.ReflTransGen fun w next => w.step ph = some next

end Walk

end Zsim.Crossing
