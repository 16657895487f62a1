import Mathlib.Algebra.Group.Nat.Defs
import Mathlib.Logic.Function.Basic
import Zsim.Lib.Machine
import Zsim.Lib.Word
import Zsim.Timing.Children

/-!
# Timing events

`TimingEvent` and `DelayEvent` of timing_event.h and timing_event.cpp, for a graph of one
domain that is linked first and executed afterwards.  What `simulate` does is left to the
inputs of the machine; an `enqueue` of the contention simulation is recorded with its cycle.
`none` is a failed assertion, or `numParents` decremented at 0.
-/

set_option autoImplicit false

namespace Zsim.Timing

inductive EventState
  | none | queued | running | held | done
  deriving DecidableEq, Repr

structure Event where
  /-- a DelayEvent -/
  isDelay : Bool
  state : EventState
  cycle : Nat
  minStartCycle : Nat
  children : Children Nat
  numParents : Nat
  preDelay : Nat
  postDelay : Nat
  /-- what `cycle` held after the constructor -/
  memory : Nat
  /-- the parents, once for each `addChild` -/
  parents : List Nat
  /-- the argument of `done` -/
  doneAt : Option Nat
  /-- the cycles at which `parentDone` has enqueued it -/
  enqueued : List Nat

/-- How an event is made; the slab memory holds what its last user left in `cycle`. -/
inductive Constructor
  | timing (preDelay postDelay : Nat)
  /-- `TimingEvent(int32_t _domain)`, which does not initialize `cycle` -/
  | timingDomain (memory : Nat)
  | delay (delay : Nat)
  deriving DecidableEq, Repr

namespace Event

def make (isDelay : Bool) (cycle preDelay postDelay : Nat) : Event where
  isDelay := isDelay
  state := .none
  cycle := cycle
  minStartCycle := 2 ^ 64 - 1
  children := .empty
  numParents := 0
  preDelay := preDelay
  postDelay := postDelay
  memory := cycle
  parents := []
  doneAt := Option.none
  enqueued := []

def create : Constructor → Event
  | .timing preDelay postDelay => make false 0 preDelay postDelay
  | .timingDomain memory => make false memory 0 0
  | .delay delay => make true 0 delay 0

/-- The first two assignments of `parentDone`. -/
def arrive (startCycle : Nat) (e : Event) : Event :=
  { e with cycle := max e.cycle startCycle, numParents := e.numParents - 1 }

def fire (e : Event) : Event :=
  { e with state := .queued, enqueued := u64 (e.cycle + e.preDelay) :: e.enqueued }

def finish (doneCycle : Nat) (e : Event) : Event :=
  { e with state := .done, doneAt := some doneCycle }

end Event

structure Graph where
  events : Nat → Option Event
  /-- events are linked, and not yet executed -/
  building : Bool
  /-- the events that were queued from outside -/
  roots : List Nat

namespace Graph

def init : Graph := ⟨fun _ => none, true, []⟩

def set (g : Graph) (id : Nat) (e : Event) : Graph :=
  { g with events := Function.update g.events id (some e) }

/-- `TimingEvent::done`, with the `parentDone` of the children. -/
def done (parentDone : Nat → Nat → Graph → Option Graph) (id doneCycle : Nat) (g : Graph) :
    Option Graph := do
  let e ← g.events id
  if e.state = .running then do
    let children ← e.children.visit
    children.foldlM (fun g child => parentDone child (u64 (doneCycle + e.postDelay)) g)
      (g.set id (e.finish doneCycle))
  else none

/-- `parentDone` of both classes; the fuel bounds the depth of the calls. -/
def parentDone : Nat → Nat → Nat → Graph → Option Graph
  | 0, _, _, _ => none
  | fuel + 1, id, startCycle, g => do
    let before ← g.events id
    if before.numParents = 0 then none
    else
      let e := before.arrive startCycle
      if e.numParents ≠ 0 then some (g.set id e)
      else if e.isDelay then
        done (parentDone fuel) id (u64 (e.cycle + e.preDelay)) (g.set id { e with state := .running })
      else if e.state = .none then some (g.set id e.fire)
      else none

def addChild (parent child : Nat) (g : Graph) : Option Graph := do
  let p ← g.events parent
  let c ← g.events child
  if (p.state = .none ∨ p.state = .queued) ∧ c.state = .none then
    let p := { p with children := p.children.addChild child }
    let c := { c with numParents := c.numParents + 1, parents := parent :: c.parents }
    some ((g.set parent p).set child c)
  else none

/-- A member function that changes the event alone. -/
def modify (id : Nat) (f : Event → Option Event) (g : Graph) : Option Graph := do
  let e ← g.events id
  let e ← f e
  some (g.set id e)

def queue (id : Nat) (g : Graph) : Option Graph := do
  let g ← g.modify id fun e =>
    if e.state = .none ∧ e.numParents = 0 then some { e with state := .queued } else none
  some { g with roots := id :: g.roots }

end Graph

/-! ## The machine -/

inductive Input
  | create (id : Nat) (how : Constructor)
  | setPreDelay (id delay : Nat)
  | setPostDelay (id delay : Nat)
  | setMinStartCycle (id cycle : Nat)
  | addChild (parent child : Nat)
  | queue (id : Nat)
  /-- the graph is complete -/
  | simulate
  /-- the event has been dequeued -/
  | run (id cycle : Nat)
  | requeue (id : Nat)
  | hold (id : Nat)
  | release (id : Nat)
  | done (id cycle : Nat)
  deriving DecidableEq, Repr

/-- A numbering of the events in which parents come first; an acyclic graph has one. -/
structure Numbering where
  rank : Nat → Nat
  depth : Nat

namespace Graph

variable (n : Numbering)

def step (g : Graph) : Input → Option Graph
  | .create id how => some (g.set id (.create how))
  | .setPreDelay id delay => g.modify id fun e => some { e with preDelay := delay }
  | .setPostDelay id delay => g.modify id fun e => some { e with postDelay := delay }
  | .setMinStartCycle id cycle => g.modify id fun e => some { e with minStartCycle := cycle }
  | .addChild parent child => g.addChild parent child
  | .queue id => g.queue id
  | .simulate => some { g with building := false }
  | .run id cycle => g.modify id fun e =>
    if (e.state = .none ∨ e.state = .queued) ∧ e.minStartCycle ≤ cycle then
      some { e with state := .running }
    else none
  | .requeue id => g.modify id fun e =>
    if e.numParents = 0 ∧ (e.state = .running ∨ e.state = .held) then
      some { e with state := .queued }
    else none
  | .hold id => g.modify id fun e =>
    if e.state = .running then some { e with state := .held } else none
  | .release id => g.modify id fun e =>
    if e.state = .held then some { e with state := .running } else none
  | .done id cycle => done (parentDone n.depth) id cycle g

def Is (g : Graph) (id : Nat) (P : Event → Prop) : Prop := ∃ e, g.events id = some e ∧ P e

/-- The linked graph is acyclic and complete before it is executed, an event with parents
is not queued from outside, and a DelayEvent is never queued. -/
def legal (g : Graph) : Input → Prop
  | .create id how =>
    g.building = true ∧ g.events id = none ∧ n.rank id < n.depth ∧
      ∀ memory, how = .timingDomain memory → memory < 2 ^ 64
  | .setPreDelay id _ | .setPostDelay id _ => g.building = true ∧ g.Is id fun _ => True
  | .setMinStartCycle id _ => g.Is id fun _ => True
  | .addChild parent child =>
    g.building = true ∧ (g.Is parent fun _ => True) ∧ (g.Is child fun _ => True) ∧
      n.rank parent < n.rank child ∧ child ∉ g.roots
  | .queue id =>
    g.building = true ∧ id ∉ g.roots ∧ g.Is id fun e => e.isDelay = false ∧ e.parents = []
  | .simulate => g.building = true
  | .run id cycle =>
    g.building = false ∧ g.Is id fun e => e.state = .queued ∧ e.minStartCycle ≤ cycle
  | .requeue id => g.Is id fun e => e.state = .running ∨ e.state = .held
  | .hold id => g.Is id fun e => e.state = .running
  | .release id => g.Is id fun e => e.state = .held
  | .done id _ => g.Is id fun e => e.state = .running

end Graph

def machine (n : Numbering) : Machine Graph Input := ⟨Graph.legal n, Graph.step n⟩

instance decidableIs (g : Graph) (id : Nat) (P : Event → Prop) [DecidablePred P] :
    Decidable (g.Is id P) :=
  match isEvent : g.events id with
  | none => .isFalse fun ⟨_, isSome, _⟩ => by simp [isEvent] at isSome
  | some e => decidable_of_iff (P e)
      ⟨fun holds => ⟨e, isEvent, holds⟩, fun ⟨e', isSome, holds⟩ => by
        cases Option.some.inj (isEvent.symm.trans isSome)
        exact holds⟩

instance decidableWord : ∀ how : Constructor,
    Decidable (∀ memory, how = .timingDomain memory → memory < 2 ^ 64)
  | .timing _ _ => .isTrue (by simp)
  | .delay _ => .isTrue (by simp)
  | .timingDomain memory => decidable_of_iff (memory < 2 ^ 64)
      ⟨fun lt _ same => by cases same; exact lt, fun holds => holds memory rfl⟩

instance decidableFresh (g : Graph) (id : Nat) : Decidable (g.events id = none) :=
  decidable_of_iff ((g.events id).isNone = true) Option.isNone_iff_eq_none

instance decidableLegal (n : Numbering) (g : Graph) : ∀ input, Decidable ((machine n).legal g input)
  | .create id how => inferInstanceAs (Decidable (g.building = true ∧ g.events id = none ∧
      n.rank id < n.depth ∧ ∀ memory, how = .timingDomain memory → memory < 2 ^ 64))
  | .setPreDelay id _ | .setPostDelay id _ =>
    inferInstanceAs (Decidable (g.building = true ∧ g.Is id fun _ => True))
  | .setMinStartCycle id _ => decidableIs g id fun _ => True
  | .addChild parent child => inferInstanceAs (Decidable (g.building = true ∧
      (g.Is parent fun _ => True) ∧ (g.Is child fun _ => True) ∧ n.rank parent < n.rank child ∧
      child ∉ g.roots))
  | .queue id => inferInstanceAs (Decidable (g.building = true ∧ id ∉ g.roots ∧
      g.Is id fun e => e.isDelay = false ∧ e.parents = []))
  | .simulate => inferInstanceAs (Decidable (g.building = true))
  | .run id cycle => inferInstanceAs (Decidable (g.building = false ∧
      g.Is id fun e => e.state = .queued ∧ e.minStartCycle ≤ cycle))
  | .requeue id => decidableIs g id fun e => e.state = .running ∨ e.state = .held
  | .hold id => decidableIs g id fun e => e.state = .running
  | .release id => decidableIs g id fun e => e.state = .held
  | .done id _ => decidableIs g id fun e => e.state = .running

end Zsim.Timing
