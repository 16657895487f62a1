import Mathlib.Tactic.Common

/-!
# Recorded events

The events of timing_event.h as the recorders of the cores make them and as the simulation
threads of contention_sim.cpp run them.  Cycles are natural numbers.  An event is known by its
place in the order of creation.  The events of a record, from its `startEvent` to its
`endEvent`, are one event, whose `preDelay` is the time they take without contention.
-/

set_option autoImplicit false

namespace Zsim.Recorder

structure PhaseConfig where
  phaseLength : Nat
  thDomains : Nat
  phaseLength_pos : 0 < phaseLength

inductive State where
  | halted
  | running
  | draining
  deriving DecidableEq

inductive AccessType where
  | get
  | put
  deriving DecidableEq

structure TimingRecord where
  type : AccessType
  reqCycle : Nat
  respCycle : Nat
  /-- from `startEvent` to `endEvent`, without contention -/
  latency : Nat

inductive EventKind where
  /-- a `TimingCoreEvent` with its `origStartCycle`, or an `OOOIssueEvent` with its
  `zllStartCycle` -/
  | core (origStartCycle minStartCycle : Nat)
  | dispatch
  | resp
  | delay
  | record
  deriving DecidableEq

/-- An event is queued when it is made, or when its parents are done. -/
inductive EventSource where
  | queued (cycle : Nat)
  | after (parents : List Nat)
  deriving DecidableEq

structure TimingEvent where
  kind : EventKind
  source : EventSource
  preDelay : Nat
  postDelay : Nat
  /-- when it was simulated -/
  startCycle : Option Nat
  deriving DecidableEq

/-- The zero-load cycle and the `minStartCycle` of an event that reports to its recorder. -/
def EventKind.reports : EventKind → Option (Nat × Nat)
  | .core origStartCycle minStartCycle => some (origStartCycle, minStartCycle)
  | _ => none

theorem EventKind.reports_eq_some {kind : EventKind} {origStartCycle minStartCycle : Nat} :
    kind.reports = some (origStartCycle, minStartCycle) ↔
      kind = .core origStartCycle minStartCycle := by
  cases kind <;> simp [reports]

variable (events : List TimingEvent)

/-- Children may be added to the event. -/
def Unstarted (ev : Nat) : Prop :=
  match events[ev]? with
  | some event => event.startCycle = none
  | none => False

instance (ev : Nat) : Decidable (Unstarted events ev) := by
  unfold Unstarted
  split <;> infer_instance

/-- Makes an event and adds it to the children of its parents. -/
def addChild (parents : List Nat) (kind : EventKind) (preDelay postDelay : Nat) :
    Option (List TimingEvent × Nat) :=
  if ∀ parent ∈ parents, Unstarted events parent then
    some (events ++ [⟨kind, .after parents, preDelay, postDelay, none⟩], events.length)
  else none

/-- The parent is done, and its child may start at the cycle. -/
def ParentDone (event : TimingEvent) (cycle parent : Nat) : Prop :=
  match events[parent]? with
  | some before =>
    match before.startCycle with
    | some start => start + before.postDelay + event.preDelay ≤ cycle
    | none => False
  | none => False

/-- The parents of an event are done, or the cycle is that for which the event was queued. -/
def Ready (event : TimingEvent) (cycle : Nat) : Prop :=
  match event.source with
  | .queued queueCycle => cycle = queueCycle
  | .after parents => ∀ parent ∈ parents, ParentDone events event cycle parent

/-- A thread with one domain stops before the limit, one with several behind it.  Only the
events that report to a recorder are sure to be queued. -/
def Within (c : PhaseConfig) (limit : Nat) (event : TimingEvent) (cycle : Nat) : Prop :=
  match event.kind.reports with
  | some _ => if c.thDomains = 1 then cycle < limit else cycle ≤ limit
  | none => True

/-- An event queued in the bound phase is not left. -/
def Drained (limit : Nat) (event : TimingEvent) : Prop :=
  match event.source with
  | .queued queueCycle => queueCycle < limit → event.startCycle ≠ none
  | .after _ => True

/-- What the simulation threads may do in one step. -/
def Simulates (c : PhaseConfig) (limit ev cycle : Nat) : Prop :=
  match events[ev]? with
  | some event => event.startCycle = none ∧ Ready events event cycle ∧ Within c limit event cycle
  | none => False

section

variable {events} {c : PhaseConfig} {event : TimingEvent} {limit ev cycle : Nat}

instance {parent : Nat} : Decidable (ParentDone events event cycle parent) := by
  unfold ParentDone
  split
  · split <;> infer_instance
  · infer_instance

instance : Decidable (Ready events event cycle) := by
  unfold Ready
  split <;> infer_instance

instance : Decidable (Within c limit event cycle) := by
  unfold Within
  split <;> infer_instance

instance : Decidable (Drained limit event) := by
  unfold Drained
  split <;> infer_instance

instance : Decidable (Simulates events c limit ev cycle) := by
  unfold Simulates
  split <;> infer_instance

theorem Within.le (within : Within c limit event cycle) {zllCycle minStart : Nat}
    (reports : event.kind.reports = some (zllCycle, minStart)) : cycle ≤ limit := by
  rw [Within, reports] at within
  dsimp only at within
  split at within <;> omega

theorem Within.lt (within : Within c limit event cycle) (one : c.thDomains = 1)
    {zllCycle minStart : Nat} (reports : event.kind.reports = some (zllCycle, minStart)) :
    cycle < limit := by
  rw [Within, reports] at within
  simpa [one] using within

theorem Unstarted.of_some (at_ : events[ev]? = some event) (fresh : event.startCycle = none) :
    Unstarted events ev := by
  simp only [Unstarted, at_, fresh]

theorem Unstarted.exists (unstarted : Unstarted events ev) :
    ∃ event, events[ev]? = some event ∧ event.startCycle = none := by
  unfold Unstarted at unstarted
  cases at_ : events[ev]? with
  | none =>
      rw [at_] at unstarted
      exact unstarted.elim
  | some event =>
      rw [at_] at unstarted
      exact ⟨event, rfl, unstarted⟩

theorem Unstarted.append (unstarted : Unstarted events ev) (more : List TimingEvent) :
    Unstarted (events ++ more) ev := by
  obtain ⟨event, at_, fresh⟩ := unstarted.exists
  apply Unstarted.of_some _ fresh
  rw [List.getElem?_append_left (List.getElem?_eq_some_iff.mp at_).1]
  exact at_

theorem Unstarted.concat (events : List TimingEvent) (fresh : event.startCycle = none) :
    Unstarted (events ++ [event]) events.length :=
  .of_some List.getElem?_concat_length fresh

theorem Simulates.exists (simulates : Simulates events c limit ev cycle) :
    ∃ event, events[ev]? = some event ∧ event.startCycle = none ∧ Ready events event cycle ∧
      Within c limit event cycle := by
  unfold Simulates at simulates
  cases at_ : events[ev]? with
  | none =>
      rw [at_] at simulates
      exact simulates.elim
  | some event =>
      rw [at_] at simulates
      exact ⟨event, rfl, simulates⟩

theorem addChild_eq {parents : List Nat} (unstarted : ∀ parent ∈ parents, Unstarted events parent)
    (kind : EventKind) (preDelay postDelay : Nat) :
    addChild events parents kind preDelay postDelay =
      some (events ++ [⟨kind, .after parents, preDelay, postDelay, none⟩], events.length) :=
  if_pos unstarted

end

end Zsim.Recorder
