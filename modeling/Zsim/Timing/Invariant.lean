import Mathlib.Data.List.Count
import Mathlib.Data.List.MinMax
import Mathlib.Order.Nat
import Zsim.Timing.Model

/-!
# What holds of an event graph while it is executed

`pend` lists the calls of `parentDone` that `done` has yet to make, as pairs of parent and
child.  A child waits for the parents that are not done and for these calls; its `cycle` is
the latest arrival of the others.
-/

set_option autoImplicit false

namespace Zsim.Timing

/-! ## Arrivals -/

/-- The cycle with which `done` calls the `parentDone` of its children. -/
def Event.arrival (e : Event) : Option Nat := e.doneAt.map fun doneCycle => u64 (doneCycle + e.postDelay)

namespace Graph

def arrival (g : Graph) (p : Nat) : Option Nat := (g.events p).bind Event.arrival

def parentsOf (g : Graph) (id : Nat) : List Nat := (g.events id).elim [] Event.parents

/-- All of its parents have called `done`. -/
def AllDone (g : Graph) (e : Event) : Prop := ∀ p ∈ e.parents, (g.arrival p).isSome = true

/-- The latest arrival. -/
def ready (g : Graph) (e : Event) : Nat := (e.parents.filterMap g.arrival).foldr max 0

instance (g : Graph) (e : Event) : Decidable (g.AllDone e) :=
  inferInstanceAs (Decidable (∀ p ∈ e.parents, (g.arrival p).isSome = true))

/-- An event is fired once, after all of its parents and at the cycle of the latest one. -/
def Fires (g : Graph) (e : Event) : Prop :=
  if g.AllDone e then
    if e.isDelay then e.enqueued = [] ∧ e.doneAt = some (u64 (g.ready e + e.preDelay))
    else e.enqueued = [u64 (g.ready e + e.preDelay)]
  else e.enqueued = [] ∧ e.doneAt = none

instance (g : Graph) (e : Event) : Decidable (g.Fires e) := by
  unfold Fires
  infer_instance

theorem arrival_le_ready {g : Graph} {e : Event} {p c : Nat} (member : p ∈ e.parents)
    (arrival : g.arrival p = some c) : c ≤ g.ready e :=
  List.le_max_of_le (List.mem_filterMap.mpr ⟨p, member, arrival⟩) (Nat.le_refl c)

theorem ready_le {g : Graph} {e : Event} {bound : Nat}
    (le : ∀ p ∈ e.parents, ∀ c, g.arrival p = some c → c ≤ bound) : g.ready e ≤ bound := by
  refine List.max_le_of_forall_le _ bound fun c member => ?_
  obtain ⟨p, isParent, arrival⟩ := List.mem_filterMap.mp member
  exact le p isParent c arrival

/-! ## The invariant -/

variable (n : Numbering)

structure Linked (g : Graph) (id : Nat) (e : Event) : Prop where
  rank : n.rank id < n.depth
  children : ∃ l, e.children.Ok ∧ e.children.visit = some l ∧
    ∀ child, l.count child = (g.parentsOf child).count id
  parents : ∀ p ∈ e.parents, (g.events p).isSome = true ∧ n.rank p < n.rank id

structure Waiting (g : Graph) (pend : List (Nat × Nat)) (id : Nat) (e : Event) : Prop where
  numParents : e.numParents =
    e.parents.countP (fun p => (g.arrival p).isNone) + (pend.map Prod.snd).count id
  memory : e.memory ≤ e.cycle ∧ e.memory < 2 ^ 64
  arrived : ∀ p ∈ e.parents, ∀ c, g.arrival p = some c → (p, id) ∉ pend → c ≤ e.cycle
  latest : e.cycle = e.memory ∨ ∃ p ∈ e.parents, g.arrival p = some e.cycle

end Graph

/-- An event fires when `numParents` becomes 0. -/
structure Event.Status (e : Event) : Prop where
  waits : e.numParents ≠ 0 → e.state = .none ∧ e.enqueued = []
  root : e.parents = [] → e.enqueued = [] ∧ (e.isDelay = true → e.state = .none)
  fired : e.parents ≠ [] → e.numParents = 0 → e.isDelay = false →
    e.enqueued = [u64 (e.cycle + e.preDelay)]
  passed : e.parents ≠ [] → e.numParents = 0 → e.isDelay = true →
    e.enqueued = [] ∧ e.state = .done ∧ e.doneAt = some (u64 (e.cycle + e.preDelay))
  isDone : e.doneAt.isSome = true ↔ e.state = .done

namespace Graph

structure Counts (n : Numbering) (pend : List (Nat × Nat)) (g : Graph) : Prop where
  linked : ∀ id e, g.events id = some e → g.Linked n id e
  waiting : ∀ id e, g.events id = some e → g.Waiting pend id e
  pending : ∀ x ∈ pend, (g.arrival x.1).isSome = true ∧ x.1 ∈ g.parentsOf x.2

structure Inv (n : Numbering) (pend : List (Nat × Nat)) (g : Graph) : Prop
    extends g.Counts n pend where
  status : ∀ id e, g.events id = some e → e.Status

/-- Nothing is executed before the graph is complete. -/
def Idle (g : Graph) : Prop :=
  g.building = true → ∀ id e, g.events id = some e →
    e.doneAt = none ∧ (e.state = .none ∨ e.state = .queued ∧ id ∈ g.roots)

structure Keeps (g g' : Graph) : Prop where
  arrival : ∀ p c, g.arrival p = some c → g'.arrival p = some c
  building : g'.building = g.building

theorem Keeps.refl (g : Graph) : g.Keeps g := ⟨fun _ _ arrival => arrival, rfl⟩

theorem Keeps.trans {a b c : Graph} (first : a.Keeps b) (second : b.Keeps c) : a.Keeps c :=
  ⟨fun p cycle arrival => second.arrival p cycle (first.arrival p cycle arrival),
    second.building.trans first.building⟩

/-! ## Writing one event -/

@[simp] theorem set_events_self (g : Graph) (id : Nat) (e : Event) :
    (g.set id e).events id = some e := Function.update_self ..

theorem set_events_of_ne {g : Graph} {id other : Nat} (e : Event) (ne : other ≠ id) :
    (g.set id e).events other = g.events other := Function.update_of_ne ne ..

@[simp] theorem set_set (g : Graph) (id : Nat) (e e' : Event) :
    (g.set id e).set id e' = g.set id e' := by simp [set]

theorem parentsOf_of_event {g : Graph} {id : Nat} {e : Event} (isEvent : g.events id = some e) :
    g.parentsOf id = e.parents := by rw [parentsOf, isEvent]; rfl

theorem arrival_of_event {g : Graph} {id : Nat} {e : Event} (isEvent : g.events id = some e) :
    g.arrival id = e.arrival := by rw [arrival, isEvent]; rfl

theorem parentsOf_set {g : Graph} {id : Nat} {e e' : Event} (isEvent : g.events id = some e)
    (parents : e'.parents = e.parents) : (g.set id e').parentsOf = g.parentsOf := by
  funext other
  by_cases same : other = id
  · rw [same, parentsOf_of_event (set_events_self ..), parentsOf_of_event isEvent, parents]
  · rw [parentsOf, parentsOf, set_events_of_ne e' same]

theorem arrival_set {g : Graph} {id : Nat} {e e' : Event} (isEvent : g.events id = some e)
    (arrival : e'.arrival = e.arrival) : (g.set id e').arrival = g.arrival := by
  funext other
  by_cases same : other = id
  · rw [same, arrival_of_event (set_events_self ..), arrival_of_event isEvent, arrival]
  · rw [Graph.arrival, Graph.arrival, set_events_of_ne e' same]

theorem isSome_set {g : Graph} {id : Nat} {e' : Event} {p : Nat} (isSome : (g.events p).isSome = true) :
    ((g.set id e').events p).isSome = true := by
  by_cases same : p = id
  · rw [same, set_events_self]
    rfl
  · rwa [set_events_of_ne e' same]

theorem events_set {g : Graph} {id other : Nat} {e' x : Event}
    (isOther : (g.set id e').events other = some x) :
    other = id ∧ x = e' ∨ other ≠ id ∧ g.events other = some x := by
  by_cases same : other = id
  · rw [same, set_events_self] at isOther
    exact .inl ⟨same, (Option.some.inj isOther).symm⟩
  · rw [set_events_of_ne e' same] at isOther
    exact .inr ⟨same, isOther⟩

theorem linked_set {n : Numbering} {g : Graph} {id : Nat} {e e' : Event}
    (linked : ∀ id e, g.events id = some e → g.Linked n id e) (isEvent : g.events id = some e)
    (children : e'.children = e.children) (parents : e'.parents = e.parents) :
    ∀ other x, (g.set id e').events other = some x → (g.set id e').Linked n other x := by
  intro other x isOther
  have key : ∀ y, g.events other = some y → x.children = y.children → x.parents = y.parents →
      (g.set id e').Linked n other x := by
    intro y isY sameChildren sameParents
    have before := linked other y isY
    refine ⟨before.rank, ?_, ?_⟩
    · rw [parentsOf_set isEvent parents, sameChildren]
      exact before.children
    · rw [sameParents]
      exact fun p member => ⟨isSome_set (before.parents p member).1, (before.parents p member).2⟩
  rcases events_set isOther with ⟨rfl, rfl⟩ | ⟨-, isOther⟩
  · exact key e isEvent children parents
  · exact key x isOther rfl rfl

theorem status_set {g : Graph} {id : Nat} {e' : Event}
    (others : ∀ other x, other ≠ id → g.events other = some x → x.Status) (status : e'.Status) :
    ∀ other x, (g.set id e').events other = some x → x.Status := by
  intro other x isOther
  rcases events_set isOther with ⟨rfl, rfl⟩ | ⟨ne, isOther⟩
  · exact status
  · exact others other x ne isOther

theorem Counts.set_quiet {n : Numbering} {pend : List (Nat × Nat)} {g : Graph} {id : Nat}
    {e e' : Event} (counts : g.Counts n pend) (isEvent : g.events id = some e)
    (children : e'.children = e.children) (parents : e'.parents = e.parents)
    (arrival : e'.arrival = e.arrival) (numParents : e'.numParents = e.numParents)
    (cycle : e'.cycle = e.cycle) (memory : e'.memory = e.memory) :
    (g.set id e').Counts n pend := by
  have arrivals := arrival_set isEvent arrival
  refine ⟨linked_set counts.linked isEvent children parents, ?_, ?_⟩
  · intro other x isOther
    rcases events_set isOther with ⟨rfl, rfl⟩ | ⟨-, isOther⟩
    · have before := counts.waiting other e isEvent
      constructor
      · rw [arrivals, parents, numParents]
        exact before.numParents
      · rw [cycle, memory]
        exact before.memory
      · rw [arrivals, parents, cycle]
        exact before.arrived
      · rw [arrivals, parents, cycle, memory]
        exact before.latest
    · have before := counts.waiting other x isOther
      exact ⟨by rw [arrivals]; exact before.numParents, before.memory,
        by rw [arrivals]; exact before.arrived, by rw [arrivals]; exact before.latest⟩
  · rw [arrivals, parentsOf_set isEvent parents]
    exact counts.pending

end Graph

end Zsim.Timing
