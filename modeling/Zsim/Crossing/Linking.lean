import Mathlib.Algebra.Order.BigOperators.Group.Finset
import Zsim.Crossing.Model

/-!
# Linking a crossing

What `produceCrossings` does with one edge between two domains, on the children in the order
in which they were added: the source event takes the place of the child, and the crossing,
whose only child it is, may become the last child of an event of its own domain.
-/

set_option autoImplicit false

namespace Zsim.Timing

/-- The pointer is to the slot with an index, of children that hold a list. -/
def ChildPtr.At {T : Type} (l : List T) (j : Nat) : ChildPtr → Prop
  | .child => l.length = 1 ∧ j = 0
  | .event behind i => 2 ≤ l.length ∧ j = 3 * behind + i.1

namespace Children.Holds

variable {T : Type} {c : Children T} {l : List T} {j : Nat} {childPtr : ChildPtr}

theorem read (holds : c.Holds l) (at' : childPtr.At l j) : c.read childPtr = l[j]? := by
  cases childPtr with
  | child =>
      obtain ⟨single, rfl⟩ := at'
      exact holds.read_child single
  | event behind i =>
      obtain ⟨several, rfl⟩ := at'
      exact holds.read_event several behind i

theorem write (holds : c.Holds l) (at' : childPtr.At l j) (inside : j < l.length) (x : T) :
    (c.write x childPtr).Holds (l.set j x) := by
  cases childPtr with
  | child =>
      obtain ⟨single, rfl⟩ := at'
      exact holds.write_child single x
  | event behind i =>
      obtain ⟨several, rfl⟩ := at'
      exact holds.write_event several behind i inside x

end Children.Holds

end Zsim.Timing

namespace Zsim.Crossing

open Zsim.Timing

namespace Sim

/-- The children of an event in the order in which they were added. -/
def children (s : Sim) (id : Nat) : List Nat := ((s.events id).map fun e => e.children.toList).getD []

/-- The edges of the graph: `c` is the child of `p` that was added after `j` others. -/
def Edge (s : Sim) (p j c : Nat) : Prop := (s.children p)[j]? = some c

def domain (s : Sim) (id : Nat) : Option Nat := (s.events id).map Event.domain

/-- The number of slots that hold an event. -/
def inDegree (s : Sim) (id : Nat) : Nat := ∑ p ∈ Finset.range s.allocated, (s.children p).count id

/-- The event to whose children a crossing from `p` to `domain` is added. -/
def target (ph : Phase) (s : Sim) (p : Event) (domain : Nat) : Option Nat :=
  (s.request p.domain domain).or (s.previous ph p.domain domain (max ph.lastLimit p.crossingStart))

structure Ok (ph : Phase) (s : Sim) : Prop where
  fresh : ∀ id, s.allocated ≤ id → s.events id = none
  holds : ∀ p e, s.events p = some e → e.children.Holds e.children.toList
  closed : ∀ p j c, s.Edge p j c → ∃ e, s.events c = some e ∧ e.state = .none
  state : ∀ p e, s.events p = some e → e.state = .none ∨ e.state = .queued
  inside : ∀ p e, s.events p = some e → e.domain < ph.numDomains
  starts : ∀ p e j c, s.events p = some e → s.Edge p j c → s.domain c ≠ some e.domain →
    e.minStartCycle ≠ 2 ^ 64 - 1 ∧
      max ph.lastLimit e.crossingStart < u64 (ph.lastLimit + u32 (10 * ph.phaseLength) + 10000)
  counted : ∀ p e, s.events p = some e → e.numParents = s.inDegree p
  stack : ∀ b ∈ s.crossingStack, ∃ e x p, s.events b = some e ∧ e.kind = .crossing x ∧
    s.events x.parentEv = some p ∧ p.domain = x.srcDomain
  last : ∀ src dst, ph.curCycle src < (s.lastCrossing src dst).cycle →
    ∃ e, s.events (s.lastCrossing src dst).ev = some e ∧ e.domain = dst

variable {ph : Phase} {s : Sim}

theorem events_modify (s : Sim) (id : Nat) (f : Event → Event) (q : Nat) :
    (s.modify id f).events q = if q = id then (s.events q).map f else s.events q := by
  unfold modify
  by_cases same : q = id
  · subst same
    simp
  · simp [same]

theorem Ok.domain_target (ok : s.Ok ph) {p : Event} {domain t : Nat}
    (target : s.target ph p domain = some t) : ∃ e, s.events t = some e ∧ e.domain = domain := by
  unfold Sim.target at target
  cases request : s.request p.domain domain with
  | some parentEv =>
      rw [request] at target
      cases target
      unfold Sim.request at request
      cases back : s.crossingStack.head? with
      | none => simp [back] at request
      | some b =>
          obtain ⟨e, x, pe, isEvent, kind, isParent, same⟩ := ok.stack b (List.mem_of_mem_head? back)
          simp only [back, isEvent, kind, Option.bind_eq_bind, Option.bind_some] at request
          split at request
          · next both =>
              cases request
              exact ⟨pe, isParent, same.trans both.1⟩
          · cases request
  | none =>
      rw [request, Option.none_or] at target
      unfold Sim.previous at target
      dsimp only at target
      split at target
      · next both =>
          cases target
          exact ok.last _ _ both.1
      · cases target

/-- The children of an event after an edge has been replaced: a crossing is added to those
of the target, and the source event is written to the slot of the edge. -/
def relink (s : Sim) (target : Option Nat) (this : Nat) (childPtr : ChildPtr) (q : Nat) (ch : Children Nat) :
    Children Nat :=
  let added := if target = some q then ch.addChild s.allocated else ch
  if q = this then added.write (s.allocated + 1) childPtr else added

/-- An edge between two domains, at a pointer to the slot of the child. -/
structure Between (s : Sim) (this : Nat) (p : Event) (childPtr : ChildPtr) (j c : Nat) (child : Event) :
    Prop where
  isThis : s.events this = some p
  isChild : s.events c = some child
  edge : s.Edge this j c
  at' : childPtr.At p.children.toList j
  apart : child.domain ≠ p.domain

/-- What `link` does to an edge between two domains. -/
structure Linked (ph : Phase) (s s' : Sim) (this : Nat) (p : Event) (childPtr : ChildPtr) (c : Nat)
    (child : Event) : Prop where
  old : ∀ q, q ≠ s.allocated → q ≠ s.allocated + 1 → s'.events q = (s.events q).map fun e =>
    { e with children := s.relink (s.target ph p child.domain) this childPtr q e.children }
  crossing : s'.events s.allocated = some
    { crossingEvent ph this p child with
      children := Children.empty.addChild c
      numParents := if (s.target ph p child.domain).isSome then 1 else 0 }
  source : s'.events (s.allocated + 1) = some (crossingSrcEvent s.allocated p)
  allocated : s'.allocated = s.allocated + 2
  stack : s'.crossingStack = if (s.request p.domain child.domain).isSome then s.crossingStack.tail
    else s.allocated :: s.crossingStack
  last : s'.lastCrossing = if (s.request p.domain child.domain).isSome then s.lastCrossing
    else fun src dst => if src = p.domain ∧ dst = child.domain then
      ⟨max ph.lastLimit p.crossingStart, s.allocated⟩ else s.lastCrossing src dst

theorem addChild_eq {parent child : Nat} {p c : Event} (isParent : s.events parent = some p)
    (isChild : s.events child = some c) (open' : p.state = .none ∨ p.state = .queued) (waits : c.state = .none) :
    s.addChild parent child = some ((s.modify parent fun e =>
      { e with children := e.children.addChild child }).modify child fun e =>
      { e with numParents := e.numParents + 1 }) := by
  unfold Sim.addChild
  simp [isParent, isChild, open', waits]

theorem request_congr {s' : Sim} (stack : s'.crossingStack = s.crossingStack)
    (events : ∀ b ∈ s.crossingStack, (s'.events b).map (fun e => (e.domain, e.kind)) =
      (s.events b).map fun e => (e.domain, e.kind)) (src dst : Nat) :
    s'.request src dst = s.request src dst := by
  unfold Sim.request
  rw [stack]
  cases back : s.crossingStack.head? with
  | none => rfl
  | some b =>
      have same := events b (List.mem_of_mem_head? back)
      simp only [Option.bind_eq_bind, Option.bind_some]
      cases isEvent : s.events b with
      | none =>
          rw [isEvent, Option.map_none, Option.map_eq_none_iff] at same
          rw [same]
      | some e =>
          rw [isEvent, Option.map_some, Option.map_eq_some_iff] at same
          obtain ⟨e', isEvent', same⟩ := same
          obtain ⟨domain, kind⟩ := Prod.mk.injEq .. ▸ same
          rw [isEvent']
          simp [domain, kind]

theorem Ok.lt (ok : s.Ok ph) {id : Nat} {e : Event} (isEvent : s.events id = some e) : id < s.allocated := by
  by_contra notLt
  rw [ok.fresh id (Nat.not_lt.mp notLt)] at isEvent
  cases isEvent

theorem children_of_event {id : Nat} {e : Event} (isEvent : s.events id = some e) :
    s.children id = e.children.toList := by
  rw [children, isEvent]
  rfl

theorem Edge.isEvent {p j c : Nat} (edge : s.Edge p j c) : ∃ e, s.events p = some e := by
  cases isEvent : s.events p with
  | none => simp [Edge, children, isEvent] at edge
  | some e => exact ⟨e, rfl⟩

theorem Ok.inDegree_pos (ok : s.Ok ph) {p j c : Nat} (edge : s.Edge p j c) : 0 < s.inDegree c := by
  obtain ⟨e, isEvent⟩ := edge.isEvent
  have counts : 0 < (s.children p).count c := List.count_pos_iff.mpr (List.mem_of_getElem? edge)
  exact counts.trans_le (Finset.single_le_sum_of_canonicallyOrdered (f := fun p => (s.children p).count c)
    (Finset.mem_range.mpr (ok.lt isEvent)))

/-- The events after one has been added to the target, if there is one. -/
def addedTo (s : Sim) (ev : Nat) : Option Nat → Nat → Option Event
  | some t => ((s.modify t fun e => { e with children := e.children.addChild ev }).modify ev fun e =>
      { e with numParents := e.numParents + 1 }).events
  | none => s.events

theorem addedTo_old {ev q : Nat} (target : Option Nat) (ne : q ≠ ev) :
    s.addedTo ev target q = (s.events q).map fun e =>
      { e with children := if target = some q then e.children.addChild ev else e.children } := by
  cases target with
  | none => simp [addedTo]
  | some t =>
      simp only [addedTo, events_modify, if_neg ne]
      by_cases same : q = t
      · simp [same]
      · simp [same, Ne.symm same]

theorem addedTo_new {ev : Nat} (target : Option Nat) (ne : target ≠ some ev) :
    s.addedTo ev target ev = (s.events ev).map fun e =>
      { e with numParents := e.numParents + if target.isSome then 1 else 0 } := by
  cases target with
  | none => simp [addedTo]
  | some t =>
      have apart : ev ≠ t := fun same => ne (by rw [same])
      simp [addedTo, events_modify, apart]

theorem enqueueCrossing_spec (s : Sim) (ev cycle src dst : Nat) (target : Option Nat) {xe : Event}
    (isEvent : s.events ev = some xe)
    (waits : xe.state = .none) (numParents : xe.numParents = 0) (inside : xe.domain < ph.numDomains)
    (clock : ph.curCycle src ≤ cycle) (late : ph.lastLimit ≤ cycle)
    (near : cycle < u64 (ph.lastLimit + u32 (10 * ph.phaseLength) + 10000))
    (isTarget : target = (s.request src dst).or (s.previous ph src dst cycle))
    (open' : ∀ t, target = some t → ∃ e, s.events t = some e ∧ (e.state = .none ∨ e.state = .queued)) :
    ∃ s', s.enqueueCrossing ph ev cycle src dst = some s' ∧
      s'.events = s.addedTo ev target ∧ s'.allocated = s.allocated ∧
      (s'.crossingStack = if (s.request src dst).isSome then s.crossingStack.tail else ev :: s.crossingStack) ∧
      s'.lastCrossing = if (s.request src dst).isSome then s.lastCrossing
        else fun a b => if a = src ∧ b = dst then ⟨cycle, ev⟩ else s.lastCrossing a b := by
  unfold Sim.enqueueCrossing
  obtain request | ⟨parentEv, request⟩ := Option.eq_none_or_eq_some (s.request src dst)
  · rw [request, Option.none_or] at isTarget
    have pushed : ∃ next, enqueueRequest ph ev cycle src dst { s with crossingStack := ev :: s.crossingStack } =
          some next ∧
        next.events = s.addedTo ev target ∧ next.allocated = s.allocated ∧
        next.crossingStack = ev :: s.crossingStack := by
      unfold Sim.enqueueRequest
      have same : { s with crossingStack := ev :: s.crossingStack }.previous ph src dst cycle = target :=
        isTarget.symm
      cases target with
      | some last =>
          obtain ⟨e, isTarget', open'⟩ := open' last rfl
          simp only [same]
          rw [addChild_eq (s := { s with crossingStack := ev :: s.crossingStack }) isTarget' isEvent open' waits]
          exact ⟨_, rfl, rfl, rfl, rfl⟩
      | none =>
          simp only [same]
          rw [if_pos clock]
          unfold Sim.enqueueSynced
          simp [isEvent, inside, late, near, numParents, addedTo]
    obtain ⟨next, isNext, events, allocated, stack⟩ := pushed
    simp only [request, isNext]
    exact ⟨_, rfl, events, allocated, stack, rfl⟩
  · rw [request, Option.some_or] at isTarget
    subst isTarget
    obtain ⟨e, isTarget, open'⟩ := open' parentEv rfl
    simp only [request]
    rw [addChild_eq (s := { s with crossingStack := s.crossingStack.tail }) isTarget isEvent open' waits]
    exact ⟨_, rfl, rfl, rfl, rfl, rfl⟩

theorem Ok.link (ok : s.Ok ph) (clocks : ∀ d, ph.curCycle d ≤ ph.lastLimit) {this j c : Nat} {p child : Event}
    {childPtr : ChildPtr} (between : s.Between this p childPtr j c child) :
    ∃ s', s.link ph this childPtr c = some s' ∧ Linked ph s s' this p childPtr c child := by
  obtain ⟨isThis, isChild, edge, -, apart⟩ := between
  have numParents : child.numParents ≠ 0 := by
    rw [ok.counted c child isChild]
    exact (ok.inDegree_pos edge).ne'
  obtain ⟨child', isChild', waits⟩ := ok.closed this j c edge
  cases Option.some.inj (isChild.symm.trans isChild')
  have notSelf : this ≠ c := by
    rintro rfl
    cases Option.some.inj (isThis.symm.trans isChild)
    exact apart rfl
  have cross : s.domain c ≠ some p.domain := by
    rw [domain, isChild, Option.map_some]
    exact fun same => apart (Option.some.inj same)
  obtain ⟨assigned, near⟩ := ok.starts this p j c isThis edge cross
  have ltThis := ok.lt isThis
  have ltChild := ok.lt isChild
  let unlinked := s.modify c fun e => { e with numParents := e.numParents - 1 }
  let made : Sim :=
    { unlinked with
      events := Function.update
        (Function.update unlinked.events s.allocated (some (crossingEvent ph this p child)))
        (s.allocated + 1) (some (crossingSrcEvent s.allocated p))
      allocated := s.allocated + 2 }
  have madeEvents : ∀ q, made.events q = if q = s.allocated + 1 then some (crossingSrcEvent s.allocated p)
      else if q = s.allocated then some (crossingEvent ph this p child)
      else if q = c then (s.events q).map fun e => { e with numParents := e.numParents - 1 }
      else s.events q := by
    intro q
    simp only [made, unlinked, Function.update_apply, events_modify]
  let linked := (made.modify s.allocated fun e => { e with children := e.children.addChild c }).modify c fun e =>
    { e with numParents := e.numParents + 1 }
  let xe : Event := { crossingEvent ph this p child with children := Children.empty.addChild c }
  have linkedEvents : ∀ q, linked.events q = if q = s.allocated + 1 then some (crossingSrcEvent s.allocated p)
      else if q = s.allocated then some xe else s.events q := by
    intro q
    simp only [linked, events_modify, madeEvents]
    by_cases isSrc : q = s.allocated + 1
    · simp [isSrc, show s.allocated + 1 ≠ c by omega]
    · by_cases isNew : q = s.allocated
      · simp only [isNew, if_neg (show s.allocated ≠ c by omega)]
        simp [xe, crossingEvent]
      · by_cases isC : q = c
        · subst isC
          simp [isSrc, isNew, isChild, Nat.sub_add_cancel (Nat.one_le_iff_ne_zero.mpr numParents)]
        · simp [isSrc, isNew, isC]
  have oldEvents : ∀ q e, s.events q = some e → linked.events q = some e := by
    intro q e isEvent
    have lt := ok.lt isEvent
    rw [linkedEvents, if_neg (by omega), if_neg (by omega), isEvent]
  have isLinked : made.addChild s.allocated c = some linked := by
    apply addChild_eq (p := crossingEvent ph this p child)
      (c := { child with numParents := child.numParents - 1 })
    · rw [madeEvents, if_neg (by omega), if_pos rfl]
    · rw [madeEvents, if_neg (by omega), if_neg (by omega), if_pos rfl, isChild]
      rfl
    · exact .inl rfl
    · exact waits
  have request : ∀ src dst, linked.request src dst = s.request src dst := by
    refine request_congr rfl fun b member => ?_
    obtain ⟨e, x, pe, isEvent, -⟩ := ok.stack b member
    rw [oldEvents b e isEvent, isEvent]
  have newEvent : linked.events s.allocated = some xe := by
    rw [linkedEvents, if_neg (by omega), if_pos rfl]
  obtain ⟨next, isNext, events, allocated, stack, last⟩ := enqueueCrossing_spec linked s.allocated
    (max ph.lastLimit p.crossingStart) p.domain child.domain (s.target ph p child.domain) newEvent rfl rfl
    (ok.inside c child isChild)
    ((clocks p.domain).trans (Nat.le_max_left _ _)) (Nat.le_max_left _ _) near (by rw [request]; rfl)
    (fun t isTarget => by
      obtain ⟨e, isEvent, -⟩ := ok.domain_target isTarget
      exact ⟨e, oldEvents t e isEvent, ok.state t e isEvent⟩)
  have unlinkedThis : unlinked.events this = some p := by
    rw [events_modify, if_neg notSelf, isThis]
  have unlinkedChild : unlinked.events c = some { child with numParents := child.numParents - 1 } := by
    rw [events_modify, if_pos rfl, isChild]
    rfl
  have crossed : unlinked.newCrossing ph this c = some next := by
    unfold Sim.newCrossing
    rw [unlinkedThis, unlinkedChild]
    simp only [Option.bind_eq_bind, Option.bind_some]
    rw [if_neg (Ne.symm apart)]
    change (made.addChild s.allocated c).bind _ = _
    rw [isLinked]
    exact isNext
  have handled : s.handleCrossing ph this c = some (s.allocated + 1, next) := by
    unfold Sim.handleCrossing
    rw [isChild]
    simp only [Option.bind_eq_bind, Option.bind_some]
    rw [if_neg numParents]
    change (unlinked.events this).bind _ = _
    rw [unlinkedThis]
    simp only [Option.bind_some]
    rw [if_neg assigned]
    change (unlinked.newCrossing ph this c).bind _ = _
    rw [crossed]
    rfl
  refine ⟨next.modify this fun e => { e with children := e.children.write (s.allocated + 1) childPtr }, ?_, ?_⟩
  · unfold Sim.link
    rw [isThis, isChild]
    simp only [Option.bind_eq_bind, Option.bind_some]
    rw [if_pos apart, handled]
    rfl
  · have notTarget : ∀ q, s.allocated ≤ q → s.target ph p child.domain ≠ some q := by
      intro q beyond isTarget
      obtain ⟨e, isEvent, -⟩ := ok.domain_target isTarget
      exact Nat.not_lt.mpr beyond (ok.lt isEvent)
    constructor
    · intro q notNew notSrc
      rw [events_modify, events, addedTo_old _ notNew, linkedEvents, if_neg notSrc, if_neg notNew]
      by_cases isThis : q = this
      · simp [isThis, relink, Function.comp_def]
      · simp [isThis, relink]
    · rw [events_modify, if_neg (by omega), events, addedTo_new _ (notTarget _ (Nat.le_refl _)), newEvent]
      simp [xe, crossingEvent]
    · rw [events_modify, if_neg (by omega), events, addedTo_old _ (by omega), linkedEvents, if_pos rfl]
      simp only [Option.map_some, if_neg (notTarget (s.allocated + 1) (Nat.le_succ _))]
    · exact allocated
    · simp only [request] at stack
      exact stack
    · simp only [request] at last
      exact last

/-! ## The graph after it -/

section

variable {s' : Sim} {this j c : Nat} {p child : Event} {childPtr : ChildPtr}

theorem Linked.domain (linked : Linked ph s s' this p childPtr c child) (q : Nat) :
    s'.domain q = if q = s.allocated then some child.domain
      else if q = s.allocated + 1 then some p.domain else s.domain q := by
  unfold Sim.domain
  by_cases isNew : q = s.allocated
  · rw [if_pos isNew, isNew, linked.crossing]
    rfl
  · rw [if_neg isNew]
    by_cases isSrc : q = s.allocated + 1
    · rw [if_pos isSrc, isSrc, linked.source]
      rfl
    · rw [if_neg isSrc, linked.old q isNew isSrc, Option.map_map]
      rfl

theorem Ok.target_ne (ok : s.Ok ph) (between : s.Between this p childPtr j c child) :
    s.target ph p child.domain ≠ some this := by
  intro isTarget
  obtain ⟨e, isEvent, same⟩ := ok.domain_target isTarget
  cases Option.some.inj (between.isThis.symm.trans isEvent)
  exact between.apart same.symm

theorem Ok.relink (ok : s.Ok ph) (between : s.Between this p childPtr j c child) {q : Nat} {e : Event}
    (isEvent : s.events q = some e) :
    (s.relink (s.target ph p child.domain) this childPtr q e.children).Holds
      (if q = this then (s.children q).set j (s.allocated + 1)
        else if s.target ph p child.domain = some q then s.children q ++ [s.allocated] else s.children q) := by
  have holds := ok.holds q e isEvent
  rw [children_of_event isEvent]
  unfold Sim.relink
  by_cases same : q = this
  · subst same
    cases Option.some.inj (between.isThis.symm.trans isEvent)
    have edge := between.edge
    rw [Edge, children_of_event isEvent] at edge
    obtain ⟨inside, -⟩ := List.getElem?_eq_some_iff.mp edge
    simp only [if_neg (ok.target_ne between), if_true]
    exact holds.write between.at' inside _
  · simp only [if_neg same]
    split
    · exact holds.addChild _
    · exact holds

theorem Linked.children (linked : Linked ph s s' this p childPtr c child) (ok : s.Ok ph)
    (between : s.Between this p childPtr j c child) (q : Nat) :
    s'.children q = if q = s.allocated then [c] else if q = this then (s.children q).set j (s.allocated + 1)
      else if s.target ph p child.domain = some q then s.children q ++ [s.allocated] else s.children q := by
  by_cases isNew : q = s.allocated
  · rw [if_pos isNew, isNew, children_of_event linked.crossing]
    rfl
  · rw [if_neg isNew]
    by_cases isSrc : q = s.allocated + 1
    · have notThis : q ≠ this := by
        have lt := ok.lt between.isThis
        omega
      have notTarget : s.target ph p child.domain ≠ some q := by
        intro isTarget
        obtain ⟨e, isEvent, -⟩ := ok.domain_target isTarget
        have lt := ok.lt isEvent
        omega
      rw [if_neg notThis, if_neg notTarget, isSrc, children_of_event linked.source]
      unfold Sim.children
      rw [ok.fresh _ (Nat.le_succ _)]
      rfl
    · cases isEvent : s.events q with
      | none =>
          have notThis : q ≠ this := by
            rintro rfl
            cases isEvent.symm.trans between.isThis
          have notTarget : s.target ph p child.domain ≠ some q := by
            intro isTarget
            obtain ⟨e, isEvent', -⟩ := ok.domain_target isTarget
            cases isEvent.symm.trans isEvent'
          rw [if_neg notThis, if_neg notTarget, Sim.children, Sim.children, linked.old q isNew isSrc, isEvent]
          rfl
      | some e =>
          have isEvent' := linked.old q isNew isSrc
          rw [isEvent, Option.map_some] at isEvent'
          rw [children_of_event isEvent']
          exact (ok.relink between isEvent).toList

end

end Sim

end Zsim.Crossing
