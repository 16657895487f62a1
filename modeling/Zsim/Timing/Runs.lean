import Zsim.Timing.Firing

/-!
# Runs of an event graph

Every event with parents is fired once and at the right cycle, unless the constructor that
does not initialize `cycle` has found a later cycle in the slab.
-/

set_option autoImplicit false

namespace Zsim.Timing

open Timing.Graph

variable {n : Numbering}

/-! ## Building the graph -/

namespace Graph

theorem Inv.init : Graph.init.Inv n [] where
  linked := fun _ _ none => by cases none
  waiting := fun _ _ none => by cases none
  status := fun _ _ none => by cases none
  pending := fun _ member => absurd member List.not_mem_nil

theorem Inv.congr {g g' : Graph} (inv : g.Inv n []) (same : g'.events = g.events) : g'.Inv n [] := by
  obtain ⟨events, building, roots⟩ := g'
  cases same
  refine ⟨⟨fun id e isEvent => ?_, fun id e isEvent => ?_, inv.pending⟩, inv.status⟩
  · have linked := inv.linked id e isEvent
    exact ⟨linked.rank, linked.children, linked.parents⟩
  · have waiting := inv.waiting id e isEvent
    exact ⟨waiting.numParents, waiting.memory, waiting.arrived, waiting.latest⟩

theorem Idle.init : Graph.init.Idle := fun _ _ _ none => by cases none

theorem Idle.arrival {g : Graph} (idle : g.Idle) (building : g.building = true) (p : Nat) :
    g.arrival p = none := by
  cases isEvent : g.events p with
  | none => rw [Graph.arrival, isEvent]; rfl
  | some e => rw [arrival_of_event isEvent, Event.arrival, (idle building p e isEvent).1]; rfl

theorem Idle.numParents {g : Graph} (idle : g.Idle) (building : g.building = true)
    (inv : g.Inv n []) {id : Nat} {e : Event} (isEvent : g.events id = some e) :
    e.numParents = e.parents.length := by
  rw [(inv.waiting id e isEvent).numParents, List.map_nil, List.count_nil, Nat.add_zero,
    List.countP_eq_length]
  intro p _
  rw [idle.arrival building p]
  rfl

theorem create_spec (how : Constructor)
    (word : ∀ memory, how = .timingDomain memory → memory < 2 ^ 64) :
    (Event.create how).children = .empty ∧ (Event.create how).parents = [] ∧
      (Event.create how).numParents = 0 ∧ (Event.create how).cycle = (Event.create how).memory ∧
      (Event.create how).memory < 2 ^ 64 ∧ (Event.create how).doneAt = none ∧
      (Event.create how).state = .none ∧ (Event.create how).enqueued = [] := by
  cases how with
  | timing preDelay postDelay => exact ⟨rfl, rfl, rfl, rfl, Nat.two_pow_pos 64, rfl, rfl, rfl⟩
  | timingDomain memory => exact ⟨rfl, rfl, rfl, rfl, word memory rfl, rfl, rfl, rfl⟩
  | delay delay => exact ⟨rfl, rfl, rfl, rfl, Nat.two_pow_pos 64, rfl, rfl, rfl⟩

theorem Inv.create {g : Graph} (inv : g.Inv n []) (idle : g.Idle) {id : Nat} {how : Constructor}
    (fresh : g.events id = none) (rank : n.rank id < n.depth)
    (word : ∀ memory, how = .timingDomain memory → memory < 2 ^ 64) :
    (g.set id (.create how)).Inv n [] ∧ (g.set id (.create how)).Idle := by
  obtain ⟨children, parents, numParents, cycle, memory, doneAt, state, enqueued⟩ :=
    create_spec how word
  have sameParents : (g.set id (.create how)).parentsOf = g.parentsOf := by
    funext other
    by_cases same : other = id
    · rw [same, parentsOf_of_event (set_events_self ..), parentsOf, fresh, parents]
      rfl
    · rw [parentsOf, parentsOf, set_events_of_ne _ same]
  have sameArrivals : (g.set id (.create how)).arrival = g.arrival := by
    funext other
    by_cases same : other = id
    · rw [same, arrival_of_event (set_events_self ..), Graph.arrival, fresh, Event.arrival, doneAt]
      rfl
    · rw [Graph.arrival, Graph.arrival, set_events_of_ne _ same]
  have noChild : ∀ child, (g.parentsOf child).count id = 0 := by
    intro child
    rw [List.count_eq_zero]
    intro member
    cases isChild : g.events child with
    | none =>
        rw [parentsOf, isChild] at member
        cases member
    | some c =>
        rw [parentsOf_of_event isChild] at member
        have isThere := ((inv.linked child c isChild).parents id member).1
        rw [fresh] at isThere
        cases isThere
  refine ⟨⟨⟨?_, ?_, fun _ member => absurd member List.not_mem_nil⟩, status_set
    (fun other x _ isOther => inv.status other x isOther) ?_⟩, ?_⟩
  · intro other x isOther
    rcases events_set isOther with ⟨rfl, rfl⟩ | ⟨-, isOther⟩
    · refine ⟨rank, ⟨[], ?_, ?_, ?_⟩, ?_⟩
      · rw [children]
        exact .empty
      · rw [children]
        rfl
      · intro child
        rw [sameParents, noChild]
        rfl
      · rw [parents]
        exact fun _ member => absurd member List.not_mem_nil
    · have before := inv.linked other x isOther
      exact ⟨before.rank, by rw [sameParents]; exact before.children,
        fun p member => ⟨isSome_set (before.parents p member).1, (before.parents p member).2⟩⟩
  · intro other x isOther
    rcases events_set isOther with ⟨rfl, rfl⟩ | ⟨-, isOther⟩
    · refine ⟨by rw [numParents, parents]; rfl, ⟨Nat.le_of_eq cycle.symm, memory⟩, ?_, .inl cycle⟩
      rw [parents]
      exact fun _ member => absurd member List.not_mem_nil
    · have before := inv.waiting other x isOther
      exact ⟨by rw [sameArrivals]; exact before.numParents, before.memory,
        by rw [sameArrivals]; exact before.arrived, by rw [sameArrivals]; exact before.latest⟩
  · exact ⟨fun _ => ⟨state, enqueued⟩, fun _ => ⟨enqueued, fun _ => state⟩,
      fun hasParents => absurd parents hasParents, fun hasParents => absurd parents hasParents,
      by rw [doneAt, state]; exact ⟨(by simp), (by simp)⟩⟩
  · intro building other x isOther
    rcases events_set isOther with ⟨rfl, rfl⟩ | ⟨-, isOther⟩
    · exact ⟨doneAt, .inl state⟩
    · exact idle building other x isOther

/-- A write of fields that a graph under construction does not use yet. -/
theorem Idle.set {g : Graph} (idle : g.Idle) {id : Nat} {e' : Event}
    (same : g.building = true →
      e'.doneAt = none ∧ (e'.state = .none ∨ e'.state = .queued ∧ id ∈ g.roots)) :
    (g.set id e').Idle := by
  intro building other x isOther
  rcases events_set isOther with ⟨rfl, rfl⟩ | ⟨-, isOther⟩
  · exact same building
  · exact idle building other x isOther

/-! ## A new edge -/

section
variable {g : Graph} {parent child : Nat} {p c : Event}

def withChild (child : Nat) (p : Event) : Event := { p with children := p.children.addChild child }

def withParent (parent : Nat) (c : Event) : Event :=
  { c with numParents := c.numParents + 1, parents := parent :: c.parents }

def withEdge (g : Graph) (parent child : Nat) (p c : Event) : Graph :=
  (g.set parent (withChild child p)).set child (withParent parent c)

theorem events_withEdge {other : Nat} {x : Event}
    (isOther : (g.withEdge parent child p c).events other = some x) :
    other = child ∧ x = withParent parent c ∨ other = parent ∧ x = withChild child p ∨
      other ≠ child ∧ other ≠ parent ∧ g.events other = some x := by
  rcases events_set isOther with both | ⟨notChild, isOther⟩
  · exact .inl both
  · rcases events_set isOther with both | ⟨notParent, isOther⟩
    · exact .inr (.inl both)
    · exact .inr (.inr ⟨notChild, notParent, isOther⟩)

theorem parentsOf_withEdge (isParent : g.events parent = some p) (isChild : g.events child = some c)
    (other : Nat) : (g.withEdge parent child p c).parentsOf other =
      if other = child then parent :: g.parentsOf child else g.parentsOf other := by
  by_cases same : other = child
  · rw [if_pos same, same, withEdge, parentsOf_of_event (set_events_self ..),
      parentsOf_of_event isChild]
    rfl
  · rw [if_neg same, withEdge, parentsOf, set_events_of_ne _ same]
    have same' : (g.set parent (withChild child p)).parentsOf = g.parentsOf :=
      parentsOf_set isParent rfl
    exact congrFun same' other

theorem count_withEdge (isParent : g.events parent = some p) (isChild : g.events child = some c)
    {other : Nat} (notParent : other ≠ parent) (other' : Nat) :
    ((g.withEdge parent child p c).parentsOf other').count other =
      (g.parentsOf other').count other := by
  rw [parentsOf_withEdge isParent isChild]
  by_cases same : other' = child
  · rw [if_pos same, same, List.count_cons_of_ne (Ne.symm notParent)]
  · rw [if_neg same]

theorem linked_withEdge (linked : ∀ id e, g.events id = some e → g.Linked n id e)
    (isParent : g.events parent = some p) (isChild : g.events child = some c)
    (rank : n.rank parent < n.rank child) :
    ∀ other x, (g.withEdge parent child p c).events other = some x →
      (g.withEdge parent child p c).Linked n other x := by
  intro other x isOther
  have there : ∀ q, (g.events q).isSome = true →
      ((g.withEdge parent child p c).events q).isSome = true :=
    fun q isThere => isSome_set (isSome_set isThere)
  rcases events_withEdge isOther with ⟨rfl, rfl⟩ | ⟨rfl, rfl⟩ | ⟨-, notParent, isOther⟩
  · obtain ⟨bound, ⟨l, ok, visit, same⟩, before⟩ := linked other c isChild
    have ne : other ≠ parent := by
      rintro rfl
      exact Nat.lt_irrefl _ rank
    refine ⟨bound, ⟨l, ok, visit, fun child' => ?_⟩, fun q member => ?_⟩
    · rw [count_withEdge isParent isChild ne, same]
    · rcases List.mem_cons.mp member with rfl | old
      · exact ⟨there q (by rw [isParent]; rfl), rank⟩
      · exact ⟨there q (before q old).1, (before q old).2⟩
  · obtain ⟨bound, ⟨l, ok, visit, same⟩, before⟩ := linked other p isParent
    obtain ⟨ok', l', visit', perm⟩ := ok.addChild visit child
    refine ⟨bound, ⟨l', ok', visit', fun child' => ?_⟩,
      fun q member => ⟨there q (before q member).1, (before q member).2⟩⟩
    rw [perm.count_eq, parentsOf_withEdge isParent isChild]
    by_cases isNew : child' = child
    · rw [if_pos isNew, isNew, List.count_cons_self, List.count_cons_self, same]
    · rw [if_neg isNew, List.count_cons_of_ne (Ne.symm isNew), same]
  · obtain ⟨bound, ⟨l, ok, visit, same⟩, before⟩ := linked other x isOther
    refine ⟨bound, ⟨l, ok, visit, fun child' => ?_⟩,
      fun q member => ⟨there q (before q member).1, (before q member).2⟩⟩
    rw [count_withEdge isParent isChild notParent, same]

theorem Idle.withEdge (idle : g.Idle) (isParent : g.events parent = some p)
    (isChild : g.events child = some c) : (g.withEdge parent child p c).Idle := by
  intro building other x isOther
  rcases events_withEdge isOther with ⟨rfl, rfl⟩ | ⟨rfl, rfl⟩ | ⟨-, -, isOther⟩
  · exact idle building other c isChild
  · exact idle building other p isParent
  · exact idle building other x isOther

theorem waiting_withEdge (inv : g.Inv n []) (idle : g.Idle) (building : g.building = true)
    (isParent : g.events parent = some p) (isChild : g.events child = some c) :
    ∀ other x, (g.withEdge parent child p c).events other = some x →
      (g.withEdge parent child p c).Waiting [] other x := by
  intro other x isOther
  have arrivals : (g.withEdge parent child p c).arrival = g.arrival := by
    funext q
    rw [(idle.withEdge isParent isChild).arrival building, idle.arrival building]
  rcases events_withEdge isOther with ⟨rfl, rfl⟩ | ⟨rfl, rfl⟩ | ⟨-, -, isOther⟩
  · have before := inv.waiting other c isChild
    constructor
    · rw [arrivals]
      change c.numParents + 1 = (parent :: c.parents).countP _ + _
      rw [List.countP_cons, before.numParents, idle.arrival building parent]
      simp only [Option.isNone_none, if_true]
      omega
    · exact before.memory
    · rw [arrivals]
      intro q _ cycle isDone
      rw [idle.arrival building q] at isDone
      cases isDone
    · rw [arrivals]
      refine before.latest.imp_right fun found => ?_
      obtain ⟨q, member, isDone⟩ := found
      exact ⟨q, List.mem_cons_of_mem _ member, isDone⟩
  · have before := inv.waiting other p isParent
    exact ⟨by rw [arrivals]; exact before.numParents, before.memory,
      by rw [arrivals]; exact before.arrived, by rw [arrivals]; exact before.latest⟩
  · have before := inv.waiting other x isOther
    exact ⟨by rw [arrivals]; exact before.numParents, before.memory,
      by rw [arrivals]; exact before.arrived, by rw [arrivals]; exact before.latest⟩

theorem status_withEdge (inv : g.Inv n []) (idle : g.Idle) (building : g.building = true)
    (isParent : g.events parent = some p) (isChild : g.events child = some c)
    (isNone : c.state = .none) :
    ∀ other x, (g.withEdge parent child p c).events other = some x → x.Status := by
  intro other x isOther
  rcases events_withEdge isOther with ⟨rfl, rfl⟩ | ⟨rfl, rfl⟩ | ⟨-, -, isOther⟩
  · have before := inv.status other c isChild
    have notQueued : c.enqueued = [] := by
      by_cases zero : c.numParents = 0
      · rw [idle.numParents building inv isChild, List.length_eq_zero_iff] at zero
        exact (before.root zero).1
      · exact (before.waits zero).2
    exact ⟨fun _ => ⟨isNone, notQueued⟩, fun noParents => absurd noParents (List.cons_ne_nil _ _),
      fun _ zero => absurd zero (Nat.succ_ne_zero _), fun _ zero => absurd zero (Nat.succ_ne_zero _),
      before.isDone⟩
  · have before := inv.status other p isParent
    exact ⟨before.waits, before.root, before.fired, before.passed, before.isDone⟩
  · exact inv.status other x isOther

end

theorem Inv.addChild {g : Graph} (inv : g.Inv n []) (idle : g.Idle) {parent child : Nat}
    (building : g.building = true) (hasParent : g.Is parent fun _ => True)
    (hasChild : g.Is child fun _ => True) (rank : n.rank parent < n.rank child)
    (notRoot : child ∉ g.roots) :
    ∃ g', g.addChild parent child = some g' ∧ g'.Inv n [] ∧ g'.Idle := by
  obtain ⟨p, isParent, -⟩ := hasParent
  obtain ⟨c, isChild, -⟩ := hasChild
  have isNone : c.state = .none :=
    (idle building child c isChild).2.resolve_right fun queued => notRoot queued.2
  have run : g.addChild parent child = some (g.withEdge parent child p c) := by
    unfold Graph.addChild
    simp only [isParent, isChild, Option.bind_eq_bind, Option.bind_some]
    exact if_pos ⟨(idle building parent p isParent).2.imp_right And.left, isNone⟩
  exact ⟨_, run, ⟨⟨linked_withEdge inv.linked isParent isChild rank,
    waiting_withEdge inv idle building isParent isChild, fun _ member => absurd member List.not_mem_nil⟩,
    status_withEdge inv idle building isParent isChild isNone⟩, idle.withEdge isParent isChild⟩

/-! ## Steps -/

theorem modify_eq {g : Graph} {id : Nat} {e e' : Event} {f : Event → Option Event}
    (isEvent : g.events id = some e) (run : f e = some e') : g.modify id f = some (g.set id e') := by
  unfold Graph.modify
  simp only [isEvent, Option.bind_eq_bind, Option.bind_some, run]

/-- An event with a state of its own waits for nothing, and is no DelayEvent. -/
theorem active {e : Event} (status : e.Status) (notNone : e.state ≠ .none) (notDone : e.state ≠ .done) :
    e.numParents = 0 ∧ e.isDelay = false ∧ e.doneAt = none := by
  have zero : e.numParents = 0 := by
    by_contra waits
    exact notNone (status.waits waits).1
  refine ⟨zero, ?_, ?_⟩
  · cases isDelay : e.isDelay with
    | false => rfl
    | true =>
        by_cases noParents : e.parents = []
        · exact absurd ((status.root noParents).2 isDelay) notNone
        · exact absurd (status.passed noParents zero isDelay).2.1 notDone
  · rw [← Option.not_isSome_iff_eq_none, status.isDone]
    exact notDone

theorem Inv.move {g : Graph} (inv : g.Inv n []) (idle : g.Idle) {id : Nat} {e : Event}
    {state : EventState} (isEvent : g.events id = some e) (notNone : e.state ≠ .none)
    (notDone : e.state ≠ .done) (new : state ≠ .none ∧ state ≠ .done)
    (building : g.building = true → state = .queued ∧ id ∈ g.roots) :
    (g.set id { e with state := state }).Inv n [] ∧ (g.set id { e with state := state }).Idle := by
  have before := inv.status id e isEvent
  obtain ⟨zero, isTiming, isNone⟩ := active before notNone notDone
  refine ⟨⟨inv.toCounts.set_quiet isEvent rfl rfl rfl rfl rfl rfl,
    status_set (fun other x _ isOther => inv.status other x isOther) ?_⟩,
    idle.set fun during => ⟨isNone, .inr (building during)⟩⟩
  constructor
  · exact fun waits => absurd zero waits
  · exact fun noParents => ⟨(before.root noParents).1, fun isDelay =>
      absurd (isTiming.symm.trans isDelay) (by simp)⟩
  · exact before.fired
  · exact fun _ _ isDelay => absurd (isTiming.symm.trans isDelay) (by simp)
  · change e.doneAt.isSome = true ↔ state = .done
    rw [isNone]
    exact ⟨(by simp), fun isDone => absurd isDone new.2⟩

theorem Idle.executed {g : Graph} (idle : g.Idle) {id : Nat} {e : Event}
    (isEvent : g.events id = some e) (notNone : e.state ≠ .none) (notQueued : e.state ≠ .queued) :
    g.building ≠ true :=
  fun building => (idle building id e isEvent).2.elim notNone fun queued => notQueued queued.1

theorem Inv.setDelays {g : Graph} (inv : g.Inv n []) (idle : g.Idle) (building : g.building = true)
    {id : Nat} {e : Event} (isEvent : g.events id = some e) (preDelay postDelay : Nat) :
    (g.set id { e with preDelay := preDelay, postDelay := postDelay }).Inv n [] ∧
      (g.set id { e with preDelay := preDelay, postDelay := postDelay }).Idle := by
  have before := inv.status id e isEvent
  obtain ⟨notDone, state⟩ := idle building id e isEvent
  have waits : e.parents ≠ [] → e.numParents ≠ 0 := by
    intro hasParents zero
    rw [idle.numParents building inv isEvent, List.length_eq_zero_iff] at zero
    exact hasParents zero
  have arrival : Event.arrival { e with preDelay := preDelay, postDelay := postDelay } = e.arrival := by
    rw [Event.arrival, Event.arrival, notDone]
    rfl
  exact ⟨⟨inv.toCounts.set_quiet isEvent rfl rfl arrival rfl rfl rfl,
    status_set (fun other x _ isOther => inv.status other x isOther)
      ⟨before.waits, before.root, fun hasParents zero => absurd zero (waits hasParents),
        fun hasParents zero => absurd zero (waits hasParents), before.isDone⟩⟩,
    idle.set fun _ => ⟨notDone, state⟩⟩

theorem Inv.queue {g : Graph} (inv : g.Inv n []) (idle : g.Idle) (building : g.building = true)
    {id : Nat} (notRoot : id ∉ g.roots) (isRoot : g.Is id fun e => e.isDelay = false ∧ e.parents = []) :
    ∃ g', g.queue id = some g' ∧ g'.Inv n [] ∧ g'.Idle := by
  obtain ⟨e, isEvent, isTiming, noParents⟩ := isRoot
  have before := inv.status id e isEvent
  obtain ⟨notDone, state⟩ := idle building id e isEvent
  have isNone : e.state = .none := state.resolve_right fun queued => notRoot queued.2
  have zero : e.numParents = 0 := by
    rw [idle.numParents building inv isEvent, noParents]
    rfl
  have status : Event.Status { e with state := .queued } := by
    refine ⟨fun waits => absurd zero waits, fun _ => ⟨(before.root noParents).1, fun isDelay =>
      absurd (isTiming.symm.trans isDelay) (by simp)⟩, before.fired,
      fun _ _ isDelay => absurd (isTiming.symm.trans isDelay) (by simp), ?_⟩
    change e.doneAt.isSome = true ↔ EventState.queued = .done
    rw [notDone]
    exact ⟨(by simp), (by simp)⟩
  have inv' : (g.set id { e with state := .queued }).Inv n [] :=
    ⟨inv.toCounts.set_quiet isEvent rfl rfl rfl rfl rfl rfl,
      status_set (fun other x _ isOther => inv.status other x isOther) status⟩
  refine ⟨{ g.set id { e with state := .queued } with roots := id :: g.roots }, ?_, ?_, ?_⟩
  · have run := modify_eq (f := fun e =>
      if e.state = .none ∧ e.numParents = 0 then some { e with state := .queued } else none)
      isEvent (if_pos ⟨isNone, zero⟩)
    unfold Graph.queue
    rw [run]
    rfl
  · exact inv'.congr rfl
  · intro _ other x isOther
    rcases events_set isOther with ⟨rfl, rfl⟩ | ⟨-, isOther⟩
    · exact ⟨notDone, .inr ⟨rfl, List.mem_cons_self⟩⟩
    · exact (idle building other x isOther).imp_right
        (Or.imp_right (And.imp_right (List.mem_cons_of_mem id)))

theorem Inv.done {g : Graph} (inv : g.Inv n []) (idle : g.Idle) {id : Nat}
    (isRunning : g.Is id fun e => e.state = .running) (cycle : Nat) :
    ∃ g', Graph.done (parentDone n.depth) id cycle g = some g' ∧ g'.Inv n [] ∧ g'.Idle := by
  obtain ⟨e, isEvent, running⟩ := isRunning
  have before := inv.status id e isEvent
  have notNone : e.state ≠ .none := by rw [running]; simp
  obtain ⟨zero, isTiming, notDone⟩ := active before notNone (by rw [running]; simp)
  have finished : (e.finish cycle).Status :=
    { waits := fun waits => absurd zero waits
      root := fun noParents => ⟨(before.root noParents).1, fun isDelay =>
        absurd (isTiming.symm.trans isDelay) (by simp)⟩
      fired := before.fired
      passed := fun _ _ isDelay => absurd (isTiming.symm.trans isDelay) (by simp)
      isDone := ⟨fun _ => rfl, fun _ => rfl⟩ }
  obtain ⟨g', run, inv', keeps⟩ := (calls n n.depth).done cycle inv.toCounts isEvent running notDone
    (fun other x _ isOther => inv.status other x isOther) finished (by omega)
  refine ⟨g', run, inv', fun building => ?_⟩
  rw [keeps.building] at building
  exact absurd building (idle.executed isEvent notNone (by rw [running]; simp))

theorem step_preserves : (machine n).Preserves fun g => g.Inv n [] ∧ g.Idle := by
  rintro g input ⟨inv, idle⟩ legal
  cases input with
  | create id how =>
      obtain ⟨-, fresh, rank, word⟩ := legal
      exact ⟨_, rfl, inv.create idle fresh rank word⟩
  | setPreDelay id delay =>
      obtain ⟨building, e, isEvent, -⟩ := legal
      exact ⟨_, modify_eq isEvent rfl, inv.setDelays idle building isEvent delay e.postDelay⟩
  | setPostDelay id delay =>
      obtain ⟨building, e, isEvent, -⟩ := legal
      exact ⟨_, modify_eq isEvent rfl, inv.setDelays idle building isEvent e.preDelay delay⟩
  | setMinStartCycle id cycle =>
      obtain ⟨e, isEvent, -⟩ := legal
      have before := inv.status id e isEvent
      exact ⟨_, modify_eq isEvent rfl, ⟨inv.toCounts.set_quiet isEvent rfl rfl rfl rfl rfl rfl,
        status_set (fun other x _ isOther => inv.status other x isOther)
          ⟨before.waits, before.root, before.fired, before.passed, before.isDone⟩⟩,
        idle.set fun building => idle building id e isEvent⟩
  | addChild parent child =>
      obtain ⟨building, hasParent, hasChild, rank, notRoot⟩ := legal
      exact inv.addChild idle building hasParent hasChild rank notRoot
  | queue id => exact inv.queue idle legal.1 legal.2.1 legal.2.2
  | simulate =>
      exact ⟨_, rfl, inv.congr rfl, fun building => absurd building (by simp)⟩
  | run id cycle =>
      obtain ⟨executed, e, isEvent, queued, started⟩ := legal
      refine ⟨_, modify_eq isEvent (if_pos ⟨.inr queued, started⟩), inv.move idle isEvent ?_ ?_
        ⟨(by simp), (by simp)⟩ fun building => ?_⟩
      · rw [queued]; simp
      · rw [queued]; simp
      · rw [executed] at building; cases building
  | requeue id =>
      obtain ⟨e, isEvent, state⟩ := legal
      have notNone : e.state ≠ .none := by rcases state with state | state <;> rw [state] <;> simp
      have notDone : e.state ≠ .done := by rcases state with state | state <;> rw [state] <;> simp
      have notQueued : e.state ≠ .queued := by
        rcases state with state | state <;> rw [state] <;> simp
      have zero := (active (inv.status id e isEvent) notNone notDone).1
      exact ⟨_, modify_eq isEvent (if_pos ⟨zero, state⟩), inv.move idle isEvent notNone notDone
        ⟨(by simp), (by simp)⟩ fun building => absurd building (idle.executed isEvent notNone notQueued)⟩
  | hold id =>
      obtain ⟨e, isEvent, running⟩ := legal
      have notNone : e.state ≠ .none := by rw [running]; simp
      have notQueued : e.state ≠ .queued := by rw [running]; simp
      exact ⟨_, modify_eq isEvent (if_pos running), inv.move idle isEvent notNone
        (by rw [running]; simp) ⟨(by simp), (by simp)⟩
        fun building => absurd building (idle.executed isEvent notNone notQueued)⟩
  | release id =>
      obtain ⟨e, isEvent, held⟩ := legal
      have notNone : e.state ≠ .none := by rw [held]; simp
      have notQueued : e.state ≠ .queued := by rw [held]; simp
      exact ⟨_, modify_eq isEvent (if_pos held), inv.move idle isEvent notNone
        (by rw [held]; simp) ⟨(by simp), (by simp)⟩
        fun building => absurd building (idle.executed isEvent notNone notQueued)⟩
  | done id cycle => exact inv.done idle legal cycle

/-! ## Firing -/

theorem allDone_iff {g : Graph} (inv : g.Inv n []) {id : Nat} {e : Event}
    (isEvent : g.events id = some e) : g.AllDone e ↔ e.numParents = 0 := by
  rw [(inv.waiting id e isEvent).numParents, List.map_nil, List.count_nil, Nat.add_zero,
    List.countP_eq_zero, AllDone]
  refine forall₂_congr fun p _ => ?_
  cases g.arrival p with
  | none => exact ⟨(by simp), fun notNone => absurd rfl notNone⟩
  | some c => exact ⟨fun _ => (by simp), fun _ => rfl⟩

/-- The cycle of a ready event is the latest arrival, or what the constructor has found. -/
theorem ready_cycle {g : Graph} (inv : g.Inv n []) {id : Nat} {e : Event}
    (isEvent : g.events id = some e) : e.cycle = max e.memory (g.ready e) := by
  have waiting := inv.waiting id e isEvent
  have le : g.ready e ≤ e.cycle :=
    ready_le fun p member c isDone => waiting.arrived p member c isDone List.not_mem_nil
  apply Nat.le_antisymm
  · rcases waiting.latest with same | ⟨p, member, isDone⟩
    · rw [← same]
      exact Nat.le_max_left _ _
    · exact Nat.le_trans (arrival_le_ready member isDone) (Nat.le_max_right _ _)
  · exact Nat.max_le.mpr ⟨waiting.memory.1, le⟩

theorem ready_lt {g : Graph} {e : Event} : g.ready e < 2 ^ 64 := by
  have le : g.ready e ≤ 2 ^ 64 - 1 := by
    refine ready_le fun p _ c isDone => ?_
    obtain ⟨parent, -, isDone⟩ := Option.bind_eq_some_iff.mp isDone
    obtain ⟨doneCycle, -, rfl⟩ := Option.map_eq_some_iff.mp isDone
    have lt : u64 (doneCycle + parent.postDelay) < 2 ^ 64 := Nat.mod_lt _ (Nat.two_pow_pos 64)
    omega
  omega

/-- The wrapped sums differ as the summands do. -/
theorem u64_add_eq_iff {a b c : Nat} (aFits : a < 2 ^ 64) (bFits : b < 2 ^ 64) :
    u64 (a + c) = u64 (b + c) ↔ a = b := by
  unfold u64
  omega

theorem fires_iff {g : Graph} (inv : g.Inv n []) {id : Nat} {e : Event}
    (isEvent : g.events id = some e) (hasParents : e.parents ≠ []) :
    g.Fires e ↔ (g.AllDone e → e.memory ≤ g.ready e) := by
  have status := inv.status id e isEvent
  unfold Fires
  by_cases isReady : g.AllDone e
  · have zero := (allDone_iff inv isEvent).mp isReady
    have same : u64 (e.cycle + e.preDelay) = u64 (g.ready e + e.preDelay) ↔ e.memory ≤ g.ready e := by
      have fits : max e.memory (g.ready e) < 2 ^ 64 :=
        Nat.max_lt.mpr ⟨(inv.waiting id e isEvent).memory.2, ready_lt⟩
      rw [ready_cycle inv isEvent, u64_add_eq_iff fits ready_lt]
      exact max_eq_right_iff
    rw [if_pos isReady]
    cases isDelay : e.isDelay with
    | true =>
        obtain ⟨notQueued, -, doneAt⟩ := status.passed hasParents zero isDelay
        rw [if_pos rfl, doneAt, Option.some_inj, same]
        exact ⟨fun both _ => both.2, fun le => ⟨notQueued, le isReady⟩⟩
    | false =>
        rw [if_neg (by simp), status.fired hasParents zero isDelay, List.cons_eq_cons, same]
        exact ⟨fun both _ => both.1, fun le => ⟨le isReady, rfl⟩⟩
  · have waits : e.numParents ≠ 0 := fun zero => isReady ((allDone_iff inv isEvent).mpr zero)
    obtain ⟨isNone, notQueued⟩ := status.waits waits
    have notDone : e.doneAt = none := by
      rw [← Option.not_isSome_iff_eq_none, status.isDone, isNone]
      simp
    rw [if_neg isReady]
    exact ⟨fun _ isReady' => absurd isReady' isReady, fun _ => ⟨notQueued, notDone⟩⟩

end Graph

/-- No assertion fails in a run; an event with parents is fired once, when all of them are
done and at the latest arrival, exactly if the memory of its `cycle` was not later. -/
theorem events_fire_once_on_time (inputs : List Input) (legal : (machine n).LegalRun inputs .init) :
    ∃ final, (machine n).exec inputs .init = some final ∧
      ∀ id e, final.events id = some e → e.parents ≠ [] →
        (final.Fires e ↔ (final.AllDone e → e.memory ≤ final.ready e)) := by
  obtain ⟨final, run, inv, -⟩ := step_preserves.exec ⟨Inv.init, Idle.init⟩ legal
  exact ⟨final, run, fun id e isEvent hasParents => fires_iff inv isEvent hasParents⟩

/-- Events that are created before their children. -/
def inOrder (depth : Nat) : Numbering := ⟨id, depth⟩

/-- A root with four children; event 4 waits for the root, for event 1 and for the
DelayEvent 2. -/
def diamond : List Input :=
  [.create 0 (.timing 0 5), .create 1 (.timingDomain 7), .create 2 (.delay 10),
    .create 3 (.timing 2 0), .create 4 (.timingDomain 0), .setPreDelay 4 3, .addChild 0 1,
    .addChild 0 2, .addChild 0 3, .addChild 0 4, .addChild 1 4, .addChild 2 4,
    .setMinStartCycle 0 100, .queue 0, .simulate, .run 0 100, .hold 0, .release 0, .requeue 0,
    .run 0 120, .done 0 130, .setMinStartCycle 1 0, .run 1 140, .done 1 150]

theorem events_fire_once_on_time_diamond :
    ∃ final, (machine (inOrder 5)).exec diamond .init = some final ∧
      ∀ id e, final.events id = some e → e.parents ≠ [] →
        (final.Fires e ↔ (final.AllDone e → e.memory ≤ final.ready e)) :=
  events_fire_once_on_time diamond (by decide +kernel)

/-- The constructor has found a cycle later than the arrival of the only parent. -/
theorem fired_at_old_cycle :
    ¬ ∀ (n : Numbering) (inputs : List Input) (final : Graph),
      (machine n).LegalRun inputs .init → (machine n).exec inputs .init = some final →
      ∀ id e, final.events id = some e → e.parents ≠ [] → final.Fires e := by
  intro claim
  let inputs : List Input := [.create 0 (.timing 0 5), .create 1 (.timingDomain 500), .addChild 0 1,
    .setMinStartCycle 0 100, .queue 0, .simulate, .run 0 100, .done 0 130]
  obtain ⟨final, run⟩ := Option.isSome_iff_exists.mp (by decide +kernel :
    ((machine (inOrder 2)).exec inputs .init).isSome = true)
  have late : ((machine (inOrder 2)).exec inputs .init).any fun final =>
      decide (final.Is 1 fun e => e.parents ≠ [] ∧ ¬ final.Fires e) := by
    decide +kernel
  rw [run, Option.any_some, decide_eq_true_iff] at late
  obtain ⟨e, isEvent, hasParents, notFires⟩ := late
  exact notFires (claim (inOrder 2) inputs final (by decide +kernel) run 1 e isEvent hasParents)

end Zsim.Timing
