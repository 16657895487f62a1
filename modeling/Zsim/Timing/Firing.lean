import Zsim.Timing.Invariant

/-!
# `parentDone` and `done`

A call of `parentDone` takes one pair off the pending ones; a DelayEvent that becomes ready
puts those of its own children there.  The recursion follows the links, and so ends.
-/

set_option autoImplicit false

namespace Zsim.Timing

/-! ## The status after a call -/

namespace Event.Status

variable {e : Event} (status : e.Status) (s : Nat) (waits : e.numParents ≠ 0)
include status waits

theorem arrive_wait (more : (e.arrive s).numParents ≠ 0) : (e.arrive s).Status where
  waits := fun _ => status.waits waits
  root := status.root
  fired := fun _ zero => absurd zero more
  passed := fun _ zero => absurd zero more
  isDone := status.isDone

theorem arrive_fire (hasParents : e.parents ≠ []) (isTiming : e.isDelay = false)
    (last : (e.arrive s).numParents = 0) : (e.arrive s).fire.Status where
  waits := fun more => absurd last more
  root := fun noParents => absurd noParents hasParents
  fired := fun _ _ _ => by
    change u64 (max e.cycle s + e.preDelay) :: e.enqueued = [u64 (max e.cycle s + e.preDelay)]
    rw [(status.waits waits).2]
  passed := fun _ _ isDelay => absurd (isTiming.symm.trans isDelay) (by simp)
  isDone := by
    have notDone : ¬ e.doneAt.isSome = true := by
      rw [status.isDone, (status.waits waits).1]
      simp
    exact ⟨fun isDone => absurd isDone notDone, fun isDone => by cases isDone⟩

theorem arrive_delay (hasParents : e.parents ≠ []) (isDelay : e.isDelay = true)
    (last : (e.arrive s).numParents = 0) :
    (Event.finish (u64 ((e.arrive s).cycle + (e.arrive s).preDelay))
      { e.arrive s with state := .running }).Status where
  waits := fun more => absurd last more
  root := fun noParents => absurd noParents hasParents
  fired := fun _ _ isTiming => absurd (isTiming.symm.trans isDelay) (by simp)
  passed := fun _ _ _ => ⟨(status.waits waits).2, rfl, rfl⟩
  isDone := ⟨fun _ => rfl, fun _ => rfl⟩

end Event.Status

namespace Graph

variable {n : Numbering}

/-! ## One call -/

theorem Inv.child {g : Graph} {p id : Nat} {rest : List (Nat × Nat)} (inv : g.Inv n ((p, id) :: rest)) :
    ∃ e, g.events id = some e ∧ p ∈ e.parents ∧ e.numParents ≠ 0 ∧ e.state = .none ∧
      e.doneAt = none := by
  obtain ⟨-, isParent⟩ := inv.pending (p, id) List.mem_cons_self
  cases isEvent : g.events id with
  | none =>
      rw [parentsOf, isEvent] at isParent
      cases isParent
  | some e =>
      rw [parentsOf_of_event isEvent] at isParent
      have counted := (inv.waiting id e isEvent).numParents
      rw [List.map_cons, List.count_cons_self] at counted
      have waits : e.numParents ≠ 0 := by omega
      have status := inv.status id e isEvent
      have notDone : ¬ e.doneAt.isSome = true := by
        rw [status.isDone, (status.waits waits).1]
        simp
      exact ⟨e, rfl, isParent, waits, (status.waits waits).1, Option.not_isSome_iff_eq_none.mp notDone⟩

theorem Counts.arrive {g : Graph} {p id s : Nat} {rest : List (Nat × Nat)} {e : Event}
    (counts : g.Counts n ((p, id) :: rest)) (e' : Event) (isEvent : g.events id = some e)
    (isParent : p ∈ e.parents) (isArrival : g.arrival p = some s)
    (children : e'.children = e.children) (parents : e'.parents = e.parents)
    (arrival : e'.arrival = e.arrival) (numParents : e'.numParents = e.numParents - 1)
    (cycle : e'.cycle = max e.cycle s) (memory : e'.memory = e.memory) :
    (g.set id e').Counts n rest := by
  have arrivals := arrival_set isEvent arrival
  refine ⟨linked_set counts.linked isEvent children parents, ?_, ?_⟩
  · intro other x isOther
    rcases events_set isOther with ⟨rfl, rfl⟩ | ⟨ne, isOther⟩
    · have before := counts.waiting other e isEvent
      have counted := before.numParents
      rw [List.map_cons, List.count_cons_self] at counted
      constructor
      · rw [arrivals, parents, numParents]
        omega
      · rw [cycle, memory]
        exact ⟨Nat.le_trans before.memory.1 (Nat.le_max_left _ _), before.memory.2⟩
      · rw [arrivals, parents, cycle]
        intro q member c isDone noCall
        by_cases same : q = p
        · rw [same, isArrival] at isDone
          cases isDone
          exact Nat.le_max_right _ _
        · have noCall' : (q, other) ∉ (p, other) :: rest := by
            rw [List.mem_cons, not_or]
            exact ⟨fun pair => same (congrArg Prod.fst pair), noCall⟩
          exact Nat.le_trans (before.arrived q member c isDone noCall') (Nat.le_max_left _ _)
      · rw [arrivals, parents, cycle, memory]
        rcases Nat.le_total e.cycle s with le | le
        · rw [Nat.max_eq_right le]
          exact .inr ⟨p, isParent, isArrival⟩
        · rw [Nat.max_eq_left le]
          exact before.latest
    · have before := counts.waiting other x isOther
      refine ⟨?_, before.memory, ?_, by rw [arrivals]; exact before.latest⟩
      · rw [arrivals, before.numParents, List.map_cons, List.count_cons_of_ne (Ne.symm ne)]
      · rw [arrivals]
        intro q member c isDone noCall
        refine before.arrived q member c isDone ?_
        rw [List.mem_cons, not_or]
        exact ⟨fun pair => ne (congrArg Prod.snd pair), noCall⟩
  · rw [arrivals, parentsOf_set isEvent parents]
    exact fun x member => counts.pending x (List.mem_cons_of_mem _ member)

theorem countP_and_ne {l : List Nat} {id : Nat} {P Q : Nat → Bool} (at' : P id = true)
    (after : Q id = false) (others : ∀ q, q ≠ id → Q q = P q) :
    l.countP P = l.countP Q + l.count id := by
  induction l with
  | nil => rfl
  | cons q l ih =>
      rw [List.countP_cons, List.countP_cons, List.count_cons, ih]
      by_cases same : q = id
      · subst same
        simp only [at', after, if_true, Bool.false_eq_true, if_false, beq_self_eq_true]
        omega
      · rw [others q same, if_neg (show ¬ (q == id) = true by simpa using same)]
        omega

/-- An event that is done is no longer waited for, but its calls are. -/
theorem Counts.finish {g : Graph} {id s : Nat} {rest : List (Nat × Nat)} {e : Event} {l : List Nat}
    (counts : g.Counts n rest) (e' : Event) (isEvent : g.events id = some e) (notDone : e.arrival = none)
    (isArrival : e'.arrival = some s) (visit : e.children.visit = some l)
    (children : e'.children = e.children) (parents : e'.parents = e.parents)
    (numParents : e'.numParents = e.numParents) (cycle : e'.cycle = e.cycle)
    (memory : e'.memory = e.memory) :
    (g.set id e').Counts n (l.map (fun child => (id, child)) ++ rest) ∧ g.Keeps (g.set id e') := by
  have before : g.arrival id = none := (arrival_of_event isEvent).trans notDone
  have after : (g.set id e').arrival id = some s :=
    (arrival_of_event (set_events_self ..)).trans isArrival
  have others : ∀ q, q ≠ id → (g.set id e').arrival q = g.arrival q := by
    intro q ne
    rw [Graph.arrival, Graph.arrival, set_events_of_ne e' ne]
  have keeps : g.Keeps (g.set id e') := by
    refine ⟨fun q c isDone => ?_, rfl⟩
    have ne : q ≠ id := by
      rintro rfl
      rw [before] at isDone
      cases isDone
    rw [others q ne]
    exact isDone
  have sameParents := parentsOf_set isEvent parents
  have linked : ∀ child, l.count child = (g.parentsOf child).count id := by
    obtain ⟨l', -, visit', count⟩ := (counts.linked id e isEvent).children
    cases Option.some.inj (visit.symm.trans visit')
    exact count
  have called : ∀ other, ((l.map fun child => (id, child)).map Prod.snd).count other = l.count other := by
    intro other
    rw [List.map_map]
    exact congrArg (List.count other) (List.map_id l)
  refine ⟨⟨linked_set counts.linked isEvent children parents, ?_, ?_⟩, keeps⟩
  · intro other x isOther
    -- what `x` waits for is what it waited for in `g`, under its links
    have key : ∀ y, g.events other = some y → x.parents = y.parents → x.numParents = y.numParents →
        x.cycle = y.cycle → x.memory = y.memory →
        (g.set id e').Waiting (l.map (fun child => (id, child)) ++ rest) other x := by
      intro y isY parents numParents cycle memory
      have waiting := counts.waiting other y isY
      have count : l.count other = y.parents.count id := by
        rw [linked other, parentsOf_of_event isY]
      constructor
      · have moved : y.parents.countP (fun p => (g.arrival p).isNone) =
            y.parents.countP (fun p => ((g.set id e').arrival p).isNone) + y.parents.count id :=
          countP_and_ne (by simp [before]) (by simp [after]) fun q ne => by simp only [others q ne]
        rw [numParents, parents, waiting.numParents, List.map_append, List.count_append, called, count,
          moved]
        omega
      · rw [cycle, memory]
        exact waiting.memory
      · rw [parents, cycle]
        intro q member c isDone noCall
        rw [List.mem_append, not_or] at noCall
        have ne : q ≠ id := by
          rintro rfl
          have isChild : other ∈ l := by
            rw [← List.count_pos_iff, count]
            exact List.count_pos_iff.mpr member
          exact noCall.1 (List.mem_map.mpr ⟨other, isChild, rfl⟩)
        rw [others q ne] at isDone
        exact waiting.arrived q member c isDone noCall.2
      · rw [parents, cycle, memory]
        refine waiting.latest.imp_right fun found => ?_
        obtain ⟨q, member, isDone⟩ := found
        exact ⟨q, member, keeps.arrival q _ isDone⟩
    rcases events_set isOther with ⟨rfl, rfl⟩ | ⟨-, isOther⟩
    · exact key e isEvent parents numParents cycle memory
    · exact key x isOther rfl rfl rfl rfl
  · rw [sameParents]
    intro x member
    rcases List.mem_append.mp member with new | old
    · obtain ⟨child, isChild, rfl⟩ := List.mem_map.mp new
      refine ⟨by rw [after]; rfl, ?_⟩
      rw [← List.count_pos_iff, ← linked child]
      exact List.count_pos_iff.mpr isChild
    · obtain ⟨isDone, isParent⟩ := counts.pending x old
      obtain ⟨c, isDone⟩ := Option.isSome_iff_exists.mp isDone
      exact ⟨by rw [keeps.arrival x.1 c isDone]; rfl, isParent⟩

/-! ## All calls -/

/-- `parentDone` with this fuel makes the calls to the events it is enough for. -/
def Calls (n : Numbering) (fuel : Nat) : Prop :=
  ∀ (g : Graph) (p id s : Nat) (rest : List (Nat × Nat)), g.Inv n ((p, id) :: rest) →
    g.arrival p = some s → n.depth ≤ n.rank id + fuel →
    ∃ g', parentDone fuel id s g = some g' ∧ g'.Inv n rest ∧ g.Keeps g'

theorem Calls.all {fuel : Nat} (calls : Calls n fuel) {id s : Nat} {rest : List (Nat × Nat)}
    {l : List Nat} (enough : ∀ child ∈ l, n.depth ≤ n.rank child + fuel) {g : Graph}
    (inv : g.Inv n (l.map (fun child => (id, child)) ++ rest)) (isArrival : g.arrival id = some s) :
    ∃ g', l.foldlM (fun g child => parentDone fuel child s g) g = some g' ∧ g'.Inv n rest ∧
      g.Keeps g' := by
  induction l generalizing g with
  | nil => exact ⟨g, rfl, inv, .refl g⟩
  | cons child l ih =>
      obtain ⟨mid, call, midInv, first⟩ := calls g id child s _ inv isArrival
        (enough child List.mem_cons_self)
      obtain ⟨g', run, inv', second⟩ := ih (fun c member => enough c (List.mem_cons_of_mem _ member))
        midInv (first.arrival id s isArrival)
      refine ⟨g', ?_, inv', first.trans second⟩
      rw [List.foldlM_cons, call]
      exact run

/-- `done` of a running event calls all of its children. -/
theorem Calls.done {fuel : Nat} (calls : Calls n fuel) {g : Graph} {id : Nat} (doneCycle : Nat)
    {rest : List (Nat × Nat)} {e : Event} (counts : g.Counts n rest) (isEvent : g.events id = some e)
    (running : e.state = .running) (notDone : e.doneAt = none)
    (others : ∀ other x, other ≠ id → g.events other = some x → x.Status)
    (finished : (e.finish doneCycle).Status) (enough : n.depth ≤ n.rank id + (fuel + 1)) :
    ∃ g', done (parentDone fuel) id doneCycle g = some g' ∧ g'.Inv n rest ∧ g.Keeps g' := by
  obtain ⟨l, -, visit, count⟩ := (counts.linked id e isEvent).children
  have isArrival : (e.finish doneCycle).arrival = some (u64 (doneCycle + e.postDelay)) := rfl
  obtain ⟨counts', keeps⟩ := counts.finish (e.finish doneCycle) isEvent
    (by rw [Event.arrival, notDone]; rfl) isArrival visit rfl rfl rfl rfl rfl
  have enough' : ∀ child ∈ l, n.depth ≤ n.rank child + fuel := by
    intro child member
    have isParent : id ∈ g.parentsOf child := by
      rw [← List.count_pos_iff, ← count child]
      exact List.count_pos_iff.mpr member
    cases isChild : g.events child with
    | none =>
        rw [parentsOf, isChild] at isParent
        cases isParent
    | some c =>
        rw [parentsOf_of_event isChild] at isParent
        have above := ((counts.linked child c isChild).parents id isParent).2
        omega
  obtain ⟨g', run, inv', keeps'⟩ := calls.all enough' ⟨counts', status_set others finished⟩
    ((arrival_of_event (set_events_self ..)).trans isArrival)
  refine ⟨g', ?_, inv', keeps.trans keeps'⟩
  unfold Graph.done
  simp only [isEvent, running, visit, Option.bind_eq_bind, Option.bind_some, if_true]
  exact run

theorem calls (n : Numbering) (fuel : Nat) : Calls n fuel := by
  induction fuel with
  | zero =>
      intro g p id s rest inv isArrival enough
      obtain ⟨e, isEvent, -⟩ := inv.child
      have bound := (inv.linked id e isEvent).rank
      omega
  | succ fuel ih =>
      intro g p id s rest inv isArrival enough
      obtain ⟨e, isEvent, isParent, waits, isNone, notDone⟩ := inv.child
      have before := inv.status id e isEvent
      have others : ∀ other x, other ≠ id → g.events other = some x → x.Status :=
        fun other x _ isOther => inv.status other x isOther
      have hasParents : e.parents ≠ [] := List.ne_nil_of_mem isParent
      have keeps : ∀ e', e'.arrival = e.arrival → g.Keeps (g.set id e') := fun e' arrival =>
        ⟨fun q c isDone => by rw [arrival_set isEvent arrival]; exact isDone, rfl⟩
      unfold parentDone
      simp only [isEvent, Option.bind_eq_bind, Option.bind_some, if_neg waits]
      by_cases last : (e.arrive s).numParents = 0
      · rw [if_neg (not_not.mpr last)]
        cases isDelay : e.isDelay with
        | true =>
            -- a DelayEvent runs and is done at once
            rw [if_pos (show (e.arrive s).isDelay = true from isDelay)]
            have counts := inv.toCounts.arrive { e.arrive s with state := .running } isEvent
              isParent isArrival rfl rfl rfl rfl rfl rfl
            have others' : ∀ other x, other ≠ id →
                (g.set id { e.arrive s with state := .running }).events other = some x → x.Status :=
              fun other x ne isOther => others other x ne (by rwa [set_events_of_ne _ ne] at isOther)
            obtain ⟨g', run, inv', keeps'⟩ := ih.done
              (u64 ((e.arrive s).cycle + (e.arrive s).preDelay)) counts (set_events_self ..) rfl notDone
              others' (before.arrive_delay s waits hasParents isDelay last) enough
            exact ⟨g', run, inv', (keeps { e.arrive s with state := .running } rfl).trans keeps'⟩
        | false =>
            rw [if_neg (show ¬ (e.arrive s).isDelay = true from ne_true_of_eq_false isDelay),
              if_pos (show (e.arrive s).state = .none from isNone)]
            exact ⟨_, rfl, ⟨inv.toCounts.arrive _ isEvent isParent isArrival rfl rfl rfl rfl rfl rfl,
              status_set others (before.arrive_fire s waits hasParents isDelay last)⟩, keeps _ rfl⟩
      · rw [if_pos last]
        exact ⟨_, rfl, ⟨inv.toCounts.arrive _ isEvent isParent isArrival rfl rfl rfl rfl rfl rfl,
          status_set others (before.arrive_wait s waits last)⟩, keeps _ rfl⟩

end Graph

end Zsim.Timing
