import Mathlib.Algebra.BigOperators.Group.Finset.Piecewise
import Zsim.Crossing.Linking

/-!
# The edges of the graph

The edges after a crossing has been linked, and what of the graph stays in order.
-/

set_option autoImplicit false

namespace Zsim.Crossing.Sim

open Zsim.Timing

variable {ph : Phase} {s s' : Sim} {this j c : Nat} {p child : Event} {childPtr : ChildPtr}

theorem Edge.lt (ok : s.Ok ph) {q k x : Nat} (edge : s.Edge q k x) : q < s.allocated := by
  obtain ⟨e, isEvent⟩ := edge.isEvent
  exact ok.lt isEvent

theorem Edge.child_lt (ok : s.Ok ph) {q k x : Nat} (edge : s.Edge q k x) : x < s.allocated := by
  obtain ⟨e, isEvent, -⟩ := ok.closed q k x edge
  exact ok.lt isEvent

theorem Ok.target_lt (ok : s.Ok ph) {domain t : Nat} (target : s.target ph p domain = some t) :
    t < s.allocated := by
  obtain ⟨e, isEvent, -⟩ := ok.domain_target target
  exact ok.lt isEvent

/-- The edges after a crossing has been linked: its own, that of the source event, that of
the target, and all others. -/
theorem Linked.edge (linked : Linked ph s s' this p childPtr c child) (ok : s.Ok ph)
    (between : s.Between this p childPtr j c child) {q k x : Nat} :
    s'.Edge q k x ↔ (q = s.allocated ∧ k = 0 ∧ x = c) ∨ (q = this ∧ k = j ∧ x = s.allocated + 1) ∨
      (s.target ph p child.domain = some q ∧ k = (s.children q).length ∧ x = s.allocated) ∨
      (s.Edge q k x ∧ ¬ (q = this ∧ k = j)) := by
  have ltThis := ok.lt between.isThis
  have inside := (List.getElem?_eq_some_iff.mp between.edge).1
  have notTarget := ok.target_ne between
  have targetLt : ∀ t, s.target ph p child.domain = some t → t < s.allocated := fun t => ok.target_lt
  have oldLt : s.Edge q k x → q < s.allocated := Edge.lt ok
  rw [Edge, linked.children ok between]
  by_cases isNew : q = s.allocated
  · rw [if_pos isNew, List.getElem?_singleton]
    grind
  · rw [if_neg isNew]
    by_cases isThis : q = this
    · rw [if_pos isThis, isThis, List.getElem?_set, if_pos inside]
      unfold Edge
      grind
    · rw [if_neg isThis]
      split
      · next isTarget =>
          rw [Zsim.Timing.Children.Holds.getElem?_concat]
          unfold Edge
          have beyond : (s.children q)[(s.children q).length]? = none := List.getElem?_eq_none (Nat.le_refl _)
          grind
      · unfold Edge
        grind

/-! ## Counting slots -/

/-- The number of slots with a property. -/
def numSlots (s : Sim) (P : Nat → Nat → Bool) : Nat :=
  ∑ q ∈ Finset.range s.allocated, (s.children q).countP (P q)

theorem inDegree_eq (s : Sim) (id : Nat) : s.inDegree id = s.numSlots fun _ x => x == id := rfl

theorem Ok.children_fresh (ok : s.Ok ph) {q : Nat} (fresh : s.allocated ≤ q) : s.children q = [] := by
  rw [children, ok.fresh q fresh]
  rfl

theorem Linked.numSlots (linked : Linked ph s s' this p childPtr c child) (ok : s.Ok ph)
    (between : s.Between this p childPtr j c child) (P : Nat → Nat → Bool) :
    s'.numSlots P + (P this c).toNat =
      s.numSlots P + (P this (s.allocated + 1)).toNat + (P s.allocated c).toNat +
      ((s.target ph p child.domain).map fun t => (P t s.allocated).toNat).getD 0 := by
  have inside := (List.getElem?_eq_some_iff.mp between.edge).1
  have isC : (s.children this)[j] = c := (List.getElem?_eq_some_iff.mp between.edge).2
  have ltThis := ok.lt between.isThis
  have isList := linked.children ok between
  have slots : ∀ q ∈ Finset.range s.allocated,
      (s'.children q).countP (P q) + (if q = this then (P this c).toNat else 0) =
        (s.children q).countP (P q) + (if q = this then (P this (s.allocated + 1)).toNat else 0) +
          (if s.target ph p child.domain = some q then (P q s.allocated).toNat else 0) := by
    intro q member
    have ne : q ≠ s.allocated := (Finset.mem_range.mp member).ne
    rw [isList, if_neg ne]
    by_cases isThis : q = this
    · subst isThis
      have found : (P q c).toNat ≤ (s.children q).countP (P q) := by
        cases holds : P q c with
        | false => exact Nat.zero_le _
        | true => exact List.countP_pos_iff.mpr ⟨c, List.mem_of_getElem? between.edge, holds⟩
      rw [if_pos rfl, if_pos rfl, if_pos rfl, if_neg (ok.target_ne between), List.countP_set inside, isC]
      have toNat : ∀ b : Bool, (if b = true then 1 else 0) = b.toNat := fun b => by cases b <;> rfl
      rw [toNat, toNat]
      omega
    · rw [if_neg isThis, if_neg isThis, if_neg isThis]
      split
      · rw [List.countP_append, List.countP_singleton]
        cases P q s.allocated <;> simp
      · rfl
  have total := Finset.sum_congr rfl slots
  simp only [Finset.sum_add_distrib, Finset.sum_ite_eq', Finset.mem_range, if_pos ltThis] at total
  have ofTarget : (∑ q ∈ Finset.range s.allocated,
      if s.target ph p child.domain = some q then (P q s.allocated).toNat else 0) =
        ((s.target ph p child.domain).map fun t => (P t s.allocated).toNat).getD 0 := by
    cases isTarget : s.target ph p child.domain with
    | none => simp
    | some t =>
        simp only [Option.some.injEq, Option.map_some, Option.getD_some, Finset.sum_ite_eq, Finset.mem_range,
          if_pos (ok.target_lt isTarget)]
  have newChildren : (s'.children s.allocated).countP (P s.allocated) = (P s.allocated c).toNat := by
    rw [isList, if_pos rfl, List.countP_singleton]
    cases P s.allocated c <;> rfl
  have srcChildren : s'.children (s.allocated + 1) = [] := by
    have notTarget : s.target ph p child.domain ≠ some (s.allocated + 1) := by
      intro isTarget
      have lt := ok.target_lt isTarget
      omega
    rw [isList, if_neg (by omega), if_neg (by omega), if_neg notTarget, ok.children_fresh (Nat.le_succ _)]
  unfold Sim.numSlots
  rw [linked.allocated, Finset.sum_range_succ, Finset.sum_range_succ, newChildren, srcChildren, List.countP_nil,
    ← ofTarget]
  omega

theorem Ok.inDegree_fresh (ok : s.Ok ph) {q : Nat} (fresh : s.allocated ≤ q) : s.inDegree q = 0 := by
  refine Finset.sum_eq_zero fun r _ => List.count_eq_zero.mpr fun member => ?_
  obtain ⟨k, edge⟩ := List.mem_iff_getElem?.mp member
  have lt := Edge.child_lt ok (show s.Edge r k q from edge)
  omega

theorem Linked.inDegree (linked : Linked ph s s' this p childPtr c child) (ok : s.Ok ph)
    (between : s.Between this p childPtr j c child) (q : Nat) :
    s'.inDegree q = s.inDegree q + (s.allocated + 1 == q).toNat +
      ((s.target ph p child.domain).map fun _ => (s.allocated == q).toNat).getD 0 := by
  have slots := linked.numSlots ok between fun _ x => x == q
  rw [inDegree_eq, inDegree_eq]
  omega

/-! ## The graph stays in order -/

theorem Linked.event (linked : Linked ph s s' this p childPtr c child) (ok : s.Ok ph) {q : Nat} {e : Event}
    (isEvent : s.events q = some e) : s'.events q = some
      { e with children := s.relink (s.target ph p child.domain) this childPtr q e.children } := by
  have lt := ok.lt isEvent
  rw [linked.old q (by omega) (by omega), isEvent]
  rfl

theorem Linked.event_cases (linked : Linked ph s s' this p childPtr c child) {q : Nat} {e' : Event}
    (isEvent : s'.events q = some e') :
    (q = s.allocated ∧ e' = { crossingEvent ph this p child with
        children := Children.empty.addChild c
        numParents := if (s.target ph p child.domain).isSome then 1 else 0 }) ∨
      (q = s.allocated + 1 ∧ e' = crossingSrcEvent s.allocated p) ∨
      ∃ e, s.events q = some e ∧
        e' = { e with children := s.relink (s.target ph p child.domain) this childPtr q e.children } := by
  by_cases isNew : q = s.allocated
  · rw [isNew, linked.crossing] at isEvent
    exact .inl ⟨isNew, (Option.some.inj isEvent).symm⟩
  · by_cases isSrc : q = s.allocated + 1
    · rw [isSrc, linked.source] at isEvent
      exact .inr (.inl ⟨isSrc, (Option.some.inj isEvent).symm⟩)
    · rw [linked.old q isNew isSrc] at isEvent
      obtain ⟨e, isOld, same⟩ := Option.map_eq_some_iff.mp isEvent
      exact .inr (.inr ⟨e, isOld, same.symm⟩)

theorem domain_of_event {q : Nat} {e : Event} (isEvent : s.events q = some e) : s.domain q = some e.domain := by
  rw [domain, isEvent]
  rfl

theorem Linked.domain_old (linked : Linked ph s s' this p childPtr c child) {q : Nat} (lt : q < s.allocated) :
    s'.domain q = s.domain q := by
  rw [linked.domain, if_neg (by omega), if_neg (by omega)]

theorem Linked.ok (linked : Linked ph s s' this p childPtr c child) (ok : s.Ok ph)
    (between : s.Between this p childPtr j c child) : s'.Ok ph where
  fresh q beyond := by
    rw [linked.allocated] at beyond
    rw [linked.old q (by omega) (by omega), ok.fresh q (by omega)]
    rfl
  holds q e' isEvent := by
    have holds : ∃ l, e'.children.Holds l := by
      rcases linked.event_cases isEvent with ⟨-, rfl⟩ | ⟨-, rfl⟩ | ⟨e, isOld, rfl⟩
      · exact ⟨[c], .child c⟩
      · exact ⟨[], .null⟩
      · exact ⟨_, ok.relink between isOld⟩
    obtain ⟨l, holds⟩ := holds
    rw [holds.toList]
    exact holds
  closed q k x edge := by
    rcases (linked.edge ok between).mp edge with ⟨-, -, rfl⟩ | ⟨-, -, rfl⟩ | ⟨-, -, rfl⟩ | ⟨old, -⟩
    · obtain ⟨e, isEvent, waits⟩ := ok.closed this j x between.edge
      exact ⟨_, linked.event ok isEvent, waits⟩
    · exact ⟨_, linked.source, rfl⟩
    · exact ⟨_, linked.crossing, rfl⟩
    · obtain ⟨e, isEvent, waits⟩ := ok.closed q k x old
      exact ⟨_, linked.event ok isEvent, waits⟩
  state q e' isEvent := by
    rcases linked.event_cases isEvent with ⟨-, rfl⟩ | ⟨-, rfl⟩ | ⟨e, isOld, rfl⟩
    · exact .inl rfl
    · exact .inl rfl
    · exact ok.state q e isOld
  inside q e' isEvent := by
    rcases linked.event_cases isEvent with ⟨-, rfl⟩ | ⟨-, rfl⟩ | ⟨e, isOld, rfl⟩
    · exact ok.inside c child between.isChild
    · exact ok.inside this p between.isThis
    · exact ok.inside q e isOld
  starts q e' k x isEvent edge cross := by
    rw [← domain_of_event isEvent] at cross
    rcases (linked.edge ok between).mp edge with ⟨rfl, -, rfl⟩ | ⟨rfl, -, rfl⟩ | ⟨isTarget, -, rfl⟩ | ⟨old, -⟩
    · rw [linked.domain_old (ok.lt between.isChild), linked.domain, if_pos rfl,
        domain_of_event between.isChild] at cross
      exact absurd rfl cross
    · rw [linked.domain_old (ok.lt between.isThis), linked.domain, if_neg (by omega), if_pos rfl,
        domain_of_event between.isThis] at cross
      exact absurd rfl cross
    · obtain ⟨e, isOld, same⟩ := ok.domain_target isTarget
      rw [linked.domain_old (ok.lt isOld), linked.domain, if_pos rfl, domain_of_event isOld, same] at cross
      exact absurd rfl cross
    · rw [linked.domain_old (old.lt ok), linked.domain_old (old.child_lt ok)] at cross
      obtain ⟨e, isOld⟩ := old.isEvent
      cases Option.some.inj ((linked.event ok isOld).symm.trans isEvent)
      exact ok.starts q e k x isOld old (domain_of_event isOld ▸ cross)
  counted q e' isEvent := by
    rw [linked.inDegree ok between]
    rcases linked.event_cases isEvent with ⟨rfl, rfl⟩ | ⟨rfl, rfl⟩ | ⟨e, isOld, rfl⟩
    · have notSrc : (s.allocated + 1 == s.allocated) = false := by simp
      rw [ok.inDegree_fresh (Nat.le_refl _), notSrc]
      cases s.target ph p child.domain <;> simp
    · rw [ok.inDegree_fresh (Nat.le_succ _)]
      cases s.target ph p child.domain <;> simp [crossingSrcEvent]
    · have lt := ok.lt isOld
      have notNew : (s.allocated == q) = false := by simp; omega
      have notSrc : (s.allocated + 1 == q) = false := by simp; omega
      rw [notNew, notSrc]
      cases s.target ph p child.domain <;> exact ok.counted q e isOld
  stack b member := by
    have later : ∀ b ∈ s.crossingStack, ∃ e x q, s'.events b = some e ∧ e.kind = .crossing x ∧
        s'.events x.parentEv = some q ∧ q.domain = x.srcDomain := by
      intro b member
      obtain ⟨e, x, q, isEvent, kind, isParent, same⟩ := ok.stack b member
      exact ⟨_, x, _, linked.event ok isEvent, kind, linked.event ok isParent, same⟩
    rw [linked.stack] at member
    split at member
    · exact later b (List.mem_of_mem_tail member)
    · rcases List.mem_cons.mp member with rfl | old
      · exact ⟨_, _, _, linked.crossing, rfl, linked.event ok between.isThis, rfl⟩
      · exact later b old
  last src dst late := by
    have later : ∀ src dst, ph.curCycle src < (s.lastCrossing src dst).cycle →
        ∃ e, s'.events (s.lastCrossing src dst).ev = some e ∧ e.domain = dst := by
      intro src dst late
      obtain ⟨e, isEvent, same⟩ := ok.last src dst late
      exact ⟨_, linked.event ok isEvent, same⟩
    rw [linked.last] at late ⊢
    split
    · next response =>
        rw [if_pos response] at late
        exact later src dst late
    · next request =>
        rw [if_neg request] at late
        dsimp only at late ⊢
        split
        · next both => exact ⟨_, linked.crossing, both.2.symm⟩
        · next others =>
            rw [if_neg others] at late
            exact later src dst late

end Zsim.Crossing.Sim
