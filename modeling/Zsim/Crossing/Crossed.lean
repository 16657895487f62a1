import Zsim.Crossing.Broken

/-!
# What becomes of the edges

Every edge of the graph that was there is kept, or has become a crossing if it leads from one
domain to another; everything the walk adds stays inside a domain.
-/

set_option autoImplicit false

namespace Zsim.Crossing

open Zsim.Timing Relation

variable {ph : Phase}

namespace Sim

/-- The slot `j` of `p` holds the source event of the crossing `xe`, whose first child is `c`. -/
structure Crosses (s : Sim) (p j xe c : Nat) : Prop where
  source : s.Edge p j (xe + 1)
  isSource : ∃ cpe, s.events (xe + 1) = some cpe ∧ cpe.kind = .crossingSrc xe
  srcDomain : s.domain (xe + 1) = s.domain p
  isCrossing : ∃ e x, s.events xe = some e ∧ e.kind = .crossing x ∧ x.parentEv = p ∧
    s.domain p = some x.srcDomain
  child : s.Edge xe 0 c
  domain : s.domain c = s.domain xe

/-- What a walk that began in `s₀` has made of its graph. -/
structure From (s₀ s : Sim) : Prop where
  le : s₀.allocated ≤ s.allocated
  events : ∀ q e, s₀.events q = some e → ∃ ch, s.events q = some { e with children := ch }
  edges : ∀ p j c, s₀.Edge p j c → s.Edge p j c ∨
    (s₀.domain c ≠ s₀.domain p ∧ ∃ xe, s₀.allocated ≤ xe ∧ s.Crosses p j xe c)
  new : ∀ p j c, s.Edge p j c → s₀.Edge p j c ∨ s.domain c = s.domain p
  made : ∀ xe e x, s₀.allocated ≤ xe → s.events xe = some e → e.kind = .crossing x →
    ∃ p j c, s₀.Edge p j c ∧ s₀.domain c ≠ s₀.domain p ∧ s.Crosses p j xe c
  once : ∀ id, s₀.allocated ≤ id → ∀ p j q k, s.Edge p j id → s.Edge q k id → p = q ∧ j = k

variable {s₀ s s' : Sim} {this j c : Nat} {p child : Event} {childPtr : ChildPtr}

theorem Ok.from_self (ok : s.Ok ph) : s.From s where
  le := Nat.le_refl _
  events q e isEvent := ⟨e.children, isEvent⟩
  edges p j c edge := .inl edge
  new p j c edge := .inl edge
  made xe e x beyond isEvent := by
    rw [ok.fresh xe beyond] at isEvent
    cases isEvent
  once id beyond p j q k edge := absurd (edge.child_lt ok) (Nat.not_lt.mpr beyond)

theorem From.domain (from' : s₀.From s) {q : Nat} {e : Event} (isEvent : s₀.events q = some e) :
    s.domain q = s₀.domain q := by
  obtain ⟨ch, isEvent'⟩ := from'.events q e isEvent
  rw [domain_of_event isEvent, domain_of_event isEvent']

theorem Linked.crosses_old (linked : Linked ph s s' this p childPtr c child) (ok : s.Ok ph)
    (between : s.Between this p childPtr j c child) {q k xe x : Nat} (crosses : s.Crosses q k xe x) :
    s'.Crosses q k xe x := by
  obtain ⟨source, ⟨cpe, isSource, kindSource⟩, srcDomain, ⟨e, data, isCrossing, kind, isParent, isDomain⟩,
    isChild, domain⟩ := crosses
  have source' := linked.edge_same ok between source srcDomain
  have child' := linked.edge_same ok between isChild domain
  refine ⟨source'.1, ⟨_, linked.event ok isSource, kindSource⟩, source'.2,
    ⟨_, data, linked.event ok isCrossing, kind, isParent, ?_⟩, child'.1, child'.2⟩
  rw [linked.domain_old (source.lt ok), isDomain]

theorem Linked.crosses_new (linked : Linked ph s s' this p childPtr c child) (ok : s.Ok ph)
    (between : s.Between this p childPtr j c child) : s'.Crosses this j s.allocated c where
  source := (linked.edge ok between).mpr (.inr (.inl ⟨rfl, rfl, rfl⟩))
  isSource := ⟨_, linked.source, rfl⟩
  srcDomain := by
    rw [linked.domain_old (ok.lt between.isThis), linked.domain, if_neg (by omega), if_pos rfl,
      domain_of_event between.isThis]
  isCrossing := by
    refine ⟨_, _, linked.crossing, rfl, rfl, ?_⟩
    rw [linked.domain_old (ok.lt between.isThis), domain_of_event between.isThis]
  child := (linked.edge ok between).mpr (.inl ⟨rfl, rfl, rfl⟩)
  domain := by
    rw [linked.domain_old (ok.lt between.isChild), linked.domain, if_pos rfl, domain_of_event between.isChild]

theorem Linked.edge_new (linked : Linked ph s s' this p childPtr c child) (ok : s.Ok ph)
    (between : s.Between this p childPtr j c child) {q k x : Nat} (edge : s'.Edge q k x) :
    (s.Edge q k x ∧ ¬ (q = this ∧ k = j)) ∨ s'.domain x = s'.domain q := by
  rcases (linked.edge ok between).mp edge with ⟨rfl, -, rfl⟩ | ⟨rfl, -, rfl⟩ | ⟨isTarget, -, rfl⟩ | old
  · exact .inr (linked.crosses_new ok between).domain
  · exact .inr (linked.crosses_new ok between).srcDomain
  · obtain ⟨e, isEvent, same⟩ := ok.domain_target isTarget
    right
    rw [linked.domain_old (ok.lt isEvent), linked.domain, if_pos rfl, domain_of_event isEvent, same]
  · exact .inl old

theorem From.between (from' : s₀.From s) (between : s.Between this p childPtr j c child) :
    s₀.Edge this j c := by
  rcases from'.new this j c between.edge with old | same
  · exact old
  · rw [domain_of_event between.isChild, domain_of_event between.isThis] at same
    exact absurd (Option.some.inj same) between.apart

theorem From.slot (from' : s₀.From s) {q k x : Nat} (edge : s₀.Edge q k x) : k < (s.children q).length := by
  rcases from'.edges q k x edge with kept | ⟨-, xe, -, crosses⟩
  · exact (List.getElem?_eq_some_iff.mp kept).1
  · exact (List.getElem?_eq_some_iff.mp crosses.source).1

theorem From.linked (from' : s₀.From s) (ok₀ : s₀.Ok ph) (ok : s.Ok ph)
    (linked : Linked ph s s' this p childPtr c child) (between : s.Between this p childPtr j c child) :
    s₀.From s' := by
  have edge₀ := from'.between between
  have ltChild := edge₀.child_lt ok₀
  obtain ⟨this₀, isThis₀⟩ := edge₀.isEvent
  obtain ⟨child₀, isChild₀, -⟩ := ok₀.closed this j c edge₀
  have apart₀ : s₀.domain c ≠ s₀.domain this := by
    rw [← from'.domain isThis₀, ← from'.domain isChild₀, domain_of_event between.isChild,
      domain_of_event between.isThis]
    exact fun same => between.apart (Option.some.inj same)
  have le := from'.le
  have keeps : ∀ q k xe x, s.Crosses q k xe x → s'.Crosses q k xe x :=
    fun _ _ _ _ => linked.crosses_old ok between
  constructor
  · rw [linked.allocated]
    omega
  · intro q e isEvent
    obtain ⟨ch, isEvent'⟩ := from'.events q e isEvent
    have isLater := linked.event ok isEvent'
    exact ⟨_, isLater⟩
  · intro q k x edge
    rcases from'.edges q k x edge with kept | ⟨apart, xe, isNew, crosses⟩
    · by_cases here : q = this ∧ k = j
      · obtain ⟨rfl, rfl⟩ := here
        cases Option.some.inj (kept.symm.trans between.edge)
        exact .inr ⟨apart₀, s.allocated, le, linked.crosses_new ok between⟩
      · exact .inl ((linked.edge ok between).mpr (.inr (.inr (.inr ⟨kept, here⟩))))
    · exact .inr ⟨apart, xe, isNew, keeps q k xe x crosses⟩
  · intro q k x edge
    rcases linked.edge_new ok between edge with ⟨old, -⟩ | same
    · rcases from'.new q k x old with old' | same
      · exact .inl old'
      · right
        rw [linked.domain_old (old.lt ok), linked.domain_old (old.child_lt ok), same]
    · exact .inr same
  · intro xe e' x isNew isEvent kind
    rcases linked.event_cases isEvent with ⟨rfl, rfl⟩ | ⟨rfl, rfl⟩ | ⟨e, isOld, rfl⟩
    · exact ⟨this, j, c, edge₀, apart₀, linked.crosses_new ok between⟩
    · cases kind
    · obtain ⟨q, k, y, edge, apart, crosses⟩ := from'.made xe e x isNew isOld kind
      exact ⟨q, k, y, edge, apart, keeps q k xe y crosses⟩
  · intro id isNew q k r l edge edge'
    have first := (linked.edge ok between).mp edge
    have second := (linked.edge ok between).mp edge'
    have old : ∀ q k, s.Edge q k id → id < s.allocated := fun q k edge => edge.child_lt ok
    rcases first with ⟨-, -, isC⟩ | ⟨rfl, rfl, isSrc⟩ | ⟨isTarget, rfl, isCrossing⟩ | ⟨first, -⟩
    · omega
    · rcases second with ⟨-, -, isC⟩ | ⟨rfl, rfl, -⟩ | ⟨-, -, isCrossing⟩ | ⟨second, -⟩
      · omega
      · exact ⟨rfl, rfl⟩
      · omega
      · exact absurd (old r l second) (by omega)
    · rcases second with ⟨-, -, isC⟩ | ⟨-, -, isSrc⟩ | ⟨isTarget', rfl, -⟩ | ⟨second, -⟩
      · omega
      · omega
      · cases Option.some.inj (isTarget.symm.trans isTarget')
        exact ⟨rfl, rfl⟩
      · exact absurd (old r l second) (by omega)
    · rcases second with ⟨-, -, isC⟩ | ⟨-, -, isSrc⟩ | ⟨-, -, isCrossing⟩ | ⟨second, -⟩
      · omega
      · exact absurd (old q k first) (by omega)
      · exact absurd (old q k first) (by omega)
      · exact from'.once id isNew q k r l first second

end Sim

/-! ## What has been visited -/

/-- The walk has come to the events of a set: for each of their edges it has come to the child
and left an edge inside a domain, or the slot is ahead of a walk under way. -/
structure Walk.Seen (s₀ : Sim) (w : Walk) (seen : Set Nat) : Prop where
  gone : ∀ p j c, s₀.Edge p j c → w.sim.Edge p j c ∨ c ∈ seen
  edges : ∀ p ∈ seen, ∀ j c, s₀.Edge p j c →
    (c ∈ seen ∧ ∀ x, w.sim.Edge p j x → w.sim.domain x = w.sim.domain p) ∨
      ∃ f ∈ w.frames, f.id = p ∧ f.cursor.Ahead j

namespace Walk

structure History (ph : Phase) (s₀ : Sim) (root : Nat) (w : Walk) : Prop where
  inv : w.Inv ph
  from' : s₀.From w.sim
  seen : ∃ seen, root ∈ seen ∧ w.Seen s₀ seen

variable {s₀ : Sim} {root : Nat}

theorem History.next {w next : Walk} (history : w.History ph s₀ root) (ok₀ : s₀.Ok ph)
    (clocks : ∀ d, ph.curCycle d ≤ ph.lastLimit) (step : w.step ph = some next) :
    next.History ph s₀ root := by
  have inv := history.inv.next clocks step
  obtain ⟨s, frames⟩ := w
  cases frames with
  | nil => cases step
  | cons f rest =>
      have ok := history.inv.ok
      have stands := history.inv.stands f List.mem_cons_self
      have spec := Walk.step_spec s rest ok clocks stands
      rw [step] at spec
      obtain ⟨seen, isRoot, gone, edges⟩ := history.seen
      cases spec with
      | returns isCursor =>
          refine ⟨inv, history.from', seen, isRoot, gone, fun p member j c edge => ?_⟩
          rcases edges p member j c edge with done | ⟨h, isFrame, isP, ahead⟩
          · exact .inl done
          · rcases List.mem_cons.mp isFrame with rfl | old
            · exact absurd isCursor ahead.not_done
            · exact .inr ⟨h, old, isP, ahead⟩
      | nextBlock left i visitedChildren isCursor done =>
          refine ⟨inv, history.from', seen, isRoot, gone, fun p member j c edge => ?_⟩
          rcases edges p member j c edge with done | ⟨h, isFrame, rfl, ahead⟩
          · exact .inl done
          · rcases List.mem_cons.mp isFrame with rfl | old
            · rw [isCursor] at ahead
              exact .inr ⟨_, List.mem_cons_self, rfl, ahead.nextBlock done (history.from'.slot edge)⟩
            · exact .inr ⟨h, List.mem_cons_of_mem _ old, rfl, ahead⟩
      | visit j c g isSlot isEdge same isNew =>
          obtain ⟨isC, -, -, aheadNew⟩ := ok.entered isNew
          refine ⟨inv, history.from', insert c seen, .inr isRoot, fun p k x edge => ?_,
            fun p member k x edge => ?_⟩
          · exact (gone p k x edge).imp id .inr
          · rcases member with rfl | member
            · exact .inr ⟨g, List.mem_cons_self, isC, aheadNew k (history.from'.slot edge)⟩
            · rcases edges p member k x edge with ⟨inside, done⟩ | ⟨h, isFrame, rfl, ahead⟩
              · exact .inl ⟨.inr inside, done⟩
              · rcases List.mem_cons.mp isFrame with rfl | old
                · by_cases here : k = j
                  · subst here
                    left
                    refine ⟨?_, fun y edge => ?_⟩
                    · rcases gone h.id k x edge with kept | inside
                      · cases Option.some.inj (kept.symm.trans isEdge)
                        exact .inl rfl
                      · exact .inr inside
                    · cases Option.some.inj (edge.symm.trans isEdge)
                      exact same
                  · exact .inr ⟨⟨h.id, h.cursor.advance⟩, by simp, rfl, ahead.advance isSlot here⟩
                · exact .inr ⟨h, by simp [old], rfl, ahead⟩
      | crossing s' p child childPtr j c g isSlot between linked isNew =>
          have from' := history.from'.linked ok₀ ok linked between
          obtain ⟨isC, -, -, aheadNew⟩ := (linked.ok ok between).entered isNew
          refine ⟨inv, from', insert c seen, .inr isRoot, fun q k x edge => ?_, fun q member k x edge => ?_⟩
          · rcases gone q k x edge with kept | inside
            · by_cases here : q = f.id ∧ k = j
              · obtain ⟨rfl, rfl⟩ := here
                cases Option.some.inj (kept.symm.trans between.edge)
                exact .inr (.inl rfl)
              · exact .inl ((linked.edge ok between).mpr (.inr (.inr (.inr ⟨kept, here⟩))))
            · exact .inr (.inr inside)
          · rcases member with rfl | member
            · exact .inr ⟨g, List.mem_cons_self, isC, aheadNew k (from'.slot edge)⟩
            · rcases edges q member k x edge with ⟨inside, done⟩ | ⟨h, isFrame, rfl, ahead⟩
              · refine .inl ⟨.inr inside, fun y edge => ?_⟩
                rcases linked.edge_new ok between edge with ⟨old, -⟩ | same
                · rw [linked.domain_old (old.lt ok), linked.domain_old (old.child_lt ok)]
                  exact done y old
                · exact same
              · rcases List.mem_cons.mp isFrame with rfl | old
                · by_cases here : k = j
                  · subst here
                    left
                    refine ⟨?_, fun y edge => ?_⟩
                    · rcases gone h.id k x edge with kept | inside
                      · cases Option.some.inj (kept.symm.trans between.edge)
                        exact .inl rfl
                      · exact .inr inside
                    · rcases linked.edge_new ok between edge with ⟨-, apart⟩ | same
                      · exact absurd ⟨rfl, rfl⟩ apart
                      · exact same
                  · exact .inr ⟨⟨h.id, h.cursor.advance⟩, by simp, rfl, ahead.advance isSlot here⟩
                · exact .inr ⟨h, by simp [old], rfl, ahead⟩

end Walk

end Zsim.Crossing
