import Zsim.Lib.Acyclic
import Zsim.Crossing.Walking

/-!
# Walks that do not return

A crossing that is added where a walk over the blocks of its target has come past is missed,
and the walk fails on the number of children.  One whose child leads back to the target
inside a domain closes a cycle, on which the walk goes round for ever.
-/

set_option autoImplicit false

namespace Zsim.Crossing

open Zsim.Timing Relation

variable {ph : Phase}

def Sim.Same (s : Sim) (x y : Nat) : Prop := (∃ j, s.Edge x j y) ∧ s.domain y = s.domain x

namespace Walk

structure Inv (ph : Phase) (w : Walk) : Prop where
  ok : w.sim.Ok ph
  stands : ∀ f ∈ w.frames, w.sim.Stands f
  /-- a single child is visited in the first step of its walk -/
  below : ∀ f ∈ w.frames.tail, f.cursor ≠ .child

/-- Where the next step adds a crossing to the children of `t`, every walk over several
children of `t` that is under way is in the newest block, which has room, and the child of
the crossing does not lead to `t` inside a domain. -/
def Meets (ph : Phase) (w : Walk) : Prop :=
  ∀ f rest j c p child t, w.frames = f :: rest → f.cursor.slot = some j → w.sim.Edge f.id j c →
    w.sim.events f.id = some p → w.sim.events c = some child → child.domain ≠ p.domain →
    w.sim.target ph p child.domain = some t →
    (∀ g ∈ rest, g.id = t → g.cursor.HasRoom (w.sim.children t).length) ∧ ¬ ReflTransGen w.sim.Same c t

end Walk

namespace Sim

variable {s s' : Sim} {this j c : Nat} {p child : Event} {childPtr : ChildPtr}

theorem Linked.length (linked : Linked ph s s' this p childPtr c child) (ok : s.Ok ph)
    (between : s.Between this p childPtr j c child) {q : Nat} (lt : q < s.allocated) :
    (s'.children q).length = (s.children q).length + if s.target ph p child.domain = some q then 1 else 0 := by
  rw [linked.children ok between, if_neg lt.ne]
  by_cases isThis : q = this
  · rw [if_pos isThis, List.length_set, isThis, if_neg (ok.target_ne between)]
    rfl
  · rw [if_neg isThis]
    split <;> simp

theorem Stands.advance {f : Frame} (stands : s.Stands f) (isSlot : f.cursor.slot = some j)
    (edge : s.Edge f.id j c) : s.Stands ⟨f.id, f.cursor.advance⟩ :=
  ⟨stands.isEvent, stands.ok.advance isSlot (List.getElem?_eq_some_iff.mp edge).1⟩

theorem Linked.stands (linked : Linked ph s s' this p childPtr c child) (ok : s.Ok ph)
    (between : s.Between this p childPtr j c child) {f : Frame} (stands : s.Stands f)
    (notChild : f.cursor ≠ .child) : s'.Stands f := by
  obtain ⟨e, isEvent⟩ := stands.isEvent
  refine ⟨⟨_, linked.event ok isEvent⟩, ?_⟩
  rw [linked.length ok between (ok.lt isEvent)]
  split
  · exact stands.ok.mono notChild
  · exact stands.ok

theorem Linked.edge_same (linked : Linked ph s s' this p childPtr c child) (ok : s.Ok ph)
    (between : s.Between this p childPtr j c child) {q k x : Nat} (edge : s.Edge q k x)
    (same : s.domain x = s.domain q) : s'.Edge q k x ∧ s'.domain x = s'.domain q := by
  refine ⟨(linked.edge ok between).mpr (.inr (.inr (.inr ⟨edge, ?_⟩))), ?_⟩
  · rintro ⟨rfl, rfl⟩
    cases Option.some.inj (edge.symm.trans between.edge)
    rw [domain_of_event between.isChild, domain_of_event between.isThis] at same
    exact between.apart (Option.some.inj same)
  · rw [linked.domain_old (edge.lt ok), linked.domain_old (edge.child_lt ok), same]

end Sim

/-! ## What every state of a walk keeps -/

theorem Walk.Inv.next {w next : Walk} (inv : w.Inv ph) (clocks : ∀ d, ph.curCycle d ≤ ph.lastLimit)
    (step : w.step ph = some next) : next.Inv ph := by
  obtain ⟨s, frames⟩ := w
  cases frames with
  | nil => cases step
  | cons f rest =>
      have stands := inv.stands f List.mem_cons_self
      have spec := Walk.step_spec s rest inv.ok clocks stands
      rw [step] at spec
      have later : ∀ g ∈ rest, s.Stands g := fun g member => inv.stands g (List.mem_cons_of_mem f member)
      have notChild : ∀ g ∈ rest, g.cursor ≠ .child := inv.below
      cases spec with
      | returns => exact ⟨inv.ok, later, fun g member => notChild g (List.mem_of_mem_tail member)⟩
      | nextBlock left i visitedChildren isCursor done =>
          refine ⟨inv.ok, fun g member => ?_, notChild⟩
          rcases List.mem_cons.mp member with rfl | old
          · have ok := stands.ok
            rw [isCursor] at ok
            exact ⟨stands.isEvent, ok.nextBlock⟩
          · exact later g old
      | visit j c g isSlot edge same isNew =>
          obtain ⟨-, isStanding, -⟩ := inv.ok.entered isNew
          refine ⟨inv.ok, fun h member => ?_, fun h member => ?_⟩
          · rcases List.mem_cons.mp member with rfl | old
            · exact isStanding
            · rcases List.mem_cons.mp old with rfl | old
              · exact stands.advance isSlot edge
              · exact later h old
          · rcases List.mem_cons.mp member with rfl | old
            · exact f.cursor.advance_ne_child
            · exact notChild h old
      | crossing s' p child childPtr j c g isSlot between linked isNew =>
          have ok' := linked.ok inv.ok between
          obtain ⟨-, isStanding, -⟩ := ok'.entered isNew
          have keeps : ∀ h, s.Stands h → h.cursor ≠ .child → s'.Stands h := fun h =>
            linked.stands inv.ok between
          refine ⟨ok', fun h member => ?_, fun h member => ?_⟩
          · rcases List.mem_cons.mp member with rfl | old
            · exact isStanding
            · rcases List.mem_cons.mp old with rfl | old
              · exact keeps _ (stands.advance isSlot between.edge) f.cursor.advance_ne_child
              · exact keeps h (later h old) (notChild h old)
          · rcases List.mem_cons.mp member with rfl | old
            · exact f.cursor.advance_ne_child
            · exact notChild h old

/-! ## A child is missed -/

namespace Walk

/-- A walk has come past a child without visiting it. -/
def Missed (w : Walk) : Prop := ∃ f ∈ w.frames, f.cursor.Missed (w.sim.children f.id).length

theorem Missed.next {w next : Walk} (inv : w.Inv ph) (clocks : ∀ d, ph.curCycle d ≤ ph.lastLimit)
    (missed : w.Missed) (step : w.step ph = some next) : next.Missed := by
  obtain ⟨s, frames⟩ := w
  cases frames with
  | nil => cases step
  | cons f rest =>
      have stands := inv.stands f List.mem_cons_self
      have spec := Walk.step_spec s rest inv.ok clocks stands
      rw [step] at spec
      obtain ⟨h, member, missed⟩ := missed
      have isTop : h = f ∨ h ∈ rest := List.mem_cons.mp member
      cases spec with
      | returns isCursor =>
          rcases isTop with rfl | old
          · rcases isCursor with isCursor | isCursor
            · rw [isCursor] at missed
              exact missed.elim
            · rw [isCursor] at missed
              have less : (s.children h.id).length + min 0 _ < (s.children h.id).length + 0 := missed
              omega
          · exact ⟨h, old, missed⟩
      | nextBlock left i visitedChildren isCursor done =>
          rcases isTop with rfl | old
          · have ok := stands.ok
            rw [isCursor] at missed ok
            exact ⟨_, List.mem_cons_self, missed.nextBlock ok⟩
          · exact ⟨h, List.mem_cons_of_mem _ old, missed⟩
      | visit j c g isSlot edge same isNew =>
          rcases isTop with rfl | old
          · exact ⟨⟨h.id, h.cursor.advance⟩, by simp, missed.advance⟩
          · exact ⟨h, by simp [old], missed⟩
      | crossing s' p child childPtr j c g isSlot between linked isNew =>
          have grows : ∀ h : Frame, s.Stands h → h.cursor.Missed (s.children h.id).length →
              h.cursor.Missed (s'.children h.id).length := by
            intro h stands missed
            obtain ⟨e, isEvent⟩ := stands.isEvent
            rw [linked.length inv.ok between (inv.ok.lt isEvent)]
            split
            · exact missed.mono
            · exact missed
          have missed' := grows h (inv.stands h member) missed
          rcases isTop with rfl | old
          · exact ⟨⟨h.id, h.cursor.advance⟩, by simp, missed'.advance⟩
          · exact ⟨h, by simp [old], missed'⟩

/-! ## A cycle is closed -/

/-- From every event of `Z` an edge leads to one of `Z` inside a domain. -/
def Trap (s : Sim) (Z : Set Nat) : Prop := ∀ z ∈ Z, ∃ k x, s.Edge z k x ∧ s.domain x = s.domain z ∧ x ∈ Z

def Trapped (w : Walk) : Prop :=
  ∃ Z, Trap w.sim Z ∧ ∃ f ∈ w.frames, ∃ k x, w.sim.Edge f.id k x ∧ w.sim.domain x = w.sim.domain f.id ∧
    x ∈ Z ∧ f.cursor.Ahead k

theorem Trapped.enter {s : Sim} {c : Nat} {g : Frame} {rest : List Frame} {Z : Set Nat} (ok : s.Ok ph)
    (trap : Trap s Z) (member : c ∈ Z) (isNew : s.enter c = some g) : Trapped ⟨s, g :: rest⟩ := by
  obtain ⟨isC, -, -, ahead⟩ := ok.entered isNew
  obtain ⟨k, x, edge, same, inside⟩ := trap c member
  refine ⟨Z, trap, g, List.mem_cons_self, k, x, isC ▸ edge, isC ▸ same, inside, ahead k ?_⟩
  exact (List.getElem?_eq_some_iff.mp edge).1

theorem Trapped.next {w next : Walk} (inv : w.Inv ph) (clocks : ∀ d, ph.curCycle d ≤ ph.lastLimit)
    (trapped : w.Trapped) (step : w.step ph = some next) : next.Trapped := by
  obtain ⟨s, frames⟩ := w
  cases frames with
  | nil => cases step
  | cons f rest =>
      have stands := inv.stands f List.mem_cons_self
      have spec := Walk.step_spec s rest inv.ok clocks stands
      rw [step] at spec
      obtain ⟨Z, trap, h, member, k, x, edge, same, inside, ahead⟩ := trapped
      have isTop : h = f ∨ h ∈ rest := List.mem_cons.mp member
      cases spec with
      | returns isCursor =>
          rcases isTop with rfl | old
          · exact absurd isCursor ahead.not_done
          · exact ⟨Z, trap, h, old, k, x, edge, same, inside, ahead⟩
      | nextBlock left i visitedChildren isCursor done =>
          rcases isTop with rfl | old
          · rw [isCursor] at ahead
            have lt : k < (s.children h.id).length := (List.getElem?_eq_some_iff.mp edge).1
            exact ⟨Z, trap, _, List.mem_cons_self, k, x, edge, same, inside, ahead.nextBlock done lt⟩
          · exact ⟨Z, trap, h, List.mem_cons_of_mem _ old, k, x, edge, same, inside, ahead⟩
      | visit j c g isSlot isEdge isSame isNew =>
          rcases isTop with rfl | old
          · by_cases here : k = j
            · -- the trap is entered
              subst here
              cases Option.some.inj (edge.symm.trans isEdge)
              exact .enter inv.ok trap inside isNew
            · exact ⟨Z, trap, ⟨h.id, h.cursor.advance⟩, by simp, k, x, edge, same, inside,
                ahead.advance isSlot here⟩
          · exact ⟨Z, trap, h, by simp [old], k, x, edge, same, inside, ahead⟩
      | crossing s' p child childPtr j c g isSlot between linked isNew =>
          have stays :
              ∀ q k x, s.Edge q k x → s.domain x = s.domain q → s'.Edge q k x ∧ s'.domain x = s'.domain q :=
            fun _ _ _ => linked.edge_same inv.ok between
          have trap' : Trap s' Z := by
            intro z member
            obtain ⟨k, x, edge, same, inside⟩ := trap z member
            exact ⟨k, x, (stays z k x edge same).1, (stays z k x edge same).2, inside⟩
          obtain ⟨edge', same'⟩ := stays h.id k x edge same
          rcases isTop with rfl | old
          · have here : k ≠ j := by
              rintro rfl
              cases Option.some.inj (edge.symm.trans between.edge)
              rw [Sim.domain_of_event between.isChild, Sim.domain_of_event between.isThis] at same
              exact between.apart (Option.some.inj same)
            exact ⟨Z, trap', ⟨h.id, h.cursor.advance⟩, by simp, k, x, edge', same', inside,
              ahead.advance isSlot here⟩
          · exact ⟨Z, trap', h, by simp [old], k, x, edge', same', inside, ahead⟩

/-! ## What breaks a walk -/

theorem Next.of_apart {s : Sim} {f : Frame} {rest : List Frame} {result : Option Walk} {j c : Nat}
    {p child : Event} (spec : Next ph s f rest result) (isSlot : f.cursor.slot = some j)
    (edge : s.Edge f.id j c) (isThis : s.events f.id = some p) (isChild : s.events c = some child)
    (apart : child.domain ≠ p.domain) :
    ∃ s' childPtr g, s.Between f.id p childPtr j c child ∧ Sim.Linked ph s s' f.id p childPtr c child ∧
      s'.enter c = some g ∧ result = some ⟨s', g :: ⟨f.id, f.cursor.advance⟩ :: rest⟩ := by
  cases spec with
  | fails visitedChildren isCursor =>
      rw [isCursor] at isSlot
      cases isSlot
  | returns isCursor =>
      rcases isCursor with isCursor | isCursor <;> rw [isCursor] at isSlot <;> cases isSlot
  | nextBlock left i visitedChildren isCursor done =>
      rw [isCursor] at isSlot
      obtain ⟨small, -, isJ⟩ := Cursor.of_slot_blocks isSlot
      have lt := (List.getElem?_eq_some_iff.mp edge).1
      omega
  | visit j' c' g isSlot' edge' same isNew =>
      cases Option.some.inj (isSlot.symm.trans isSlot')
      cases Option.some.inj (edge.symm.trans edge')
      rw [Sim.domain_of_event isChild, Sim.domain_of_event isThis] at same
      exact absurd (Option.some.inj same) apart
  | crossing s' p' child' childPtr j' c' g isSlot' between linked isNew =>
      cases Option.some.inj (isSlot.symm.trans isSlot')
      cases Option.some.inj (edge.symm.trans between.edge)
      cases Option.some.inj (isThis.symm.trans between.isThis)
      cases Option.some.inj (isChild.symm.trans between.isChild)
      exact ⟨s', childPtr, g, between, linked, isNew, rfl⟩

/-- A crossing whose child leads back to the target closes a cycle. -/
theorem trap_of_path {s s' : Sim} {this j c t : Nat} {p child : Event} {childPtr : ChildPtr} (ok : s.Ok ph)
    (between : s.Between this p childPtr j c child) (linked : Sim.Linked ph s s' this p childPtr c child)
    (isTarget : s.target ph p child.domain = some t) (path : ReflTransGen s.Same c t) :
    ∃ Z, Trap s' Z ∧ c ∈ Z := by
  refine ⟨insert s.allocated {z | ReflTransGen s.Same c z ∧ ReflTransGen s.Same z t}, ?_, .inr ⟨.refl, path⟩⟩
  obtain ⟨target, isEvent, sameTarget⟩ := ok.domain_target isTarget
  rintro z (rfl | ⟨before, after⟩)
  · refine ⟨0, c, (linked.edge ok between).mpr (.inl ⟨rfl, rfl, rfl⟩), ?_, .inr ⟨.refl, path⟩⟩
    rw [linked.domain_old (ok.lt between.isChild), linked.domain, if_pos rfl,
      Sim.domain_of_event between.isChild]
  · rcases ReflTransGen.cases_head after with rfl | ⟨y, ⟨⟨k, edge⟩, same⟩, later⟩
    · refine ⟨(s.children z).length, s.allocated, ?_, ?_, .inl rfl⟩
      · exact (linked.edge ok between).mpr (.inr (.inr (.inl ⟨isTarget, rfl, rfl⟩)))
      · rw [linked.domain_old (ok.lt isEvent), linked.domain, if_pos rfl, Sim.domain_of_event isEvent,
        sameTarget]
    · obtain ⟨edge', same'⟩ := linked.edge_same ok between edge same
      exact ⟨k, y, edge', same', .inr ⟨before.tail ⟨⟨k, edge⟩, same⟩, later⟩⟩

theorem not_meets {w next : Walk} (inv : w.Inv ph) (clocks : ∀ d, ph.curCycle d ≤ ph.lastLimit)
    (fails : ¬ w.Meets ph) (step : w.step ph = some next) : next.Missed ∨ next.Trapped := by
  unfold Meets at fails
  push Not at fails
  obtain ⟨f, rest, j, c, p, child, t, frames, isSlot, edge, isThis, isChild, apart, isTarget, fails⟩ := fails
  obtain ⟨s, frames'⟩ := w
  subst frames
  have spec := Walk.step_spec s rest inv.ok clocks (inv.stands f List.mem_cons_self)
  obtain ⟨s', childPtr, g, between, linked, isNew, isNext⟩ := spec.of_apart isSlot edge isThis isChild apart
  cases Option.some.inj (step.symm.trans isNext)
  by_cases room : ∀ g ∈ rest, g.id = t → g.cursor.HasRoom (s.children t).length
  · right
    obtain ⟨Z, trap, member⟩ := trap_of_path inv.ok between linked isTarget (fails room)
    exact .enter (linked.ok inv.ok between) trap member isNew
  · left
    push Not at room
    obtain ⟨h, member, rfl, noRoom⟩ := room
    have ok := (inv.stands h (List.mem_cons_of_mem f member)).ok
    refine ⟨h, by simp [member], ?_⟩
    rw [linked.length inv.ok between (inv.ok.target_lt isTarget), if_pos isTarget]
    exact ok.missed noRoom

/-- A walk that has missed a child or is trapped does not return. -/
theorem not_returns {w final : Walk} (inv : w.Inv ph) (clocks : ∀ d, ph.curCycle d ≤ ph.lastLimit)
    (broken : w.Missed ∨ w.Trapped) (steps : w.Steps ph final) : final.frames ≠ [] := by
  have holds : final.Inv ph ∧ (final.Missed ∨ final.Trapped) := by
    induction steps with
    | refl => exact ⟨inv, broken⟩
    | tail _ step ih =>
        obtain ⟨inv, broken⟩ := ih
        exact ⟨inv.next clocks step, broken.imp (Missed.next inv clocks · step) (Trapped.next inv clocks · step)⟩
  rintro isEmpty
  rcases holds.2 with ⟨f, member, -⟩ | ⟨-, -, f, member, -⟩
  all_goals
    rw [isEmpty] at member
    cases member

end Walk

end Zsim.Crossing
