import Zsim.Crossing.Broken

/-!
# Walks that return

As long as no child is missed and no cycle is closed, every assertion holds and the walk comes
to its end: each crossing leaves fewer edges between domains, and between two crossings the
walk goes down an acyclic graph that does not change.
-/

set_option autoImplicit false

namespace Zsim.Crossing

open Zsim.Timing Relation

variable {ph : Phase}

namespace Sim

variable {s s' : Sim} {this j c : Nat} {p child : Event} {childPtr : ChildPtr}

/-- The number of edges between two domains. -/
def crosses (s : Sim) : Nat := s.numSlots fun q x => decide (s.domain q ≠ s.domain x)

theorem Linked.crosses (linked : Linked ph s s' this p childPtr c child) (ok : s.Ok ph)
    (between : s.Between this p childPtr j c child) : s'.crosses < s.crosses := by
  have slots := linked.numSlots ok between fun q x => decide (s'.domain q ≠ s'.domain x)
  have ltThis := ok.lt between.isThis
  have ltChild := ok.lt between.isChild
  have newDomain : s'.domain s.allocated = some child.domain := by
    rw [linked.domain, if_pos rfl]
  have srcDomain : s'.domain (s.allocated + 1) = some p.domain := by
    rw [linked.domain, if_neg (by omega), if_pos rfl]
  have thisDomain : s'.domain this = some p.domain := by
    rw [linked.domain_old ltThis, domain_of_event between.isThis]
  have childDomain : s'.domain c = some child.domain := by
    rw [linked.domain_old ltChild, domain_of_event between.isChild]
  have targetDomain : ((s.target ph p child.domain).map fun t =>
      (decide (s'.domain t ≠ s'.domain s.allocated)).toNat).getD 0 = 0 := by
    cases isTarget : s.target ph p child.domain with
    | none => rfl
    | some t =>
        obtain ⟨e, isEvent, same⟩ := ok.domain_target isTarget
        have domain : s'.domain t = s'.domain s.allocated := by
          rw [linked.domain_old (ok.lt isEvent), domain_of_event isEvent, same, newDomain]
        simp [domain]
  have before : s.numSlots (fun q x => decide (s'.domain q ≠ s'.domain x)) = s.crosses := by
    refine Finset.sum_congr rfl fun q member => List.countP_congr fun x member' => ?_
    obtain ⟨k, edge⟩ := List.mem_iff_getElem?.mp member'
    have edge : s.Edge q k x := edge
    dsimp only
    rw [linked.domain_old (edge.lt ok), linked.domain_old (edge.child_lt ok)]
  have apart : (decide (some p.domain ≠ some child.domain)).toNat = 1 := by simp [between.apart.symm]
  have inside : ∀ d : Option Nat, (decide (d ≠ d)).toNat = 0 := by simp
  rw [targetDomain, before, newDomain, srcDomain, thisDomain, childDomain, apart, inside, inside] at slots
  have after : s'.numSlots (fun q x => decide (s'.domain q ≠ s'.domain x)) = s'.crosses := rfl
  omega

theorem Same.lt {x y : Nat} (same : s.Same x y) (ok : s.Ok ph) : x < s.allocated ∧ y < s.allocated := by
  obtain ⟨⟨k, edge⟩, -⟩ := same
  exact ⟨edge.lt ok, edge.child_lt ok⟩

theorem Ok.finite (ok : s.Ok ph) (x : Nat) : {y | TransGen s.Same x y}.Finite := by
  refine (Finset.range s.allocated).finite_toSet.subset fun y path => ?_
  obtain ⟨z, -, same⟩ := TransGen.tail'_iff.mp path
  exact Finset.mem_coe.mpr (Finset.mem_range.mpr (same.lt ok).2)

/-- A crossing whose child does not lead to its target closes no cycle. -/
theorem Linked.acyclic (linked : Linked ph s s' this p childPtr c child) (ok : s.Ok ph)
    (between : s.Between this p childPtr j c child) (acyclic : Acyclic s.Same)
    (noReturn : ∀ t, s.target ph p child.domain = some t → ¬ ReflTransGen s.Same c t) : Acyclic s'.Same := by
  have ltThis := ok.lt between.isThis
  have ltChild := ok.lt between.isChild
  have noEdgeTo : ∀ x q, s.allocated ≤ q → ¬ s.Same x q := fun x q beyond same =>
    absurd (same.lt ok).2 (by omega)
  have edges : ∀ x y, s'.Same x y → s.Same x y ∨ (s.target ph p child.domain = some x ∧ y = s.allocated) ∨
      (x = s.allocated ∧ y = c) ∨ y = s.allocated + 1 := by
    rintro x y ⟨⟨k, edge⟩, same⟩
    rcases (linked.edge ok between).mp edge with ⟨rfl, -, rfl⟩ | ⟨-, -, rfl⟩ | ⟨isTarget, -, rfl⟩ | ⟨old, -⟩
    · exact .inr (.inr (.inl ⟨rfl, rfl⟩))
    · exact .inr (.inr (.inr rfl))
    · exact .inr (.inl ⟨isTarget, rfl⟩)
    · rw [linked.domain_old (old.lt ok), linked.domain_old (old.child_lt ok)] at same
      exact .inl ⟨⟨k, old⟩, same⟩
  have noEdgeFromLeaf : ∀ y, ¬ s'.Same (s.allocated + 1) y := by
    rintro y ⟨⟨k, edge⟩, -⟩
    rcases (linked.edge ok between).mp edge with ⟨same, -⟩ | ⟨same, -⟩ | ⟨isTarget, -⟩ | ⟨old, -⟩
    · omega
    · omega
    · exact absurd (ok.target_lt isTarget) (by omega)
    · exact absurd (old.lt ok) (by omega)
  cases isTarget : s.target ph p child.domain with
  | some t =>
      have detour : Detour s.Same s'.Same t s.allocated c (s.allocated + 1) :=
        { noEdgeTo := fun x => noEdgeTo x _ (Nat.le_refl _)
          noEdgeFrom := fun y same => absurd (same.lt ok).1 (by omega)
          first_ne := (ok.target_lt isTarget).ne
          last_ne := ltChild.ne
          noReturn := noReturn t isTarget
          noEdgeFromLeaf := noEdgeFromLeaf
          edges := fun x y same => by
            rcases edges x y same with old | ⟨isX, isY⟩ | rest
            · exact .inl old
            · exact .inr (.inl ⟨Option.some.inj (isX.symm.trans isTarget), isY⟩)
            · exact .inr (.inr rest) }
      exact detour.acyclic acyclic
  | none =>
      -- no edge leads to the crossing
      have detour : Detour s.Same s'.Same (s.allocated + 1) s.allocated c (s.allocated + 1) :=
        { noEdgeTo := fun x => noEdgeTo x _ (Nat.le_refl _)
          noEdgeFrom := fun y same => absurd (same.lt ok).1 (by omega)
          first_ne := by omega
          last_ne := ltChild.ne
          noReturn := fun path => by
            rcases ReflTransGen.cases_tail path with same | ⟨x, -, same⟩
            · omega
            · exact noEdgeTo x _ (Nat.le_succ _) same
          noEdgeFromLeaf := noEdgeFromLeaf
          edges := fun x y same => by
            rcases edges x y same with old | ⟨isX, -⟩ | rest
            · exact .inl old
            · cases isX.symm.trans isTarget
            · exact .inr (.inr rest) }
      exact detour.acyclic acyclic

end Sim

/-! ## The invariant of a walk that misses nothing -/

/-- How many slots the cursor can still come to. -/
def Cursor.remaining : Cursor → Nat
  | .past => 0
  | .child => 1
  | .blocks left i _ => 4 * left + (3 - i)

theorem Cursor.remaining_advance {cursor : Cursor} {j : Nat} (isSlot : cursor.slot = some j) :
    cursor.advance.remaining < cursor.remaining := by
  cases cursor with
  | past => cases isSlot
  | child => exact Nat.one_pos
  | blocks left i visitedChildren =>
      obtain ⟨small, -, -⟩ := Cursor.of_slot_blocks isSlot
      change 4 * left + (3 - (i + 1)) < 4 * left + (3 - i)
      omega

namespace Walk

structure Sound (ph : Phase) (w : Walk) : Prop extends w.Inv ph where
  exact' : ∀ f ∈ w.frames, f.cursor.Exact (w.sim.children f.id).length
  acyclic : Acyclic w.sim.Same

theorem Sound.next {w : Walk} (sound : w.Sound ph) (clocks : ∀ d, ph.curCycle d ≤ ph.lastLimit)
    (meets : w.Meets ph) (under : w.frames ≠ []) : ∃ next, w.step ph = some next ∧ next.Sound ph := by
  obtain ⟨s, frames⟩ := w
  cases frames with
  | nil => exact absurd rfl under
  | cons f rest =>
      have stands := sound.stands f List.mem_cons_self
      have exactTop := sound.exact' f List.mem_cons_self
      have later : ∀ h ∈ rest, h.cursor.Exact (s.children h.id).length := fun h member =>
        sound.exact' h (List.mem_cons_of_mem f member)
      have spec := Walk.step_spec s rest sound.ok clocks stands
      cases isStep : Walk.step ph ⟨s, f :: rest⟩ with
      | none =>
          rw [isStep] at spec
          cases spec with
          | fails visitedChildren isCursor wrong =>
              rw [isCursor] at exactTop
              have same : visitedChildren + min 0 _ = (s.children f.id).length + 0 := exactTop
              omega
      | some next =>
          have inv := sound.toInv.next clocks isStep
          rw [isStep] at spec
          suffices both : (∀ h ∈ next.frames, h.cursor.Exact (next.sim.children h.id).length) ∧
              Acyclic next.sim.Same from ⟨next, rfl, inv, both.1, both.2⟩
          cases spec with
          | returns => exact ⟨later, sound.acyclic⟩
          | nextBlock left i visitedChildren isCursor done =>
              refine ⟨fun h member => ?_, sound.acyclic⟩
              rcases List.mem_cons.mp member with rfl | old
              · have ok := stands.ok
                rw [isCursor] at ok exactTop
                exact exactTop.nextBlock ok done
              · exact later h old
          | visit j c g isSlot edge same isNew =>
              obtain ⟨isC, -, exactNew, -⟩ := sound.ok.entered isNew
              refine ⟨fun h member => ?_, sound.acyclic⟩
              rcases List.mem_cons.mp member with rfl | old
              · exact isC ▸ exactNew
              · rcases List.mem_cons.mp old with rfl | old
                · exact exactTop.advance
                · exact later h old
          | crossing s' p child childPtr j c g isSlot between linked isNew =>
              have ok' := linked.ok sound.ok between
              obtain ⟨isC, -, exactNew, -⟩ := ok'.entered isNew
              have meets := fun t => meets f rest j c p child t rfl isSlot between.edge between.isThis
                between.isChild between.apart
              have keeps : ∀ h ∈ rest, h.cursor.Exact (s'.children h.id).length := by
                intro h member
                obtain ⟨e, isEvent⟩ := (sound.stands h (List.mem_cons_of_mem f member)).isEvent
                rw [linked.length sound.ok between (sound.ok.lt isEvent)]
                split
                · next isTarget => exact (later h member).grow ((meets h.id isTarget).1 h member rfl)
                · exact later h member
              have top : (s'.children f.id).length = (s.children f.id).length := by
                rw [linked.length sound.ok between (sound.ok.lt between.isThis),
                  if_neg (sound.ok.target_ne between)]
                rfl
              refine ⟨fun h member => ?_, linked.acyclic sound.ok between sound.acyclic fun t isTarget =>
                (meets t isTarget).2⟩
              rcases List.mem_cons.mp member with rfl | old
              · exact isC ▸ exactNew
              · rcases List.mem_cons.mp old with rfl | old
                · rw [top]
                  exact exactTop.advance
                · exact keeps h old

def Safe (ph : Phase) (w : Walk) : Prop := ∀ later, w.Steps ph later → later.Meets ph

theorem Safe.later {w later : Walk} (safe : w.Safe ph) (steps : w.Steps ph later) : later.Safe ph :=
  fun _ more => safe _ (steps.trans more)

theorem Sound.steps {w later : Walk} (sound : w.Sound ph) (clocks : ∀ d, ph.curCycle d ≤ ph.lastLimit)
    (safe : w.Safe ph) (steps : w.Steps ph later) : later.Sound ph := by
  induction steps with
  | refl => exact sound
  | @tail mid later before step ih =>
      have under : mid.frames ≠ [] := by
        intro isEmpty
        unfold Walk.step at step
        rw [isEmpty] at step
        cases step
      obtain ⟨next, isNext, sound⟩ := ih.next clocks (safe mid before) under
      cases Option.some.inj (isNext.symm.trans step)
      exact sound

theorem Inv.crosses {w later : Walk} (inv : w.Inv ph) (clocks : ∀ d, ph.curCycle d ≤ ph.lastLimit)
    (steps : w.Steps ph later) : later.sim.crosses < w.sim.crosses ∨ later.sim = w.sim := by
  have holds : later.Inv ph ∧ (later.sim.crosses < w.sim.crosses ∨ later.sim = w.sim) := by
    induction steps with
    | refl => exact ⟨inv, .inr rfl⟩
    | @tail mid later _ step ih =>
        obtain ⟨inv, smaller⟩ := ih
        refine ⟨inv.next clocks step, ?_⟩
        obtain ⟨s, frames⟩ := mid
        cases frames with
        | nil => cases step
        | cons f rest =>
            have spec := Walk.step_spec s rest inv.ok clocks (inv.stands f List.mem_cons_self)
            rw [step] at spec
            cases spec with
            | returns => exact smaller
            | nextBlock => exact smaller
            | visit => exact smaller
            | crossing s' p child childPtr j c g isSlot between linked isNew =>
                have less := linked.crosses inv.ok between
                rcases smaller with smaller | same
                · exact .inl (less.trans smaller)
                · exact .inl (same ▸ less)
  exact holds.2

theorem Sound.returns {s : Sim} {f : Frame} {rest : List Frame} (sound : Sound ph ⟨s, f :: rest⟩)
    (clocks : ∀ d, ph.curCycle d ≤ ph.lastLimit) (safe : Safe ph ⟨s, f :: rest⟩) :
    ∃ s', Steps ph ⟨s, f :: rest⟩ ⟨s', rest⟩ := by
  obtain ⟨next, step, soundNext⟩ := sound.next clocks (safe _ .refl) (by simp)
  have first : Steps ph ⟨s, f :: rest⟩ next := .single step
  have safeNext := safe.later first
  have spec := Walk.step_spec s rest sound.ok clocks (sound.stands f List.mem_cons_self)
  rw [step] at spec
  -- the frame itself, after the walk over a child has come to its end
  have goesOn : ∀ s₂, Steps ph ⟨s, f :: rest⟩ ⟨s₂, ⟨f.id, f.cursor.advance⟩ :: rest⟩ →
      (∃ s', Steps ph ⟨s₂, ⟨f.id, f.cursor.advance⟩ :: rest⟩ ⟨s', rest⟩) →
      ∃ s', Steps ph ⟨s, f :: rest⟩ ⟨s', rest⟩ := by
    intro s₂ steps returns
    obtain ⟨s', more⟩ := returns
    exact ⟨s', steps.trans more⟩
  have inOrder : ∀ s₂, Steps ph ⟨s, f :: rest⟩ ⟨s₂, ⟨f.id, f.cursor.advance⟩ :: rest⟩ →
      s₂.crosses < s.crosses ∨ s₂ = s := fun s₂ steps => sound.toInv.crosses clocks steps
  cases spec with
  | returns => exact ⟨s, first⟩
  | nextBlock left i visitedChildren isCursor done =>
      have fewer : (Cursor.blocks left 0 visitedChildren).remaining < f.cursor.remaining := by
        rw [isCursor]
        change 4 * left + (3 - 0) < 4 * (left + 1) + (3 - i)
        omega
      obtain ⟨s', more⟩ := soundNext.returns clocks safeNext
      exact ⟨s', first.trans more⟩
  | visit j c g isSlot edge same isNew =>
      have fewer := Cursor.remaining_advance isSlot
      have lower : height s.Same g.id < height s.Same f.id := by
        rw [(sound.ok.entered isNew).1]
        exact sound.acyclic.height_lt (sound.ok.finite f.id) ⟨⟨j, edge⟩, same⟩
      obtain ⟨s₂, more⟩ := soundNext.returns clocks safeNext
      have steps := first.trans more
      have inOrder := inOrder s₂ steps
      exact goesOn s₂ steps ((sound.steps clocks safe steps).returns clocks (safe.later steps))
  | crossing s' p child childPtr j c g isSlot between linked isNew =>
      have fewer := Cursor.remaining_advance isSlot
      have less := linked.crosses sound.ok between
      obtain ⟨s₂, more⟩ := soundNext.returns clocks safeNext
      have steps := first.trans more
      have inOrder := inOrder s₂ steps
      exact goesOn s₂ steps ((sound.steps clocks safe steps).returns clocks (safe.later steps))
termination_by (s.crosses, height s.Same f.id, f.cursor.remaining)
decreasing_by
  · exact .right _ (.right _ fewer)
  · exact .right _ (.left _ _ lower)
  · rcases inOrder with less | same
    · exact .left _ _ less
    · subst same
      exact .right _ (.right _ fewer)
  · exact .left _ _ less
  · rcases inOrder with less | same
    · exact .left _ _ less
    · subst same
      exact .right _ (.right _ fewer)

end Walk

end Zsim.Crossing
