import Mathlib.Data.List.Chain
import Zsim.Recorder.Events

/-!
# Chains of recorded events

The events that a core has recorded and that have not been simulated include a chain, on which
are all those that report to the recorder.  Each link carries its cycle in the zero-load clock.
An event of the chain never starts with less slack over that clock than the last event that
reported, and the gap between the clocks of the core is never more than this slack.
-/

set_option autoImplicit false

namespace Zsim.Recorder

/-- An event with its cycle in the zero-load clock. -/
structure Link where
  ev : Nat
  zllCycle : Nat

/-! ## Events that are added and simulated -/

/-- Events only ever get their `startCycle`, and that once. -/
structure Kept (events events' : List TimingEvent) : Prop where
  fields : ∀ (ev : Nat) (event : TimingEvent), events[ev]? = some event →
    ∃ startCycle, events'[ev]? = some { event with startCycle := startCycle }
  simulated : ∀ (ev : Nat) (event : TimingEvent), events[ev]? = some event →
    event.startCycle ≠ none → events'[ev]? = some event

theorem getElem?_append_of_some {events : List TimingEvent} {ev : Nat} {event : TimingEvent}
    (at_ : events[ev]? = some event) (more : List TimingEvent) :
    (events ++ more)[ev]? = some event := by
  rw [List.getElem?_append_left (List.getElem?_eq_some_iff.mp at_).1]
  exact at_

theorem Kept.append (events more : List TimingEvent) : Kept events (events ++ more) where
  fields _ event at_ := ⟨event.startCycle, getElem?_append_of_some at_ more⟩
  simulated _ _ at_ _ := getElem?_append_of_some at_ more

theorem Kept.set {events : List TimingEvent} {ev : Nat} {event : TimingEvent}
    (at_ : events[ev]? = some event) (unsimulated : event.startCycle = none) (cycle : Nat) :
    Kept events (events.set ev { event with startCycle := some cycle }) := by
  have bound := (List.getElem?_eq_some_iff.mp at_).1
  constructor
  · intro other event' there
    by_cases same : ev = other
    · subst same
      cases Option.some.inj (at_.symm.trans there)
      exact ⟨some cycle, List.getElem?_set_self bound⟩
    · exact ⟨event'.startCycle, by rw [List.getElem?_set_ne same]; exact there⟩
  · intro other event' there done
    have same : ev ≠ other := by
      intro same
      subst same
      cases Option.some.inj (at_.symm.trans there)
      exact done unsimulated
    rw [List.getElem?_set_ne same]
    exact there

/-! ## Links -/

/-- An event that has not been simulated.  One that reports knows its zero-load cycle, and may
start there under the gap of the clocks. -/
def Unsimulated (events : List TimingEvent) (gapCycles : Nat) (l : Link) : Prop :=
  ∃ event, events[l.ev]? = some event ∧ event.startCycle = none ∧
    ∀ orig minStart, event.kind.reports = some (orig, minStart) →
      orig = l.zllCycle ∧ minStart ≤ l.zllCycle + gapCycles

/-- The second event waits for the first, at least as long as the zero-load clock says. -/
def Follows (events : List TimingEvent) (a b : Link) : Prop :=
  a.ev < b.ev ∧ ∃ before after parents, events[a.ev]? = some before ∧ events[b.ev]? = some after ∧
    after.source = .after parents ∧ a.ev ∈ parents ∧
    b.zllCycle ≤ a.zllCycle + before.postDelay + after.preDelay

/-- The link was simulated with a slack not below `lastStart - lastOrig`. -/
def SimulatedLate (events : List TimingEvent) (lastStart lastOrig : Nat) (l : Link) : Prop :=
  ∃ event start, events[l.ev]? = some event ∧ event.startCycle = some start ∧
    lastStart + l.zllCycle ≤ start + lastOrig

/-- The event before the first one of the chain has been simulated with a slack not below that
of the last event that reported. -/
def Resumes (events : List TimingEvent) (lastStart lastOrig : Nat) (first : Link) : Prop :=
  ∃ before, Follows events before first ∧ SimulatedLate events lastStart lastOrig before

/-- The first event after a join, which is in the queue from the start of the phase. -/
def IsRoot (events : List TimingEvent) (globPhaseCycles : Nat) (first : Link) : Prop :=
  first.zllCycle = globPhaseCycles ∧ ∃ event minStart, events[first.ev]? = some event ∧
    event.kind.reports = some (globPhaseCycles, minStart) ∧ event.source = .queued globPhaseCycles

theorem Unsimulated.congr {events events' : List TimingEvent} {gapCycles : Nat} {l : Link}
    (unsimulated : Unsimulated events gapCycles l) (same : events'[l.ev]? = events[l.ev]?) :
    Unsimulated events' gapCycles l := by
  obtain ⟨event, at_, rest⟩ := unsimulated
  exact ⟨event, same.trans at_, rest⟩

theorem Unsimulated.append {events : List TimingEvent} {gapCycles : Nat} {l : Link}
    (unsimulated : Unsimulated events gapCycles l) (more : List TimingEvent) :
    Unsimulated (events ++ more) gapCycles l := by
  obtain ⟨event, at_, rest⟩ := unsimulated
  exact ⟨event, getElem?_append_of_some at_ more, rest⟩

theorem Unsimulated.mono {events : List TimingEvent} {gapCycles gapCycles' : Nat} {l : Link}
    (unsimulated : Unsimulated events gapCycles l) (le : gapCycles ≤ gapCycles') :
    Unsimulated events gapCycles' l := by
  obtain ⟨event, at_, fresh, core⟩ := unsimulated
  refine ⟨event, at_, fresh, fun orig minStart reports => ?_⟩
  obtain ⟨same, min⟩ := core orig minStart reports
  exact ⟨same, by omega⟩

theorem Follows.kept {events events' : List TimingEvent} {a b : Link} (follows : Follows events a b)
    (kept : Kept events events') : Follows events' a b := by
  obtain ⟨lt, before, after, parents, first, second, source, isParent, zll⟩ := follows
  obtain ⟨start, first⟩ := kept.fields a.ev before first
  obtain ⟨start', second⟩ := kept.fields b.ev after second
  exact ⟨lt, _, _, parents, first, second, source, isParent, zll⟩

theorem SimulatedLate.kept {events events' : List TimingEvent} {lastStart lastOrig : Nat} {l : Link}
    (late : SimulatedLate events lastStart lastOrig l) (kept : Kept events events') :
    SimulatedLate events' lastStart lastOrig l := by
  obtain ⟨event, start, at_, started, slack⟩ := late
  have done : event.startCycle ≠ none := by simp [started]
  exact ⟨event, start, kept.simulated l.ev event at_ done, started, slack⟩

theorem Resumes.kept {events events' : List TimingEvent} {lastStart lastOrig : Nat} {first : Link}
    (resumes : Resumes events lastStart lastOrig first) (kept : Kept events events') :
    Resumes events' lastStart lastOrig first := by
  obtain ⟨before, follows, late⟩ := resumes
  exact ⟨before, follows.kept kept, late.kept kept⟩

theorem IsRoot.kept {events events' : List TimingEvent} {globPhaseCycles : Nat} {first : Link}
    (root : IsRoot events globPhaseCycles first) (kept : Kept events events') :
    IsRoot events' globPhaseCycles first := by
  obtain ⟨zll, event, minStart, at_, reports, source⟩ := root
  obtain ⟨start, at_⟩ := kept.fields first.ev event at_
  exact ⟨zll, _, minStart, at_, reports, source⟩

/-! ## The chain -/

structure Chain (events : List TimingEvent) (gapCycles : Nat) (links : List Link) : Prop where
  unsimulated : ∀ l ∈ links, Unsimulated events gapCycles l
  follows : links.IsChain (Follows events)
  /-- Every event that reports and has not been simulated is on it. -/
  whole : ∀ ev event, events[ev]? = some event → event.startCycle = none →
    event.kind.reports ≠ none → ∃ l ∈ links, l.ev = ev

variable {events : List TimingEvent} {gapCycles : Nat} {links : List Link}

theorem Chain.nil (gapCycles : Nat) : Chain [] gapCycles [] := by
  refine ⟨?_, List.isChain_nil, ?_⟩
  · intro l member
    cases member
  · intro ev event at_
    cases at_

theorem Chain.mono {gapCycles' : Nat} (chain : Chain events gapCycles links)
    (le : gapCycles ≤ gapCycles') : Chain events gapCycles' links where
  unsimulated l member := (chain.unsimulated l member).mono le
  follows := chain.follows
  whole := chain.whole

theorem Chain.unstarted (chain : Chain events gapCycles links) {l : Link} (member : l ∈ links) :
    Unstarted events l.ev := by
  obtain ⟨event, at_, fresh, -⟩ := chain.unsimulated l member
  exact .of_some at_ fresh

theorem Chain.sorted (chain : Chain events gapCycles links) :
    links.Pairwise fun a b => a.ev < b.ev := by
  have lt : links.IsChain fun a b => a.ev < b.ev := chain.follows.imp fun _ _ follows => follows.1
  have : IsTrans Link fun a b => a.ev < b.ev := ⟨fun _ _ _ => Nat.lt_trans⟩
  exact List.isChain_iff_pairwise.mp lt

theorem Chain.other {first : Link} {rest : List Link}
    (chain : Chain events gapCycles (first :: rest)) : ∀ l ∈ rest, l.ev ≠ first.ev := by
  intro l member
  have lt := (List.pairwise_cons.mp chain.sorted).1 l member
  exact Nat.ne_of_gt lt

/-- Every link but the first follows another one. -/
theorem Chain.follows_some {first : Link} {rest : List Link}
    (chain : Chain events gapCycles (first :: rest)) {l : Link} (member : l ∈ rest) :
    ∃ before ∈ first :: rest, Follows events before l := by
  obtain ⟨front, back, split⟩ := List.mem_iff_append.mp member
  have follows := chain.follows
  rw [split, ← List.cons_append, List.isChain_append] at follows
  have nonempty : first :: front ≠ [] := List.cons_ne_nil _ _
  refine ⟨(first :: front).getLast nonempty, ?_, ?_⟩
  · rw [split, ← List.cons_append]
    exact List.mem_append_left _ (List.getLast_mem nonempty)
  · exact follows.2.2 _ (List.getLast?_eq_some_getLast nonempty) l rfl

/-! ### Growth -/

/-- An event that does not report, beside the chain. -/
theorem Chain.beside (chain : Chain events gapCycles links) {event : TimingEvent}
    (silent : event.kind.reports = none) : Chain (events ++ [event]) gapCycles links := by
  refine ⟨fun l member => (chain.unsimulated l member).append _,
    chain.follows.imp fun _ _ follows => follows.kept (Kept.append _ _), ?_⟩
  intro ev event' at_ fresh reports
  rcases Nat.lt_or_ge ev events.length with old | new
  · rw [List.getElem?_append_left old] at at_
    exact chain.whole ev event' at_ fresh reports
  · rw [List.getElem?_append_right new] at at_
    have single := List.mem_of_getElem? at_
    cases List.mem_singleton.mp single
    exact absurd silent reports

theorem Chain.silent {more : List TimingEvent}
    (silent : ∀ event ∈ more, event.kind.reports = none) (chain : Chain events gapCycles links) :
    Chain (events ++ more) gapCycles links := by
  induction more generalizing events with
  | nil => simpa using chain
  | cons event more ih =>
      rw [List.append_cons]
      exact ih (fun event member => silent event (List.mem_cons_of_mem _ member))
        (chain.beside (silent event List.mem_cons_self))

theorem Chain.link (chain : Chain events gapCycles links) {last : Link}
    (isLast : links.getLast? = some last) {before event : TimingEvent}
    (at_ : events[last.ev]? = some before) {parents : List Nat}
    (source : event.source = .after parents) (isParent : last.ev ∈ parents) {zllCycle : Nat}
    (fresh : event.startCycle = none)
    (zll : zllCycle ≤ last.zllCycle + before.postDelay + event.preDelay)
    (known : ∀ orig minStart, event.kind.reports = some (orig, minStart) →
      orig = zllCycle ∧ minStart ≤ zllCycle + gapCycles) :
    Chain (events ++ [event]) gapCycles (links ++ [⟨events.length, zllCycle⟩]) := by
  have new : (events ++ [event])[events.length]? = some event := List.getElem?_concat_length
  constructor
  · intro l member
    rcases List.mem_append.mp member with old | single
    · exact (chain.unsimulated l old).append _
    · cases List.mem_singleton.mp single
      exact ⟨event, new, fresh, known⟩
  · rw [List.isChain_append]
    refine ⟨chain.follows.imp fun _ _ follows => follows.kept (Kept.append _ _),
      List.isChain_singleton _, ?_⟩
    intro a isA b isB
    cases Option.some.inj (isLast.symm.trans isA)
    cases Option.some.inj isB
    exact ⟨(List.getElem?_eq_some_iff.mp at_).1, before, event, parents,
      getElem?_append_of_some at_ _, new, source, isParent, zll⟩
  · intro ev event' there fresh' reports
    rcases Nat.lt_or_ge ev events.length with old | ge
    · rw [List.getElem?_append_left old] at there
      obtain ⟨l, member, same⟩ := chain.whole ev event' there fresh' reports
      exact ⟨l, List.mem_append_left _ member, same⟩
    · refine ⟨⟨events.length, zllCycle⟩, by simp, ?_⟩
      have bound := (List.getElem?_eq_some_iff.mp there).1
      simp only [List.length_append, List.length_singleton] at bound
      exact Nat.le_antisymm ge (Nat.le_of_lt_succ bound)

theorem Chain.root (chain : Chain events gapCycles []) (cycle : Nat) (event : TimingEvent)
    (reports : event.kind.reports = some (cycle, cycle)) (fresh : event.startCycle = none) :
    Chain (events ++ [event]) 0 [⟨events.length, cycle⟩] := by
  refine ⟨?_, List.isChain_singleton _, ?_⟩
  · intro l member
    cases List.mem_singleton.mp member
    refine ⟨event, List.getElem?_concat_length, fresh, fun orig minStart same => ?_⟩
    cases reports.symm.trans same
    exact ⟨rfl, Nat.le_refl _⟩
  · intro ev event' at_ fresh' reports'
    rcases Nat.lt_or_ge ev events.length with old | ge
    · rw [List.getElem?_append_left old] at at_
      obtain ⟨l, member, -⟩ := chain.whole ev event' at_ fresh' reports'
      cases member
    · refine ⟨_, List.mem_singleton_self _, ?_⟩
      have bound := (List.getElem?_eq_some_iff.mp at_).1
      simp only [List.length_append, List.length_singleton] at bound
      exact Nat.le_antisymm ge (Nat.le_of_lt_succ bound)

/-! ### Simulation -/

theorem Chain.simulate (gone : List Link) {rest : List Link}
    (chain : Chain events gapCycles (gone ++ rest)) {ev : Nat} {event : TimingEvent}
    (at_ : events[ev]? = some event) (unsimulated : event.startCycle = none) (cycle : Nat)
    (leaves : ∀ l ∈ gone, l.ev = ev) (stays : ∀ l ∈ rest, l.ev ≠ ev) :
    Chain (events.set ev { event with startCycle := some cycle }) gapCycles rest := by
  have kept := Kept.set at_ unsimulated cycle
  constructor
  · intro l member
    have old := chain.unsimulated l (List.mem_append_right _ member)
    exact old.congr (List.getElem?_set_ne (stays l member).symm)
  · exact chain.follows.right_of_append.imp fun _ _ follows => follows.kept kept
  · intro other event' there fresh reports
    by_cases same : ev = other
    · subst same
      rw [List.getElem?_set_self (List.getElem?_eq_some_iff.mp at_).1] at there
      cases Option.some.inj there
      cases fresh
    · rw [List.getElem?_set_ne same] at there
      obtain ⟨l, member, isOther⟩ := chain.whole other event' there fresh reports
      rcases List.mem_append.mp member with inGone | inRest
      · exact absurd ((leaves l inGone).symm.trans isOther) same
      · exact ⟨l, inRest, isOther⟩

/-! ## The start of the chain -/

/-- What the recorder knows of the weave phase: the gap of its clocks, and the last event that
reported. -/
structure Report where
  gapCycles : Nat
  lastStart : Nat
  lastOrig : Nat

/-- Either the first event after a join has not been simulated, or the gap is at most the slack
of the last event that reported, and the chain resumes with this slack. -/
def Origin (r : Report) (events : List TimingEvent) (globPhaseCycles simulated : Nat)
    (links : List Link) : Prop :=
  (r.gapCycles = 0 ∧ ∃ first, links.head? = some first ∧ IsRoot events globPhaseCycles first) ∨
    (r.lastOrig + r.gapCycles ≤ r.lastStart ∧ r.lastStart ≤ simulated ∧
      ∀ first ∈ links.head?, Resumes events r.lastStart r.lastOrig first)

variable {r : Report} {globPhaseCycles simulated : Nat}

theorem Origin.mono {simulated' : Nat} (origin : Origin r events globPhaseCycles simulated links)
    (le : simulated ≤ simulated') : Origin r events globPhaseCycles simulated' links := by
  rcases origin with root | ⟨skew, before, resumes⟩
  · exact .inl root
  · exact .inr ⟨skew, Nat.le_trans before le, resumes⟩

theorem Origin.kept {events' : List TimingEvent}
    (origin : Origin r events globPhaseCycles simulated links) (kept : Kept events events') :
    Origin r events' globPhaseCycles simulated links := by
  rcases origin with ⟨gap, first, isFirst, root⟩ | ⟨skew, before, resumes⟩
  · exact .inl ⟨gap, first, isFirst, root.kept kept⟩
  · exact .inr ⟨skew, before, fun first isFirst => (resumes first isFirst).kept kept⟩

theorem Origin.extend {events' : List TimingEvent}
    (origin : Origin r events globPhaseCycles simulated links) (nonempty : links ≠ [])
    (kept : Kept events events') (more : List Link) :
    Origin r events' globPhaseCycles simulated (links ++ more) := by
  have origin := origin.kept kept
  have same : (links ++ more).head? = links.head? := List.head?_append_of_ne_nil links nonempty
  rw [Origin, ← same] at origin
  exact origin

theorem Origin.skewed (origin : Origin r events globPhaseCycles simulated links)
    (chain : Chain events r.gapCycles links) {limit : Nat} (before : globPhaseCycles < limit)
    (drained : ∀ event ∈ events, Drained limit event) :
    r.lastOrig + r.gapCycles ≤ r.lastStart ∧ r.lastStart ≤ simulated ∧
      ∀ first ∈ links.head?, Resumes events r.lastStart r.lastOrig first := by
  rcases origin with ⟨-, first, isFirst, -, event, minStart, at_, -, source⟩ | skewed
  · obtain ⟨event', there, fresh, -⟩ := chain.unsimulated first (List.mem_of_mem_head? isFirst)
    cases Option.some.inj (at_.symm.trans there)
    have done := drained event (List.mem_of_getElem? at_)
    rw [Drained, source] at done
    exact absurd fresh (done before)
  · exact skewed

/-- An event of the chain is ready only if it is the first, and it has the slack of the last
event that reported. -/
theorem Chain.ready (chain : Chain events r.gapCycles links)
    (origin : Origin r events globPhaseCycles simulated links) {l : Link} (member : l ∈ links)
    {event : TimingEvent} (at_ : events[l.ev]? = some event) {cycle : Nat}
    (ready : Ready events event cycle) : ∃ rest, links = l :: rest ∧
      l.zllCycle + r.gapCycles ≤ cycle ∧
      ((∃ minStart, event.kind.reports = some (globPhaseCycles, minStart) ∧
          event.source = .queued globPhaseCycles) ∨
        r.lastOrig + r.gapCycles ≤ r.lastStart ∧ r.lastStart ≤ simulated ∧
          r.lastStart + l.zllCycle ≤ cycle + r.lastOrig) := by
  cases links with
  | nil => cases member
  | cons first rest =>
      rcases List.mem_cons.mp member with rfl | later
      · refine ⟨rest, rfl, ?_⟩
        rcases origin with ⟨gap, first, isFirst, root⟩ | ⟨skew, le, resumes⟩
        · cases Option.some.inj isFirst
          obtain ⟨zll, root, minStart, there, reports, source⟩ := root
          cases Option.some.inj (at_.symm.trans there)
          rw [Ready, source] at ready
          have : cycle = globPhaseCycles := ready
          exact ⟨by omega, .inl ⟨minStart, reports, source⟩⟩
        · obtain ⟨before, follows, simulated⟩ := resumes l rfl
          obtain ⟨-, parent, after, parents, atBefore, there, source, isParent, zll⟩ := follows
          obtain ⟨parent', start, there', started, late⟩ := simulated
          cases Option.some.inj (at_.symm.trans there)
          cases Option.some.inj (atBefore.symm.trans there')
          rw [Ready, source] at ready
          have done := ready before.ev isParent
          simp only [ParentDone, atBefore, started] at done
          exact ⟨by omega, .inr ⟨skew, le, by omega⟩⟩
      · obtain ⟨before, isLink, follows⟩ := chain.follows_some later
        obtain ⟨-, parent, after, parents, atBefore, there, source, isParent, -⟩ := follows
        obtain ⟨parent', there', fresh, -⟩ := chain.unsimulated before isLink
        cases Option.some.inj (at_.symm.trans there)
        cases Option.some.inj (atBefore.symm.trans there')
        rw [Ready, source] at ready
        have done := ready before.ev isParent
        simp [ParentDone, atBefore, fresh] at done

theorem Chain.resumes {first : Link} {rest : List Link}
    (chain : Chain events gapCycles (first :: rest)) {event : TimingEvent}
    (at_ : events[first.ev]? = some event) (fresh : event.startCycle = none)
    {cycle lastStart lastOrig : Nat} (late : lastStart + first.zllCycle ≤ cycle + lastOrig) :
    ∀ next ∈ rest.head?, Resumes
      (events.set first.ev { event with startCycle := some cycle }) lastStart lastOrig next := by
  intro next isNext
  cases rest with
  | nil => cases isNext
  | cons second rest =>
      cases Option.some.inj isNext
      have follows := (List.isChain_cons_cons.mp chain.follows).1
      have bound := (List.getElem?_eq_some_iff.mp at_).1
      exact ⟨first, follows.kept (Kept.set at_ fresh cycle), _, cycle,
        List.getElem?_set_self bound, rfl, late⟩

end Zsim.Recorder
