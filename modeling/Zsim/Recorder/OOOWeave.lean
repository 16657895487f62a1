import Zsim.Recorder.OOOBound

/-!
# The weave phase of an out-of-order core

Issue events leave the chain at its start, each with at least the slack of the one before it.
Whatever their delays are, `cSimEnd` moves both clocks of the core by the same skew.
-/

set_option autoImplicit false

namespace Zsim.Recorder

namespace OOOCore

variable {c : PhaseConfig} {s : OOOCore}

/-! ## Between the phases -/

theorem simulated_le (c : PhaseConfig) (s : OOOCore) : s.simulated c ≤ s.nextPhaseCycle c := by
  unfold simulated
  split
  · exact Nat.le_refl _
  · exact Nat.le_add_right _ _

theorem Inv.weaveRunning (inv : Inv c s) (state : s.cRec.state = .running)
    (atBarrier : s.atBarrier = true) : Inv c { s with inCSim := true } := by
  have beyond := (inv.barrier atBarrier).2
  refine ⟨inv.issue, inv.sorted, ?_, inv.halted, ?_, ?_, ?_, inv.gap_le, ?_, fun _ _ => atBarrier,
    inv.phaseEnd, inv.barrier, inv.unhalted⟩
  · intro bound
    cases bound
  · intro _ bound
    cases bound
  · intro draining
    cases state.symm.trans draining
  · exact fun _ => beyond.le
  · exact Nat.le_trans inv.lastStart_le (simulated_le c s)

theorem Inv.cSimStart_running (inv : Inv c s) (bound : s.inCSim = false)
    (state : s.cRec.state = .running) (atBarrier : s.atBarrier = true) :
    Leads c s (DelayFits c s .cSimStart) (s.cSimStart c) := by
  have notHalted : s.cRec.state ≠ .halted := by simp [state]
  have beyond := (inv.barrier atBarrier).2
  have gapLe := inv.gap_le
  have inv' := inv.weaveRunning state atBarrier
  have later : s.globPhaseCycles ≤ s.nextPhaseCycle c := Nat.le_add_right _ _
  obtain ⟨last, isLast⟩ := Option.ne_none_iff_exists'.mp (inv.live notHalted bound)
  obtain ⟨-, zllLe, -⟩ := inv.issue last isLast
  have fine : s.nextPhaseCycle c < s.curCycle ∧
      last.zllStartCycle ≤ s.curCycle - s.cRec.gapCycles :=
    ⟨beyond, Nat.le_sub_of_add_le zllLe⟩
  by_cases taper : last.zllStartCycle < s.nextPhaseCycle c - s.cRec.gapCycles
  · have produces : Produces s.cRec s.events (s.nextPhaseCycle c) last :=
      inv.produces bound isLast (by omega)
    obtain ⟨more, last', responses, -, -, zll, -, -, issued, produces', linked⟩ :=
      Produces.addIssueEvent (s := { s with inCSim := true }) produces beyond.le
    have step : s.cSimStart c = .ok
        (OOOCore.produce { s with inCSim := true } (s.events ++ more) last' responses) := by
      simp only [OOOCore.cSimStart, state, isLast, if_pos fine, if_pos taper]
      exact issued
    rw [step]
    apply Leads.ok
    · refine inv'.produce notHalted ?_ produces'
      intro draining
      cases state.symm.trans draining
    · intro fits links timely
      have fit : s.nextPhaseCycle c - s.cRec.gapCycles - last.zllStartCycle < 2 ^ 32 :=
        fits _ (by simp [issueCycle, state, isLast, taper]) last isLast
      obtain ⟨moreLinks, linked⟩ := linked links timely.linked fit
      have nonempty := timely.linked.ne_nil isLast
      refine ⟨links ++ moreLinks, linked, ?_, ?_, ?_⟩
      · intro _
        exact ((timely.origin notHalted).extend nonempty (Kept.append _ _) moreLinks).mono
          (simulated_le c s)
      · intro _ _ last isLast
        cases Option.some.inj isLast
        rw [zll]
        exact (Nat.sub_add_cancel (Nat.le_trans gapLe later)).ge
      · intro _ _ _ isNone
        cases isNone
  · have step : s.cSimStart c = .ok { s with inCSim := true } := by
      simp only [OOOCore.cSimStart, state, isLast, if_pos fine, if_neg taper]
    rw [step]
    apply Leads.ok inv'
    intro _ links timely
    refine ⟨links, timely.linked, ?_, ?_, ?_⟩
    · exact fun _ => (timely.origin notHalted).mono (simulated_le c s)
    · intro _ _ last' isLast'
      cases Option.some.inj (isLast.symm.trans isLast')
      dsimp only [nextPhaseCycle] at taper ⊢
      omega
    · intro _ _ _ isNone
      cases isLast.symm.trans isNone

theorem Inv.cSimStart (inv : Inv c s) (bound : s.inCSim = false)
    (waits : s.cRec.state = .running → s.atBarrier = true) :
    Leads c s (DelayFits c s .cSimStart) (s.cSimStart c) := by
  have lastStart := Nat.le_trans inv.lastStart_le (simulated_le c s)
  cases state : s.cRec.state with
  | running => exact inv.cSimStart_running bound state (waits state)
  | halted =>
      have step : s.cSimStart c = .ok { s with inCSim := true } := by
        simp [OOOCore.cSimStart, state]
      rw [step]
      apply Leads.ok
      · refine ⟨inv.issue, inv.sorted, ?_, inv.halted, ?_, ?_, ?_, inv.gap_le, lastStart, ?_,
          inv.phaseEnd, inv.barrier, inv.unhalted⟩
        · intro bound
          cases bound
        · exact fun notHalted => absurd state notHalted
        · intro draining
          cases state.symm.trans draining
        · exact fun notHalted => absurd state notHalted
        · intro running
          cases state.symm.trans running
      · intro _ links timely
        refine ⟨links, timely.linked, ?_, ?_, ?_⟩
        · exact fun notHalted => absurd state notHalted
        · intro running
          cases state.symm.trans running
        · intro running
          cases state.symm.trans running
  | draining =>
      have notHalted : s.cRec.state ≠ .halted := by simp [state]
      have free := inv.free (by simp [state])
      have step : s.cSimStart c = .ok
          { s with
            inCSim := true
            curCycle := max s.curCycle (s.nextPhaseCycle c)
            cRec := { s.cRec with futureResponses := [] } } := by
        simp [OOOCore.cSimStart, state]
      rw [step]
      apply Leads.ok
      · refine ⟨?_, List.Pairwise.nil, ?_, ?_, ?_, fun _ _ => rfl, ?_, inv.gap_le, lastStart, ?_,
          inv.phaseEnd, ?_, inv.unhalted⟩
        · intro last isLast
          obtain ⟨isIssue, zllLe, -⟩ := inv.issue last isLast
          refine ⟨isIssue, Nat.le_trans zllLe (Nat.le_max_left _ _), ?_⟩
          intro fr member
          cases member
        · intro bound
          cases bound
        · exact fun halted => absurd halted notHalted
        · intro _ bound
          cases bound
        · exact fun _ => Nat.le_max_right _ _
        · intro running
          cases state.symm.trans running
        · intro atBarrier
          cases free.symm.trans atBarrier
      · intro _ links timely
        refine ⟨links, ⟨timely.linked.chain, timely.linked.isLast⟩, ?_, ?_, ?_⟩
        · exact fun _ => (timely.origin notHalted).mono (simulated_le c s)
        · intro running
          cases state.symm.trans running
        · intro running
          cases state.symm.trans running

/-! ## The weave phase -/

/-- The core with other events and another last issue event, after a report. -/
def weaved (s : OOOCore) (events : List TimingEvent) (last : Option IssueEvent)
    (lastStart lastZll slack : Nat) : OOOCore :=
  { s with
    events := events
    cRec :=
      { s.cRec with
        lastEvProduced := last
        lastEvSimulatedStartCycle := lastStart
        lastEvSimulatedZllStartCycle := lastZll
        startSlack := slack } }

theorem Inv.weaved (inv : Inv c s) (weave : s.inCSim = true) {events : List TimingEvent}
    {last : Option IssueEvent}
    (kept : ∀ issue, last = some issue → s.cRec.lastEvProduced = some issue ∧ IsIssue events issue)
    {lastStart : Nat} (within : lastStart ≤ s.nextPhaseCycle c) (lastZll slack : Nat) :
    Inv c (s.weaved events last lastStart lastZll slack) := by
  refine ⟨?_, inv.sorted, ?_, ?_, ?_, inv.drained, inv.clock, inv.gap_le, ?_, inv.weave,
    inv.phaseEnd, inv.barrier, inv.unhalted⟩
  · intro issue isLast
    obtain ⟨wasLast, isIssue⟩ := kept issue isLast
    obtain ⟨-, rest⟩ := inv.issue issue wasLast
    exact ⟨isIssue, rest⟩
  · intro bound
    cases weave.symm.trans bound
  · intro halted
    obtain ⟨isNone, noResponses⟩ := inv.halted halted
    refine ⟨?_, noResponses⟩
    by_contra isSome
    obtain ⟨issue, isLast⟩ := Option.ne_none_iff_exists'.mp isSome
    cases isNone.symm.trans (kept issue isLast).1
  · intro _ bound
    cases weave.symm.trans bound
  · exact within.trans_eq (simulated_weave weave).symm

theorem Timely.shorten (gone : List Link) {rest : List Link} (timely : Timely c s (gone ++ rest))
    (weave : s.inCSim = true) {events : List TimingEvent}
    (chain : Chain events s.cRec.gapCycles rest) {last : Option IssueEvent}
    (isLast : last = rest.getLast?.map fun l => ⟨l.ev, l.zllCycle⟩)
    (survives : s.cRec.state = .running → c.thDomains = 1 → rest ≠ []) {lastStart lastZll : Nat}
    (origin : s.cRec.state ≠ .halted →
      Origin ⟨s.cRec.gapCycles, lastStart, lastZll⟩ events s.globPhaseCycles (s.nextPhaseCycle c)
        rest) (slack : Nat) :
    Timely c (s.weaved events last lastStart lastZll slack) rest := by
  refine ⟨⟨chain, isLast⟩, ?_, ?_, ?_⟩
  · intro notHalted
    have origin := origin notHalted
    rw [← simulated_weave weave] at origin
    exact origin
  · intro running _ issue isIssue
    have isIssue : last = some issue := isIssue
    rw [isLast] at isIssue
    obtain ⟨l, atEnd, same⟩ := Option.map_eq_some_iff.mp isIssue
    have wasLast := timely.linked.isLast
    rw [List.mem_getLast?_append_of_mem_getLast? atEnd] at wasLast
    exact timely.tapered running weave issue (wasLast.trans (congrArg some same))
  · intro running _ one isNone
    have isNone : last = none := isNone
    rw [isLast, Option.map_eq_none_iff, List.getLast?_eq_none_iff] at isNone
    exact survives running one isNone

/-- An event of the chain that is ready is its first. -/
theorem Timely.ready {links : List Link} (timely : Timely c s links) (inv : Inv c s)
    (weave : s.inCSim = true) {l : Link} (member : l ∈ links) {event : TimingEvent}
    (at_ : s.events[l.ev]? = some event) {cycle : Nat} (ready : Ready s.events event cycle) :
    ∃ rest, links = l :: rest ∧ l.zllCycle + s.cRec.gapCycles ≤ cycle ∧
      ((∃ minStart, event.kind.reports = some (s.globPhaseCycles, minStart) ∧
          event.source = .queued s.globPhaseCycles) ∨
        s.cRec.lastEvSimulatedZllStartCycle + s.cRec.gapCycles ≤
            s.cRec.lastEvSimulatedStartCycle ∧
          s.cRec.lastEvSimulatedStartCycle ≤ s.nextPhaseCycle c ∧
          s.cRec.lastEvSimulatedStartCycle + l.zllCycle ≤
            cycle + s.cRec.lastEvSimulatedZllStartCycle) := by
  have notHalted : s.cRec.state ≠ .halted := by
    intro halted
    have isLast := timely.linked.isLast
    rw [(inv.halted halted).1] at isLast
    have empty : links = [] := by simpa using isLast.symm
    rw [empty] at member
    cases member
  have origin := timely.origin notHalted
  rw [simulated_weave weave] at origin
  exact Chain.ready (r := s.cRec.report) timely.linked.chain origin member at_ ready

/-- An issue event that is ready is the first of the chain, and starts with at least the slack of
the last one that was simulated, unless it is the first after a join. -/
theorem Timely.ready_core {links : List Link} (timely : Timely c s links) (inv : Inv c s)
    (weave : s.inCSim = true) {ev : Nat} {event : TimingEvent} (at_ : s.events[ev]? = some event)
    (fresh : event.startCycle = none) {zll minStart : Nat}
    (reports : event.kind.reports = some (zll, minStart)) {cycle : Nat}
    (ready : Ready s.events event cycle) :
    ∃ rest, links = ⟨ev, zll⟩ :: rest ∧ zll + s.cRec.gapCycles ≤ cycle ∧ minStart ≤ cycle ∧
      (event.source = .queued zll ∨
        s.cRec.lastEvSimulatedStartCycle + zll ≤ cycle + s.cRec.lastEvSimulatedZllStartCycle) := by
  obtain ⟨l, member, rfl⟩ := timely.linked.chain.whole ev event at_ fresh (by simp [reports])
  obtain ⟨event', there, -, known⟩ := timely.linked.chain.unsimulated l member
  cases Option.some.inj (at_.symm.trans there)
  obtain ⟨rfl, minLe⟩ := known zll minStart reports
  obtain ⟨rest, first, slack, origin⟩ := timely.ready inv weave member at_ ready
  refine ⟨rest, first, slack, Nat.le_trans minLe slack, ?_⟩
  rcases origin with ⟨minStart', root, source⟩ | ⟨-, -, late⟩
  · have same := Prod.mk.inj (Option.some.inj (reports.symm.trans root))
    exact .inl (by rw [same.1]; exact source)
  · exact .inr late

theorem Timely.simulate_silent {links : List Link} (timely : Timely c s links) (inv : Inv c s)
    (weave : s.inCSim = true) {ev : Nat} {event : TimingEvent} (at_ : s.events[ev]? = some event)
    (fresh : event.startCycle = none) (silent : event.kind.reports = none) {cycle : Nat}
    (ready : Ready s.events event cycle) :
    ∃ links, Timely c
      (s.weaved (s.events.set ev { event with startCycle := some cycle }) s.cRec.lastEvProduced
        s.cRec.lastEvSimulatedStartCycle s.cRec.lastEvSimulatedZllStartCycle s.cRec.startSlack)
      links := by
  by_cases onChain : ∃ l ∈ links, l.ev = ev
  · obtain ⟨l, member, rfl⟩ := onChain
    obtain ⟨rest, rfl, -, root | ⟨skew, before, late⟩⟩ := timely.ready inv weave member at_ ready
    · obtain ⟨minStart, reports, -⟩ := root
      cases silent.symm.trans reports
    · have nonempty : rest ≠ [] := by
        intro empty
        subst empty
        obtain ⟨⟨issue, minStart, there, -, kind⟩, -⟩ :=
          inv.issue ⟨l.ev, l.zllCycle⟩ timely.linked.isLast
        cases Option.some.inj (at_.symm.trans there)
        rw [kind] at silent
        cases silent
      have chain := Chain.simulate [l] timely.linked.chain at_ fresh cycle
        (fun l member => by rw [List.mem_singleton.mp member]) timely.linked.chain.other
      exact ⟨rest, Timely.shorten [l] timely weave chain (timely.linked.rest nonempty)
        (fun _ _ => nonempty)
        (fun _ => .inr ⟨skew, before, timely.linked.chain.resumes at_ fresh late⟩) _⟩
  · have beside : ∀ l ∈ links, l.ev ≠ ev := fun l member same => onChain ⟨l, member, same⟩
    have chain := Chain.simulate [] timely.linked.chain at_ fresh cycle
      (fun l member => by cases member) beside
    refine ⟨links, Timely.shorten [] timely weave chain timely.linked.isLast ?_ ?_ _⟩
    · intro running one empty
      subst empty
      exact timely.survives running weave one timely.linked.isLast
    · intro notHalted
      have origin := timely.origin notHalted
      rw [simulated_weave weave] at origin
      exact origin.kept (Kept.set at_ fresh cycle)

theorem Timely.simulate_core {first : Link} {rest : List Link}
    (timely : Timely c s (first :: rest)) (weave : s.inCSim = true) {event : TimingEvent}
    (at_ : s.events[first.ev]? = some event) (fresh : event.startCycle = none)
    {minStart : Nat} (reports : event.kind.reports = some (first.zllCycle, minStart)) {cycle : Nat}
    (slack : first.zllCycle + s.cRec.gapCycles ≤ cycle)
    (within : Within c (s.nextPhaseCycle c) event cycle) :
    Timely c
      (s.weaved (s.events.set first.ev { event with startCycle := some cycle })
        (if s.cRec.lastEvProduced.map IssueEvent.ev = some first.ev then none
          else s.cRec.lastEvProduced) cycle first.zllCycle (cycle - first.zllCycle))
      rest := by
  have other := timely.linked.chain.other
  have chain := Chain.simulate [first] timely.linked.chain at_ fresh cycle
    (fun l member => by rw [List.mem_singleton.mp member]) other
  refine Timely.shorten [first] timely weave chain ?_ ?_ (fun _ => .inr ⟨slack, within.le reports,
    timely.linked.chain.resumes at_ fresh (Nat.le_refl _)⟩) _
  · by_cases empty : rest = []
    · subst empty
      rw [timely.linked.isLast]
      simp
    · have isLast := timely.linked.rest empty
      rw [if_neg, isLast]
      rw [isLast, List.getLast?_eq_some_getLast empty]
      intro same
      exact other _ (List.getLast_mem empty) (Option.some.inj same)
  · intro running one empty
    subst empty
    have limit := timely.tapered running weave ⟨first.ev, first.zllCycle⟩ timely.linked.isLast
    have before := within.lt one reports
    dsimp only at limit
    omega

theorem Inv.simulate (inv : Inv c s) (weave : s.inCSim = true) {ev cycle : Nat}
    (simulates : Simulates s.events c (s.nextPhaseCycle c) ev cycle) {fits : Prop} :
    Leads c s fits (s.simulate ev cycle) := by
  obtain ⟨event, at_, fresh, ready, within⟩ := simulates.exists
  cases reports : event.kind.reports with
  | none =>
      have step : s.simulate ev cycle = .ok
          (s.weaved (s.events.set ev { event with startCycle := some cycle })
            s.cRec.lastEvProduced s.cRec.lastEvSimulatedStartCycle
            s.cRec.lastEvSimulatedZllStartCycle s.cRec.startSlack) := by
        simp only [OOOCore.simulate, at_, fresh, if_true]
        cases kind : event.kind with
        | core zll minStart =>
            rw [kind] at reports
            cases reports
        | dispatch | resp | delay | record => rfl
      rw [step]
      apply Leads.ok
      · refine inv.weaved weave ?_ (inv.lastStart_le.trans_eq (simulated_weave weave)) _ _
        intro last isLast
        have isIssue := (inv.issue last isLast).1
        refine ⟨isLast, isIssue.set ?_ _⟩
        rintro rfl
        obtain ⟨issue, minStart, there, -, kind⟩ := isIssue
        cases Option.some.inj (at_.symm.trans there)
        rw [kind] at reports
        cases reports
      · intro _ links timely
        exact timely.simulate_silent inv weave at_ fresh reports ready
  | some reported =>
      obtain ⟨zll, minStart⟩ := reported
      have kind := EventKind.reports_eq_some.mp reports
      by_cases min : minStart ≤ cycle
      · have step : s.simulate ev cycle = .ok
            (s.weaved (s.events.set ev { event with startCycle := some cycle })
              (if s.cRec.lastEvProduced.map IssueEvent.ev = some ev then none
                else s.cRec.lastEvProduced) cycle zll (cycle - zll)) := by
          simp only [OOOCore.simulate, at_, fresh, if_true, kind, if_pos min]
          rfl
        rw [step]
        apply Leads.ok
        · refine inv.weaved weave ?_ (within.le reports) _ _
          intro last isLast
          by_cases same : s.cRec.lastEvProduced.map IssueEvent.ev = some ev
          · rw [if_pos same] at isLast
            cases isLast
          · rw [if_neg same] at isLast
            refine ⟨isLast, (inv.issue last isLast).1.set ?_ _⟩
            rintro rfl
            rw [isLast] at same
            exact same rfl
        · intro _ links timely
          obtain ⟨rest, rfl, slack, -⟩ := timely.ready_core inv weave at_ fresh reports ready
          exact ⟨rest, timely.simulate_core weave at_ fresh reports slack within⟩
      · have step : s.simulate ev cycle = .error .assertion := by
          simp only [OOOCore.simulate, at_, fresh, if_true, kind, if_neg min]
        rw [step]
        apply Leads.error (by simp)
        intro _ links timely
        obtain ⟨rest, -, -, minLe, -⟩ := timely.ready_core inv weave at_ fresh reports ready
        exact absurd minLe min

/-! ## The end of the phase -/

/-- The core at the start of the next phase, with its clock and its gap ahead by `skew`. -/
def nextPhase (c : PhaseConfig) (s : OOOCore) (skew : Nat) : OOOCore :=
  { s with
    inCSim := false
    atBarrier := false
    globPhaseCycles := s.nextPhaseCycle c
    curCycle := s.curCycle + skew
    cRec :=
      { s.cRec with
        gapCycles := s.cRec.gapCycles + skew
        futureResponses := s.cRec.futureResponses.map (FutureResponse.refresh s.events) } }

theorem refresh_fresh {events : List TimingEvent} {responses : List FutureResponse} :
    ∀ fr ∈ responses.map (FutureResponse.refresh events), ∀ ev ∈ fr.ev, Unstarted events ev := by
  intro fr member ev isEv
  obtain ⟨old, -, rfl⟩ := List.mem_map.mp member
  obtain ⟨-, unstarted⟩ := Option.filter_eq_some_iff.mp isEv
  exact of_decide_eq_true unstarted

theorem refresh_sorted {responses : List FutureResponse}
    (sorted : responses.Pairwise FutureResponse.Before) (events : List TimingEvent) :
    (responses.map (FutureResponse.refresh events)).Pairwise FutureResponse.Before :=
  List.pairwise_map.mpr sorted

theorem Inv.nextPhase_live (inv : Inv c s) (weave : s.inCSim = true)
    (notHalted : s.cRec.state ≠ .halted) (isSome : s.cRec.lastEvProduced ≠ none) {skew : Nat}
    (skewed : s.cRec.lastEvSimulatedZllStartCycle + s.cRec.gapCycles + skew =
      s.cRec.lastEvSimulatedStartCycle) : Inv c (s.nextPhase c skew) := by
  have lastStart := inv.lastStart_le
  have reached := inv.clock notHalted
  rw [simulated_weave weave] at lastStart reached
  refine ⟨?_, refresh_sorted inv.sorted s.events, fun _ => refresh_fresh, ?_, fun _ _ => isSome,
    ?_, ?_, ?_, lastStart, ?_, ?_, ?_, ?_⟩
  · intro last isLast
    obtain ⟨isIssue, zllLe, ahead⟩ := inv.issue last isLast
    refine ⟨isIssue, by dsimp only [nextPhase]; omega, ?_⟩
    intro fr member
    obtain ⟨old, isOld, rfl⟩ := List.mem_map.mp member
    exact ahead old isOld
  · exact fun halted => absurd halted notHalted
  · intro _ weave
    cases weave
  · exact fun _ => Nat.le_add_right_of_le reached
  · dsimp only [nextPhase]
    omega
  · intro _ weave
    cases weave
  · intro running
    have phaseEnd := inv.phaseEnd running
    rw [inv.weave running weave, if_pos rfl] at phaseEnd
    exact phaseEnd
  · intro atBarrier
    cases atBarrier
  · exact Nat.le_add_right_of_le inv.unhalted

theorem Inv.nextPhase_halted (inv : Inv c s) (weave : s.inCSim = true)
    (isNone : s.cRec.lastEvProduced = none) (noResponses : s.cRec.futureResponses = [])
    {skew lastUnhaltedCycle : Nat}
    (skewed : s.cRec.gapCycles + skew ≤ s.nextPhaseCycle c)
    (unhalted : lastUnhaltedCycle ≤ s.nextPhaseCycle c) :
    Inv c
      { s.nextPhase c skew with
        cRec :=
          { (s.nextPhase c skew).cRec with
            lastUnhaltedCycle := lastUnhaltedCycle
            state := .halted } } := by
  have lastStart := inv.lastStart_le
  rw [simulated_weave weave] at lastStart
  refine ⟨?_, refresh_sorted inv.sorted s.events, fun _ => refresh_fresh, ?_, ?_,
    ?_, ?_, skewed, lastStart, ?_, ?_, ?_, unhalted⟩
  · intro last isLast
    cases isNone.symm.trans isLast
  · exact fun _ => ⟨isNone, List.map_eq_nil_iff.mpr noResponses⟩
  · exact fun notHalted => absurd rfl notHalted
  · intro draining
    cases draining
  · exact fun notHalted => absurd rfl notHalted
  · intro running
    cases running
  · intro running
    cases running
  · intro atBarrier
    cases atBarrier

theorem Timely.skewed {links : List Link} (timely : Timely c s links)
    (notHalted : s.cRec.state ≠ .halted) (weave : s.inCSim = true)
    (drained : ∀ event ∈ s.events, Drained (s.nextPhaseCycle c) event) :
    s.cRec.lastEvSimulatedZllStartCycle + s.cRec.gapCycles ≤ s.cRec.lastEvSimulatedStartCycle ∧
      s.cRec.lastEvSimulatedStartCycle ≤ s.nextPhaseCycle c ∧
      ∀ first ∈ links.head?, Resumes s.events s.cRec.lastEvSimulatedStartCycle
        s.cRec.lastEvSimulatedZllStartCycle first := by
  have later : s.globPhaseCycles < s.nextPhaseCycle c := Nat.lt_add_of_pos_right c.phaseLength_pos
  have origin := timely.origin notHalted
  rw [simulated_weave weave] at origin
  exact Origin.skewed (r := s.cRec.report) origin timely.linked.chain later drained

theorem Timely.nextPhase {links : List Link} (timely : Timely c s links)
    (notHalted : s.cRec.state ≠ .halted) (weave : s.inCSim = true)
    (drained : ∀ event ∈ s.events, Drained (s.nextPhaseCycle c) event) {skew : Nat}
    (skewed : s.cRec.lastEvSimulatedZllStartCycle + s.cRec.gapCycles + skew =
      s.cRec.lastEvSimulatedStartCycle) : Timely c (s.nextPhase c skew) links := by
  obtain ⟨-, before, resumes⟩ := timely.skewed notHalted weave drained
  refine ⟨⟨timely.linked.chain.mono (Nat.le_add_right _ _), timely.linked.isLast⟩, ?_, ?_, ?_⟩
  · intro _
    refine .inr ⟨?_, before, resumes⟩
    dsimp only [OOOCore.nextPhase, OOOCoreRecorder.report]
    omega
  · intro _ weave
    cases weave
  · intro _ weave
    cases weave

theorem Timely.nextPhase_halted {links : List Link} (timely : Timely c s links) (skew : Nat)
    (lastUnhaltedCycle : Nat) :
    Timely c
      { s.nextPhase c skew with
        cRec :=
          { (s.nextPhase c skew).cRec with
            lastUnhaltedCycle := lastUnhaltedCycle
            state := .halted } }
      links := by
  refine ⟨⟨timely.linked.chain.mono (Nat.le_add_right _ _), timely.linked.isLast⟩, ?_, ?_, ?_⟩
  · exact fun notHalted => absurd rfl notHalted
  · intro running
    cases running
  · intro running
    cases running

theorem Inv.cSimEnd_halted (inv : Inv c s) (weave : s.inCSim = true)
    (halted : s.cRec.state = .halted) {fits : Prop} : Leads c s fits (s.cSimEnd c) := by
  obtain ⟨isNone, noResponses⟩ := inv.halted halted
  have later : s.globPhaseCycles ≤ s.nextPhaseCycle c := Nat.le_add_right _ _
  have same : s.cRec.futureResponses.map (FutureResponse.refresh s.events) =
      s.cRec.futureResponses := by
    rw [noResponses]
    rfl
  have gapLe : s.cRec.gapCycles + 0 ≤ s.nextPhaseCycle c := Nat.le_trans inv.gap_le later
  have inv' := inv.nextPhase_halted weave isNone noResponses gapLe (Nat.le_trans inv.unhalted later)
  simp only [nextPhase, Nat.add_zero, same, ← halted] at inv'
  rw [OOOCore.cSimEnd]
  dsimp only
  rw [if_pos halted]
  apply Leads.ok inv'
  intro _ links timely
  have timely' := timely.nextPhase_halted (c := c) 0 s.cRec.lastUnhaltedCycle
  simp only [nextPhase, Nat.add_zero, same, ← halted] at timely'
  exact ⟨links, timely'⟩

theorem Inv.cSimEnd (inv : Inv c s) (weave : s.inCSim = true)
    (drained : ∀ event ∈ s.events, Drained (s.nextPhaseCycle c) event) {fits : Prop} :
    Leads c s fits (s.cSimEnd c) := by
  by_cases halted : s.cRec.state = .halted
  · exact inv.cSimEnd_halted weave halted
  have reached := inv.clock halted
  have lastStart := inv.lastStart_le
  rw [simulated_weave weave] at reached lastStart
  rw [OOOCore.cSimEnd]
  dsimp only
  rw [if_neg halted]
  by_cases fine : s.cRec.lastEvSimulatedZllStartCycle + s.cRec.gapCycles ≤ s.curCycle ∧
      s.cRec.lastEvSimulatedStartCycle ≤ s.curCycle
  case neg =>
    rw [if_pos fine]
    apply Leads.error (by simp)
    intro _ links timely
    obtain ⟨skew, -⟩ := timely.skewed halted weave drained
    exact absurd ⟨by omega, by omega⟩ fine
  rw [if_neg (not_not_intro fine)]
  by_cases negative : s.cRec.lastEvSimulatedStartCycle <
      s.cRec.lastEvSimulatedZllStartCycle + s.cRec.gapCycles
  · rw [if_pos negative]
    apply Leads.error (by simp)
    intro _ links timely
    obtain ⟨skew, -⟩ := timely.skewed halted weave drained
    exact absurd negative (Nat.not_lt.mpr skew)
  have skewed := Nat.add_sub_of_le (Nat.le_of_not_lt negative)
  rw [if_neg negative]
  by_cases isNone : s.cRec.lastEvProduced = none
  case neg =>
    rw [if_pos isNone]
    apply Leads.ok (inv.nextPhase_live weave halted isNone skewed)
    intro _ links timely
    exact ⟨links, timely.nextPhase halted weave drained skewed⟩
  rw [if_neg (not_not_intro isNone)]
  by_cases draining : s.cRec.state = .draining
  case neg =>
    rw [if_pos draining]
    apply Leads.error (by simp)
    intro _ links timely
    have running : s.cRec.state = .running := by
      cases state : s.cRec.state with
      | running => rfl
      | halted => exact absurd state halted
      | draining => exact absurd state draining
    exact ⟨rfl, fun one => timely.survives running weave one isNone⟩
  have noResponses := inv.drained draining weave
  rw [if_neg (not_not_intro draining), if_neg (by simp [noResponses])]
  apply Leads.ok (inv.nextPhase_halted weave isNone noResponses (by omega) lastStart)
  intro _ links timely
  exact ⟨links, timely.nextPhase_halted _ _⟩

end OOOCore

end Zsim.Recorder
