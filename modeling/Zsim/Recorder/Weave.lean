import Zsim.Recorder.Bound

/-!
# The weave phase of a timing core

Events leave the chain at its start, each with at least the slack of the one before it.  The last
event survives the weave phase of a running core, since it may not start before `curCycle`, which
is beyond the limit.  At the end of the phase the clock of the core moves by the slack that is new.
-/

set_option autoImplicit false

namespace Zsim.Recorder

namespace TimingCore

variable {c : PhaseConfig} {s : TimingCore}

/-! ## Between the phases -/

theorem Recording.coverDelay {links : List Link} (recording : Recording s.cRec s.events links)
    (le : s.cRec.prevRespCycle ≤ s.curCycle) (fits : s.curCycle - s.cRec.prevRespCycle < 2 ^ 32) :
    ∃ more prev moreLinks, s.coverDelay = some (s.grow (s.events ++ more) prev s.curCycle) ∧
      Recording (s.grow (s.events ++ more) prev s.curCycle).cRec (s.events ++ more)
        (links ++ moreLinks) := by
  by_cases lt : s.cRec.prevRespCycle < s.curCycle
  · obtain ⟨event, added, recording, -⟩ := recording.addCoreEvent _ s.curCycle fits
      (by omega) (Nat.le_trans recording.gap_le le)
    refine ⟨[event], s.events.length, _, ?_, recording⟩
    rw [TimingCore.coverDelay, if_pos lt]
    exact congrArg (Option.bind · _) added
  · obtain ⟨prev, isPrev, -⟩ := recording.prev
    have same : s.cRec.prevRespCycle = s.curCycle := Nat.le_antisymm le (Nat.le_of_not_lt lt)
    have grown : s.grow (s.events ++ []) prev s.curCycle = s := by
      rw [List.append_nil, ← same, grow, ← isPrev]
    refine ⟨[], prev, [], ?_, ?_⟩
    · rw [TimingCore.coverDelay, if_neg lt, grown]
    · rw [grown, List.append_nil, List.append_nil]
      exact recording

theorem InvWith.cSimStart_running {links : List Link} (inv : InvWith c s links)
    (bound : s.inCSim = false) (running : s.cRec.state = .running) (atBarrier : s.atBarrier = true)
    (fits : s.curCycle - s.cRec.prevRespCycle < 2 ^ 32) :
    ∃ next, s.cSimStart c = some next ∧ Inv c next := by
  have notHalted : s.cRec.state ≠ .halted := by simp [running]
  obtain ⟨gapLe, prevLe, reached⟩ := inv.clock notHalted
  have origin := inv.origin notHalted
  have beyond := (inv.barrier atBarrier).2
  have recording := inv.recording notHalted (.inl bound)
  have nonempty := recording.ne_nil
  obtain ⟨more, prev, moreLinks, covered, recording⟩ := Recording.coverDelay
    (s := { s with inCSim := true }) recording prevLe fits
  obtain ⟨event, tapered, recording, core⟩ := Recording.addCoreEvent
    (s := TimingCore.grow { s with inCSim := true } (s.events ++ more) prev s.curCycle)
    recording 0 s.curCycle (by decide) (Nat.le_refl _)
    (Nat.le_trans gapLe prevLe)
  have next : s.cSimStart c = TimingCore.addCoreEvent
      (TimingCore.grow { s with inCSim := true } (s.events ++ more) prev s.curCycle) 0 := by
    rw [TimingCore.cSimStart]
    simp only [running, if_pos beyond.le]
    exact congrArg (Option.bind · _) covered
  refine ⟨_, next.trans tapered, _, recording.chain, recording.prevResp, ?_, ?_, fun _ => recording,
    ?_, ?_, ?_, ?_, inv.phaseEnd, inv.barrier, inv.unhalted⟩
  · intro halted
    exact absurd halted notHalted
  · intro empty
    exact absurd empty recording.ne_nil
  · intro _
    have origin := origin.extend nonempty (Kept.append s.events more) moreLinks
    have later : s.simulated c ≤ s.nextPhaseCycle c := by
      rw [simulated_bound bound]
      exact Nat.le_add_right _ _
    exact ((origin.extend (by simp [nonempty]) (Kept.append _ [event]) _).mono later)
  · intro _
    exact ⟨Nat.le_trans gapLe prevLe, Nat.le_refl _, beyond.le⟩
  · intro _
    exact endsInCore_append core _
  · intro _ _
    refine ⟨atBarrier, fun last isLast => ?_⟩
    rw [List.getLast?_concat] at isLast
    cases Option.some.inj isLast
    have zll := Nat.sub_add_cancel (Nat.le_trans gapLe prevLe)
    exact beyond.trans_eq zll.symm

theorem Inv.cSimStart (inv : Inv c s) (bound : s.inCSim = false)
    (waits : s.cRec.state = .running → s.atBarrier = true)
    (fits : s.cRec.state = .running → s.curCycle - s.cRec.prevRespCycle < 2 ^ 32) :
    ∃ next, s.cSimStart c = some next ∧ Inv c next := by
  obtain ⟨links, inv⟩ := inv
  cases state : s.cRec.state with
  | running => exact inv.cSimStart_running bound state (waits state) (fits state)
  | halted =>
      have empty := inv.halted state
      subst empty
      refine ⟨{ s with inCSim := true }, by simp [TimingCore.cSimStart, state], [], inv.chain,
        inv.prevResp, inv.halted, fun _ => .inl state, ?_, ?_, ?_, ?_, ?_, inv.phaseEnd, inv.barrier,
        inv.unhalted⟩
      · exact fun nonempty => absurd rfl nonempty
      · exact fun notHalted => absurd state notHalted
      · exact fun notHalted => absurd state notHalted
      · intro _ last isLast
        cases isLast
      · intro running
        rw [state] at running
        cases running
  | draining =>
      have notHalted : s.cRec.state ≠ .halted := by simp [state]
      obtain ⟨gapLe, prevLe, -⟩ := inv.clock notHalted
      have free := inv.free (by simp [state])
      have later : s.simulated c ≤ s.nextPhaseCycle c := by
        rw [simulated_bound bound]
        exact Nat.le_add_right _ _
      refine ⟨{ s with inCSim := true, curCycle := max s.curCycle (s.nextPhaseCycle c) },
        by simp [TimingCore.cSimStart, state], links, inv.chain, inv.prevResp, inv.halted,
        fun _ => .inr ⟨state, rfl⟩, inv.covered, fun _ => (inv.origin notHalted).mono later, ?_,
        fun _ => inv.endsInCore (.inl state), ?_, inv.phaseEnd, ?_, inv.unhalted⟩
      · intro _
        exact ⟨gapLe, Nat.le_trans prevLe (Nat.le_max_left _ _), Nat.le_max_right _ _⟩
      · intro running
        rw [state] at running
        cases running
      · intro atBarrier
        rw [free] at atBarrier
        cases atBarrier

/-! ## The weave phase -/

theorem InvWith.shorten (gone : List Link) {rest : List Link} (inv : InvWith c s (gone ++ rest))
    (weave : s.inCSim = true) {events : List TimingEvent} (kept : Kept s.events events)
    (chain : Chain events s.cRec.gapCycles rest)
    (live : rest = [] → s.cRec.state = .halted ∨ s.cRec.state = .draining)
    (lastStart lastOrig slack : Nat)
    (origin : s.cRec.state ≠ .halted →
      Origin ⟨s.cRec.gapCycles, lastStart, lastOrig⟩ events s.globPhaseCycles (s.nextPhaseCycle c)
        rest) :
    InvWith c
      { s with
        events := events
        cRec :=
          { s.cRec with
            lastEventSimulatedStartCycle := lastStart
            lastEventSimulatedOrigStartCycle := lastOrig
            startSlack := slack
            prevRespEvent := rest.getLast?.map Link.ev } }
      rest := by
  have sameLast : ∀ last ∈ rest.getLast?, last ∈ (gone ++ rest).getLast? := by
    intro last isLast
    exact List.mem_getLast?_append_of_mem_getLast? isLast
  have simulated : s.simulated c = s.nextPhaseCycle c := by simp [TimingCore.simulated, weave]
  refine ⟨chain, rfl, ?_, ?_, ?_, ?_, inv.clock, ?_, ?_, inv.phaseEnd, inv.barrier, inv.unhalted⟩
  · intro halted
    exact (List.append_eq_nil_iff.mp (inv.halted halted)).2
  · intro empty
    exact (live empty).imp_right fun draining => ⟨draining, weave⟩
  · intro nonempty
    obtain ⟨-, -, ⟨last, event, isLast, at_, covered⟩, gapLe⟩ :=
      inv.covered (List.append_ne_nil_of_right_ne_nil gone nonempty)
    rw [List.getLast?_append_of_ne_nil gone nonempty] at isLast
    obtain ⟨start, at_⟩ := kept.fields last.ev event at_
    exact ⟨chain, rfl, ⟨last, _, isLast, at_, covered⟩, gapLe⟩
  · intro notHalted
    have := origin notHalted
    rw [← simulated] at this
    exact this
  · intro _ last isLast
    obtain ⟨event, reported, at_, reports⟩ :=
      inv.endsInCore (.inr weave) last (sameLast last isLast)
    obtain ⟨start, at_⟩ := kept.fields last.ev event at_
    exact ⟨_, reported, at_, reports⟩
  · intro running _
    obtain ⟨atBarrier, beyond⟩ := inv.tapered running weave
    exact ⟨atBarrier, fun last isLast => beyond last (sameLast last isLast)⟩

theorem InvWith.simulate_core {first : Link} {rest : List Link} (inv : InvWith c s (first :: rest))
    (weave : s.inCSim = true) {event : TimingEvent} (at_ : s.events[first.ev]? = some event)
    (fresh : event.startCycle = none) {orig minStart : Nat} (kind : event.kind = .core orig minStart)
    {cycle : Nat} (slack : first.zllCycle + s.cRec.gapCycles ≤ cycle)
    (within : cycle ≤ s.nextPhaseCycle c) :
    ∃ next, s.simulate first.ev cycle = some next ∧ Inv c next := by
  obtain ⟨event', there, -, core⟩ := inv.chain.unsimulated first List.mem_cons_self
  cases Option.some.inj (at_.symm.trans there)
  obtain ⟨rfl, minLe⟩ := core orig minStart (by rw [kind]; rfl)
  have kept := Kept.set at_ fresh cycle
  have chain := Chain.simulate [first] inv.chain at_ fresh cycle
    (fun l member => by rw [List.mem_singleton.mp member]) inv.chain.other
  have notHalted : s.cRec.state ≠ .halted := by
    intro halted
    cases inv.halted halted
  -- the last event of a running core is behind the limit
  have drains : rest = [] → s.cRec.state = .draining := by
    intro empty
    subst empty
    cases state : s.cRec.state with
    | halted => exact absurd state notHalted
    | draining => rfl
    | running =>
        have beyond := (inv.tapered state weave).2 first rfl
        omega
  have inv' := InvWith.shorten [first] inv weave kept chain (fun empty => .inr (drains empty))
    cycle first.zllCycle (cycle - first.zllCycle) (fun _ => .inr ⟨slack, within,
      inv.chain.resumes at_ fresh (Nat.le_refl _)⟩)
  refine ⟨_, ?_, rest, inv'⟩
  simp only [TimingCore.simulate, at_, fresh, if_true, kind, if_pos (Nat.le_trans minLe slack),
    reportEventSimulated]
  cases rest with
  | nil =>
      have isLast : s.cRec.prevRespEvent = some first.ev := inv.prevResp
      simp [isLast, drains rfl]
  | cons second rest =>
      have prev := inv.prevResp
      rw [List.getLast?_cons_cons] at prev
      have notLast : s.cRec.prevRespEvent ≠ some first.ev := by
        rw [prev, List.getLast?_eq_some_getLast (List.cons_ne_nil _ _)]
        intro same
        exact inv.chain.other _ (List.getLast_mem _) (Option.some.inj same)
      rw [if_neg notLast, prev]

theorem InvWith.simulate_other {first : Link} {rest : List Link} (inv : InvWith c s (first :: rest))
    (weave : s.inCSim = true) {event : TimingEvent} (at_ : s.events[first.ev]? = some event)
    (fresh : event.startCycle = none)
    (silent : event.kind.reports = none) {cycle : Nat}
    (skew : s.cRec.lastEventSimulatedOrigStartCycle + s.cRec.gapCycles ≤
      s.cRec.lastEventSimulatedStartCycle)
    (before : s.cRec.lastEventSimulatedStartCycle ≤ s.nextPhaseCycle c)
    (late : s.cRec.lastEventSimulatedStartCycle + first.zllCycle ≤
      cycle + s.cRec.lastEventSimulatedOrigStartCycle) :
    Inv c { s with events := s.events.set first.ev { event with startCycle := some cycle } } := by
  have kept := Kept.set at_ fresh cycle
  have chain := Chain.simulate [first] inv.chain at_ fresh cycle
    (fun l member => by rw [List.mem_singleton.mp member]) inv.chain.other
  have nonempty : rest ≠ [] := by
    intro empty
    subst empty
    obtain ⟨event', reported, there, reports⟩ := inv.endsInCore (.inr weave) first rfl
    cases Option.some.inj (at_.symm.trans there)
    cases silent.symm.trans reports
  have inv' := InvWith.shorten [first] inv weave kept chain
    (fun empty => absurd empty nonempty) s.cRec.lastEventSimulatedStartCycle
    s.cRec.lastEventSimulatedOrigStartCycle s.cRec.startSlack
    (fun _ => .inr ⟨skew, before, inv.chain.resumes at_ fresh late⟩)
  have prev := inv.prevResp
  rw [← List.singleton_append, List.getLast?_append_of_ne_nil _ nonempty] at prev
  rw [← prev] at inv'
  exact ⟨rest, inv'⟩

theorem InvWith.simulate_beside {links : List Link} (inv : InvWith c s links)
    (weave : s.inCSim = true) {ev : Nat} {event : TimingEvent} (at_ : s.events[ev]? = some event)
    (fresh : event.startCycle = none) (beside : ∀ l ∈ links, l.ev ≠ ev) (cycle : Nat) :
    Inv c { s with events := s.events.set ev { event with startCycle := some cycle } } := by
  have kept := Kept.set at_ fresh cycle
  have chain := Chain.simulate [] inv.chain at_ fresh cycle
    (fun l member => by cases member) beside
  have inv' := InvWith.shorten [] inv weave kept chain
    (fun empty => (inv.live empty).imp_right And.left) s.cRec.lastEventSimulatedStartCycle
    s.cRec.lastEventSimulatedOrigStartCycle s.cRec.startSlack (fun notHalted => by
      have origin := inv.origin notHalted
      simp only [TimingCore.simulated, weave, if_true] at origin
      exact origin.kept kept)
  rw [← inv.prevResp] at inv'
  exact ⟨links, inv'⟩

theorem simulate_eq {ev : Nat} {event : TimingEvent} (at_ : s.events[ev]? = some event)
    (fresh : event.startCycle = none) (silent : event.kind.reports = none) (cycle : Nat) :
    s.simulate ev cycle =
      some { s with events := s.events.set ev { event with startCycle := some cycle } } := by
  simp only [TimingCore.simulate, at_, fresh, if_true]
  cases kind : event.kind with
  | core orig minStart =>
      rw [kind] at silent
      cases silent
  | dispatch | resp | delay | record => rfl

theorem Inv.simulate (inv : Inv c s) (weave : s.inCSim = true) {ev cycle : Nat}
    (simulates : Simulates s.events c (s.nextPhaseCycle c) ev cycle) :
    ∃ next, s.simulate ev cycle = some next ∧ Inv c next := by
  obtain ⟨links, inv⟩ := inv
  obtain ⟨event, at_, fresh, ready, within⟩ := simulates.exists
  by_cases onChain : ∃ l ∈ links, l.ev = ev
  · obtain ⟨l, member, rfl⟩ := onChain
    have notHalted : s.cRec.state ≠ .halted := by
      intro halted
      rw [inv.halted halted] at member
      cases member
    have origin := inv.origin notHalted
    simp only [TimingCore.simulated, weave, if_true] at origin
    obtain ⟨rest, rfl, slack, origin⟩ :=
      Chain.ready (r := s.cRec.report) inv.chain origin member at_ ready
    cases reports : event.kind.reports with
    | some reported =>
        exact inv.simulate_core weave at_ fresh (EventKind.reports_eq_some.mp reports) slack
          (within.le reports)
    | none =>
        rcases origin with ⟨minStart, root, -⟩ | ⟨skew, before, late⟩
        · cases reports.symm.trans root
        · exact ⟨_, simulate_eq at_ fresh reports cycle,
            inv.simulate_other weave at_ fresh reports skew before late⟩
  · have beside : ∀ l ∈ links, l.ev ≠ ev := fun l member same => onChain ⟨l, member, same⟩
    have silent : event.kind.reports = none := by
      by_contra reports
      exact onChain (inv.chain.whole ev event at_ fresh reports)
    exact ⟨_, simulate_eq at_ fresh silent cycle, inv.simulate_beside weave at_ fresh beside cycle⟩

/-! ## The end of the phase -/

/-- The core at the start of the next phase, with its clock and its gap ahead by `skew`. -/
def nextPhase (c : PhaseConfig) (s : TimingCore) (skew : Nat) : TimingCore :=
  { s with
    inCSim := false
    atBarrier := false
    globPhaseCycles := s.nextPhaseCycle c
    curCycle := s.curCycle + skew
    cRec :=
      { s.cRec with
        gapCycles := s.cRec.gapCycles + skew
        prevRespCycle := s.cRec.prevRespCycle + skew } }

theorem InvWith.nextPhase_live {links : List Link} (inv : InvWith c s links)
    (weave : s.inCSim = true) (notHalted : s.cRec.state ≠ .halted) (nonempty : links ≠ [])
    {skew : Nat} (skewed : s.cRec.lastEventSimulatedOrigStartCycle + s.cRec.gapCycles + skew =
      s.cRec.lastEventSimulatedStartCycle)
    (before : s.cRec.lastEventSimulatedStartCycle ≤ s.nextPhaseCycle c)
    (resumes : ∀ first ∈ links.head?, Resumes s.events s.cRec.lastEventSimulatedStartCycle
      s.cRec.lastEventSimulatedOrigStartCycle first) :
    InvWith c (s.nextPhase c skew) links := by
  obtain ⟨gapLe, prevLe, reached⟩ := inv.clock notHalted
  simp only [TimingCore.simulated, weave, if_true] at reached
  have chain : Chain s.events (s.cRec.gapCycles + skew) links :=
    inv.chain.mono (Nat.le_add_right _ _)
  refine ⟨chain, inv.prevResp, inv.halted, fun empty => absurd empty nonempty, ?_, ?_, ?_, ?_, ?_,
    ?_, ?_, Nat.le_trans inv.unhalted (Nat.le_add_right _ _)⟩
  · intro _
    obtain ⟨-, prev, ⟨last, event, isLast, at_, covered⟩, -⟩ := inv.covered nonempty
    exact ⟨chain, prev, ⟨last, event, isLast, at_, by dsimp only [nextPhase]; omega⟩,
      Nat.add_le_add_right gapLe skew⟩
  · intro _
    exact .inr ⟨by dsimp only [nextPhase, CoreRecorder.report]; omega, before, resumes⟩
  · intro _
    exact ⟨Nat.add_le_add_right gapLe skew, Nat.add_le_add_right prevLe skew,
      Nat.le_trans reached (Nat.le_add_right _ _)⟩
  · rintro (draining | weave)
    · exact inv.endsInCore (.inl draining)
    · cases weave
  · intro _ weave
    cases weave
  · intro running
    have atBarrier := (inv.tapered running weave).1
    have phaseEnd := inv.phaseEnd running
    rw [atBarrier, if_pos rfl] at phaseEnd
    exact phaseEnd
  · intro atBarrier
    cases atBarrier

theorem InvWith.nextPhase_halted (inv : InvWith c s []) (skew : Nat) {lastUnhaltedCycle : Nat}
    (unhalted : lastUnhaltedCycle ≤ s.nextPhaseCycle c) :
    InvWith c
      { s.nextPhase c skew with
        cRec :=
          { (s.nextPhase c skew).cRec with
            lastUnhaltedCycle := lastUnhaltedCycle
            state := .halted } }
      [] := by
  refine ⟨inv.chain.mono (Nat.le_add_right _ _), inv.prevResp, fun _ => rfl, fun _ => .inl rfl,
    ?_, ?_, ?_, ?_, ?_, ?_, ?_, unhalted⟩
  · exact fun nonempty => absurd rfl nonempty
  · exact fun notHalted => absurd rfl notHalted
  · exact fun notHalted => absurd rfl notHalted
  · intro _ last isLast
    cases isLast
  · intro running
    cases running
  · intro running
    cases running
  · intro atBarrier
    cases atBarrier

theorem Inv.cSimEnd (inv : Inv c s) (weave : s.inCSim = true)
    (drained : ∀ event ∈ s.events, Drained (s.nextPhaseCycle c) event) :
    ∃ next, s.cSimEnd c = some next ∧ Inv c next ∧
      next.curCycle + s.cRec.gapCycles = s.curCycle + next.cRec.gapCycles ∧
      next.cRec.prevRespCycle + s.cRec.gapCycles =
        s.cRec.prevRespCycle + next.cRec.gapCycles := by
  obtain ⟨links, inv⟩ := inv
  by_cases halted : s.cRec.state = .halted
  · have empty := inv.halted halted
    subst empty
    have inv' := inv.nextPhase_halted 0
      (Nat.le_trans inv.unhalted (Nat.le_add_right _ _))
    simp only [nextPhase, Nat.add_zero, ← halted] at inv'
    exact ⟨_, by rw [TimingCore.cSimEnd, if_pos halted], ⟨_, inv'⟩, rfl, rfl⟩
  · obtain ⟨gapLe, prevLe, reached⟩ := inv.clock halted
    have origin := inv.origin halted
    simp only [TimingCore.simulated, weave, if_true] at reached origin
    have later : s.globPhaseCycles < s.nextPhaseCycle c := Nat.lt_add_of_pos_right c.phaseLength_pos
    obtain ⟨skew, before, resumes⟩ := origin.skewed inv.chain later drained
    dsimp only [CoreRecorder.report] at skew before
    have fine := And.intro (Nat.le_trans skew (Nat.le_trans before reached))
      (And.intro (Nat.le_trans before reached) skew)
    rw [TimingCore.cSimEnd, if_neg halted]
    dsimp only
    rw [if_pos fine]
    by_cases empty : links = []
    · subst empty
      have none_ : s.cRec.prevRespEvent = none := inv.prevResp
      have draining := ((inv.live rfl).resolve_left halted).1
      rw [if_pos none_, if_pos draining]
      exact ⟨_, rfl, ⟨[], inv.nextPhase_halted _ before⟩, by dsimp only; omega, by dsimp only; omega⟩
    · have some_ : s.cRec.prevRespEvent ≠ none := by
        obtain ⟨prev, isPrev, -⟩ := (inv.covered empty).prev
        simp [isPrev]
      rw [if_neg some_]
      exact ⟨_, rfl, ⟨links, inv.nextPhase_live weave halted empty (Nat.add_sub_of_le skew) before
        resumes⟩, by dsimp only; omega, by dsimp only; omega⟩

end TimingCore

end Zsim.Recorder
