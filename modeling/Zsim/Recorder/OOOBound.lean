import Zsim.Recorder.OOOIssue

/-!
# The bound phase of an out-of-order core

What the recorder keeps whatever its delays are, what it keeps of the chain of its issue events
as long as their delays fit, and that the operations of the bound phase keep both.
-/

set_option autoImplicit false

namespace Zsim.Recorder

/-- The report of the weave phase. -/
def OOOCoreRecorder.report (r : OOOCoreRecorder) : Report where
  gapCycles := r.gapCycles
  lastStart := r.lastEvSimulatedStartCycle
  lastOrig := r.lastEvSimulatedZllStartCycle

namespace OOOCore

/-- The cycle up to which events may have been simulated. -/
def simulated (c : PhaseConfig) (s : OOOCore) : Nat :=
  if s.inCSim then s.nextPhaseCycle c else s.globPhaseCycles

/-- What holds whatever the delays are. -/
structure Inv (c : PhaseConfig) (s : OOOCore) : Prop where
  issue : ∀ last, s.cRec.lastEvProduced = some last → IsIssue s.events last ∧
    last.zllStartCycle + s.cRec.gapCycles ≤ s.curCycle ∧
    ∀ fr ∈ s.cRec.futureResponses, last.zllStartCycle ≤ fr.zllStartCycle
  sorted : s.cRec.futureResponses.Pairwise FutureResponse.Before
  fresh : s.inCSim = false → ∀ fr ∈ s.cRec.futureResponses, ∀ ev ∈ fr.ev, Unstarted s.events ev
  halted : s.cRec.state = .halted → s.cRec.lastEvProduced = none ∧ s.cRec.futureResponses = []
  live : s.cRec.state ≠ .halted → s.inCSim = false → s.cRec.lastEvProduced ≠ none
  drained : s.cRec.state = .draining → s.inCSim = true → s.cRec.futureResponses = []
  clock : s.cRec.state ≠ .halted → s.simulated c ≤ s.curCycle
  gap_le : s.cRec.gapCycles ≤ s.globPhaseCycles
  lastStart_le : s.cRec.lastEvSimulatedStartCycle ≤ s.simulated c
  weave : s.cRec.state = .running → s.inCSim = true → s.atBarrier = true
  phaseEnd : s.cRec.state = .running →
    s.phaseEndCycle = s.nextPhaseCycle c + if s.atBarrier then c.phaseLength else 0
  barrier : s.atBarrier = true → s.cRec.state = .running ∧ s.nextPhaseCycle c < s.curCycle
  unhalted : s.cRec.lastUnhaltedCycle ≤ s.globPhaseCycles

/-- What holds of the issue events that have not been simulated. -/
structure Timely (c : PhaseConfig) (s : OOOCore) (links : List Link) : Prop where
  linked : Linked s.cRec s.events links
  origin : s.cRec.state ≠ .halted →
    Origin s.cRec.report s.events s.globPhaseCycles (s.simulated c) links
  /-- The last event of a running core does not start before the limit. -/
  tapered : s.cRec.state = .running → s.inCSim = true → ∀ last ∈ s.cRec.lastEvProduced,
    s.nextPhaseCycle c ≤ last.zllStartCycle + s.cRec.gapCycles
  survives : s.cRec.state = .running → s.inCSim = true → c.thDomains = 1 →
    s.cRec.lastEvProduced ≠ none

/-- What an operation leads to, and what it does if its delay fits. -/
structure Leads (c : PhaseConfig) (s : OOOCore) (fits : Prop) (result : Except Failure OOOCore) :
    Prop where
  inv : ∀ next, result = .ok next → Inv c next
  zeroLoad : result ≠ .error .zeroLoad
  timely : fits → ∀ links, Timely c s links →
    (∀ next, result = .ok next → ∃ links, Timely c next links) ∧
      ∀ failure, result = .error failure → failure = .notDraining ∧ c.thDomains ≠ 1

variable {c : PhaseConfig} {s : OOOCore}

theorem Leads.ok {fits : Prop} {next : OOOCore} (inv : Inv c next)
    (timely : fits → ∀ links, Timely c s links → ∃ links, Timely c next links) :
    Leads c s fits (.ok next) := by
  constructor
  · intro other same
    cases same
    exact inv
  · intro same
    cases same
  · intro isFit links isTimely
    constructor
    · intro other same
      cases same
      exact timely isFit links isTimely
    · intro failure same
      cases same

theorem Leads.error {fits : Prop} {failure : Failure} (noZeroLoad : failure ≠ .zeroLoad)
    (timely : fits → ∀ links, Timely c s links → failure = .notDraining ∧ c.thDomains ≠ 1) :
    Leads c s fits (.error failure) := by
  constructor
  · intro next same
    cases same
  · intro same
    cases same
    exact noZeroLoad rfl
  · intro isFit links isTimely
    constructor
    · intro next same
      cases same
    · intro other same
      cases same
      exact timely isFit links isTimely

theorem Inv.init (c : PhaseConfig) : Inv c init where
  issue last isLast := by cases isLast
  sorted := List.Pairwise.nil
  fresh _ fr member := by cases member
  halted _ := ⟨rfl, rfl⟩
  live notHalted := absurd rfl notHalted
  drained draining := by cases draining
  clock notHalted := absurd rfl notHalted
  gap_le := Nat.le_refl _
  lastStart_le := Nat.zero_le _
  weave running := by cases running
  phaseEnd running := by cases running
  barrier atBarrier := by cases atBarrier
  unhalted := Nat.le_refl _

theorem Timely.init (c : PhaseConfig) : Timely c init [] where
  linked := ⟨Chain.nil 0, rfl⟩
  origin notHalted := absurd rfl notHalted
  tapered running := by cases running
  survives running := by cases running

theorem Inv.free (inv : Inv c s) (notRunning : s.cRec.state ≠ .running) : s.atBarrier = false := by
  cases at_ : s.atBarrier with
  | false => rfl
  | true => exact absurd (inv.barrier at_).1 notRunning

theorem simulated_bound (bound : s.inCSim = false) : s.simulated c = s.globPhaseCycles := by
  simp [simulated, bound]

theorem simulated_weave (weave : s.inCSim = true) : s.simulated c = s.nextPhaseCycle c := by
  simp [simulated, weave]

/-! ## Issue events -/

theorem Inv.produces (inv : Inv c s) (bound : s.inCSim = false) {last : IssueEvent}
    (isLast : s.cRec.lastEvProduced = some last) {cycle : Nat}
    (le : last.zllStartCycle + s.cRec.gapCycles ≤ cycle) :
    Produces s.cRec s.events cycle last := by
  obtain ⟨isIssue, -, ahead⟩ := inv.issue last isLast
  exact ⟨isLast, isIssue, le, inv.sorted, ahead, inv.fresh bound⟩

theorem Inv.exists_last (inv : Inv c s) (notHalted : s.cRec.state ≠ .halted)
    (bound : s.inCSim = false) : ∃ last, Produces s.cRec s.events s.curCycle last := by
  obtain ⟨last, isLast⟩ := Option.ne_none_iff_exists'.mp (inv.live notHalted bound)
  exact ⟨last, inv.produces bound isLast (inv.issue last isLast).2.1⟩

theorem Inv.produce (inv : Inv c s) (notHalted : s.cRec.state ≠ .halted)
    (notDrained : s.cRec.state = .draining → s.inCSim = false)
    {events : List TimingEvent} {last : IssueEvent} {responses : List FutureResponse}
    (produces : Produces (s.produce events last responses).cRec events s.curCycle last) :
    Inv c (s.produce events last responses) := by
  refine ⟨?_, produces.sorted, fun _ => produces.fresh, fun halted => absurd halted notHalted, ?_,
    ?_, inv.clock, inv.gap_le, inv.lastStart_le, inv.weave, inv.phaseEnd, inv.barrier, inv.unhalted⟩
  · intro last' isLast
    cases Option.some.inj isLast
    exact ⟨produces.issue, produces.zll_le, produces.ahead⟩
  · intro _ _ isNone
    cases isNone
  · intro draining weave
    cases (notDrained draining).symm.trans weave

theorem Timely.produce {links moreLinks : List Link} (timely : Timely c s links)
    (notHalted : s.cRec.state ≠ .halted) (bound : s.inCSim = false) {last last' : IssueEvent}
    (isLast : s.cRec.lastEvProduced = some last) {more : List TimingEvent}
    {responses : List FutureResponse}
    (linked : Linked (s.produce (s.events ++ more) last' responses).cRec (s.events ++ more)
      (links ++ moreLinks)) :
    Timely c (s.produce (s.events ++ more) last' responses) (links ++ moreLinks) := by
  have nonempty := timely.linked.ne_nil isLast
  refine ⟨linked, ?_, ?_, ?_⟩
  · intro _
    exact (timely.origin notHalted).extend nonempty (Kept.append _ _) moreLinks
  · intro _ weave
    cases bound.symm.trans weave
  · intro _ weave
    cases bound.symm.trans weave

theorem Inv.addIssueEvent (inv : Inv c s) (notHalted : s.cRec.state ≠ .halted)
    (bound : s.inCSim = false) :
    ∃ events last responses,
      s.addIssueEvent s.curCycle = .ok (s.produce events last responses) ∧
        Inv c (s.produce events last responses) ∧
        ((∀ last ∈ s.cRec.lastEvProduced,
          s.curCycle - s.cRec.gapCycles - last.zllStartCycle < 2 ^ 32) →
          ∀ links, Timely c s links → ∃ links, Timely c (s.produce events last responses) links) := by
  obtain ⟨last, produces⟩ := inv.exists_last notHalted bound
  obtain ⟨more, last', responses, -, -, -, -, -, issued, produces', linked⟩ :=
    produces.addIssueEvent (Nat.le_refl s.curCycle)
  refine ⟨_, last', responses, issued, inv.produce notHalted (fun _ => bound) produces', ?_⟩
  intro fits links timely
  obtain ⟨moreLinks, linked⟩ := linked links timely.linked (fits last produces.isLast)
  exact ⟨_, timely.produce notHalted bound produces.isLast linked⟩

/-! ## Joins and leaves -/

theorem Inv.join_halted (inv : Inv c s) (bound : s.inCSim = false)
    (state : s.cRec.state = .halted) {fits : Prop} : Leads c s fits (s.join c) := by
  obtain ⟨noLast, noResponses⟩ := inv.halted state
  have free := inv.free (by simp [state])
  have simulated : s.simulated c = s.globPhaseCycles := simulated_bound bound
  let root : TimingEvent :=
    ⟨.core s.globPhaseCycles s.globPhaseCycles, .queued s.globPhaseCycles, 0, 0, none⟩
  have new : (s.events ++ [root])[s.events.length]? = some root := List.getElem?_concat_length
  let next : OOOCore :=
    { s with
      curCycle := max s.curCycle s.globPhaseCycles
      phaseEndCycle := s.nextPhaseCycle c
      cRec :=
        { s.cRec with
          state := .running
          totalGapCycles := s.cRec.totalGapCycles + s.cRec.gapCycles
          gapCycles := 0
          totalHaltedCycles :=
            s.cRec.totalHaltedCycles + (s.globPhaseCycles - s.cRec.lastUnhaltedCycle)
          lastEvProduced := some ⟨s.events.length, s.globPhaseCycles⟩
          startSlack := 0 }
      events := s.events ++ [root] }
  have step : s.join c = .ok next := by
    simp only [join, notifyJoin, state]
    rw [if_pos ⟨noLast, inv.unhalted⟩]
    rfl
  rw [step]
  apply Leads.ok
  · refine ⟨?_, inv.sorted, ?_, ?_, ?_, ?_, ?_, Nat.zero_le _, inv.lastStart_le, ?_, ?_, ?_,
      inv.unhalted⟩
    · intro last isLast
      cases Option.some.inj isLast
      refine ⟨⟨root, _, new, rfl, rfl⟩, Nat.le_max_right _ _, ?_⟩
      dsimp only [next]
      simp [noResponses]
    · dsimp only [next]
      simp [noResponses]
    · intro halted
      cases halted
    · intro _ _ isNone
      cases isNone
    · intro draining
      cases draining
    · intro _
      exact simulated.le.trans (Nat.le_max_right _ _)
    · intro _ weave
      cases bound.symm.trans weave
    · intro _
      simp [next, nextPhaseCycle, free]
    · intro atBarrier
      cases free.symm.trans atBarrier
  · intro _ links timely
    have empty : links = [] := by
      have isLast := timely.linked.isLast
      rw [noLast] at isLast
      simpa using isLast.symm
    subst empty
    have chain := timely.linked.chain.root s.globPhaseCycles root rfl rfl
    refine ⟨[⟨s.events.length, s.globPhaseCycles⟩], ⟨chain, rfl⟩, ?_, ?_, ?_⟩
    · intro _
      exact .inl ⟨rfl, _, rfl, rfl, root, _, new, rfl, rfl⟩
    · intro _ weave
      cases bound.symm.trans weave
    · intro _ weave
      cases bound.symm.trans weave

theorem Inv.resume (inv : Inv c s) (state : s.cRec.state = .draining) (bound : s.inCSim = false) :
    Inv c
      { s with
        cRec := { s.cRec with state := .running }
        phaseEndCycle := s.nextPhaseCycle c } := by
  have notHalted : s.cRec.state ≠ .halted := by simp [state]
  have free := inv.free (by simp [state])
  refine ⟨inv.issue, inv.sorted, inv.fresh, ?_, fun _ => inv.live notHalted, ?_,
    fun _ => inv.clock notHalted, inv.gap_le, inv.lastStart_le, ?_, ?_, ?_, inv.unhalted⟩
  · intro halted
    cases halted
  · intro draining
    cases draining
  · intro _ weave
    cases bound.symm.trans weave
  · intro _
    simp [nextPhaseCycle, free]
  · intro atBarrier
    cases free.symm.trans atBarrier

theorem Inv.drain (inv : Inv c s) (state : s.cRec.state = .running) (bound : s.inCSim = false) :
    Inv c { s with atBarrier := false, cRec := { s.cRec with state := .draining } } := by
  have notHalted : s.cRec.state ≠ .halted := by simp [state]
  refine ⟨inv.issue, inv.sorted, inv.fresh, ?_, fun _ => inv.live notHalted, ?_,
    fun _ => inv.clock notHalted, inv.gap_le, inv.lastStart_le, ?_, ?_, ?_, inv.unhalted⟩
  · intro halted
    cases halted
  · intro _ weave
    cases bound.symm.trans weave
  · intro running
    cases running
  · intro running
    cases running
  · intro atBarrier
    cases atBarrier

theorem Timely.bound {links : List Link} (timely : Timely c s links)
    (notHalted : s.cRec.state ≠ .halted) (bound : s.inCSim = false) (state : State)
    (phaseEndCycle : Nat) (atBarrier : Bool) :
    Timely c
      { s with
        cRec := { s.cRec with state := state }
        phaseEndCycle := phaseEndCycle
        atBarrier := atBarrier }
      links := by
  refine ⟨⟨timely.linked.chain, timely.linked.isLast⟩, fun _ => timely.origin notHalted, ?_, ?_⟩
  · intro _ weave
    cases bound.symm.trans weave
  · intro _ weave
    cases bound.symm.trans weave

theorem Inv.join_draining (inv : Inv c s) (bound : s.inCSim = false)
    (state : s.cRec.state = .draining) : Leads c s (DelayFits c s .join) (s.join c) := by
  have notHalted : s.cRec.state ≠ .halted := by simp [state]
  have reached : s.globPhaseCycles ≤ s.curCycle := (simulated_bound bound).ge.trans
    (inv.clock notHalted)
  obtain ⟨events, last, responses, issued, inv', timely'⟩ := inv.addIssueEvent notHalted bound
  have step : s.join c = .ok
      { s.produce events last responses with
        cRec := { (s.produce events last responses).cRec with state := .running }
        phaseEndCycle := s.nextPhaseCycle c } := by
    simp only [join, notifyJoin, state]
    rw [if_pos ⟨reached, inv.live notHalted bound⟩, issued]
    rfl
  rw [step]
  apply Leads.ok (inv'.resume state bound)
  intro fits links timely
  obtain ⟨links, timely⟩ := timely' (fits s.curCycle (by simp [issueCycle, state])) links timely
  exact ⟨links, timely.bound notHalted bound .running _ s.atBarrier⟩

theorem Inv.leave (inv : Inv c s) (bound : s.inCSim = false) (state : s.cRec.state = .running) :
    Leads c s (DelayFits c s .leave) s.leave := by
  have notHalted : s.cRec.state ≠ .halted := by simp [state]
  obtain ⟨last, isLast⟩ := Option.ne_none_iff_exists'.mp (inv.live notHalted bound)
  obtain ⟨-, zllLe, -⟩ := inv.issue last isLast
  obtain ⟨events, last', responses, issued, inv', timely'⟩ :=
    (inv.drain state bound).addIssueEvent (by simp) bound
  have step : s.leave = .ok
      (OOOCore.produce { s with atBarrier := false, cRec := { s.cRec with state := .draining } }
        events last' responses) := by
    rw [OOOCore.leave, state, isLast]
    dsimp only
    rw [if_pos (Nat.le_sub_of_add_le zllLe)]
    exact issued
  rw [step]
  apply Leads.ok inv'
  intro fits links timely
  exact timely' (fits s.curCycle rfl) links (timely.bound notHalted bound .draining _ false)

/-! ## Execution -/

theorem Inv.advance (inv : Inv c s) (executes : s.Executes) (cycles : Nat) {fits : Prop} :
    Leads c s fits (.ok { s with curCycle := s.curCycle + cycles }) := by
  obtain ⟨-, -, free⟩ := executes
  apply Leads.ok
  · refine ⟨?_, inv.sorted, inv.fresh, inv.halted, inv.live, inv.drained, ?_, inv.gap_le,
      inv.lastStart_le, inv.weave, inv.phaseEnd, ?_, inv.unhalted⟩
    · intro last isLast
      obtain ⟨isIssue, zllLe, ahead⟩ := inv.issue last isLast
      exact ⟨isIssue, Nat.le_add_right_of_le zllLe, ahead⟩
    · intro notHalted
      exact Nat.le_add_right_of_le (inv.clock notHalted)
    · intro atBarrier
      cases free.symm.trans atBarrier
  · intro _ links timely
    exact ⟨links, timely.linked, timely.origin, timely.tapered, timely.survives⟩

theorem Inv.takeBarrier (inv : Inv c s) (executes : s.Executes)
    (late : s.phaseEndCycle < s.curCycle) {fits : Prop} :
    Leads c s fits
      (.ok { s with atBarrier := true, phaseEndCycle := s.phaseEndCycle + c.phaseLength }) := by
  obtain ⟨bound, running, free⟩ := executes
  have phaseEnd := inv.phaseEnd running
  simp only [free, Bool.false_eq_true, if_false, Nat.add_zero] at phaseEnd
  apply Leads.ok
  · refine ⟨inv.issue, inv.sorted, inv.fresh, inv.halted, inv.live, inv.drained, inv.clock,
      inv.gap_le, inv.lastStart_le, fun _ _ => rfl, ?_, ?_, inv.unhalted⟩
    · intro _
      simp only [phaseEnd, if_true]
      rfl
    · intro _
      exact ⟨running, phaseEnd ▸ late⟩
  · intro _ links timely
    have notHalted : s.cRec.state ≠ .halted := by simp [running]
    exact ⟨links, timely.bound notHalted bound s.cRec.state _ true⟩

theorem Inv.access (inv : Inv c s) (executes : s.Executes) {tr : TimingRecord}
    {dispatchCycle respCycle : Nat} (resp : tr.respCycle ≤ respCycle)
    (later : s.curCycle ≤ respCycle) :
    Leads c s (DelayFits c s (.access tr dispatchCycle respCycle))
      (s.recordAccess tr dispatchCycle respCycle) := by
  obtain ⟨bound, running, -⟩ := executes
  have notHalted : s.cRec.state ≠ .halted := by simp [running]
  obtain ⟨last, produces⟩ := inv.exists_last notHalted bound
  cases type : tr.type with
  | get =>
      obtain ⟨more, last', responses, step, produces', linked⟩ :=
        produces.recordGet dispatchCycle resp later
      rw [recordAccess, type]
      dsimp only
      rw [step]
      apply Leads.ok (inv.produce notHalted (fun _ => bound) produces')
      intro fits links timely
      obtain ⟨moreLinks, linked⟩ := linked links timely.linked
        (fits s.curCycle (by simp [issueCycle, type]) last produces.isLast)
      exact ⟨_, timely.produce notHalted bound produces.isLast linked⟩
  | put =>
      obtain ⟨more, step, produces', linked⟩ := produces.recordPut tr
      have same : { s with events := s.events ++ more } =
          s.produce (s.events ++ more) last s.cRec.futureResponses := by
        rw [OOOCore.produce, ← produces.isLast]
      have sameRec : s.cRec = (s.produce (s.events ++ more) last s.cRec.futureResponses).cRec := by
        rw [← same]
      rw [recordAccess, type]
      dsimp only
      rw [step, same]
      rw [sameRec] at produces'
      apply Leads.ok (inv.produce notHalted (fun _ => bound) produces')
      intro _ links timely
      have linked := linked links timely.linked
      rw [sameRec, ← List.append_nil links] at linked
      exact ⟨_, timely.produce notHalted bound produces.isLast linked⟩

end OOOCore

end Zsim.Recorder
