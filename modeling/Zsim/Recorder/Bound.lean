import Zsim.Recorder.Chain
import Zsim.Recorder.Core

/-!
# The bound phase of a timing core

What the recorder keeps from one operation to the next, and that the operations of the bound
phase, which add events to the end of the chain, keep it.
-/

set_option autoImplicit false

namespace Zsim.Recorder

/-! ## The end of the chain -/

/-- A recorder that has events, and may add to them. -/
structure Recording (r : CoreRecorder) (events : List TimingEvent) (links : List Link) : Prop where
  chain : Chain events r.gapCycles links
  prevResp : r.prevRespEvent = links.getLast?.map Link.ev
  covered : ∃ last event, links.getLast? = some last ∧ events[last.ev]? = some event ∧
    r.prevRespCycle ≤ last.zllCycle + event.postDelay + r.gapCycles
  gap_le : r.gapCycles ≤ r.prevRespCycle

def EndsInCore (events : List TimingEvent) (links : List Link) : Prop :=
  ∀ last ∈ links.getLast?, ∃ event reported, events[last.ev]? = some event ∧
    event.kind.reports = some reported

/-- Events may be added to `prevRespEvent`. -/
theorem Recording.prev {r : CoreRecorder} {events : List TimingEvent} {links : List Link}
    (recording : Recording r events links) :
    ∃ prev, r.prevRespEvent = some prev ∧ Unstarted events prev := by
  obtain ⟨last, event, isLast, -⟩ := recording.covered
  exact ⟨last.ev, by rw [recording.prevResp, isLast]; rfl,
    recording.chain.unstarted (List.mem_of_getLast? isLast)⟩

theorem Recording.ne_nil {r : CoreRecorder} {events : List TimingEvent} {links : List Link}
    (recording : Recording r events links) : links ≠ [] := by
  obtain ⟨last, event, isLast, -⟩ := recording.covered
  intro empty
  subst empty
  cases isLast

/-- An event whose parent is `prevRespEvent`. -/
theorem Recording.link {r : CoreRecorder} {events : List TimingEvent} {links : List Link}
    (recording : Recording r events links) (kind : EventKind) (preDelay postDelay zllCycle cycle : Nat)
    (zll : zllCycle + r.gapCycles ≤ r.prevRespCycle + preDelay)
    (known : ∀ orig minStart, kind.reports = some (orig, minStart) →
      orig = zllCycle ∧ minStart ≤ zllCycle + r.gapCycles)
    (covers : cycle ≤ zllCycle + postDelay + r.gapCycles) (gap : r.gapCycles ≤ cycle) :
    ∃ prev, r.prevRespEvent = some prev ∧
      addChild events [prev] kind preDelay postDelay =
        some (events ++ [⟨kind, .after [prev], preDelay, postDelay, none⟩], events.length) ∧
      Recording { r with prevRespEvent := some events.length, prevRespCycle := cycle }
        (events ++ [⟨kind, .after [prev], preDelay, postDelay, none⟩])
        (links ++ [⟨events.length, zllCycle⟩]) := by
  obtain ⟨last, before, isLast, at_, covered⟩ := recording.covered
  have prev : r.prevRespEvent = some last.ev := by rw [recording.prevResp, isLast]; rfl
  have unstarted := recording.chain.unstarted (List.mem_of_getLast? isLast)
  refine ⟨last.ev, prev, ?_, ?_, by simp, ?_, gap⟩
  · exact addChild_eq (by simp [unstarted]) kind preDelay postDelay
  · exact recording.chain.link isLast at_ rfl (List.mem_singleton_self _) rfl
      (by dsimp only; omega) known
  · refine ⟨⟨events.length, zllCycle⟩, _, by simp, List.getElem?_concat_length, ?_⟩
    exact covers

/-- The core with other events and another end of its chain. -/
def TimingCore.grow (s : TimingCore) (events : List TimingEvent) (prev cycle : Nat) : TimingCore :=
  { s with
    events := events
    cRec := { s.cRec with prevRespEvent := some prev, prevRespCycle := cycle } }

/-- An event of the core that covers the time from `prevRespCycle` to `cycle`. -/
theorem Recording.addCoreEvent {s : TimingCore} {links : List Link}
    (recording : Recording s.cRec s.events links) (delay cycle : Nat) (fits : delay < 2 ^ 32)
    (le : cycle ≤ s.cRec.prevRespCycle + delay) (gap : s.cRec.gapCycles ≤ cycle) :
    ∃ event, s.addCoreEvent delay =
        some (s.grow (s.events ++ [event]) s.events.length s.cRec.prevRespCycle) ∧
      Recording (s.grow (s.events ++ [event]) s.events.length cycle).cRec (s.events ++ [event])
        (links ++ [⟨s.events.length, s.cRec.prevRespCycle - s.cRec.gapCycles⟩]) ∧
      ∃ reported, event.kind.reports = some reported := by
  have gapLe := recording.gap_le
  have zll : s.cRec.prevRespCycle - s.cRec.gapCycles + s.cRec.gapCycles = s.cRec.prevRespCycle :=
    Nat.sub_add_cancel gapLe
  obtain ⟨prev, isPrev, added, recording⟩ := recording.link
    (.core (s.cRec.prevRespCycle - s.cRec.gapCycles) s.cRec.prevRespCycle) 0 (u32 delay)
    (s.cRec.prevRespCycle - s.cRec.gapCycles) cycle (by omega)
    (by
      intro orig minStart same
      cases same
      exact ⟨rfl, by omega⟩)
    (by rw [u32_of_lt fits]; omega) gap
  refine ⟨_, ?_, recording, _, rfl⟩
  simp [TimingCore.addCoreEvent, TimingCore.grow, isPrev, added]

theorem endsInCore_append {events : List TimingEvent} {links : List Link} {event : TimingEvent}
    (core : ∃ reported, event.kind.reports = some reported) (zllCycle : Nat) :
    EndsInCore (events ++ [event]) (links ++ [⟨events.length, zllCycle⟩]) := by
  obtain ⟨reported, reports⟩ := core
  intro last isLast
  rw [List.getLast?_concat] at isLast
  cases Option.some.inj isLast
  exact ⟨event, reported, List.getElem?_concat_length, reports⟩

/-- The report of the weave phase. -/
def CoreRecorder.report (r : CoreRecorder) : Report where
  gapCycles := r.gapCycles
  lastStart := r.lastEventSimulatedStartCycle
  lastOrig := r.lastEventSimulatedOrigStartCycle

namespace TimingCore

/-- The cycle up to which events may have been simulated. -/
def simulated (c : PhaseConfig) (s : TimingCore) : Nat :=
  if s.inCSim then s.nextPhaseCycle c else s.globPhaseCycles

structure InvWith (c : PhaseConfig) (s : TimingCore) (links : List Link) : Prop where
  chain : Chain s.events s.cRec.gapCycles links
  prevResp : s.cRec.prevRespEvent = links.getLast?.map Link.ev
  halted : s.cRec.state = .halted → links = []
  live : links = [] → s.cRec.state = .halted ∨ s.cRec.state = .draining ∧ s.inCSim = true
  covered : links ≠ [] → Recording s.cRec s.events links
  origin : s.cRec.state ≠ .halted →
    Origin s.cRec.report s.events s.globPhaseCycles (s.simulated c) links
  clock : s.cRec.state ≠ .halted → s.cRec.gapCycles ≤ s.cRec.prevRespCycle ∧
    s.cRec.prevRespCycle ≤ s.curCycle ∧ s.simulated c ≤ s.curCycle
  endsInCore : s.cRec.state = .draining ∨ s.inCSim = true → EndsInCore s.events links
  /-- The last event of a running core starts behind the limit. -/
  tapered : s.cRec.state = .running → s.inCSim = true → s.atBarrier = true ∧
    ∀ last ∈ links.getLast?, s.nextPhaseCycle c < last.zllCycle + s.cRec.gapCycles
  phaseEnd : s.cRec.state = .running →
    s.phaseEndCycle = s.nextPhaseCycle c + if s.atBarrier then c.phaseLength else 0
  barrier : s.atBarrier = true → s.cRec.state = .running ∧ s.nextPhaseCycle c < s.curCycle
  unhalted : s.cRec.lastUnhaltedCycle ≤ s.globPhaseCycles

def Inv (c : PhaseConfig) (s : TimingCore) : Prop := ∃ links, InvWith c s links

theorem Inv.init (c : PhaseConfig) (prevRespCycle lastStartCycle lastOrigStartCycle : Nat) :
    Inv c (init prevRespCycle lastStartCycle lastOrigStartCycle) := by
  refine ⟨[], Chain.nil 0, rfl, fun _ => rfl, fun _ => .inl rfl, ?_, ?_, ?_, ?_, ?_, ?_, ?_,
    Nat.zero_le _⟩
  · exact fun nonempty => absurd rfl nonempty
  · exact fun notHalted => absurd rfl notHalted
  · exact fun notHalted => absurd rfl notHalted
  · intro _ last isLast
    cases isLast
  · intro running
    cases running
  · intro running
    cases running
  · intro atBarrier
    cases atBarrier

/-! ## The bound phase -/

variable {c : PhaseConfig} {s : TimingCore}

theorem InvWith.free {links : List Link} (inv : InvWith c s links)
    (notRunning : s.cRec.state ≠ .running) : s.atBarrier = false := by
  cases at_ : s.atBarrier with
  | false => rfl
  | true => exact absurd (inv.barrier at_).1 notRunning

theorem simulated_bound (bound : s.inCSim = false) : s.simulated c = s.globPhaseCycles := by
  simp [simulated, bound]

theorem InvWith.join_halted (inv : InvWith c s []) (bound : s.inCSim = false)
    (state : s.cRec.state = .halted) : ∃ next, s.join c = some next ∧ Inv c next := by
  have none_ : s.cRec.prevRespEvent = none := inv.prevResp
  have free := inv.free (by simp [state])
  have simulated : s.simulated c = s.globPhaseCycles := simulated_bound bound
  refine ⟨?next, ?step, [⟨s.events.length, s.globPhaseCycles⟩], ?_⟩
  case step =>
    simp only [TimingCore.join, notifyJoin, state]
    rw [if_pos ⟨none_, inv.unhalted⟩]
    rfl
  have chain := inv.chain.root s.globPhaseCycles
    ⟨.core s.globPhaseCycles s.globPhaseCycles, .queued s.globPhaseCycles, 0, 0, none⟩
    rfl rfl
  have new : ∀ event : TimingEvent, (s.events ++ [event])[s.events.length]? = some event :=
    fun event => List.getElem?_concat_length
  refine ⟨chain, rfl, ?_, ?_, ?_, ?_, ?_, ?_, ?_, ?_, ?_, inv.unhalted⟩
  · intro halted
    cases halted
  · intro empty
    cases empty
  · intro _
    exact ⟨chain, rfl, ⟨_, _, rfl, new _, by simp⟩, Nat.zero_le _⟩
  · intro _
    exact .inl ⟨rfl, _, rfl, rfl, _, _, new _, rfl, rfl⟩
  · intro _
    exact ⟨Nat.zero_le _, Nat.le_refl _, simulated.le⟩
  · rintro (draining | weave)
    · cases draining
    · rw [bound] at weave
      cases weave
  · intro _ weave
    rw [bound] at weave
    cases weave
  · intro _
    simp [nextPhaseCycle, free]
  · intro atBarrier
    rw [free] at atBarrier
    cases atBarrier

theorem InvWith.join_draining {links : List Link} (inv : InvWith c s links)
    (bound : s.inCSim = false) (state : s.cRec.state = .draining) :
    ∃ next, s.join c = some next ∧ Inv c next := by
  have free := inv.free (by simp [state])
  have notHalted : s.cRec.state ≠ .halted := by simp [state]
  have clock := inv.clock notHalted
  have reached : s.globPhaseCycles ≤ s.curCycle := simulated_bound (c := c) bound ▸ clock.2.2
  refine ⟨?next, ?step, links, ?_⟩
  case step =>
    simp only [TimingCore.join, notifyJoin, state]
    rw [if_pos reached]
    rfl
  refine ⟨inv.chain, inv.prevResp, ?_, ?_, ?_, fun _ => inv.origin notHalted, fun _ => clock,
    fun _ => inv.endsInCore (.inl state), ?_, ?_, ?_, inv.unhalted⟩
  · intro halted
    cases halted
  · intro empty
    rcases inv.live empty with halted | weave
    · exact absurd halted notHalted
    · rw [bound] at weave
      cases weave.2
  · intro nonempty
    have recording := inv.covered nonempty
    exact ⟨recording.chain, recording.prevResp, recording.covered, recording.gap_le⟩
  · intro _ weave
    rw [bound] at weave
    cases weave
  · intro _
    simp [nextPhaseCycle, free]
  · intro atBarrier
    rw [free] at atBarrier
    cases atBarrier

theorem Inv.join (inv : Inv c s) (bound : s.inCSim = false) (notRunning : s.cRec.state ≠ .running) :
    ∃ next, s.join c = some next ∧ Inv c next := by
  obtain ⟨links, inv⟩ := inv
  cases state : s.cRec.state with
  | running => exact absurd state notRunning
  | halted =>
      cases inv.halted state
      exact inv.join_halted bound state
  | draining => exact inv.join_draining bound state

theorem InvWith.recording {links : List Link} (inv : InvWith c s links)
    (notHalted : s.cRec.state ≠ .halted) (ready : s.inCSim = false ∨ s.cRec.state = .running) :
    Recording s.cRec s.events links := by
  apply inv.covered
  intro empty
  rcases inv.live empty with halted | ⟨draining, weave⟩
  · exact notHalted halted
  · rcases ready with bound | running
    · rw [bound] at weave
      cases weave
    · rw [running] at draining
      cases draining

/-- The state of a core that leaves, before it records anything. -/
def left (s : TimingCore) : TimingCore :=
  { s with atBarrier := false, cRec := { s.cRec with state := .draining } }

theorem Inv.leave (inv : Inv c s) (bound : s.inCSim = false) (running : s.cRec.state = .running)
    (fits : s.curCycle - s.cRec.prevRespCycle < 2 ^ 32) :
    ∃ next, s.leave = some next ∧ Inv c next := by
  obtain ⟨links, inv⟩ := inv
  have notHalted : s.cRec.state ≠ .halted := by simp [running]
  obtain ⟨gapLe, prevLe, reached⟩ := inv.clock notHalted
  have recording := inv.recording notHalted (.inl bound)
  have nonempty := recording.ne_nil
  have some_ : s.cRec.prevRespEvent ≠ none := by
    obtain ⟨prev, isPrev, -⟩ := recording.prev
    simp [isPrev]
  have leaving : Recording s.left.cRec s.left.events links :=
    ⟨recording.chain, recording.prevResp, recording.covered, recording.gap_le⟩
  obtain ⟨first, added, recording, -⟩ := leaving.addCoreEvent _ s.curCycle fits
    (by dsimp only [left]; omega) (Nat.le_trans gapLe prevLe)
  obtain ⟨second, finished, recording, core⟩ := Recording.addCoreEvent
    (s := s.left.grow _ _ s.curCycle) recording 0 s.curCycle (by omega)
    (Nat.le_refl _) (Nat.le_trans gapLe prevLe)
  have grown : s.leave = (s.left.grow (s.events ++ [first]) s.events.length s.curCycle).addCoreEvent
      0 := by
    rw [TimingCore.leave, if_pos ⟨running, some_⟩]
    exact congrArg (Option.bind · _) added
  refine ⟨_, grown.trans finished, _, recording.chain, recording.prevResp, ?_, ?_,
    fun _ => recording, ?_, ?_, ?_, ?_, ?_, ?_, inv.unhalted⟩
  · intro halted
    cases halted
  · intro empty
    exact absurd empty recording.ne_nil
  · intro _
    have origin := (inv.origin notHalted).extend nonempty (Kept.append s.events [first])
    exact (origin _).extend (by simp) (Kept.append _ [second]) _
  · exact fun _ => ⟨Nat.le_trans gapLe prevLe, Nat.le_refl _, reached⟩
  · exact fun _ => endsInCore_append core _
  · intro running
    cases running
  · intro running
    cases running
  · intro atBarrier
    cases atBarrier

theorem InvWith.executing {links : List Link} (executes : s.Executes)
    (recording : Recording s.cRec s.events links)
    (origin : Origin s.cRec.report s.events s.globPhaseCycles s.globPhaseCycles links)
    (prevLe : s.cRec.prevRespCycle ≤ s.curCycle) (reached : s.globPhaseCycles ≤ s.curCycle)
    (phaseEnd : s.phaseEndCycle = s.nextPhaseCycle c)
    (unhalted : s.cRec.lastUnhaltedCycle ≤ s.globPhaseCycles) : InvWith c s links := by
  obtain ⟨bound, running, free⟩ := executes
  have simulated : s.simulated c = s.globPhaseCycles := simulated_bound bound
  have notWeave : s.inCSim ≠ true := by simp [bound]
  refine ⟨recording.chain, recording.prevResp, ?_, ?_, fun _ => recording, ?_, ?_, ?_, ?_, ?_, ?_,
    unhalted⟩
  · intro halted
    rw [running] at halted
    cases halted
  · intro empty
    exact absurd empty recording.ne_nil
  · intro _
    rw [simulated]
    exact origin
  · intro _
    exact ⟨recording.gap_le, prevLe, simulated.trans_le reached⟩
  · rintro (draining | weave)
    · rw [running] at draining
      cases draining
    · exact absurd weave notWeave
  · intro _ weave
    exact absurd weave notWeave
  · intro _
    simp [phaseEnd, free]
  · intro atBarrier
    rw [free] at atBarrier
    cases atBarrier

theorem Inv.advance (inv : Inv c s) (executes : s.Executes) (cycles : Nat) :
    Inv c { s with curCycle := s.curCycle + cycles } := by
  obtain ⟨links, inv⟩ := inv
  obtain ⟨bound, running, free⟩ := executes
  have notHalted : s.cRec.state ≠ .halted := by simp [running]
  obtain ⟨-, prevLe, reached⟩ := inv.clock notHalted
  have origin := inv.origin notHalted
  have phaseEnd := inv.phaseEnd running
  rw [simulated_bound bound] at reached origin
  rw [free] at phaseEnd
  exact ⟨links, InvWith.executing ⟨bound, running, free⟩ (inv.recording notHalted (.inl bound)) origin
    (Nat.le_trans prevLe (Nat.le_add_right _ _)) (Nat.le_trans reached (Nat.le_add_right _ _))
    phaseEnd inv.unhalted⟩

theorem Inv.access (inv : Inv c s) (executes : s.Executes) {tr : TimingRecord} {curCycle : Nat}
    (req : s.curCycle ≤ tr.reqCycle) (resp : tr.reqCycle ≤ tr.respCycle)
    (returned : tr.respCycle ≤ curCycle) (latency : tr.respCycle ≤ tr.reqCycle + tr.latency)
    (fits : tr.type = .get → tr.reqCycle - s.cRec.prevRespCycle < 2 ^ 32) :
    ∃ next, s.access tr curCycle = some next ∧ Inv c next := by
  obtain ⟨links, inv⟩ := inv
  obtain ⟨bound, running, free⟩ := executes
  have notHalted : s.cRec.state ≠ .halted := by simp [running]
  obtain ⟨gapLe, prevLe, reached⟩ := inv.clock notHalted
  have origin := inv.origin notHalted
  have phaseEnd := inv.phaseEnd running
  rw [simulated_bound bound] at reached origin
  rw [free] at phaseEnd
  have recording := inv.recording notHalted (.inl bound)
  have nonempty := recording.ne_nil
  have respLe : s.curCycle ≤ curCycle := Nat.le_trans req (Nat.le_trans resp returned)
  cases type : tr.type with
  | get =>
      obtain ⟨first, added, recording, -⟩ := Recording.addCoreEvent
        (s := { s with curCycle := curCycle }) recording _ tr.reqCycle (fits type)
        (by dsimp only; omega) (by dsimp only; omega)
      obtain ⟨prev, isPrev, linked, recording⟩ := recording.link
        .record tr.latency 0 (tr.respCycle - s.cRec.gapCycles) tr.respCycle
        (by dsimp only [grow]; omega) (by intro _ _ same; cases same)
        (by dsimp only [grow]; omega) (by dsimp only [grow]; omega)
      cases Option.some.inj isPrev
      have origin := (origin.extend nonempty (Kept.append s.events [first])
        [⟨s.events.length, s.cRec.prevRespCycle - s.cRec.gapCycles⟩]).extend (by simp)
        (Kept.append _ [⟨.record, .after [s.events.length], tr.latency, 0, none⟩])
        [⟨(s.events ++ [first]).length, tr.respCycle - s.cRec.gapCycles⟩]
      have next : s.access tr curCycle = some (TimingCore.grow { s with curCycle := curCycle }
          (s.events ++ [first] ++ [⟨.record, .after [s.events.length], tr.latency, 0, none⟩])
          (s.events ++ [first]).length tr.respCycle) := by
        simp only at linked
        simp [TimingCore.access, recordAccess, prevLe, req, type, added, linked, grow]
      exact ⟨_, next, _, .executing ⟨bound, running, free⟩ recording origin returned
        (Nat.le_trans reached respLe) phaseEnd inv.unhalted⟩
  | put =>
      obtain ⟨prev, isPrev, unstarted⟩ := recording.prev
      obtain ⟨last, before, isLast, there, covered⟩ := recording.covered
      let dr : TimingEvent :=
        ⟨.delay, .after [prev], u32 (tr.reqCycle - s.cRec.prevRespCycle), 0, none⟩
      let request : TimingEvent := ⟨.record, .after [s.events.length], tr.latency, 0, none⟩
      have chain : Chain (s.events ++ [dr] ++ [request]) s.cRec.gapCycles links :=
        (recording.chain.beside rfl).beside rfl
      have origin := (origin.extend nonempty (Kept.append s.events [dr]) []).extend
        (by simpa using nonempty) (Kept.append _ [request]) []
      simp only [List.append_nil] at origin
      have next : s.access tr curCycle =
          some { s with curCycle := curCycle, events := s.events ++ [dr] ++ [request] } := by
        have new : Unstarted (s.events ++ [dr]) s.events.length := Unstarted.concat s.events rfl
        have first : addChild s.events [prev] .delay (u32 (tr.reqCycle - s.cRec.prevRespCycle)) 0 =
            some (s.events ++ [dr], s.events.length) := addChild_eq (by simp [unstarted]) _ _ _
        have second : addChild (s.events ++ [dr]) [s.events.length] .record tr.latency 0 =
            some (s.events ++ [dr] ++ [request], (s.events ++ [dr]).length) :=
          addChild_eq (by simpa using new) _ _ _
        simp [TimingCore.access, recordAccess, prevLe, req, type, isPrev, first, second]
      have at_ := getElem?_append_of_some there [dr]
      exact ⟨_, next, _, .executing ⟨bound, running, free⟩
        ⟨chain, recording.prevResp, ⟨last, before, isLast, getElem?_append_of_some at_ _, covered⟩,
          gapLe⟩
        origin (Nat.le_trans prevLe respLe) (Nat.le_trans reached respLe) phaseEnd inv.unhalted⟩

theorem Inv.takeBarrier (inv : Inv c s) (executes : s.Executes)
    (reached : s.phaseEndCycle < s.curCycle) :
    Inv c { s with atBarrier := true, phaseEndCycle := s.phaseEndCycle + c.phaseLength } := by
  obtain ⟨links, inv⟩ := inv
  obtain ⟨bound, running, free⟩ := executes
  have phaseEnd : s.phaseEndCycle = s.nextPhaseCycle c := by
    rw [inv.phaseEnd running, free]
    rfl
  refine ⟨links, inv.chain, inv.prevResp, inv.halted, inv.live, inv.covered, inv.origin, inv.clock,
    inv.endsInCore, ?_, ?_, ?_, inv.unhalted⟩
  · intro _ weave
    exact absurd (bound.symm.trans weave) (by simp)
  · intro _
    exact congrArg (· + c.phaseLength) phaseEnd
  · intro _
    exact ⟨running, phaseEnd ▸ reached⟩

end TimingCore

end Zsim.Recorder
