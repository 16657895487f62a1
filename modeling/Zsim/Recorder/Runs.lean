import Mathlib.Data.Int.Order.Basic
import Zsim.Recorder.Weave

/-!
# Runs of a timing core
-/

set_option autoImplicit false

namespace Zsim.Recorder

namespace TimingCore

variable {c : PhaseConfig} {s : TimingCore}

theorem inv_preserved (c : PhaseConfig) : ((machine c).restrict DelayFits).Preserves (Inv c) := by
  intro s op inv legal
  obtain ⟨legal, fits⟩ := legal
  cases op with
  | join => exact inv.join legal.1 legal.2
  | leave => exact inv.leave legal.1 legal.2 fits
  | advance cycles => exact ⟨_, rfl, inv.advance legal cycles⟩
  | access tr curCycle =>
      obtain ⟨executes, req, resp, returned, latency⟩ := legal
      exact inv.access executes req resp returned latency fits
  | takeBarrier => exact ⟨_, rfl, inv.takeBarrier legal.1 legal.2⟩
  | cSimStart => exact inv.cSimStart legal.1 legal.2 fits
  | simulate ev cycle => exact inv.simulate legal.1 legal.2
  | cSimEnd =>
      obtain ⟨next, step, inv', -⟩ := inv.cSimEnd legal.1 legal.2
      exact ⟨next, step, inv'⟩

structure ChainKept (c : PhaseConfig) (s : TimingCore) : Prop where
  /-- There is no last event if the core is halted, and, in the weave phase of a draining core,
  once all its events have been simulated. -/
  null_iff : s.cRec.prevRespEvent = none ↔ s.cRec.state = .halted ∨
    s.cRec.state = .draining ∧ s.inCSim = true ∧
      ∀ event ∈ s.events, ∀ orig minStart, event.kind = .core orig minStart →
        event.startCycle ≠ none
  unsimulated : ∀ ev, s.cRec.prevRespEvent = some ev →
    ∃ event, s.events[ev]? = some event ∧ event.startCycle = none
  prevRespCycle_le : s.cRec.state ≠ .halted → s.cRec.prevRespCycle ≤ s.curCycle
  /-- The last event of a running core is not simulated. -/
  taper : ∀ ev cycle, s.cRec.state = .running → legal c s (.simulate ev cycle) →
    s.cRec.prevRespEvent ≠ some ev
  /-- `cSimEnd` keeps the zero-load clock. -/
  zeroLoad : ∀ next, legal c s .cSimEnd → s.step c .cSimEnd = some next →
    (next.curCycle - next.cRec.gapCycles : Int) = s.curCycle - s.cRec.gapCycles ∧
      (next.cRec.prevRespCycle - next.cRec.gapCycles : Int) =
        s.cRec.prevRespCycle - s.cRec.gapCycles

theorem InvWith.null_iff {links : List Link} (inv : InvWith c s links) :
    s.cRec.prevRespEvent = none ↔ links = [] := by
  rw [inv.prevResp, Option.map_eq_none_iff, List.getLast?_eq_none_iff]

theorem Inv.kept (inv : Inv c s) : ChainKept c s := by
  have whole := inv
  obtain ⟨links, inv⟩ := inv
  constructor
  · rw [inv.null_iff]
    constructor
    · intro empty
      refine (inv.live empty).imp_right fun ⟨draining, weave⟩ => ⟨draining, weave, ?_⟩
      intro event member orig minStart kind fresh
      obtain ⟨ev, at_⟩ := List.getElem?_of_mem member
      obtain ⟨l, onChain, -⟩ := inv.chain.whole ev event at_ fresh (by simp [kind, EventKind.reports])
      rw [empty] at onChain
      cases onChain
    · rintro (halted | ⟨-, weave, simulated⟩)
      · exact inv.halted halted
      · by_contra nonempty
        have isLast := List.getLast?_eq_some_getLast nonempty
        obtain ⟨event, reported, at_, reports⟩ := inv.endsInCore (.inr weave) _ isLast
        obtain ⟨event', there, fresh, -⟩ := inv.chain.unsimulated _ (List.getLast_mem nonempty)
        cases Option.some.inj (at_.symm.trans there)
        exact simulated event (List.mem_of_getElem? at_) reported.1 reported.2
          (EventKind.reports_eq_some.mp reports) fresh
  · intro ev isPrev
    have nonempty : links ≠ [] := by
      intro empty
      rw [inv.null_iff.mpr empty] at isPrev
      cases isPrev
    obtain ⟨prev, same, unstarted⟩ := (inv.covered nonempty).prev
    cases Option.some.inj (isPrev.symm.trans same)
    exact unstarted.exists
  · exact fun notHalted => (inv.clock notHalted).2.1
  · intro ev cycle running legal isPrev
    obtain ⟨weave, simulates⟩ := legal
    rw [inv.prevResp] at isPrev
    obtain ⟨last, isLast, rfl⟩ := Option.map_eq_some_iff.mp isPrev
    obtain ⟨event, at_, -, ready, within⟩ := simulates.exists
    obtain ⟨event', reported, there, reports⟩ := inv.endsInCore (.inr weave) last isLast
    cases Option.some.inj (at_.symm.trans there)
    obtain ⟨-, -, late, -⟩ := Chain.ready (r := s.cRec.report) inv.chain
      (inv.origin (by simp [running])) (List.mem_of_getLast? isLast) at_ ready
    have beyond := (inv.tapered running weave).2 last isLast
    have := within.le reports
    dsimp only [CoreRecorder.report] at late
    omega
  · intro next legal step
    obtain ⟨next', step', -, cur, resp⟩ := whole.cSimEnd legal.1 legal.2
    cases Option.some.inj (step.symm.trans step')
    constructor <;> omega

/-- In every run whose recorded delays fit in 32 bits no assertion fails, nothing panics, and the
chain and the clocks are kept. -/
theorem chain_kept (c : PhaseConfig) (prevRespCycle lastStartCycle lastOrigStartCycle : Nat)
    {ops : List Op}
    (legal : (machine c).LegalRun ops (init prevRespCycle lastStartCycle lastOrigStartCycle))
    (fits : (machine c).Along DelayFits ops
      (init prevRespCycle lastStartCycle lastOrigStartCycle)) :
    ∃ final, (machine c).exec ops (init prevRespCycle lastStartCycle lastOrigStartCycle) =
      some final ∧ ChainKept c final := by
  obtain ⟨final, run, inv⟩ := (inv_preserved c).exec_restrict
    (Inv.init c prevRespCycle lastStartCycle lastOrigStartCycle) (legal.restrict fits)
  exact ⟨final, run, inv.kept⟩

def shortPhases : PhaseConfig where
  phaseLength := 100
  thDomains := 2
  phaseLength_pos := by decide

/-- A core with one access that the weave phase delays by 20 cycles. -/
def oneMiss : List Op :=
  [.join, .advance 10, .access ⟨.get, 12, 60, 50⟩ 60, .advance 45, .takeBarrier, .cSimStart,
    .simulate 0 0, .simulate 1 0, .simulate 2 82, .simulate 3 82, .cSimEnd]

theorem chain_kept_oneMiss : ∃ final,
    (machine shortPhases).exec oneMiss (init 7 3 5) = some final ∧ ChainKept shortPhases final :=
  chain_kept shortPhases 7 3 5 (by decide) (by decide)

/-- A core that leaves, in the weave phase that simulates the last of its events. -/
def drains : List Op :=
  [.join, .advance 10, .leave, .cSimStart, .simulate 0 0, .simulate 1 0, .simulate 2 10]

/-- Before `cSimEnd` there is no last event, and the core is not halted yet. -/
theorem null_while_draining :
    (machine shortPhases).LegalRun drains (init 0 0 0) ∧
      ∃ final, (machine shortPhases).exec drains (init 0 0 0) = some final ∧
        ¬ (final.cRec.prevRespEvent = none ↔ final.cRec.state = .halted) := by
  refine ⟨by decide, ?_⟩
  have run : ((machine shortPhases).exec drains (init 0 0 0)).map
      (fun final => (final.cRec.prevRespEvent, final.cRec.state)) = some (none, .draining) := by
    decide
  obtain ⟨final, run, shape⟩ := Option.map_eq_some_iff.mp run
  refine ⟨final, run, ?_⟩
  rw [(Prod.mk.inj shape).1, (Prod.mk.inj shape).2]
  simp

end TimingCore

end Zsim.Recorder
