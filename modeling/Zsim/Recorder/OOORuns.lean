import Mathlib.Data.Int.Order.Basic
import Zsim.Recorder.OOOWeave
import Zsim.Recorder.Runs

/-!
# Runs of an out-of-order core
-/

set_option autoImplicit false

namespace Zsim.Recorder

namespace OOOCore

variable {c : PhaseConfig} {s : OOOCore}

theorem Inv.perform (inv : Inv c s) {op : Op} (legal : legal c s op) :
    Leads c s (DelayFits c s op) (s.perform c op) := by
  cases op with
  | join =>
      obtain ⟨bound, notRunning⟩ := legal
      cases state : s.cRec.state with
      | halted => exact inv.join_halted bound state
      | draining => exact inv.join_draining bound state
      | running => exact absurd state notRunning
  | leave => exact inv.leave legal.1 legal.2
  | advance cycles => exact inv.advance legal cycles
  | access tr dispatchCycle respCycle =>
      obtain ⟨executes, dispatch, req, resp, returned⟩ := legal
      exact inv.access executes returned (by omega)
  | takeBarrier => exact inv.takeBarrier legal.1 legal.2
  | cSimStart => exact inv.cSimStart legal.1 legal.2
  | simulate ev cycle => exact inv.simulate legal.1 legal.2
  | cSimEnd => exact inv.cSimEnd legal.1 legal.2

theorem step_eq_some {op : Op} {next : OOOCore} (step : (machine c).step s op = some next) :
    s.perform c op = .ok next := by
  cases result : s.perform c op with
  | ok other =>
      simp only [machine, result, Except.toOption] at step
      rw [Option.some.inj step]
  | error failure =>
      simp only [machine, result, Except.toOption] at step
      cases step

theorem Inv.exec {ops : List Op} {final : OOOCore} (legal : (machine c).LegalRun ops OOOCore.init)
    (run : (machine c).exec ops OOOCore.init = some final) : Inv c final :=
  Machine.exec_keeps (fun _ _ _ inv legal step => (inv.perform legal).inv _ (step_eq_some step))
    (Inv.init c) legal run

theorem Timely.exec {ops : List Op} {final : OOOCore} (legal : (machine c).LegalRun ops OOOCore.init)
    (fits : (machine c).Along (DelayFits c) ops OOOCore.init)
    (run : (machine c).exec ops OOOCore.init = some final) : ∃ links, Timely c final links := by
  have keeps : ∀ s op next, (Inv c s ∧ ∃ links, Timely c s links) → (machine c).legal s op →
      DelayFits c s op → (machine c).step s op = some next →
      Inv c next ∧ ∃ links, Timely c next links := by
    intro s op next ⟨inv, links, timely⟩ legal fits step
    have leads := inv.perform legal
    have step := step_eq_some step
    exact ⟨leads.inv next step, (leads.timely fits links timely).1 next step⟩
  exact (Machine.exec_keeps_restrict keeps ⟨Inv.init c, [], Timely.init c⟩ (legal.restrict fits) run).2

/-! ## The two clocks -/

theorem cSimEnd_gap {next : OOOCore} (step : s.cSimEnd c = .ok next) :
    ∃ skew, next.curCycle = s.curCycle + skew ∧
      next.cRec.gapCycles = s.cRec.gapCycles + skew := by
  rw [OOOCore.cSimEnd] at step
  dsimp only at step
  split at step
  · cases step
    exact ⟨0, rfl, rfl⟩
  · split at step
    · cases step
    · split at step
      · cases step
      · split at step
        · cases step
          exact ⟨_, rfl, rfl⟩
        · split at step
          · cases step
          · split at step
            · cases step
            · cases step
              exact ⟨_, rfl, rfl⟩

theorem bind_eq_ok {α β : Type} {x : Except Failure α} {f : α → Except Failure β} {b : β}
    (ok : (x >>= f) = .ok b) : ∃ a, x = .ok a ∧ f a = .ok b := by
  cases x with
  | error failure => cases ok
  | ok a => exact ⟨a, rfl, ok⟩

theorem addIssueEvent_gapCycles {evCycle : Nat} {next : OOOCore}
    (step : s.addIssueEvent evCycle = .ok next) :
    next.cRec.gapCycles = s.cRec.gapCycles := by
  rw [OOOCore.addIssueEvent] at step
  cases isLast : s.cRec.lastEvProduced with
  | none =>
      rw [isLast] at step
      cases step
  | some last =>
      rw [isLast] at step
      dsimp only at step
      by_cases le : last.zllStartCycle ≤ evCycle - s.cRec.gapCycles
      · rw [if_pos le] at step
        obtain ⟨_, _, step⟩ := bind_eq_ok step
        obtain ⟨_, _, step⟩ := bind_eq_ok step
        obtain ⟨_, _, step⟩ := bind_eq_ok step
        cases step
        rfl
      · rw [if_neg le] at step
        cases step

theorem recordAccess_gapCycles {tr : TimingRecord} {dispatchCycle respCycle : Nat} {next : OOOCore}
    (step : s.recordAccess tr dispatchCycle respCycle = .ok next) :
    next.cRec.gapCycles = s.cRec.gapCycles := by
  rw [recordAccess] at step
  cases type : tr.type with
  | get =>
      rw [type] at step
      dsimp only at step
      rw [recordGet] at step
      obtain ⟨issued, issue, step⟩ := bind_eq_ok step
      rw [← addIssueEvent_gapCycles issue]
      cases isLast : issued.cRec.lastEvProduced with
      | none =>
          rw [isLast] at step
          cases step
      | some last =>
          rw [isLast] at step
          dsimp only at step
          obtain ⟨_, _, step⟩ := bind_eq_ok step
          cases step
          rfl
  | put =>
      rw [type] at step
      dsimp only at step
      rw [recordPut] at step
      cases isLast : s.cRec.lastEvProduced with
      | none =>
          rw [isLast] at step
          cases step
      | some last =>
          rw [isLast] at step
          dsimp only at step
          obtain ⟨_, _, step⟩ := bind_eq_ok step
          obtain ⟨_, _, step⟩ := bind_eq_ok step
          cases step
          rfl

theorem notifyJoin_gapCycles {next : OOOCore} (notHalted : s.cRec.state ≠ .halted)
    (step : s.notifyJoin = .ok next) : next.cRec.gapCycles = s.cRec.gapCycles := by
  unfold notifyJoin at step
  cases state : s.cRec.state with
  | halted => exact absurd state notHalted
  | running =>
      simp only [state] at step
      cases step
  | draining =>
      simp only [state] at step
      split at step
      · obtain ⟨issued, issue, step⟩ := bind_eq_ok step
        rw [← addIssueEvent_gapCycles issue]
        cases step
        rfl
      · cases step

theorem gapCycles_le {op : Op} {next : OOOCore} (notHalted : s.cRec.state ≠ .halted)
    (step : s.perform c op = .ok next) : s.cRec.gapCycles ≤ next.cRec.gapCycles := by
  cases op with
  | join =>
      obtain ⟨joined, join, step⟩ := bind_eq_ok step
      cases step
      exact (notifyJoin_gapCycles notHalted join).ge
  | leave =>
      simp only [OOOCore.perform, OOOCore.leave] at step
      split at step
      · split at step
        · exact (addIssueEvent_gapCycles step).ge
        · cases step
      · cases step
  | advance cycles =>
      cases step
      exact Nat.le_refl _
  | access tr dispatchCycle respCycle => exact (recordAccess_gapCycles step).ge
  | takeBarrier =>
      cases step
      exact Nat.le_refl _
  | cSimStart =>
      simp only [OOOCore.perform, OOOCore.cSimStart] at step
      split at step
      · cases step
        exact Nat.le_refl _
      · split at step
        · cases step
        · split at step
          · split at step
            · exact (addIssueEvent_gapCycles step).ge
            · cases step
              exact Nat.le_refl _
          · cases step
      · cases step
        exact Nat.le_refl _
  | simulate ev cycle =>
      simp only [OOOCore.perform, OOOCore.simulate] at step
      split at step
      · split at step
        · split at step
          · split at step
            · cases step
              exact Nat.le_refl _
            · cases step
          · cases step
            exact Nat.le_refl _
        · cases step
      · cases step
  | cSimEnd =>
      obtain ⟨skew, -, gap⟩ := cSimEnd_gap step
      exact (Nat.le_add_right _ _).trans_eq gap.symm

/-- The clocks of a core and its assertions on zero-load cycles, whatever the delays are. -/
structure TwoClocks (c : PhaseConfig) (s : OOOCore) : Prop where
  gap_mono : ∀ op next, legal c s op → s.perform c op = .ok next → s.cRec.state ≠ .halted →
    s.cRec.gapCycles ≤ next.cRec.gapCycles
  /-- `cSimEnd` keeps the zero-load clock. -/
  zeroLoad : ∀ next, legal c s .cSimEnd → s.perform c .cSimEnd = .ok next →
    (next.curCycle - next.cRec.gapCycles : Int) = s.curCycle - s.cRec.gapCycles
  zeroLoadAsserts : ∀ op, legal c s op → s.perform c op ≠ .error .zeroLoad
  /-- The delay to the last response is at most that to the last issue event. -/
  noUnderflow : ∀ op evCycle, legal c s op → s.issueCycle c op = some evCycle →
    ∃ last responses maxCycle parents, s.cRec.lastEvProduced = some last ∧
      s.cRec.gapCycles ≤ evCycle ∧
      linkResponses s.events (evCycle - s.cRec.gapCycles) last.zllStartCycle
        s.cRec.futureResponses 0 [] = .ok (responses, maxCycle, parents) ∧
      last.zllStartCycle + issuePreDelay maxCycle (evCycle - s.cRec.gapCycles) ≤
        evCycle - s.cRec.gapCycles

/-- What also holds as long as the delays of the issue events fit in 32 bits. -/
structure NoSkew (c : PhaseConfig) (s : OOOCore) : Prop where
  /-- An issue event starts with at least the slack of the one simulated before it, unless it is
  the first after the join of a halted core, which starts with none. -/
  slack : ∀ ev event cycle next zllStartCycle minStartCycle, legal c s (.simulate ev cycle) →
    s.events[ev]? = some event → event.kind = .core zllStartCycle minStartCycle →
    s.perform c (.simulate ev cycle) = .ok next →
    next.cRec.lastEvSimulatedStartCycle = cycle ∧
      next.cRec.lastEvSimulatedZllStartCycle = zllStartCycle ∧
      (event.source = .queued zllStartCycle ∧ cycle = zllStartCycle ∨
        (s.cRec.lastEvSimulatedStartCycle - s.cRec.lastEvSimulatedZllStartCycle : Int) ≤
          cycle - zllStartCycle)
  /-- Only threads of several domains may simulate the last event of a running core. -/
  fails : ∀ op failure, legal c s op → DelayFits c s op → s.perform c op = .error failure →
    failure = .notDraining ∧ c.thDomains ≠ 1

theorem Inv.issues (inv : Inv c s) {op : Op} (legal : legal c s op) {evCycle : Nat}
    (issues : s.issueCycle c op = some evCycle) :
    ∃ last, Produces s.cRec s.events evCycle last := by
  cases op with
  | join =>
      simp only [issueCycle] at issues
      split at issues
      · cases issues
        exact inv.exists_last (by simp [*]) legal.1
      · cases issues
  | leave =>
      cases issues
      exact inv.exists_last (by simp [legal.2]) legal.1
  | access tr dispatchCycle respCycle =>
      obtain ⟨⟨bound, running, -⟩, -⟩ := legal
      simp only [issueCycle] at issues
      split at issues
      · cases issues
        exact inv.exists_last (by simp [running]) bound
      · cases issues
  | cSimStart =>
      simp only [issueCycle] at issues
      split at issues
      · next last _ isLast =>
          split at issues
          · cases issues
            exact ⟨last, inv.produces legal.1 isLast (by omega)⟩
          · cases issues
      · cases issues
  | advance _ | takeBarrier | simulate _ _ | cSimEnd => cases issues

theorem Inv.twoClocks (inv : Inv c s) : TwoClocks c s := by
  constructor
  · intro op next _ step notHalted
    exact gapCycles_le notHalted step
  · intro next _ step
    obtain ⟨skew, cur, gap⟩ := cSimEnd_gap step
    omega
  · intro op legal
    exact (inv.perform legal).zeroLoad
  · intro op evCycle legal issues
    obtain ⟨last, produces⟩ := inv.issues legal issues
    have zllLe := produces.zll_le
    obtain ⟨more, last', responses, maxCycle, parents, -, linked, preDelay, -⟩ :=
      produces.addIssueEvent (Nat.le_refl evCycle)
    exact ⟨last, responses, maxCycle, parents, produces.isLast, by omega, linked, by omega⟩

theorem Timely.noSkew {links : List Link} (timely : Timely c s links) (inv : Inv c s) :
    NoSkew c s := by
  constructor
  · intro ev event cycle next zllStartCycle minStartCycle legal at_ kind step
    obtain ⟨weave, simulates⟩ := legal
    obtain ⟨event', there, fresh, ready, -⟩ := simulates.exists
    cases Option.some.inj (at_.symm.trans there)
    have reports := EventKind.reports_eq_some.mpr kind
    obtain ⟨rest, -, -, minLe, slack⟩ := timely.ready_core inv weave at_ fresh reports ready
    simp only [OOOCore.perform, OOOCore.simulate, at_, fresh, if_true, kind, if_pos minLe] at step
    cases step
    refine ⟨rfl, rfl, ?_⟩
    rcases slack with queued | late
    · rw [Ready, queued] at ready
      exact .inl ⟨queued, ready⟩
    · exact .inr (by omega)
  · intro op failure legal fits failed
    exact ((inv.perform legal).timely fits links timely).2 failure failed

/-- In every run the gap of the clocks only grows while the core is not halted, `cSimEnd` keeps the
zero-load clock, and `addIssueEvent` neither underflows nor fails.  In every run whose issue delays
fit in 32 bits there is no negative skew, since slack only grows up to the next halt. -/
theorem two_clocks (c : PhaseConfig) {ops : List Op} {final : OOOCore}
    (legal : (machine c).LegalRun ops OOOCore.init)
    (run : (machine c).exec ops OOOCore.init = some final) :
    TwoClocks c final ∧ ((machine c).Along (DelayFits c) ops OOOCore.init → NoSkew c final) := by
  have inv := Inv.exec legal run
  refine ⟨inv.twoClocks, ?_⟩
  intro fits
  obtain ⟨links, timely⟩ := Timely.exec legal fits run
  exact timely.noSkew inv

/-- A core with one access that the weave phase delays by 20 cycles, and that leaves. -/
def oneMiss : List Op :=
  [.join, .advance 10, .access ⟨.get, 12, 50, 38⟩ 10 50, .advance 60, .leave, .cSimStart,
    .simulate 0 0, .simulate 1 10, .simulate 2 10, .simulate 3 10, .simulate 4 10, .simulate 5 12,
    .simulate 6 70, .simulate 7 70, .simulate 8 50, .simulate 9 90, .cSimEnd]

theorem two_clocks_oneMiss : ∃ final,
    (machine TimingCore.shortPhases).exec oneMiss OOOCore.init = some final ∧
      TwoClocks TimingCore.shortPhases final ∧ NoSkew TimingCore.shortPhases final := by
  have runs : ((machine TimingCore.shortPhases).exec oneMiss OOOCore.init).isSome := by decide
  obtain ⟨final, run⟩ := Option.isSome_iff_exists.mp runs
  have kept := two_clocks TimingCore.shortPhases (by decide) run
  exact ⟨final, run, kept.1, kept.2 (by decide)⟩

/-- It joins again after it was halted. -/
def rejoins : List Op := oneMiss ++ [.join, .leave, .cSimStart]

/-- The first issue event after the join starts with less slack than the last one before it. -/
theorem slack_lost_at_join :
    (machine TimingCore.shortPhases).LegalRun (rejoins ++ [.simulate 10 100]) OOOCore.init ∧
      (machine TimingCore.shortPhases).Along (DelayFits TimingCore.shortPhases)
        (rejoins ++ [.simulate 10 100]) OOOCore.init ∧
      ∃ before after,
        (machine TimingCore.shortPhases).exec rejoins OOOCore.init = some before ∧
        before.perform TimingCore.shortPhases (.simulate 10 100) = .ok after ∧
        (after.cRec.lastEvSimulatedStartCycle - after.cRec.lastEvSimulatedZllStartCycle : Int) <
          before.cRec.lastEvSimulatedStartCycle - before.cRec.lastEvSimulatedZllStartCycle := by
  refine ⟨by decide, by decide, ?_⟩
  have runs : (((machine TimingCore.shortPhases).exec rejoins OOOCore.init).bind fun before =>
      (before.perform TimingCore.shortPhases (.simulate 10 100)).toOption.map fun after =>
        decide ((after.cRec.lastEvSimulatedStartCycle -
          after.cRec.lastEvSimulatedZllStartCycle : Int) <
            before.cRec.lastEvSimulatedStartCycle - before.cRec.lastEvSimulatedZllStartCycle)) =
      some true := by
    decide
  obtain ⟨before, run, step⟩ := Option.bind_eq_some_iff.mp runs
  obtain ⟨after, step, less⟩ := Option.map_eq_some_iff.mp step
  exact ⟨before, after, run, step_eq_some step, of_decide_eq_true less⟩

end OOOCore

end Zsim.Recorder
