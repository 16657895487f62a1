import Zsim.OOO.CoreWindow
import Zsim.Recorder.OOORuns

/-!
# The core with its recorder

An out-of-order core tells its event recorder of every access, and the cycles that the recorder
answers with, at a join and around the weave phase, move the clock of the core.  What a core tells is
what its recorder was shown to handle, and the two clocks never part.
-/

set_option autoImplicit false

namespace Zsim.OOO

open Recorder (PhaseConfig)

/-- The accesses of a block in their order, each after the cycles since the one before it. -/
def tells (endCycle : Nat) : Nat → List Recorded → List Recorder.OOOCore.Op
  | curCycle, [] => [.advance (endCycle - curCycle)]
  | curCycle, r :: rest =>
    .advance (r.curCycle - curCycle) :: .access r.tr r.dispatchCycle r.respCycle ::
      tells endCycle r.curCycle rest

/-! ## What the recorder does with them -/

section
variable {c : PhaseConfig} {r : Recorder.OOOCore}

theorem advance_taken (executes : r.Executes) (inv : Recorder.OOOCore.Inv c r) {cycle : Nat}
    (later : r.curCycle ≤ cycle) :
    (Recorder.OOOCore.machine c).step r (.advance (cycle - r.curCycle)) = some { r with curCycle := cycle } ∧
      Recorder.OOOCore.Inv c { r with curCycle := cycle } := by
  obtain ⟨cycles, rfl⟩ := Nat.exists_eq_add_of_le later
  rw [Nat.add_sub_cancel_left]
  have legal : Recorder.OOOCore.legal c r (.advance cycles) := executes
  exact ⟨rfl, (inv.perform legal).inv _ rfl⟩

theorem access_taken (executes : r.Executes) (inv : Recorder.OOOCore.Inv c r) {tr : Recorder.TimingRecord}
    {dispatchCycle respCycle : Nat}
    (legal : Recorder.OOOCore.legal c r (.access tr dispatchCycle respCycle)) :
    ∃ next, (Recorder.OOOCore.machine c).step r (.access tr dispatchCycle respCycle) = some next ∧
      Recorder.OOOCore.Inv c next ∧ next.Executes ∧ next.curCycle = r.curCycle := by
  have notHalted : r.cRec.state ≠ .halted := by simp [executes.2.1]
  obtain ⟨last, produces⟩ := inv.exists_last notHalted executes.1
  have recorded : ∃ next, r.perform c (.access tr dispatchCycle respCycle) = .ok next ∧ next.Executes ∧
      next.curCycle = r.curCycle := by
    cases type : tr.type with
    | get =>
        obtain ⟨-, dispatch, req, resp, returned⟩ := legal
        obtain ⟨more, last', responses, step, -⟩ := produces.recordGet dispatchCycle returned (by omega)
        simp only [Recorder.OOOCore.perform, Recorder.OOOCore.recordAccess, type]
        exact ⟨_, step, executes, rfl⟩
    | put =>
        obtain ⟨more, step, -⟩ := produces.recordPut tr
        simp only [Recorder.OOOCore.perform, Recorder.OOOCore.recordAccess, type]
        exact ⟨_, step, executes, rfl⟩
  obtain ⟨next, step, executes, clock⟩ := recorded
  refine ⟨next, ?_, (inv.perform legal).inv next step, executes, clock⟩
  simp only [Recorder.OOOCore.machine, step]
  rfl

theorem tells_taken {recorded : List Recorded} {endCycle : Nat} (executes : r.Executes)
    (inv : Recorder.OOOCore.Inv c r) (sorted : recorded.Pairwise fun a b => a.curCycle ≤ b.curCycle)
    (proper : ∀ a ∈ recorded, a.Proper ∧ r.curCycle ≤ a.curCycle ∧ a.curCycle ≤ endCycle)
    (ends : r.curCycle ≤ endCycle) :
    (Recorder.OOOCore.machine c).LegalRun (tells endCycle r.curCycle recorded) r ∧
      ∃ r', (Recorder.OOOCore.machine c).exec (tells endCycle r.curCycle recorded) r = some r' ∧
        Recorder.OOOCore.Inv c r' ∧ r'.Executes ∧ r'.curCycle = endCycle := by
  induction recorded generalizing r with
  | nil =>
      obtain ⟨step, kept⟩ := advance_taken executes inv ends
      refine ⟨⟨executes, fun _ _ => trivial⟩, _, ?_, kept, executes, rfl⟩
      rw [tells, Machine.exec_cons, step]
      rfl
  | cons a rest ih =>
      obtain ⟨⟨⟨now, req, resp, within⟩, from', upTo⟩, proper⟩ := List.forall_mem_cons.mp proper
      obtain ⟨later, sorted⟩ := List.pairwise_cons.mp sorted
      obtain ⟨first, waited⟩ := advance_taken executes inv from'
      have executes' : Recorder.OOOCore.Executes { r with curCycle := a.curCycle } := executes
      have legal : Recorder.OOOCore.legal c { r with curCycle := a.curCycle }
          (.access a.tr a.dispatchCycle a.respCycle) := ⟨executes', now, req, resp, within⟩
      obtain ⟨next, step, inv', executes', same⟩ := access_taken executes' waited legal
      have same : next.curCycle = a.curCycle := same
      obtain ⟨run, final, exec, kept⟩ := ih executes' inv' sorted
        (fun b member => ⟨(proper b member).1, same ▸ later b member, (proper b member).2.2⟩) (same ▸ upTo)
      rw [same] at run exec
      refine ⟨⟨executes, fun mid same => ?_⟩, final, ?_, kept⟩
      · cases Option.some.inj (first.symm.trans same)
        refine ⟨legal, fun other same => ?_⟩
        cases Option.some.inj (step.symm.trans same)
        exact run
      · rw [tells, Machine.exec_cons, first, Option.bind_some, Machine.exec_cons, step, Option.bind_some]
        exact exec

end

section
variable {c : PhaseConfig} {r next : Recorder.OOOCore}

theorem addIssueEvent_curCycle {evCycle : Nat} (step : r.addIssueEvent evCycle = .ok next) :
    next.curCycle = r.curCycle := by
  rw [Recorder.OOOCore.addIssueEvent] at step
  cases isLast : r.cRec.lastEvProduced with
  | none =>
      rw [isLast] at step
      cases step
  | some last =>
      rw [isLast] at step
      dsimp only at step
      split at step
      · obtain ⟨_, _, step⟩ := Recorder.OOOCore.bind_eq_ok step
        obtain ⟨_, _, step⟩ := Recorder.OOOCore.bind_eq_ok step
        obtain ⟨_, _, step⟩ := Recorder.OOOCore.bind_eq_ok step
        cases step
        rfl
      · cases step

theorem notifyJoin_curCycle (step : r.notifyJoin = .ok next) : r.curCycle ≤ next.curCycle := by
  unfold Recorder.OOOCore.notifyJoin at step
  cases state : r.cRec.state with
  | running =>
      simp only [state] at step
      cases step
  | halted =>
      simp only [state] at step
      split at step
      · cases step
        exact Nat.le_max_left _ _
      · cases step
  | draining =>
      simp only [state] at step
      split at step
      · obtain ⟨issued, issue, step⟩ := Recorder.OOOCore.bind_eq_ok step
        rw [← addIssueEvent_curCycle issue]
        cases step
        exact le_refl _
      · cases step

theorem cSimStart_curCycle (step : r.cSimStart c = .ok next) : r.curCycle ≤ next.curCycle := by
  unfold Recorder.OOOCore.cSimStart at step
  dsimp only at step
  split at step
  · cases step
    exact le_refl _
  · split at step
    · cases step
    · split at step
      · split at step
        · exact (addIssueEvent_curCycle step).ge
        · cases step
          exact le_refl _
      · cases step
  · cases step
    exact Nat.le_max_left _ _

end

/-! ## Both together -/

structure TimedCore (ω κ : Type) where
  core : Core ω κ
  recorder : Recorder.OOOCore

namespace TimedCore

/-- `phase` is an operation of the scheduler, the barrier or the contention simulation. -/
inductive Input
  | call (call : Core.Call)
  | phase (op : Recorder.OOOCore.Op)

variable {ω κ : Type} (W : Window ω) (C : Caches κ) (lineSize : Nat) (c : PhaseConfig)

def init (insWindow : ω) (caches : κ) : TimedCore ω κ := ⟨.init insWindow caches, .init⟩

/-- What the recorder is told while a block is simulated. -/
def told (before after : Core ω κ) : List Recorder.OOOCore.Op :=
  tells (after.curCycle W) (before.curCycle W)
    (after.recorded.take (after.recorded.length - before.recorded.length)).reverse

/-- The core advances to the recorder's target cycle, which must not lie before its own. -/
def advanceTo (core : Core ω κ) (targetCycle : Nat) : Option (Core ω κ) :=
  if core.curCycle W < targetCycle then core.advance W targetCycle
  else if core.curCycle W = targetCycle then some core else none

def step (t : TimedCore ω κ) : Input → Option (TimedCore ω κ)
  | .call (.bbl bblAddr bblInfo) => do
    let core ← t.core.bbl W C lineSize bblAddr bblInfo
    let recorder ← (Recorder.OOOCore.machine c).exec (told W t.core core) t.recorder
    some ⟨core, recorder⟩
  | .call call => (t.core.step W C lineSize call).map fun core => { t with core := core }
  | .phase op => do
    let recorder ← (Recorder.OOOCore.machine c).step t.recorder op
    let core ← advanceTo W t.core recorder.curCycle
    some ⟨core, recorder⟩

def isAdvance : Core.Call → Bool
  | .advance _ => true
  | _ => false

/-- A call of the scheduler, which may come when the core does not run. -/
def isSwitch : Core.Call → Bool
  | .contextSwitch => true
  | _ => false

def ofCore : Recorder.OOOCore.Op → Bool
  | .advance _ | .access _ _ _ => true
  | _ => false

/-- A thread runs on a core that is running. -/
def legal (t : TimedCore ω κ) : Input → Prop
  | .call call =>
    isAdvance call = false ∧ t.core.legal call ∧ (isSwitch call = false → t.recorder.Executes)
  | .phase op => ofCore op = false ∧ (Recorder.OOOCore.machine c).legal t.recorder op

def machine : Machine (TimedCore ω κ) Input where
  legal := legal c
  step := step W C lineSize c

/-- The recorder is where a legal run of its own has come to, and its clock is the core's. -/
structure Together (W : Window ω) (c : PhaseConfig) (Ok : ω → Prop) (t : TimedCore ω κ) : Prop where
  core : t.core.Inv W Ok
  clock : t.recorder.curCycle = t.core.curCycle W
  recorder : ∃ ops, (Recorder.OOOCore.machine c).LegalRun ops .init ∧
    (Recorder.OOOCore.machine c).exec ops .init = some t.recorder

variable {W C lineSize c} {Ok : ω → Prop}

theorem Together.extend {t : TimedCore ω κ} (together : Together W c Ok t) {core : Core ω κ}
    {recorder : Recorder.OOOCore} {ops : List Recorder.OOOCore.Op} (inv : core.Inv W Ok)
    (clock : recorder.curCycle = core.curCycle W)
    (legal : (Recorder.OOOCore.machine c).LegalRun ops t.recorder)
    (run : (Recorder.OOOCore.machine c).exec ops t.recorder = some recorder) :
    Together W c Ok ⟨core, recorder⟩ := by
  obtain ⟨before, legal', run'⟩ := together.recorder
  refine ⟨inv, clock, before ++ ops, Machine.Along.append legal' fun mid same => ?_, ?_⟩
  · cases Option.some.inj (run'.symm.trans same)
    exact legal
  · rw [Machine.exec_append, run', Option.bind_some]
    exact run

theorem Together.bbl {t : TimedCore ω κ} (lawful : W.Lawful Ok) (together : Together W c Ok t)
    (executes : t.recorder.Executes) {bblAddr : Nat} {bblInfo : BblInfo} {core : Core ω κ}
    (ports : ∀ uop ∈ bblInfo.uop, uop.portMask ≠ 0)
    (run : t.core.bbl W C lineSize bblAddr bblInfo = some core) :
    ∃ recorder, t.step W C lineSize c (.call (.bbl bblAddr bblInfo)) = some ⟨core, recorder⟩ ∧
      Together W c Ok ⟨core, recorder⟩ := by
  obtain ⟨inv, ⟨later, new, split, after⟩⟩ := Core.bbl_inv lawful run together.core ports
  obtain ⟨ops, legal, exec⟩ := together.recorder
  have recorderInv : Recorder.OOOCore.Inv c t.recorder := Recorder.OOOCore.Inv.exec legal exec
  have isNew : (core.recorded.take (core.recorded.length - t.core.recorded.length)).reverse = new.reverse := by
    rw [split, List.length_append, Nat.add_sub_cancel, List.take_left]
  have sorted : new.reverse.Pairwise fun a b => a.curCycle ≤ b.curCycle := by
    have all := inv.recorded.1
    rw [split] at all
    exact List.pairwise_reverse.mpr (List.pairwise_append.mp all).1
  have proper :
      ∀ a ∈ new.reverse, a.Proper ∧ t.recorder.curCycle ≤ a.curCycle ∧ a.curCycle ≤ core.curCycle W := by
    intro a member
    have member := List.mem_reverse.mp member
    have all := inv.recorded.2 a (split ▸ List.mem_append_left _ member)
    exact ⟨all.1, together.clock ▸ after a member, all.2⟩
  obtain ⟨legal', recorder, exec', -, -, clock⟩ :=
    tells_taken executes recorderInv sorted proper (together.clock ▸ later)
  have isTold : told W t.core core = tells (core.curCycle W) t.recorder.curCycle new.reverse := by
    rw [told, isNew, together.clock]
  rw [← isTold] at legal' exec'
  refine ⟨recorder, ?_, together.extend inv clock legal' exec'⟩
  simp only [step, run, exec', Option.bind_eq_bind, Option.bind_some]

theorem perform_curCycle {r next : Recorder.OOOCore} {op : Recorder.OOOCore.Op}
    (inv : Recorder.OOOCore.Inv c r) (legal : Recorder.OOOCore.legal c r op)
    (run : r.perform c op = .ok next) : r.curCycle ≤ next.curCycle := by
  cases op with
  | join =>
      obtain ⟨joined, join, run⟩ := Recorder.OOOCore.bind_eq_ok run
      have later := notifyJoin_curCycle join
      cases run
      exact later
  | leave =>
      simp only [Recorder.OOOCore.perform, Recorder.OOOCore.leave] at run
      split at run
      · split at run
        · exact (addIssueEvent_curCycle run).ge
        · cases run
      · cases run
  | advance cycles =>
      cases run
      exact Nat.le_add_right _ _
  | access tr dispatchCycle respCycle =>
      obtain ⟨other, step, -, -, clock⟩ := access_taken legal.1 inv legal
      cases run.symm.trans (Recorder.OOOCore.step_eq_some step)
      exact clock.ge
  | takeBarrier =>
      cases run
      exact le_refl _
  | cSimStart => exact cSimStart_curCycle run
  | simulate ev cycle =>
      simp only [Recorder.OOOCore.perform, Recorder.OOOCore.simulate] at run
      split at run
      · split at run
        · split at run
          · split at run
            · cases run
              exact le_refl _
            · cases run
          · cases run
            exact le_refl _
        · cases run
      · cases run
  | cSimEnd =>
      obtain ⟨skew, clock, -⟩ := Recorder.OOOCore.cSimEnd_gap run
      exact clock ▸ Nat.le_add_right _ _

theorem Together.phase {t : TimedCore ω κ} (lawful : W.Lawful Ok) (together : Together W c Ok t)
    {op : Recorder.OOOCore.Op} {recorder : Recorder.OOOCore}
    (legal : Recorder.OOOCore.legal c t.recorder op)
    (run : (Recorder.OOOCore.machine c).step t.recorder op = some recorder) :
    t.core.curCycle W ≤ recorder.curCycle ∧
      ∀ core, advanceTo W t.core recorder.curCycle = some core → Together W c Ok ⟨core, recorder⟩ := by
  obtain ⟨ops, legal', exec⟩ := together.recorder
  have later := perform_curCycle (Recorder.OOOCore.Inv.exec legal' exec) legal
    (Recorder.OOOCore.step_eq_some run)
  refine ⟨together.clock ▸ later, fun core advance => ?_⟩
  have once : (Recorder.OOOCore.machine c).LegalRun [op] t.recorder := ⟨legal, fun _ _ => trivial⟩
  have exec' : (Recorder.OOOCore.machine c).exec [op] t.recorder = some recorder := by
    rw [Machine.exec_cons, run]
    rfl
  have arrived : core.Inv W Ok ∧ recorder.curCycle = core.curCycle W := by
    unfold advanceTo at advance
    split at advance
    · obtain ⟨inv, cycle⟩ := Core.advance_inv lawful advance together.core
      exact ⟨inv, cycle.symm⟩
    · split at advance
      next same =>
        cases advance
        exact ⟨together.core, same.symm⟩
      next => cases advance
  exact together.extend arrived.1 arrived.2 once exec'

/-- A call that does not simulate a block tells the recorder nothing. -/
theorem Together.quiet {t next : TimedCore ω κ} (lawful : W.Lawful Ok) (together : Together W c Ok t)
    {call : Core.Call} (legal : t.core.legal call) (thread : isAdvance call = false)
    (other : ∀ bblAddr bblInfo, call ≠ .bbl bblAddr bblInfo)
    (run : t.step W C lineSize c (.call call) = some next) : Together W c Ok next := by
  have moved : ∃ core, t.core.step W C lineSize call = some core ∧ core.curCycle W = t.core.curCycle W ∧
      next = { t with core := core } := by
    cases call with
    | bbl bblAddr bblInfo => exact absurd rfl (other bblAddr bblInfo)
    | advance _ => cases thread
    | load _ | store _ | predFalseLoad | predFalseStore | branch _ _ _ _ | contextSwitch =>
        cases run
        exact ⟨_, rfl, rfl, rfl⟩
  obtain ⟨core, step, clock, rfl⟩ := moved
  exact ⟨Core.step_inv lawful together.core legal step, together.clock.trans clock.symm, together.recorder⟩

theorem Together.step {t next : TimedCore ω κ} (lawful : W.Lawful Ok) (together : Together W c Ok t)
    {input : Input} (legal : legal c t input) (run : t.step W C lineSize c input = some next) :
    Together W c Ok next := by
  cases input with
  | phase op =>
      obtain ⟨recorder, step, run⟩ := Option.bind_eq_some_iff.mp run
      obtain ⟨core, advance, run⟩ := Option.bind_eq_some_iff.mp run
      cases run
      exact (together.phase lawful legal.2 step).2 core advance
  | call call =>
      obtain ⟨thread, legal, executes⟩ := legal
      cases call with
      | bbl bblAddr bblInfo =>
          obtain ⟨core, bbl, -⟩ := Option.bind_eq_some_iff.mp run
          obtain ⟨recorder, step, kept⟩ := together.bbl lawful (executes rfl) legal bbl
          cases run.symm.trans step
          exact kept
      | _ => exact together.quiet lawful legal thread nofun run

theorem Together.init {insWindow : ω} {caches : κ} (ok : Ok insWindow) (start : W.curCycle insWindow = 0) :
    Together W c Ok (init insWindow caches) :=
  ⟨Core.inv_init ok, start.symm, [], trivial, rfl⟩

/-- In every run of a core with its recorder, whatever the scheduler and the weave phase do: the recorder is in
a state of its own legal runs, its clock is that of the core, and the uops are in order.  It takes the accesses
of every block, and no target cycle lies before the core's. -/
theorem clocks_agree (lawful : W.Lawful Ok) {insWindow : ω} {caches : κ} (ok : Ok insWindow)
    (start : W.curCycle insWindow = 0) {inputs : List Input} {final : TimedCore ω κ}
    (legal : (machine W C lineSize c).LegalRun inputs (init insWindow caches))
    (run : (machine W C lineSize c).exec inputs (init insWindow caches) = some final) :
    final.recorder.curCycle = final.core.curCycle W ∧
      (∃ ops, (Recorder.OOOCore.machine c).LegalRun ops .init ∧
        (Recorder.OOOCore.machine c).exec ops .init = some final.recorder) ∧
      InOrder final.core.log ∧
      (∀ bblAddr bblInfo core, (machine W C lineSize c).legal final (.call (.bbl bblAddr bblInfo)) →
        final.core.bbl W C lineSize bblAddr bblInfo = some core →
        ∃ recorder, final.step W C lineSize c (.call (.bbl bblAddr bblInfo)) = some ⟨core, recorder⟩) ∧
      ∀ op recorder, Recorder.OOOCore.legal c final.recorder op →
        (Recorder.OOOCore.machine c).step final.recorder op = some recorder →
        final.core.curCycle W ≤ recorder.curCycle := by
  have keeps : ∀ (t : TimedCore ω κ) input next, Together W c Ok t →
      (machine W C lineSize c).legal t input → (machine W C lineSize c).step t input = some next →
      Together W c Ok next := fun _ _ _ together legal step => together.step lawful legal step
  have together : Together W c Ok final := Machine.exec_keeps keeps (.init ok start) legal run
  refine ⟨together.clock, together.recorder, together.core.order, ?_, ?_⟩
  · intro bblAddr bblInfo core legal bbl
    obtain ⟨recorder, step, -⟩ := together.bbl lawful (legal.2.2 rfl) legal.2.1 bbl
    exact ⟨recorder, step⟩
  · intro op recorder legal step
    exact (together.phase lawful legal step).1

instance (t : TimedCore ω κ) : ∀ input, Decidable ((machine W C lineSize c).legal t input)
  | .call _ => inferInstanceAs (Decidable (_ ∧ _ ∧ (_ → _)))
  | .phase _ => inferInstanceAs (Decidable (_ ∧ _))

def oneBlock : List Input :=
  [.phase .join, .call (.bbl 64 Core.forwards), .call (.store ⟨8, 1⟩), .call (.load ⟨8, 2⟩),
    .call (.branch 5 true 256 84), .call (.load ⟨16, 3⟩), .call (.bbl 256 Core.crowded), .phase .leave,
    .call .contextSwitch, .phase .cSimStart]

theorem clocks_agree_oneBlock : ∃ final,
    (machine (Table.window 1024 36) Core.steadyCaches 64 Recorder.TimingCore.shortPhases).exec oneBlock
        (init .init ()) = some final ∧
      final.recorder.curCycle = final.core.curCycle (Table.window 1024 36) ∧ InOrder final.core.log := by
  have runs : ((machine (Table.window 1024 36) Core.steadyCaches 64 Recorder.TimingCore.shortPhases).exec
      oneBlock (init .init ())).isSome := by
    decide +kernel
  obtain ⟨final, run⟩ := Option.isSome_iff_exists.mp runs
  obtain ⟨clock, -, order, -⟩ :=
    clocks_agree (Table.window_lawful (by decide)) Table.Inv.init rfl (by decide +kernel) run
  exact ⟨final, run, clock, order⟩

end TimedCore

end Zsim.OOO
