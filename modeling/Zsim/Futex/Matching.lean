import Zsim.Futex.Model
import Zsim.Lib.Count

/-!
# The two counters match

The allowance is the sum of what every wake call may still match: its maximum
until the waker joins, what it woke up while it waits in its join.  As long as
all reports come from threads that simulated wakers have woken and no join gives
up, the unmatched reports stay within what those wakers have counted.
-/

set_option autoImplicit false

namespace Zsim.Futex

open Finset

/-! ## The allowance -/

def allowance (run : Run) (tid : Nat) : Nat :=
  match run.phase tid with
  | .started | .ended => (run.s.futexJoin tid).maxWakes
  | .joining => (run.s.futexJoin tid).wokenUp
  | .idle | .woken => 0

def actionOf : Phase → FutexJoinAction
  | .idle | .started => .none
  | .ended | .joining => .wake
  | .woken => .wait

structure Inv (threads : Nat) (run : Run) : Prop where
  action : ∀ t, (run.s.futexJoin t).action = actionOf (run.phase t)
  counted : ∀ t, run.phase t = .ended ∨ run.phase t = .joining →
    (run.s.futexJoin t).wokenUp ≤ (run.s.futexJoin t).maxWakes
  total : run.s.maxAllowedFutexWakeups = ∑ t ∈ range threads, allowance run t + run.abandoned
  bounded : run.s.unmatchedFutexWakeups ≤ run.s.maxAllowedFutexWakeups
  word : run.s.maxAllowedFutexWakeups < 2 ^ 32

theorem Inv.init (threads : Nat) : Inv threads Run.start where
  action _ := rfl
  counted _ busy := by simp [Run.start] at busy
  total := by simp [Run.start, allowance, Futex.init]
  bounded := Nat.le_refl 0
  word := by simp [Run.start, Futex.init]

section
variable {threads : Nat} {run : Run} {tid : Nat}

theorem Inv.allowance_le (inv : Inv threads run) (bound : tid < threads) :
    allowance run tid ≤ run.s.maxAllowedFutexWakeups := by
  have := le_sum bound (allowance run)
  have := inv.total
  omega

/-- `next` differs from `run` in thread `tid` only, which is in `phase` with `info`. -/
structure Moves (run next : Run) (tid : Nat) (phase : Phase) (info : FutexJoinInfo) : Prop where
  phase : next.phase = Function.update run.phase tid phase
  info : next.s.futexJoin = Function.update run.s.futexJoin tid info

theorem Moves.allowance_other {next : Run} {phase : Phase} {info : FutexJoinInfo}
    (moves : Moves run next tid phase info) {t : Nat} (other : t ≠ tid) :
    allowance next t = allowance run t := by
  unfold allowance
  rw [moves.phase, moves.info, Function.update_of_ne other, Function.update_of_ne other]

theorem Inv.moves (inv : Inv threads run) (bound : tid < threads) {next : Run} {phase : Phase}
    {info : FutexJoinInfo} (moves : Moves run next tid phase info)
    (action : info.action = actionOf phase)
    (counted : phase = .ended ∨ phase = .joining → info.wokenUp ≤ info.maxWakes)
    (total : next.s.maxAllowedFutexWakeups + allowance run tid + run.abandoned =
      run.s.maxAllowedFutexWakeups + allowance next tid + next.abandoned)
    (bounded : next.s.unmatchedFutexWakeups ≤ next.s.maxAllowedFutexWakeups)
    (word : next.s.maxAllowedFutexWakeups < 2 ^ 32) : Inv threads next where
  action t := by
    rw [moves.phase, moves.info]
    by_cases here : t = tid
    · rw [here, Function.update_self, Function.update_self, action]
    · rw [Function.update_of_ne here, Function.update_of_ne here]
      exact inv.action t
  counted t busy := by
    rw [moves.phase] at busy
    rw [moves.info]
    by_cases here : t = tid
    · rw [here, Function.update_self] at busy ⊢
      exact counted busy
    · rw [Function.update_of_ne here] at busy ⊢
      exact inv.counted t busy
  total := by
    have changed := sum_change bound fun t other => moves.allowance_other (t := t) other
    have := inv.total
    omega
  bounded := bounded
  word := word

theorem Ready.action (ready : Ready run tid) (inv : Inv threads run) :
    (run.s.futexJoin tid).action = .none := by
  rw [inv.action]
  rcases ready with idle | ⟨started, -⟩
  · rw [idle]
    rfl
  · rw [started]
    rfl

theorem Ready.leak (ready : Ready run tid) :
    run.leak tid = run.abandoned + allowance run tid := by
  unfold Run.leak allowance
  rcases ready with idle | ⟨started, -⟩
  · simp [idle]
  · simp [started]

/-! ## What one call does -/

theorem step_wakeStart (action : (run.s.futexJoin tid).action = .none) {maxWakes : Nat}
    (fits : run.s.maxAllowedFutexWakeups + min maxWakes maxWakesCap < 2 ^ 32) :
    step run (.wakeStart tid maxWakes) = some
      { run.enter tid .started { run.s.setJoin tid
          { run.s.futexJoin tid with maxWakes := min maxWakes maxWakesCap } with
          maxAllowedFutexWakeups := run.s.maxAllowedFutexWakeups + min maxWakes maxWakesCap } with
        wakes := Function.update run.wakes tid 0
        abandoned := run.leak tid } := by
  simp only [step, notifyFutexWakeStart, if_pos action, u32_of_lt fits, Option.map_some]

/-- A thread that has nothing to match joins at once. -/
theorem Inv.step_join_none (inv : Inv threads run)
    (ready : run.phase tid = .idle ∨ run.phase tid = .started) :
    step run (.join tid) = some run := by
  have action : (run.s.futexJoin tid).action = .none := by
    rw [inv.action]
    rcases ready with idle | started
    · rw [idle]
      rfl
    · rw [started]
      rfl
  have same : ∀ phase, run.phase tid = phase → run.enter tid phase run.s = run := by
    rintro _ rfl
    rw [Run.enter, Function.update_eq_self]
  simp only [step, join, action, Option.map_some]
  rcases ready with idle | started
  · rw [idle]
    exact congrArg some (same .idle idle)
  · rw [started]
    exact congrArg some (same .started started)

theorem step_join_woken (action : (run.s.futexJoin tid).action = .wait)
    (woken : run.phase tid = .woken) :
    step run (.join tid) = some (run.enter tid .idle
      ((futexWaitJoin run.s).setJoin tid { run.s.futexJoin tid with action := .none })) := by
  simp only [step, join, action, woken, Option.map_some]

/-- The allowance that is left when the waker enters its join. -/
def remaining (s : Counters) (tid : Nat) : Nat :=
  s.maxAllowedFutexWakeups - ((s.futexJoin tid).maxWakes - (s.futexJoin tid).wokenUp)

theorem Inv.futexWakeJoin (inv : Inv threads run) (bound : tid < threads)
    (ended : run.phase tid = .ended) :
    futexWakeJoin run.s tid = if run.s.unmatchedFutexWakeups ≤ remaining run.s tid
      then some { run.s with maxAllowedFutexWakeups := remaining run.s tid } else none := by
  have le := inv.allowance_le bound
  simp only [allowance, ended] at le
  have wrapped := u32Sub_of_le inv.word
    (Nat.le_trans (Nat.sub_le _ (run.s.futexJoin tid).wokenUp) le)
  unfold Futex.futexWakeJoin remaining
  dsimp only
  rw [if_pos ⟨le, inv.counted tid (.inl ended)⟩, wrapped]

theorem Inv.step_join_ended (inv : Inv threads run) (bound : tid < threads)
    (ended : run.phase tid = .ended) :
    step run (.join tid) = if run.s.unmatchedFutexWakeups ≤ remaining run.s tid
      then some (run.enter tid .joining { run.s with
        maxAllowedFutexWakeups := remaining run.s tid }) else none := by
  have action := inv.action tid
  rw [ended] at action
  simp only [step, join, action, actionOf, ended, inv.futexWakeJoin bound ended]
  split <;> rfl

theorem Inv.step_recheck (inv : Inv threads run) (bound : tid < threads)
    (joining : run.phase tid = .joining) :
    step run (.recheck tid) = some
      (if (run.s.futexJoin tid).wokenUp ≤ run.s.unmatchedFutexWakeups then
        run.enter tid .idle { run.s.setJoin tid { run.s.futexJoin tid with action := .none } with
          unmatchedFutexWakeups := run.s.unmatchedFutexWakeups - (run.s.futexJoin tid).wokenUp
          maxAllowedFutexWakeups := run.s.maxAllowedFutexWakeups - (run.s.futexJoin tid).wokenUp }
      else run) := by
  have le := inv.allowance_le bound
  simp only [allowance, joining] at le
  simp only [step, futexWakeRecheck]
  by_cases through : (run.s.futexJoin tid).wokenUp ≤ run.s.unmatchedFutexWakeups
  · have word : run.s.unmatchedFutexWakeups < 2 ^ 32 := Nat.lt_of_le_of_lt inv.bounded inv.word
    rw [if_pos through, if_pos through, u32Sub_of_le word through, u32Sub_of_le inv.word le]
  · rw [if_neg through, if_neg through]

theorem Inv.step_timeout (inv : Inv threads run) (bound : tid < threads)
    (joining : run.phase tid = .joining) :
    step run (.timeout tid) = some
      (run.enter tid .idle { run.s.setJoin tid { run.s.futexJoin tid with action := .none } with
        unmatchedFutexWakeups := 0
        maxAllowedFutexWakeups := run.s.maxAllowedFutexWakeups - (run.s.futexJoin tid).wokenUp }) := by
  have le := inv.allowance_le bound
  simp only [allowance, joining] at le
  simp only [step, futexWakeTimeout, u32Sub_of_le inv.word le]

theorem Inv.futexWaitJoin (inv : Inv threads run) :
    futexWaitJoin run.s = { run.s with unmatchedFutexWakeups :=
      if run.s.maxAllowedFutexWakeups ≤ run.s.unmatchedFutexWakeups then run.s.unmatchedFutexWakeups
      else run.s.unmatchedFutexWakeups + 1 } := by
  have := inv.word
  unfold Futex.futexWaitJoin
  split
  · rfl
  · rw [u32_of_lt (by omega)]

/-! ## The invariant -/

theorem Inv.step (inv : Inv threads run) {op : Op} {next : Run} (legal : legal threads run op)
    (fits : NoOverflow run op) (stepped : step run op = some next) : Inv threads next := by
  cases op with
  | wakeStart tid maxWakes =>
      obtain ⟨bound, ready⟩ := legal
      change run.s.maxAllowedFutexWakeups + min maxWakes maxWakesCap < 2 ^ 32 at fits
      rw [step_wakeStart (ready.action inv) fits] at stepped
      cases Option.some.inj stepped
      refine inv.moves bound ⟨rfl, rfl⟩ (ready.action inv) ?_ ?_ ?_ fits
      · rintro (h | h) <;> cases h
      · have := ready.leak
        simp [allowance, Run.enter, Counters.setJoin] at *
        omega
      · exact Nat.le_trans inv.bounded (Nat.le_add_right _ _)
  | kernelWake tid =>
      cases Option.some.inj stepped
      exact ⟨inv.action, inv.counted, inv.total, inv.bounded, inv.word⟩
  | wakeEnd tid wokenUp =>
      obtain ⟨bound, started, le⟩ := legal
      cases Option.some.inj stepped
      refine inv.moves bound ⟨rfl, rfl⟩ rfl (fun _ => le) ?_ inv.bounded inv.word
      simp [allowance, Run.enter, started, notifyFutexWakeEnd, Counters.setJoin]
  | waitWoken tid =>
      obtain ⟨bound, ready⟩ := legal
      cases Option.some.inj stepped
      refine inv.moves bound ⟨rfl, rfl⟩ rfl ?_ ?_ inv.bounded inv.word
      · rintro (h | h) <;> cases h
      · have := ready.leak
        simp [allowance, Run.enter, notifyFutexWaitWoken, Counters.setJoin] at *
        omega
  | join tid =>
      obtain ⟨bound, notJoining⟩ := legal
      have action := inv.action tid
      cases phase : run.phase tid with
      | joining => exact absurd phase notJoining
      | idle =>
          rw [inv.step_join_none (.inl phase)] at stepped
          cases Option.some.inj stepped
          exact inv
      | started =>
          rw [inv.step_join_none (.inr phase)] at stepped
          cases Option.some.inj stepped
          exact inv
      | ended =>
          rw [phase] at action
          rw [inv.step_join_ended bound phase] at stepped
          have le := inv.allowance_le bound
          have word := inv.word
          have counted := inv.counted tid (.inl phase)
          simp only [allowance, phase] at le
          split at stepped
          · rename_i matched
            cases Option.some.inj stepped
            refine inv.moves bound ⟨rfl, (Function.update_eq_self tid _).symm⟩ action
              (fun _ => counted) ?_ matched ?_
            · simp [allowance, Run.enter, phase, remaining]
              omega
            · show remaining run.s tid < 2 ^ 32
              unfold remaining
              omega
          · cases stepped
      | woken =>
          rw [phase] at action
          rw [step_join_woken action phase, inv.futexWaitJoin] at stepped
          cases Option.some.inj stepped
          have := inv.bounded
          refine inv.moves bound ⟨rfl, rfl⟩ rfl ?_ ?_ ?_ inv.word
          · rintro (h | h) <;> cases h
          · simp [allowance, Run.enter, phase, Counters.setJoin]
          · show (if run.s.maxAllowedFutexWakeups ≤ run.s.unmatchedFutexWakeups
              then run.s.unmatchedFutexWakeups else run.s.unmatchedFutexWakeups + 1) ≤
              run.s.maxAllowedFutexWakeups
            split <;> omega
  | recheck tid =>
      obtain ⟨bound, joining⟩ := legal
      have le := inv.allowance_le bound
      have word := inv.word
      have bounded := inv.bounded
      simp only [allowance, joining] at le
      rw [inv.step_recheck bound joining] at stepped
      cases Option.some.inj stepped
      split
      · refine inv.moves bound ⟨rfl, rfl⟩ rfl ?_ ?_ ?_ ?_
        · rintro (h | h) <;> cases h
        · simp [allowance, Run.enter, joining, Counters.setJoin]
          omega
        · exact Nat.sub_le_sub_right bounded _
        · exact Nat.lt_of_le_of_lt (Nat.sub_le _ _) word
      · exact inv
  | timeout tid =>
      obtain ⟨bound, joining⟩ := legal
      have le := inv.allowance_le bound
      simp only [allowance, joining] at le
      rw [inv.step_timeout bound joining] at stepped
      cases Option.some.inj stepped
      refine inv.moves bound ⟨rfl, rfl⟩ rfl ?_ ?_ (Nat.zero_le _) ?_
      · rintro (h | h) <;> cases h
      · simp [allowance, Run.enter, joining, Counters.setJoin]
        omega
      · exact Nat.lt_of_le_of_lt (Nat.sub_le _ _) inv.word

/-- The only assertion that can fail is the one on the unmatched reports. -/
theorem Inv.step_none_iff (inv : Inv threads run) {op : Op} (legal : legal threads run op)
    (fits : NoOverflow run op) : Futex.step run op = none ↔
      ∃ tid, op = .join tid ∧ run.phase tid = .ended ∧
        remaining run.s tid < run.s.unmatchedFutexWakeups := by
  cases op with
  | wakeStart tid maxWakes =>
      rw [step_wakeStart (legal.2.action inv) fits]
      simp
  | kernelWake tid => simp [Futex.step]
  | wakeEnd tid wokenUp => simp [Futex.step]
  | waitWoken tid => simp [Futex.step]
  | join tid =>
      obtain ⟨bound, notJoining⟩ := legal
      have action := inv.action tid
      cases phase : run.phase tid with
      | joining => exact absurd phase notJoining
      | idle =>
          rw [inv.step_join_none (.inl phase)]
          simp [phase]
      | started =>
          rw [inv.step_join_none (.inr phase)]
          simp [phase]
      | ended =>
          rw [inv.step_join_ended bound phase]
          simp [phase]
      | woken =>
          rw [phase] at action
          rw [step_join_woken action phase]
          simp [phase]
  | recheck tid =>
      rw [inv.step_recheck legal.1 legal.2]
      simp
  | timeout tid =>
      rw [inv.step_timeout legal.1 legal.2]
      simp

/-! ## Runs in which every report is counted -/

/-- What a waker has woken and not yet matched. -/
def need (run : Run) (tid : Nat) : Nat :=
  match run.phase tid with
  | .started | .ended | .joining => run.wakes tid
  | .idle | .woken => 0

/-- A thread that was woken and has not joined. -/
def report (run : Run) (tid : Nat) : Nat := if run.phase tid = .woken then 1 else 0

structure SimInv (threads : Nat) (run : Run) : Prop where
  inv : Inv threads run
  atMost : ∀ t, run.phase t = .started → run.wakes t ≤ (run.s.futexJoin t).maxWakes
  exact : ∀ t, run.phase t = .ended ∨ run.phase t = .joining →
    (run.s.futexJoin t).wokenUp = run.wakes t
  balance : run.s.unmatchedFutexWakeups + run.unreported + ∑ t ∈ range threads, report run t ≤
    ∑ t ∈ range threads, need run t

theorem SimInv.init (threads : Nat) : SimInv threads Run.start where
  inv := Inv.init threads
  atMost _ started := by simp [Run.start] at started
  exact _ busy := by simp [Run.start] at busy
  balance := by simp [Run.start, report, need, Futex.init]

theorem SimInv.moves (sim : SimInv threads run) (bound : tid < threads) {next : Run} {phase : Phase}
    {info : FutexJoinInfo} (inv : Inv threads next) (moves : Moves run next tid phase info)
    (wakes : ∀ t, t ≠ tid → next.wakes t = run.wakes t)
    (atMost : phase = .started → next.wakes tid ≤ info.maxWakes)
    (exact : phase = .ended ∨ phase = .joining → info.wokenUp = next.wakes tid)
    (balance : next.s.unmatchedFutexWakeups + next.unreported + report next tid + need run tid ≤
      run.s.unmatchedFutexWakeups + run.unreported + report run tid + need next tid) :
    SimInv threads next where
  inv := inv
  atMost t started := by
    rw [moves.phase] at started
    rw [moves.info]
    by_cases here : t = tid
    · rw [here, Function.update_self] at started ⊢
      exact atMost started
    · rw [Function.update_of_ne here] at started ⊢
      rw [wakes t here]
      exact sim.atMost t started
  exact t busy := by
    rw [moves.phase] at busy
    rw [moves.info]
    by_cases here : t = tid
    · rw [here, Function.update_self] at busy ⊢
      exact exact busy
    · rw [Function.update_of_ne here] at busy ⊢
      rw [wakes t here]
      exact sim.exact t busy
  balance := by
    have reports := sum_change (f := report run) (g := report next) bound fun t other => by
      unfold report
      rw [moves.phase, Function.update_of_ne other]
    have needs := sum_change (f := need run) (g := need next) bound fun t other => by
      unfold need
      rw [moves.phase, Function.update_of_ne other, wakes t other]
    have := sim.balance
    omega

theorem Ready.settled (ready : Ready run tid) : need run tid = 0 ∧ report run tid = 0 := by
  unfold need report
  rcases ready with idle | ⟨started, none⟩
  · simp [idle]
  · simp [started, none]

theorem SimInv.matched (sim : SimInv threads run) (bound : tid < threads)
    (ended : run.phase tid = .ended) : run.s.unmatchedFutexWakeups ≤ remaining run.s tid := by
  let left : Nat → Nat := fun t => if t = tid then (run.s.futexJoin tid).wokenUp else allowance run t
  have covered : ∑ t ∈ range threads, need run t ≤ ∑ t ∈ range threads, left t := by
    refine sum_le_sum fun t _ => ?_
    have counted := sim.inv.counted t
    have exact := sim.exact t
    have atMost := sim.atMost t
    by_cases here : t = tid
    · subst here
      simp only [left, if_pos]
      simp [need, ended, exact]
    · simp only [left, if_neg here]
      cases phase : run.phase t <;> simp [need, allowance, phase] at * <;> omega
  have changed := sum_change (f := allowance run) (g := left) bound fun t other => if_neg other
  have total := sim.inv.total
  have balance := sim.balance
  have counted := sim.inv.counted tid (.inl ended)
  have after : left tid = (run.s.futexJoin tid).wokenUp := if_pos rfl
  have before : allowance run tid = (run.s.futexJoin tid).maxWakes := by simp [allowance, ended]
  unfold remaining
  omega

theorem SimInv.step (sim : SimInv threads run) {op : Op} (legal : legal threads run op)
    (fits : NoOverflow run op) (simulated : Simulated run op) :
    ∃ next, Futex.step run op = some next ∧ SimInv threads next := by
  have inv := sim.inv
  cases stepped : Futex.step run op with
  | none =>
      obtain ⟨tid, rfl, ended, panics⟩ := (inv.step_none_iff legal fits).mp stepped
      exact absurd (sim.matched legal.1 ended) (Nat.not_le.mpr panics)
  | some next =>
      refine ⟨next, rfl, ?_⟩
      have inv' := inv.step legal fits stepped
      cases op with
      | wakeStart tid maxWakes =>
          obtain ⟨bound, ready⟩ := legal
          rw [step_wakeStart (ready.action inv) fits] at stepped
          cases Option.some.inj stepped
          obtain ⟨needs, reports⟩ := ready.settled
          refine sim.moves bound inv' ⟨rfl, rfl⟩ (fun t other => Function.update_of_ne other _ _)
            (fun _ => ?_) ?_ ?_
          · show Function.update run.wakes tid 0 tid ≤ _
            rw [Function.update_self]
            exact Nat.zero_le _
          · rintro (h | h) <;> cases h
          · rw [needs, reports]
            simp [report, need, Run.enter, Counters.setJoin]
      | kernelWake tid =>
          obtain ⟨bound, started, more⟩ := legal
          cases Option.some.inj stepped
          refine sim.moves bound inv' ⟨(Function.update_eq_self tid _).symm,
            (Function.update_eq_self tid _).symm⟩ (fun t other => Function.update_of_ne other _ _)
            (fun _ => ?_) ?_ ?_
          · show Function.update run.wakes tid (run.wakes tid + 1) tid ≤ _
            rw [Function.update_self]
            exact more
          · rw [started]
            rintro (h | h) <;> cases h
          · simp [report, need, started]
            omega
      | wakeEnd tid wokenUp =>
          obtain ⟨bound, started, le⟩ := legal
          cases Option.some.inj stepped
          refine sim.moves bound inv' ⟨rfl, rfl⟩ (fun _ _ => rfl) ?_ (fun _ => simulated) ?_
          · intro h
            cases h
          · simp [report, need, Run.enter, started, notifyFutexWakeEnd, Counters.setJoin]
      | waitWoken tid =>
          obtain ⟨bound, ready⟩ := legal
          obtain ⟨needs, reports⟩ := ready.settled
          cases Option.some.inj stepped
          change 0 < run.unreported at simulated
          refine sim.moves bound inv' ⟨rfl, rfl⟩ (fun _ _ => rfl) ?_ ?_ ?_
          · intro h
            cases h
          · rintro (h | h) <;> cases h
          · rw [needs, reports]
            simp [report, need, Run.enter, notifyFutexWaitWoken, Counters.setJoin]
            omega
      | join tid =>
          obtain ⟨bound, notJoining⟩ := legal
          have action := inv.action tid
          cases phase : run.phase tid with
          | joining => exact absurd phase notJoining
          | idle =>
              rw [inv.step_join_none (.inl phase)] at stepped
              cases Option.some.inj stepped
              exact sim
          | started =>
              rw [inv.step_join_none (.inr phase)] at stepped
              cases Option.some.inj stepped
              exact sim
          | ended =>
              rw [inv.step_join_ended bound phase, if_pos (sim.matched bound phase)] at stepped
              cases Option.some.inj stepped
              refine sim.moves bound inv' ⟨rfl, (Function.update_eq_self tid _).symm⟩ (fun _ _ => rfl)
                ?_ (fun _ => sim.exact tid (.inl phase)) ?_
              · intro h
                cases h
              · simp [report, need, Run.enter, phase]
          | woken =>
              rw [phase] at action
              rw [step_join_woken action phase, inv.futexWaitJoin] at stepped
              cases Option.some.inj stepped
              refine sim.moves bound inv' ⟨rfl, rfl⟩ (fun _ _ => rfl) ?_ ?_ ?_
              · intro h
                cases h
              · rintro (h | h) <;> cases h
              · simp [report, need, Run.enter, phase, Counters.setJoin]
                split <;> omega
      | recheck tid =>
          obtain ⟨bound, joining⟩ := legal
          have exact := sim.exact tid (.inr joining)
          rw [inv.step_recheck bound joining] at stepped
          cases Option.some.inj stepped
          split at inv'
          · rename_i through
            rw [if_pos through]
            refine sim.moves bound inv' ⟨rfl, rfl⟩ (fun _ _ => rfl) ?_ ?_ ?_
            · intro h
              cases h
            · rintro (h | h) <;> cases h
            · simp [report, need, Run.enter, joining, Counters.setJoin]
              omega
          · rename_i again
            rw [if_neg again]
            exact sim
      | timeout tid => exact absurd simulated id

/-! ## Runs -/

/-- The counters at a point of a run. -/
structure Matched (threads : Nat) (run : Run) : Prop where
  bounded : run.s.unmatchedFutexWakeups ≤ run.s.maxAllowedFutexWakeups
  /-- no subtraction from the allowance goes below 0 -/
  noUnderflow : ∀ tid < threads,
    (run.phase tid = .ended →
      (run.s.futexJoin tid).wokenUp ≤ (run.s.futexJoin tid).maxWakes ∧
      (run.s.futexJoin tid).maxWakes ≤ run.s.maxAllowedFutexWakeups) ∧
    (run.phase tid = .joining →
      (run.s.futexJoin tid).wokenUp ≤ run.s.maxAllowedFutexWakeups)
  /-- the one assertion that can fail is that the unmatched reports fit what is left -/
  asserts : ∀ op, legal threads run op → NoOverflow run op → (step run op = none ↔
    ∃ tid, op = .join tid ∧ run.phase tid = .ended ∧
      remaining run.s tid < run.s.unmatchedFutexWakeups)
  /-- nothing is left when no wake call is open and every thread has joined -/
  settled : (∀ tid < threads, run.phase tid = .idle) → run.abandoned = 0 →
    run.s.maxAllowedFutexWakeups = 0 ∧ run.s.unmatchedFutexWakeups = 0

theorem Inv.isMatched (inv : Inv threads run) : Matched threads run where
  bounded := inv.bounded
  noUnderflow tid bound := by
    have le := inv.allowance_le bound
    refine ⟨fun ended => ⟨inv.counted tid (.inl ended), ?_⟩, fun joining => ?_⟩
    · simpa [allowance, ended] using le
    · simpa [allowance, joining] using le
  asserts op legal fits := inv.step_none_iff legal fits
  settled idle none := by
    have empty : ∑ t ∈ range threads, allowance run t = 0 :=
      sum_eq_zero fun t member => by simp [allowance, idle t (mem_range.mp member)]
    have := inv.total
    have := inv.bounded
    omega

/-- The counters match in every run, with external wakes and timeouts, as far as
it goes; and a run in which every report comes from a thread that a simulated
waker has woken and counted, without timeouts, goes to its end. -/
theorem futex_wakes_match (threads : Nat) (ops : List Op)
    (legal : ((machine threads).restrict NoOverflow).LegalRun ops Run.start) :
    (∀ run, (machine threads).exec ops Run.start = some run → Matched threads run) ∧
    ((machine threads).Along Simulated ops Run.start →
      ∃ run, (machine threads).exec ops Run.start = some run) := by
  constructor
  · intro run reached
    have keeps : ∀ s op next, Inv threads s → (machine threads).legal s op → NoOverflow s op →
        (machine threads).step s op = some next → Inv threads next :=
      fun s op next inv allowed fits stepped => inv.step allowed fits stepped
    exact (Machine.exec_keeps_restrict keeps (Inv.init threads) legal reached).isMatched
  · intro simulated
    have preserves : (((machine threads).restrict NoOverflow).restrict Simulated).Preserves
        (SimInv threads) :=
      fun s op sim allowed => sim.step allowed.1.1 allowed.1.2 allowed.2
    have meets := ((machine threads).along_restrict NoOverflow Simulated ops Run.start).mpr simulated
    obtain ⟨run, reached, -⟩ := preserves.exec_restrict (SimInv.init threads) (legal.restrict meets)
    rw [Machine.restrict_exec] at reached
    exact ⟨run, reached⟩

end

/-- A waiter that reports before its waker joins, and one that reports after. -/
theorem futex_wakes_match_two :
    (∀ run, (machine 4).exec
      [.wakeStart 0 5, .kernelWake 0, .waitWoken 1, .join 1, .wakeEnd 0 1, .wakeStart 2 1,
        .kernelWake 2, .wakeEnd 2 1, .join 2, .join 0, .recheck 0, .recheck 2, .waitWoken 3,
        .join 3, .recheck 2] Run.start = some run → Matched 4 run) ∧
    ((machine 4).Along Simulated
      [.wakeStart 0 5, .kernelWake 0, .waitWoken 1, .join 1, .wakeEnd 0 1, .wakeStart 2 1,
        .kernelWake 2, .wakeEnd 2 1, .join 2, .join 0, .recheck 0, .recheck 2, .waitWoken 3,
        .join 3, .recheck 2] Run.start →
      ∃ run, (machine 4).exec
        [.wakeStart 0 5, .kernelWake 0, .waitWoken 1, .join 1, .wakeEnd 0 1, .wakeStart 2 1,
          .kernelWake 2, .wakeEnd 2 1, .join 2, .join 0, .recheck 0, .recheck 2, .waitWoken 3,
          .join 3, .recheck 2] Run.start = some run) :=
  futex_wakes_match 4
    [.wakeStart 0 5, .kernelWake 0, .waitWoken 1, .join 1, .wakeEnd 0 1, .wakeStart 2 1,
      .kernelWake 2, .wakeEnd 2 1, .join 2, .join 0, .recheck 0, .recheck 2, .waitWoken 3,
      .join 3, .recheck 2] (by decide +kernel)

/-- Where the counters do not match: a waker has ended but not joined; a wake call
failed; an unsimulated process wakes a thread while a waker is under way; a thread
whose waker gave up reports while another waker is under way; the allowance of 256
wakers wraps. -/
theorem futex_wakes_mismatch :
    (∃ run, (machine 1).exec [.wakeStart 0 1, .wakeEnd 0 0] Run.start = some run ∧
      (machine 1).LegalRun [.wakeStart 0 1, .wakeEnd 0 0] Run.start ∧
      (∀ tid < 1, run.phase tid ≠ .started ∧ run.phase tid ≠ .woken) ∧
      run.s.maxAllowedFutexWakeups = 1) ∧
    (∃ run, (machine 1).exec [.wakeStart 0 5, .wakeStart 0 1, .wakeEnd 0 0, .join 0, .recheck 0]
        Run.start = some run ∧
      (machine 1).LegalRun [.wakeStart 0 5, .wakeStart 0 1, .wakeEnd 0 0, .join 0, .recheck 0]
        Run.start ∧
      (∀ tid < 1, run.phase tid = .idle) ∧ run.s.maxAllowedFutexWakeups = 5) ∧
    ((machine 2).LegalRun [.wakeStart 0 10, .waitWoken 1, .join 1, .wakeEnd 0 0, .join 0] Run.start ∧
      (machine 2).exec [.wakeStart 0 10, .waitWoken 1, .join 1, .wakeEnd 0 0, .join 0]
        Run.start = none) ∧
    ((machine 3).LegalRun [.wakeStart 0 1, .kernelWake 0, .wakeEnd 0 1, .join 0, .timeout 0,
        .wakeStart 2 10, .waitWoken 1, .join 1, .wakeEnd 2 0, .join 2] Run.start ∧
      (machine 3).exec [.wakeStart 0 1, .kernelWake 0, .wakeEnd 0 1, .join 0, .timeout 0,
        .wakeStart 2 10, .waitWoken 1, .join 1, .wakeEnd 2 0, .join 2] Run.start = none) ∧
    ((machine 256).LegalRun ((List.range 256).map (.wakeStart · (2 ^ 31 - 1)) ++
        [.wakeEnd 0 0, .join 0]) Run.start ∧
      (machine 256).exec ((List.range 256).map (.wakeStart · (2 ^ 31 - 1)) ++
        [.wakeEnd 0 0, .join 0]) Run.start = none) := by
  refine ⟨⟨_, rfl, by decide, by decide, by decide⟩, ⟨_, rfl, by decide, by decide, by decide⟩,
    ⟨by decide, rfl⟩, ⟨by decide, rfl⟩, by decide +kernel, ?_⟩
  exact Option.isNone_iff_eq_none.mp (by decide +kernel)

end Zsim.Futex
