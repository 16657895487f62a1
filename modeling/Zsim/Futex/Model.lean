import Mathlib.Logic.Function.Basic
import Zsim.Lib.Machine
import Zsim.Lib.Word

/-!
# Futex wake matching

The part of scheduler.cpp that matches the joins of threads woken by a FUTEX_WAKE
with the join of the thread that woke them.  The two counters are `uint32_t`; a
function returns `none` where an assertion fails.  `futexWakeJoin` releases the
scheduler lock while it waits, so it is three critical sections here: its entry,
the check after each wait and the exit after about two seconds.
-/

set_option autoImplicit false

namespace Zsim.Futex

inductive FutexJoinAction where
  | none
  | wake
  | wait
  deriving DecidableEq

structure FutexJoinInfo where
  action : FutexJoinAction
  maxWakes : Nat
  wokenUp : Nat

structure Counters where
  /-- the `futexJoin` of every thread -/
  futexJoin : Nat → FutexJoinInfo
  maxAllowedFutexWakeups : Nat
  unmatchedFutexWakeups : Nat

def init : Counters where
  futexJoin _ := ⟨.none, 0, 0⟩
  maxAllowedFutexWakeups := 0
  unmatchedFutexWakeups := 0

def Counters.setJoin (s : Counters) (tid : Nat) (info : FutexJoinInfo) : Counters :=
  { s with futexJoin := Function.update s.futexJoin tid info }

/-- 16M wakes -/
def maxWakesCap : Nat := 2 ^ 24

def notifyFutexWakeStart (s : Counters) (tid maxWakes : Nat) : Option Counters :=
  let th := s.futexJoin tid
  if th.action = .none then
    let maxWakes := min maxWakes maxWakesCap
    some { s.setJoin tid { th with maxWakes := maxWakes } with
      maxAllowedFutexWakeups := u32 (s.maxAllowedFutexWakeups + maxWakes) }
  else none

def notifyFutexWakeEnd (s : Counters) (tid wokenUp : Nat) : Counters :=
  s.setJoin tid { s.futexJoin tid with action := .wake, wokenUp := wokenUp }

def notifyFutexWaitWoken (s : Counters) (tid : Nat) : Counters :=
  s.setJoin tid ⟨.wait, 0, 0⟩

/-- `futexWakeJoin` up to its first wait. -/
def futexWakeJoin (s : Counters) (tid : Nat) : Option Counters :=
  let th := s.futexJoin tid
  -- adjust allowance
  if th.maxWakes ≤ s.maxAllowedFutexWakeups ∧ th.wokenUp ≤ th.maxWakes then
    let maxAllowed := u32Sub s.maxAllowedFutexWakeups (th.maxWakes - th.wokenUp)
    if s.unmatchedFutexWakeups ≤ maxAllowed then some { s with maxAllowedFutexWakeups := maxAllowed }
    else none
  else none

/-- The check of `futexWakeJoin` with the lock held again: whether the join is
through, which then resets the action. -/
def futexWakeRecheck (s : Counters) (tid : Nat) : Counters × Bool :=
  let th := s.futexJoin tid
  if th.wokenUp ≤ s.unmatchedFutexWakeups then
    ({ s.setJoin tid { th with action := .none } with
      unmatchedFutexWakeups := u32Sub s.unmatchedFutexWakeups th.wokenUp
      maxAllowedFutexWakeups := u32Sub s.maxAllowedFutexWakeups th.wokenUp }, true)
  else (s, false)

/-- `futexWakeJoin` gives up. -/
def futexWakeTimeout (s : Counters) (tid : Nat) : Counters :=
  let th := s.futexJoin tid
  { s.setJoin tid { th with action := .none } with
    unmatchedFutexWakeups := 0
    maxAllowedFutexWakeups := u32Sub s.maxAllowedFutexWakeups th.wokenUp }

def futexWaitJoin (s : Counters) : Counters :=
  if s.maxAllowedFutexWakeups ≤ s.unmatchedFutexWakeups then s
  else { s with unmatchedFutexWakeups := u32 (s.unmatchedFutexWakeups + 1) }

/-- The futex check of `Scheduler::join`; a waker stays in it until its recheck or
its timeout. -/
def join (s : Counters) (tid : Nat) : Option Counters :=
  let th := s.futexJoin tid
  match th.action with
  | .none => some s
  | .wait => some ((futexWaitJoin s).setJoin tid { th with action := .none })
  | .wake => futexWakeJoin s tid

/-! ## Threads -/

/-- Where a thread stands between its system call and the end of its join. -/
inductive Phase where
  | idle
  | started
  | ended
  | joining
  | woken
  deriving DecidableEq

/-- The counters with what the notifications report about: the phase of every
thread, how many threads its current wake call has woken, how many threads woken
so have not reported yet, and the allowance of wake calls that failed. -/
structure Run where
  s : Counters
  phase : Nat → Phase
  wakes : Nat → Nat
  unreported : Nat
  abandoned : Nat

def Run.start : Run := ⟨init, fun _ => .idle, fun _ => 0, 0, 0⟩

inductive Op where
  | wakeStart (tid maxWakes : Nat)
  | kernelWake (tid : Nat)
  | wakeEnd (tid wokenUp : Nat)
  | waitWoken (tid : Nat)
  | join (tid : Nat)
  | recheck (tid : Nat)
  | timeout (tid : Nat)

/-- The thread has no futex call to settle; one whose wake call failed has woken
nobody and reports no end. -/
def Ready (run : Run) (tid : Nat) : Prop :=
  run.phase tid = .idle ∨ run.phase tid = .started ∧ run.wakes tid = 0

instance (run : Run) (tid : Nat) : Decidable (Ready run tid) := inferInstanceAs (Decidable (_ ∨ _))

/-- The order in which a thread makes its calls: a wake call starts, wakes at most
as many threads as it may and ends; then comes the join. -/
def legal (threads : Nat) (run : Run) : Op → Prop
  | .wakeStart tid _ => tid < threads ∧ Ready run tid
  | .kernelWake tid => tid < threads ∧ run.phase tid = .started ∧
      run.wakes tid < (run.s.futexJoin tid).maxWakes
  | .wakeEnd tid wokenUp => tid < threads ∧ run.phase tid = .started ∧
      wokenUp ≤ (run.s.futexJoin tid).maxWakes
  | .waitWoken tid => tid < threads ∧ Ready run tid
  | .join tid => tid < threads ∧ run.phase tid ≠ .joining
  | .recheck tid | .timeout tid => tid < threads ∧ run.phase tid = .joining

/-- The allowance that a call after a failed wake call leaves behind. -/
def Run.leak (run : Run) (tid : Nat) : Nat :=
  if run.phase tid = .started then run.abandoned + (run.s.futexJoin tid).maxWakes else run.abandoned

def Run.enter (run : Run) (tid : Nat) (phase : Phase) (s : Counters) : Run :=
  { run with s := s, phase := Function.update run.phase tid phase }

def step (run : Run) : Op → Option Run
  | .wakeStart tid maxWakes => (notifyFutexWakeStart run.s tid maxWakes).map fun s =>
      { run.enter tid .started s with
        wakes := Function.update run.wakes tid 0
        abandoned := run.leak tid }
  | .kernelWake tid => some { run with
      wakes := Function.update run.wakes tid (run.wakes tid + 1)
      unreported := run.unreported + 1 }
  | .wakeEnd tid wokenUp => some (run.enter tid .ended (notifyFutexWakeEnd run.s tid wokenUp))
  | .waitWoken tid => some { run.enter tid .woken (notifyFutexWaitWoken run.s tid) with
      unreported := run.unreported - 1
      abandoned := run.leak tid }
  | .join tid => (join run.s tid).map fun s =>
      match run.phase tid with
      | .woken => run.enter tid .idle s
      | .ended => run.enter tid .joining s
      | phase => run.enter tid phase s
  | .recheck tid => match futexWakeRecheck run.s tid with
      | (s, true) => some (run.enter tid .idle s)
      | (s, false) => some { run with s := s }
  | .timeout tid => some (run.enter tid .idle (futexWakeTimeout run.s tid))

def machine (threads : Nat) : Machine Run Op := ⟨legal threads, step⟩

def NoOverflow (run : Run) : Op → Prop
  | .wakeStart _ maxWakes => run.s.maxAllowedFutexWakeups + min maxWakes maxWakesCap < 2 ^ 32
  | _ => True

/-- Every thread that reports was woken by a simulated thread, which counted it,
and no join gives up. -/
def Simulated (run : Run) : Op → Prop
  | .waitWoken _ => 0 < run.unreported
  | .wakeEnd tid wokenUp => wokenUp = run.wakes tid
  | .timeout _ => False
  | _ => True

instance (threads : Nat) (run : Run) : (op : Op) → Decidable ((machine threads).legal run op)
  | .wakeStart tid _ => inferInstanceAs (Decidable (tid < threads ∧ Ready run tid))
  | .kernelWake tid => inferInstanceAs (Decidable (tid < threads ∧ run.phase tid = .started ∧
      run.wakes tid < (run.s.futexJoin tid).maxWakes))
  | .wakeEnd tid wokenUp => inferInstanceAs (Decidable (tid < threads ∧ run.phase tid = .started ∧
      wokenUp ≤ (run.s.futexJoin tid).maxWakes))
  | .waitWoken tid => inferInstanceAs (Decidable (tid < threads ∧ Ready run tid))
  | .join tid => inferInstanceAs (Decidable (tid < threads ∧ run.phase tid ≠ .joining))
  | .recheck tid | .timeout tid =>
      inferInstanceAs (Decidable (tid < threads ∧ run.phase tid = .joining))

instance (run : Run) : (op : Op) → Decidable (NoOverflow run op)
  | .wakeStart _ maxWakes => inferInstanceAs (Decidable
      (run.s.maxAllowedFutexWakeups + min maxWakes maxWakesCap < 2 ^ 32))
  | .kernelWake _ | .wakeEnd _ _ | .waitWoken _ | .join _ | .recheck _ | .timeout _ =>
      .isTrue trivial

instance (run : Run) : (op : Op) → Decidable (Simulated run op)
  | .waitWoken _ => inferInstanceAs (Decidable (0 < run.unreported))
  | .wakeEnd tid wokenUp => inferInstanceAs (Decidable (wokenUp = run.wakes tid))
  | .timeout _ => .isFalse id
  | .wakeStart _ _ | .kernelWake _ | .join _ | .recheck _ => .isTrue trivial

end Zsim.Futex
