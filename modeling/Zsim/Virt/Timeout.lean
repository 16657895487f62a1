import Zsim.Lib.Machine
import Zsim.Lib.Word
import Zsim.Scheduler.Model
import Mathlib.Algebra.Ring.Int.Defs

/-!
# Timeout virtualization

timeout.cpp, and what `SyscallEnter` and `SyscallExit` do around it, for one thread.  The
thread's registers and pointers are its own; its `ThreadInfo` is also changed by the calls of
other threads, by the end of a phase and by the watchdog, each with `schedLock` held.  A function
returns `none` where an assertion fails.  What `PatchFutex` notifies the scheduler of is in
`Zsim.Futex`.
-/

set_option autoImplicit false

namespace Zsim

/-! ## The thread in the scheduler -/

/-- A thread of the scheduler and whether it is on `sleepQueue`. -/
structure Sleeper where
  th : Scheduler.ThreadInfo
  onSleepQueue : Bool

namespace Sleeper

/-- A thread is on `sleepQueue` while it is SLEEPING, whenever nobody holds the lock. -/
def QueueOk (s : Sleeper) : Prop := s.onSleepQueue = true ↔ s.th.state = .sleeping

instance (s : Sleeper) : Decidable s.QueueOk := inferInstanceAs (Decidable (_ ↔ _))

def markForSleep (s : Sleeper) (wakeupPhase : Nat) : Option Sleeper :=
  if s.th.markedForSleep = true then none
  else some { s with th := { s.th with
    markedForSleep := true, wakeupPhase := wakeupPhase, futexWord := 1 } }

def isSleeping (s : Sleeper) : Bool := s.th.state = .sleeping

def notifySleepEnd (s : Sleeper) : Option Sleeper :=
  if s.th.markedForSleep = true then none
  else match s.th.state with
    | .blocked => some s
    | .sleeping =>
        if s.onSleepQueue = true then some ⟨{ s.th with state := .blocked }, false⟩ else none
    | _ => none

/-- `leave`; `taken` says whether another thread takes the context at once. -/
def leave (s : Sleeper) (taken : Bool) : Option Sleeper :=
  if s.th.state = .running then
    if s.th.markedForSleep = true then
      some ⟨{ s.th with markedForSleep := false, state := .sleeping }, true⟩
    else some { s with th := { s.th with state := if taken then .blocked else .out } }
  else none

def syscallLeave (s : Sleeper) (blacklisted taken : Bool) : Option Sleeper :=
  if s.th.state = .running then
    if blacklisted = true ∨ s.th.markedForSleep = true then s.leave taken
    else some { s with th := { s.th with fakeLeave := true } }
  else none

def finishFakeLeave (s : Sleeper) : Option Sleeper :=
  if s.th.fakeLeave = true ∧ s.th.state = .running then
    some { s with th := { s.th with fakeLeave := false } }
  else none

/-- The end of the phase in which the deadline is met. -/
def wake (s : Sleeper) : Sleeper := ⟨{ s.th with state := .blocked }, false⟩

/-- The context of a thread that is OUT goes to another one. -/
def steal (s : Sleeper) : Sleeper := { s with th := { s.th with state := .blocked } }

/-- `finish`, up to the deletion; `woken` if the deadline is met between its calls. -/
def finish (s : Sleeper) (taken woken : Bool) : Option Unit := do
  let left ← if s.th.fakeLeave = true then do (← s.finishFakeLeave).leave taken else some s
  let left := if woken = true ∧ left.isSleeping = true then left.wake else left
  let left ← if left.th.state = .running then left.leave taken else some left
  if left.th.state ∈ [.started, .out, .blocked, .queued] then some () else none

end Sleeper

namespace Scheduler

variable {s s' : Scheduler} {gid : Nat}

def sleeper (s : Scheduler) (gid : Nat) : Option Sleeper :=
  (s.threads gid).map fun th => ⟨th, decide (gid ∈ s.queue .sleepQueue)⟩

theorem sleeper_of_threads {th : ThreadInfo} (here : s.threads gid = some th) :
    s.sleeper gid = some ⟨th, decide (gid ∈ s.queue .sleepQueue)⟩ := by
  simp [sleeper, here]

theorem markForSleep_sleeper {wakeupPhase : Nat} (run : s.markForSleep gid wakeupPhase = some s') :
    s'.sleeper gid = (s.sleeper gid).bind (·.markForSleep wakeupPhase) := by
  obtain ⟨th, here, run⟩ := Option.bind_eq_some_iff.mp run
  simp only [Option.ite_none_right_eq_some, Option.some.injEq] at run
  obtain ⟨⟨-, unmarked⟩, rfl⟩ := run
  rw [sleeper_of_threads here]
  simp only [sleeper, setThread, Function.update_self, Option.map_some, Option.bind_some,
    Sleeper.markForSleep, unmarked, Bool.false_eq_true, if_false]
  rfl

theorem notifySleepEnd_sleeper (apart : (s.queue .sleepQueue).Nodup)
    (run : s.notifySleepEnd gid = some s') :
    s'.sleeper gid = (s.sleeper gid).bind (·.notifySleepEnd) := by
  obtain ⟨th, here, run⟩ := Option.bind_eq_some_iff.mp run
  simp only [Option.ite_none_right_eq_some] at run
  obtain ⟨⟨-, unmarked⟩, run⟩ := run
  simp only [sleeper_of_threads here, Option.bind_some, Sleeper.notifySleepEnd, unmarked,
    Bool.false_eq_true, if_false]
  cases state : th.state with
  | blocked =>
      rw [state] at run
      cases run
      exact sleeper_of_threads here
  | sleeping =>
      rw [state] at run
      obtain ⟨awake, removed, last⟩ := Option.bind_eq_some_iff.mp run
      cases last
      simp only [remove, Option.ite_none_right_eq_some, Option.some.injEq] at removed
      obtain ⟨owned, rfl⟩ := removed
      have member : gid ∈ s.queue .sleepQueue := by
        unfold owner at owned
        grind
      have off : gid ∉ (s.queue .sleepQueue).erase gid := apart.not_mem_erase
      simp [unmarked, member, sleeper, setThread, setQueue, off]
  | _ =>
      rw [state] at run
      cases run

end Scheduler

/-! ## The patches -/

namespace Timeout

inductive Syscall where
  | poll | futex | epollWait | epollPwait
  deriving DecidableEq, Repr

def Syscall.number : Syscall → Int
  | .poll => 7
  | .futex => 202
  | .epollWait => 232
  | .epollPwait => 281

def Syscall.ofNumber (number : Int) : Option Syscall :=
  [.poll, .futex, .epollWait, .epollPwait].find? fun syscall => syscall.number = number

structure Timespec where
  tv_sec : Int
  tv_nsec : Int

/-- The simulator's variables, and the memory of the process that is read. -/
structure Zinfo where
  freqMHz : Nat
  phaseLength : Nat
  numPhases : Nat
  numPhases_lt : numPhases < 2 ^ 64
  globPhaseCycles : Nat
  realtimeOffsetNs : Nat
  blockingSyscalls : Bool
  /-- the `timespec` at an address -/
  timespec : Nat → Timespec
  /-- `&fakeTimeouts[tid]`, which holds 20ms -/
  fakeTimeout : Nat

/-- The registers; `number` is that of the system call and then its result. -/
structure Context where
  ip : Nat
  number : Int
  arg : Nat → Nat

def Context.setArg (ctxt : Context) (i value : Nat) : Context :=
  { ctxt with arg := Function.update ctxt.arg i value }

inductive FPtr where
  | analysis | join | nop | retry
  deriving DecidableEq, Repr

inductive PostPatchAction where
  | nothing | useJoinPtrs | useRetryPtrs
  deriving DecidableEq, Repr

/-- What the post-patch function captures. -/
structure Closure where
  syscall : Syscall
  prevIp : Nat
  timeoutArgVal : Nat

structure Thread where
  ctxt : Context
  fPtrs : FPtr
  inSyscall : Bool
  inFakeTimeoutMode : Bool
  /-- `postPatchFunctions[tid]`, if it is that of a timeout system call -/
  postPatch : Option Closure
  /-- gone after `finish` -/
  sched : Option Sleeper

/-- `int` of a register. -/
def toInt (value : Nat) : Int := (value : Int).bmod (2 ^ 32)

def i64 (value : Int) : Int := value.bmod (2 ^ 64)

def isFutexWaitOp (op : Nat) : Bool :=
  let cmd := op &&& 0xFFFFFE7F
  cmd == 0 || cmd == 9 || cmd == 11

def futexClockRealtime : Nat := 256

def getTimeoutArg : Syscall → Nat
  | .poll => 2
  | _ => 3

def Zinfo.cyclesToNs (z : Zinfo) (cycles : Nat) : Nat := u64 (cycles * 1000) / z.freqMHz

/-- `waitNsec` of a futex wait, before it is compared with 0. -/
def Zinfo.futexNsec (z : Zinfo) (op : Nat) (timeout : Timespec) : Int :=
  let waitNsec := i64 (timeout.tv_sec * 1000000000 + timeout.tv_nsec)
  if op &&& futexClockRealtime ≠ 0 then
    let offsetNs := u64 (z.cyclesToNs z.globPhaseCycles + z.realtimeOffsetNs)
    if i64 offsetNs < waitNsec then i64 (waitNsec - offsetNs) else 0
  else waitNsec

/-- The part that depends on the system call: `waitNsec`, or `none` if nothing is patched. -/
def Zinfo.waitNsec (z : Zinfo) (syscall : Syscall) (ctxt : Context) : Option Int :=
  match syscall with
  | .futex =>
      let op := u32 (ctxt.arg 1)
      if ctxt.arg 0 ≠ 0 ∧ isFutexWaitOp op = true ∧ ctxt.arg 3 ≠ 0 then
        let waitNsec := z.futexNsec op (z.timespec (ctxt.arg 3))
        if waitNsec ≤ 0 then none else some waitNsec
      else none
  | _ =>
      let timeout := toInt (ctxt.arg (getTimeoutArg syscall))
      if timeout ≤ 0 then none else some (timeout * 1000 * 1000)

/-- What is put in the place of the timeout: 20ms. -/
def Zinfo.fakeArg (z : Zinfo) : Syscall → Nat
  | .futex => z.fakeTimeout
  | _ => 20

/-- At least 2; a division by 0, which traps, gives 0. -/
def Zinfo.waitPhases (z : Zinfo) (waitNsec : Int) : Nat :=
  let waitCycles := ((i64 (waitNsec * z.freqMHz)).tdiv 1000 % 2 ^ 64).toNat
  max (waitCycles / z.phaseLength) 2

def prePatchTimeoutSyscall (z : Zinfo) (syscall : Syscall) (t : Thread) : Option (Thread × Bool) :=
  if t.inFakeTimeoutMode = true then none
  else match z.waitNsec syscall t.ctxt with
    | none => some (t, false)
    | some waitNsec => do
        let marked ← (← t.sched).markForSleep (u64 (z.numPhases + z.waitPhases waitNsec))
        some ({ t with
          ctxt := t.ctxt.setArg (getTimeoutArg syscall) (z.fakeArg syscall)
          inFakeTimeoutMode := true
          sched := some marked }, true)

def patchTimeoutSyscall (z : Zinfo) (inFastForward : Bool) (t : Thread) : Option Thread :=
  if t.fPtrs = .nop ∨ inFastForward = true then some { t with postPatch := none }
  else do
    let syscall ← Syscall.ofNumber t.ctxt.number
    let (t, patched) ← prePatchTimeoutSyscall z syscall t
    if patched then
      let prevIp := t.ctxt.ip
      let timeoutArgVal := t.ctxt.arg (getTimeoutArg syscall)
      some { t with postPatch := some ⟨syscall, prevIp, timeoutArgVal⟩ }
    else some { t with postPatch := none }

/-- What others decide while `SyscallEnter` runs. -/
structure Entry where
  inFastForward : Bool
  blacklisted : Bool
  taken : Bool

/-- `SyscallEnter`, at one of the system calls that are patched here. -/
def syscallEnter (z : Zinfo) (e : Entry) (t : Thread) : Option Thread := do
  let patched ← (if t.fPtrs = .retry then some t else patchTimeoutSyscall z e.inFastForward t)
  if patched.inSyscall = true then none
  else
    let entered := { patched with inSyscall := true }
    if t.fPtrs = .nop ∨ t.fPtrs = .retry then some entered
    else if t.fPtrs ≠ .join ∧ z.blockingSyscalls = false then do
      let left ← (← entered.sched).syscallLeave e.blacklisted e.taken
      some { entered with sched := some left, fPtrs := .join }
    else some entered

/-- What the kernel returns, and what others decide while `SyscallExit` runs. -/
structure Exit where
  res : Int
  /-- the deadline is met between `isSleeping` and `notifySleepEnd` -/
  woken : Bool
  /-- fast-forwarding has started when the retry is decided, and when `SyscallExit` ends -/
  inFastForward : Bool
  stillFastForward : Bool
  taken : Bool
  wokenLate : Bool

def timedOut (syscall : Syscall) (res : Int) : Bool :=
  match syscall with
  | .futex => res = -110
  | _ => res = 0

/-- The scheduler's part: whether the call is retried, and the thread. -/
def decideRetry (e : Exit) (timedOut : Bool) (s : Sleeper) : Option (Sleeper × Bool) := do
  let isSleeping := s.isSleeping
  let s := if e.woken = true ∧ isSleeping = true then s.wake else s
  if timedOut = false then
    if isSleeping = true then some (← s.notifySleepEnd, false) else some (s, false)
  else if isSleeping = true ∧ e.inFastForward = true then some (← s.notifySleepEnd, false)
  else some (s, isSleeping)

def postPatchTimeoutSyscall (e : Exit) (c : Closure) (t : Thread) : Option (Thread × Bool) :=
  if t.inFakeTimeoutMode = false then none
  else do
    let (s, retrySyscall) ← decideRetry e (timedOut c.syscall t.ctxt.number) (← t.sched)
    if retrySyscall then
      some ({ t with
        ctxt := { t.ctxt with ip := c.prevIp, number := c.syscall.number }
        sched := some s }, true)
    else
      some ({ t with
        ctxt := t.ctxt.setArg (getTimeoutArg c.syscall) c.timeoutArgVal
        inFakeTimeoutMode := false
        sched := some s }, false)

def virtSyscallExit (e : Exit) (t : Thread) : Option (Thread × PostPatchAction) :=
  match t.postPatch with
  | none => some (t, .nothing)
  | some c => do
      let (t, retrySyscall) ← postPatchTimeoutSyscall e c t
      some (t, if retrySyscall then .useRetryPtrs else .useJoinPtrs)

def PostPatchAction.fPtrs (z : Zinfo) (t : Thread) : PostPatchAction → FPtr
  | .nothing => t.fPtrs
  | .useJoinPtrs => if z.blockingSyscalls then .analysis else .join
  | .useRetryPtrs => .retry

/-- `SyscallExit`, past the two bytes of the instruction; a process in fast-forward takes its
threads out of the scheduler. -/
def syscallExit (z : Zinfo) (e : Exit) (t : Thread) : Option Thread :=
  if t.inSyscall = false then none
  else do
    let back := { t with inSyscall := false, ctxt := { t.ctxt with ip := t.ctxt.ip + 2, number := e.res } }
    let (patched, ppa) ← virtSyscallExit e back
    let patched := { patched with fPtrs := ppa.fPtrs z patched }
    if patched.fPtrs = .join ∧ e.stillFastForward = true then do
      (← patched.sched).finish e.taken e.wokenLate
      some { patched with sched := none, fPtrs := .nop }
    else some patched

/-! ## Runs of one call -/

/-- What happens after the call is entered. -/
inductive Input where
  /-- `SyscallExit` -/
  | exit (e : Exit)
  /-- `SyscallEnter`, of a call that is retried -/
  | reenter (e : Entry)
  | wake
  | steal
  /-- the watchdog turns a fake leave into a real one -/
  | forced (taken : Bool)

/-- The program goes on behind the call. -/
def Thread.Returned (t : Thread) : Prop := t.inSyscall = false ∧ t.fPtrs ≠ .retry

instance (t : Thread) : Decidable t.Returned := inferInstanceAs (Decidable (_ ∧ _))

def Thread.schedIs (t : Thread) (cond : Sleeper → Bool) : Bool := t.sched.any cond

def legal (t : Thread) : Input → Prop
  | .exit _ => t.inSyscall = true
  | .reenter _ => t.inSyscall = false ∧ t.fPtrs = .retry
  | .wake => ¬ t.Returned ∧ t.schedIs (fun s => s.th.state = .sleeping)
  | .steal => ¬ t.Returned ∧ t.schedIs (fun s => s.th.state = .out)
  | .forced _ => ¬ t.Returned ∧ t.schedIs (fun s => s.th.fakeLeave)

def step (z : Zinfo) (t : Thread) : Input → Option Thread
  | .exit e => syscallExit z e t
  | .reenter e => syscallEnter z e t
  | .wake => some { t with sched := t.sched.map (·.wake) }
  | .steal => some { t with sched := t.sched.map (·.steal) }
  | .forced taken => do
      let left ← (← (← t.sched).finishFakeLeave).leave taken
      some { t with sched := some left }

def machine (z : Zinfo) : Machine Thread Input := ⟨legal, step z⟩

instance (z : Zinfo) (t : Thread) : ∀ input, Decidable ((machine z).legal t input)
  | .exit _ => inferInstanceAs (Decidable (t.inSyscall = true))
  | .reenter _ => inferInstanceAs (Decidable (t.inSyscall = false ∧ t.fPtrs = .retry))
  | .wake => inferInstanceAs (Decidable (¬ t.Returned ∧ t.schedIs _ = true))
  | .steal => inferInstanceAs (Decidable (¬ t.Returned ∧ t.schedIs _ = true))
  | .forced _ => inferInstanceAs (Decidable (¬ t.Returned ∧ t.schedIs _ = true))

/-- What the program can see of the patched call, entered by `t` and left by `t'`, and when the
thread has asked to be woken up; `w` is the thread in the call. -/
structure Transparent (z : Zinfo) (c : Closure) (t w t' : Thread) : Prop where
  argument : t'.ctxt.arg (getTimeoutArg c.syscall) = t.ctxt.arg (getTimeoutArg c.syscall)
  mode : t'.inFakeTimeoutMode = false
  awake : ∀ s ∈ t'.sched, s.th.markedForSleep = false ∧ s.onSleepQueue = false
  wakeup : ∀ s ∈ w.sched, ∀ nsec ∈ z.waitNsec c.syscall t.ctxt,
    z.numPhases + 2 ≤ s.th.wakeupPhase ∧
      (nsec * z.freqMHz < 2 ^ 63 →
        (z.numPhases : Int) + nsec * z.freqMHz / 1000 / z.phaseLength ≤ s.th.wakeupPhase)

def Leaves (z : Zinfo) (t : Thread) : Prop := t.fPtrs ≠ .join ∧ z.blockingSyscalls = false

instance (z : Zinfo) (t : Thread) : Decidable (Leaves z t) := inferInstanceAs (Decidable (_ ∧ _))

def Input.isForced : Input → Bool
  | .forced _ => true
  | _ => false

def Input.finishes (z : Zinfo) : Input → Bool
  | .exit e => !z.blockingSyscalls && e.stillFastForward
  | _ => false

end Timeout

/-! ## The thread during the call -/

namespace Sleeper

variable {s s' : Sleeper}

theorem notifySleepEnd_spec (run : s.notifySleepEnd = some s') :
    s'.th.markedForSleep = s.th.markedForSleep ∧ s'.th.state = .blocked ∧
      (s.QueueOk → s'.QueueOk) := by
  unfold notifySleepEnd at run
  split at run
  · cases run
  · split at run
    · next blocked =>
      cases run
      exact ⟨rfl, blocked, id⟩
    · split at run
      · cases run
        refine ⟨rfl, rfl, ?_⟩
        simp [QueueOk]
      · cases run
    · cases run

theorem leave_spec {taken : Bool} (run : s.leave taken = some s') :
    s'.th.markedForSleep = false ∧ s'.th.wakeupPhase = s.th.wakeupPhase ∧
      (s.QueueOk → s'.QueueOk) := by
  unfold leave at run
  split at run
  next running =>
    split at run
    · cases run
      simp [QueueOk]
    next unmarked =>
      cases run
      refine ⟨by simpa using unmarked, rfl, ?_⟩
      cases taken <;> simp [QueueOk, running]
  · cases run

theorem wake_ok : s.wake.QueueOk := by simp [wake, QueueOk]

theorem steal_ok (ok : s.QueueOk) (out : s.th.state = .out) : s.steal.QueueOk := by
  simp_all [steal, QueueOk]

end Sleeper

namespace Timeout

variable {z : Zinfo} {c : Closure}

/-- The deadline may be met after `isSleeping`. -/
theorem raced_spec {s : Sleeper} (ok : s.QueueOk) (woken : Bool) :
    let raced := if woken = true ∧ s.isSleeping = true then s.wake else s
    raced.th.markedForSleep = s.th.markedForSleep ∧ raced.QueueOk ∧
      (s.isSleeping = false → raced.onSleepQueue = false) := by
  intro raced
  by_cases race : woken = true ∧ s.isSleeping = true
  · have woke : raced = s.wake := if_pos race
    rw [woke]
    exact ⟨rfl, s.wake_ok, fun _ => rfl⟩
  · have same : raced = s := if_neg race
    rw [same]
    refine ⟨rfl, ok, fun awake => ?_⟩
    have notSleeping : s.th.state ≠ .sleeping := by simpa [Sleeper.isSleeping] using awake
    simpa using mt ok.mp notSleeping

theorem decideRetry_spec {e : Exit} {timedOut retry : Bool} {s s' : Sleeper} (ok : s.QueueOk)
    (run : decideRetry e timedOut s = some (s', retry)) :
    s'.th.markedForSleep = s.th.markedForSleep ∧ s'.QueueOk ∧
      (retry = false → s'.onSleepQueue = false) := by
  obtain ⟨sameMark, racedOk, awake⟩ := raced_spec ok e.woken
  simp only [decideRetry, Option.bind_eq_bind] at run
  generalize (if e.woken = true ∧ s.isSleeping = true then s.wake else s) = raced at *
  have notified : ∀ {s''}, raced.notifySleepEnd = some s'' →
      s''.th.markedForSleep = s.th.markedForSleep ∧ s''.QueueOk ∧ s''.onSleepQueue = false := by
    intro s'' notify
    obtain ⟨mark, blocked, keeps⟩ := Sleeper.notifySleepEnd_spec notify
    have okAfter := keeps racedOk
    refine ⟨mark.trans sameMark, okAfter, ?_⟩
    simpa [Sleeper.QueueOk, blocked] using okAfter
  split at run
  · split at run
    · obtain ⟨s'', notify, last⟩ := Option.bind_eq_some_iff.mp run
      cases last
      obtain ⟨mark, okAfter, off⟩ := notified notify
      exact ⟨mark, okAfter, fun _ => off⟩
    next notSleeping =>
      cases run
      exact ⟨sameMark, racedOk, fun _ => awake (by simpa using notSleeping)⟩
  · split at run
    · obtain ⟨s'', notify, last⟩ := Option.bind_eq_some_iff.mp run
      cases last
      obtain ⟨mark, okAfter, off⟩ := notified notify
      exact ⟨mark, okAfter, fun _ => off⟩
    · cases run
      exact ⟨sameMark, racedOk, awake⟩

structure Flight (c : Closure) (marked : Bool) (t : Thread) : Prop where
  mode : t.inFakeTimeoutMode = true
  postPatch : t.postPatch = some c
  inside : ¬ t.Returned
  sched : ∃ s, t.sched = some s ∧ s.QueueOk ∧ s.th.markedForSleep = marked

structure Done (c : Closure) (marked finished : Bool) (t : Thread) : Prop where
  returned : t.Returned
  mode : t.inFakeTimeoutMode = false
  argument : t.ctxt.arg (getTimeoutArg c.syscall) = c.timeoutArgVal
  sched : if finished then t.sched = none else
    ∃ s, t.sched = some s ∧ s.th.markedForSleep = marked ∧ s.onSleepQueue = false

theorem Done.awake_iff {leaves : Prop} [Decidable leaves] {forced finished : Bool} {t : Thread}
    (done : Done c (!decide leaves && !forced) finished t) :
    (∀ s ∈ t.sched, s.th.markedForSleep = false ∧ s.onSleepQueue = false) ↔
      leaves ∨ forced = true ∨ finished = true := by
  have sched := done.sched
  cases finished with
  | true =>
    have gone : t.sched = none := by simpa using sched
    simp [gone]
  | false =>
    obtain ⟨s, here, mark, off⟩ : ∃ s, t.sched = some s ∧
        s.th.markedForSleep = (!decide leaves && !forced) ∧ s.onSleepQueue = false := by
      simpa using sched
    cases forced <;> by_cases left : leaves <;> simp [here, mark, off, left]

theorem postPatch_spec {e : Exit} {retry marked : Bool} {s : Sleeper} {t t' : Thread}
    (sched : t.sched = some s) (ok : s.QueueOk) (mark : s.th.markedForSleep = marked)
    (run : postPatchTimeoutSyscall e c t = some (t', retry)) :
    t'.postPatch = t.postPatch ∧ t'.inSyscall = t.inSyscall ∧ t'.inFakeTimeoutMode = retry ∧
      (retry = false → t'.ctxt.arg (getTimeoutArg c.syscall) = c.timeoutArgVal) ∧
      ∃ s', t'.sched = some s' ∧ s'.QueueOk ∧ s'.th.markedForSleep = marked ∧
        (retry = false → s'.onSleepQueue = false) := by
  unfold postPatchTimeoutSyscall at run
  split at run
  · cases run
  next mode =>
    simp only [sched, Option.bind_eq_bind, Option.bind_some] at run
    obtain ⟨⟨s', again⟩, decided, rest⟩ := Option.bind_eq_some_iff.mp run
    obtain ⟨sameMark, okAfter, off⟩ := decideRetry_spec ok decided
    cases again with
    | true =>
      cases rest
      exact ⟨rfl, rfl, by simpa using mode, by simp, s', rfl, okAfter, sameMark.trans mark, by simp⟩
    | false =>
      cases rest
      exact ⟨rfl, rfl, rfl, by simp [Context.setArg], s', rfl, okAfter, sameMark.trans mark, off⟩

theorem joins_iff (e : Exit) :
    (if z.blockingSyscalls = true then FPtr.analysis else .join) = .join ∧ e.stillFastForward = true ↔
      (Input.exit e).finishes z = true := by
  cases blocking : z.blockingSyscalls <;> simp [Input.finishes, blocking]

/-- `SyscallExit` retries the call or ends it. -/
theorem Flight.exit {e : Exit} {marked : Bool} {t t' : Thread} (flight : Flight c marked t)
    (run : syscallExit z e t = some t') :
    Flight c marked t' ∨ Done c marked ((Input.exit e).finishes z) t' := by
  obtain ⟨s, sched, ok, mark⟩ := flight.sched
  unfold syscallExit at run
  split at run
  · cases run
  simp only [virtSyscallExit, flight.postPatch, Option.bind_eq_bind, Option.bind_assoc,
    Option.bind_some] at run
  obtain ⟨⟨p, retry⟩, patched, rest⟩ := Option.bind_eq_some_iff.mp run
  obtain ⟨closure, out, mode, argument, s', sched', ok', mark', off⟩ :=
    postPatch_spec (by exact sched) ok mark patched
  cases retry with
  | true =>
    simp only [PostPatchAction.fPtrs, if_true, reduceCtorEq, false_and, if_false,
      Option.some.injEq] at rest
    subst rest
    left
    exact ⟨mode, closure, by simp [Thread.Returned], s', sched', ok', mark'⟩
  | false =>
    right
    simp only [Bool.false_eq_true, if_false, PostPatchAction.fPtrs] at rest
    by_cases finishes : (Input.exit e).finishes z = true
    · rw [if_pos ((joins_iff e).mpr finishes)] at rest
      simp only [sched', Option.bind_some] at rest
      obtain ⟨-, -, last⟩ := Option.bind_eq_some_iff.mp rest
      cases last
      exact ⟨by simp [Thread.Returned, out], mode, argument rfl, by simp [finishes]⟩
    · rw [if_neg (mt (joins_iff e).mp finishes)] at rest
      cases rest
      refine ⟨⟨out, ?_⟩, mode, argument rfl, ?_⟩
      · cases z.blockingSyscalls <;> simp
      · simpa [finishes] using ⟨s', sched', mark', off rfl⟩

theorem Flight.step {input : Input} {marked : Bool} {t t' : Thread} (flight : Flight c marked t)
    (isLegal : legal t input) (run : step z t input = some t') :
    Flight c (marked && !input.isForced) t' ∨
      Done c (marked && !input.isForced) (input.finishes z) t' := by
  obtain ⟨s, sched, ok, mark⟩ := flight.sched
  cases input with
  | exit e =>
    simpa [Input.isForced] using flight.exit run
  | reenter e =>
    left
    simp only [Timeout.step, syscallEnter, isLegal.2, if_true, Option.bind_eq_bind, Option.bind_some,
      isLegal.1, Bool.false_eq_true, if_false, or_true, Option.some.injEq] at run
    subst run
    exact ⟨flight.mode, flight.postPatch, by simp [Thread.Returned], s, sched, ok,
      by simp [mark, Input.isForced]⟩
  | wake =>
    cases run
    left
    exact ⟨flight.mode, flight.postPatch, flight.inside, s.wake, by simp [sched], s.wake_ok,
      by simp [mark, Sleeper.wake, Input.isForced]⟩
  | steal =>
    cases run
    left
    have isOut : s.th.state = .out := by simpa [Thread.schedIs, sched] using isLegal.2
    exact ⟨flight.mode, flight.postPatch, flight.inside, s.steal, by simp [sched],
      Sleeper.steal_ok ok isOut, by simp [mark, Sleeper.steal, Input.isForced]⟩
  | forced taken =>
    left
    simp only [Timeout.step, sched, Option.bind_eq_bind, Option.bind_some] at run
    obtain ⟨finished, finish, rest⟩ := Option.bind_eq_some_iff.mp run
    obtain ⟨left, leave, last⟩ := Option.bind_eq_some_iff.mp rest
    cases last
    obtain ⟨unmarked, -, keeps⟩ := Sleeper.leave_spec leave
    have finishedOk : finished.QueueOk := by
      simp only [Sleeper.finishFakeLeave, Option.ite_none_right_eq_some, Option.some.injEq] at finish
      obtain ⟨-, rfl⟩ := finish
      exact ok
    exact ⟨flight.mode, flight.postPatch, flight.inside, left, rfl, keeps finishedOk,
      by simp [unmarked, Input.isForced]⟩

theorem Thread.Returned.not_legal {t : Thread} (returned : t.Returned) (input : Input) :
    ¬ legal t input := by
  cases input <;> simp_all [legal, Thread.Returned]

/-- A run of any length, up to the return: the induction is on the inputs, and the mark is that of
the thread after the ones so far. -/
theorem Flight.run {inputs : List Input} {marked : Bool} {t t' : Thread} (flight : Flight c marked t)
    (isLegal : (machine z).LegalRun inputs t) (run : (machine z).exec inputs t = some t')
    (returned : t'.Returned) :
    Done c (marked && !inputs.any Input.isForced) (inputs.getLast?.any (Input.finishes z)) t' := by
  induction inputs generalizing marked t with
  | nil =>
    cases run
    exact absurd returned flight.inside
  | cons input rest induction =>
    obtain ⟨next, step, run⟩ := Option.bind_eq_some_iff.mp run
    obtain inside | done := flight.step isLegal.1 step
    · have more := induction inside (isLegal.2 next step) run
      cases rest with
      | nil =>
        cases run
        exact absurd returned inside.inside
      | cons second rest =>
        simpa [List.getLast?_cons_cons, Bool.and_assoc] using more
    · cases rest with
      | nil =>
        cases run
        simpa using done
      | cons second rest => exact absurd (isLegal.2 next step).1 (done.returned.not_legal second)

/-! ## The entry of the call -/

theorem waitNsec_pos {syscall : Syscall} {ctxt : Context} {nsec : Int}
    (wait : z.waitNsec syscall ctxt = some nsec) : 0 < nsec := by
  unfold Zinfo.waitNsec at wait
  dsimp only at wait
  split at wait
  · split at wait
    · simp only [Option.ite_none_left_eq_some, Option.some.injEq] at wait
      omega
    · cases wait
  · simp only [Option.ite_none_left_eq_some, Option.some.injEq] at wait
    omega

theorem i64_of_lt {value : Int} (nonneg : 0 ≤ value) (fits : value < 2 ^ 63) : i64 value = value := by
  apply Int.bmod_eq_of_le_mul_two <;> omega

theorem two_le_waitPhases (nsec : Int) : 2 ≤ z.waitPhases nsec := Nat.le_max_right _ _

theorem waitPhases_lt (nsec : Int) : z.waitPhases nsec < 2 ^ 64 := by
  unfold Zinfo.waitPhases
  have cycles : ((i64 (nsec * z.freqMHz)).tdiv 1000 % 2 ^ 64).toNat < 2 ^ 64 := by omega
  have phases := Nat.lt_of_le_of_lt (Nat.div_le_self _ z.phaseLength) cycles
  exact Nat.max_lt.mpr ⟨phases, by omega⟩

theorem phases_le_waitPhases {nsec : Int} (pos : 0 < nsec) (fits : nsec * z.freqMHz < 2 ^ 63) :
    nsec * z.freqMHz / 1000 / z.phaseLength ≤ z.waitPhases nsec := by
  have nonneg : 0 ≤ nsec * z.freqMHz := Int.mul_nonneg (Int.le_of_lt pos) (Int.natCast_nonneg _)
  have cycles : ((i64 (nsec * z.freqMHz)).tdiv 1000 % 2 ^ 64) = nsec * z.freqMHz / 1000 := by
    rw [i64_of_lt nonneg fits, Int.tdiv_eq_ediv_of_nonneg nonneg]
    omega
  have natural : (((nsec * z.freqMHz / 1000).toNat : Nat) : Int) = nsec * z.freqMHz / 1000 :=
    Int.toNat_of_nonneg (by omega)
  unfold Zinfo.waitPhases
  rw [cycles]
  calc nsec * z.freqMHz / 1000 / z.phaseLength
      = (((nsec * z.freqMHz / 1000).toNat / z.phaseLength : Nat) : Int) := by
        rw [Int.natCast_ediv, natural]
    _ ≤ _ := Int.ofNat_le.mpr (Nat.le_max_left _ _)

/-- The wakeup phase lies ahead exactly if the sum of 64 bits does not wrap around. -/
theorem wakeup_iff {nsec : Int} (pos : 0 < nsec) :
    let wakeupPhase := u64 (z.numPhases + z.waitPhases nsec)
    (z.numPhases + 2 ≤ wakeupPhase ∧
      (nsec * z.freqMHz < 2 ^ 63 →
        (z.numPhases : Int) + nsec * z.freqMHz / 1000 / z.phaseLength ≤ wakeupPhase)) ↔
      z.numPhases + z.waitPhases nsec < 2 ^ 64 := by
  intro wakeupPhase
  have atLeast := two_le_waitPhases (z := z) nsec
  have small := waitPhases_lt (z := z) nsec
  have counter := z.numPhases_lt
  constructor
  · rintro ⟨ahead, -⟩
    by_contra wraps
    have value : wakeupPhase = z.numPhases + z.waitPhases nsec - 2 ^ 64 := by
      simp only [wakeupPhase, u64]
      omega
    omega
  · intro fits
    have value : wakeupPhase = z.numPhases + z.waitPhases nsec := u64_of_lt fits
    refine ⟨by omega, fun product => ?_⟩
    have phases := phases_le_waitPhases pos product
    omega

theorem prePatch_spec {syscall : Syscall} {t p : Thread} {s : Sleeper} (sched : t.sched = some s)
    (run : prePatchTimeoutSyscall z syscall t = some (p, true)) :
    ∃ nsec marked, z.waitNsec syscall t.ctxt = some nsec ∧
      s.markForSleep (u64 (z.numPhases + z.waitPhases nsec)) = some marked ∧
      p = { t with
        ctxt := t.ctxt.setArg (getTimeoutArg syscall) (z.fakeArg syscall)
        inFakeTimeoutMode := true
        sched := some marked } := by
  unfold prePatchTimeoutSyscall at run
  split at run
  · cases run
  · split at run
    · cases run
    next nsec wait =>
      simp only [sched, Option.bind_eq_bind, Option.bind_some] at run
      obtain ⟨marked, mark, last⟩ := Option.bind_eq_some_iff.mp run
      cases last
      exact ⟨nsec, marked, wait, mark, rfl⟩

theorem patch_spec {inFastForward : Bool} {t p : Thread} {s : Sleeper} (sched : t.sched = some s)
    (run : patchTimeoutSyscall z inFastForward t = some p) (patched : p.postPatch = some c) :
    t.fPtrs ≠ .nop ∧ c.timeoutArgVal = z.fakeArg c.syscall ∧
      ∃ nsec marked, z.waitNsec c.syscall t.ctxt = some nsec ∧
        s.markForSleep (u64 (z.numPhases + z.waitPhases nsec)) = some marked ∧
        p = { t with
          ctxt := t.ctxt.setArg (getTimeoutArg c.syscall) (z.fakeArg c.syscall)
          inFakeTimeoutMode := true
          postPatch := some c
          sched := some marked } := by
  unfold patchTimeoutSyscall at run
  split at run
  · cases run
    cases patched
  next simulated =>
    obtain ⟨syscall, -, run⟩ := Option.bind_eq_some_iff.mp run
    obtain ⟨⟨next, faked⟩, pre, run⟩ := Option.bind_eq_some_iff.mp run
    cases faked with
    | false =>
      cases run
      cases patched
    | true =>
      obtain ⟨nsec, marked, wait, mark, rfl⟩ := prePatch_spec sched pre
      cases run
      cases patched
      exact ⟨fun nop => simulated (.inl nop), by simp [Context.setArg], nsec, marked, wait, mark, rfl⟩

theorem markForSleep_spec {s marked : Sleeper} {wakeupPhase : Nat}
    (mark : s.markForSleep wakeupPhase = some marked) :
    marked.th.markedForSleep = true ∧ marked.th.wakeupPhase = wakeupPhase ∧
      (s.QueueOk → marked.QueueOk) := by
  unfold Sleeper.markForSleep at mark
  split at mark
  · cases mark
  · cases mark
    exact ⟨rfl, rfl, id⟩

theorem syscallLeave_spec {s left : Sleeper} {blacklisted taken : Bool}
    (mark : s.th.markedForSleep = true) (run : s.syscallLeave blacklisted taken = some left) :
    left.th.markedForSleep = false ∧ left.th.wakeupPhase = s.th.wakeupPhase ∧
      (s.QueueOk → left.QueueOk) := by
  unfold Sleeper.syscallLeave at run
  split at run
  · rw [if_pos (.inr mark)] at run
    exact Sleeper.leave_spec run
  · cases run

/-- A thread that enters a patched call; it stays marked if it does not leave the scheduler. -/
theorem enter_spec {e : Entry} {t w : Thread} {s : Sleeper} (fresh : t.fPtrs ≠ .retry)
    (sched : t.sched = some s) (ok : s.QueueOk) (run : syscallEnter z e t = some w)
    (patched : w.postPatch = some c) :
    Flight c (!decide (Leaves z t)) w ∧ c.timeoutArgVal = z.fakeArg c.syscall ∧
      ∃ nsec s', z.waitNsec c.syscall t.ctxt = some nsec ∧ w.sched = some s' ∧
        s'.th.wakeupPhase = u64 (z.numPhases + z.waitPhases nsec) := by
  unfold syscallEnter at run
  rw [if_neg fresh] at run
  obtain ⟨p, patch, run⟩ := Option.bind_eq_some_iff.mp run
  dsimp only at run
  split at run
  · cases run
  split at run
  next skipped =>
    cases run
    exact absurd (skipped.resolve_right fresh) (patch_spec sched patch patched).1
  split at run
  next leaves =>
    simp only [Option.bind_eq_bind] at run
    obtain ⟨s₁, sched₁, run⟩ := Option.bind_eq_some_iff.mp run
    obtain ⟨left, leave, last⟩ := Option.bind_eq_some_iff.mp run
    cases last
    obtain ⟨-, saved, nsec, marked, wait, mark, rfl⟩ := patch_spec sched patch patched
    cases sched₁
    obtain ⟨isMarked, phase, keeps⟩ := markForSleep_spec mark
    obtain ⟨unmarked, samePhase, keepsToo⟩ := syscallLeave_spec isMarked leave
    refine ⟨⟨rfl, rfl, by simp [Thread.Returned], left, rfl, keepsToo (keeps ok), ?_⟩, saved, nsec,
      left, wait, rfl, samePhase.trans phase⟩
    have decided : decide (Leaves z t) = true := decide_eq_true leaves
    simp [unmarked, decided]
  next stays =>
    cases run
    obtain ⟨-, saved, nsec, marked, wait, mark, rfl⟩ := patch_spec sched patch patched
    obtain ⟨isMarked, phase, keeps⟩ := markForSleep_spec mark
    refine ⟨⟨rfl, rfl, by simp [Thread.Returned], marked, rfl, keeps ok, ?_⟩, saved, nsec, marked,
      wait, rfl, phase⟩
    have decided : decide (Leaves z t) = false := decide_eq_false stays
    simp [isMarked, decided]

/-! ## What the program sees -/

/-- The call is transparent exactly if the program happens to pass what it is faked to, and the
thread leaves the scheduler in some way before the program goes on; the phase counter must not wrap
around. -/
theorem transparent_iff {e : Entry} {t w t' : Thread} {s : Sleeper} {inputs : List Input}
    (fresh : t.fPtrs ≠ .retry) (sched : t.sched = some s) (ok : s.QueueOk)
    (enter : syscallEnter z e t = some w) (patched : w.postPatch = some c)
    (isLegal : (machine z).LegalRun inputs w) (run : (machine z).exec inputs w = some t')
    (returned : t'.Returned) :
    Transparent z c t w t' ↔
      t.ctxt.arg (getTimeoutArg c.syscall) = z.fakeArg c.syscall ∧
      (Leaves z t ∨ inputs.any Input.isForced = true ∨
        inputs.getLast?.any (Input.finishes z) = true) ∧
      ∀ nsec ∈ z.waitNsec c.syscall t.ctxt, z.numPhases + z.waitPhases nsec < 2 ^ 64 := by
  obtain ⟨flight, saved, nsec, s', wait, sched', phase⟩ := enter_spec fresh sched ok enter patched
  have done := flight.run isLegal run returned
  have pos := waitNsec_pos wait
  constructor
  · intro transparent
    refine ⟨?_, ?_, ?_⟩
    · rw [← transparent.argument, done.argument, saved]
    · exact done.awake_iff.mp transparent.awake
    · intro nsec' wait'
      cases Option.some.inj (wait.symm.trans wait')
      have wakeup := transparent.wakeup s' sched' nsec wait
      rw [phase] at wakeup
      exact (wakeup_iff pos).mp wakeup
  · rintro ⟨same, leaves, fits⟩
    refine ⟨?_, done.mode, done.awake_iff.mpr leaves, ?_⟩
    · rw [done.argument, saved, same]
    · intro s'' sched'' nsec' wait'
      cases Option.some.inj (wait.symm.trans wait')
      cases Option.some.inj (sched'.symm.trans sched'')
      rw [phase]
      exact (wakeup_iff pos).mpr (fits nsec wait)

/-- The default frequency and phase length, in the first phase. -/
def firstPhase : Zinfo where
  freqMHz := 2000
  phaseLength := 10000
  numPhases := 0
  numPhases_lt := Nat.two_pow_pos 64
  globPhaseCycles := 0
  realtimeOffsetNs := 0
  blockingSyscalls := false
  timespec _ := ⟨0, 0⟩
  fakeTimeout := 0x7000

/-- A running thread at `poll` with a timeout in ms. -/
def pollFor (timeout : Nat) : Thread where
  ctxt := ⟨0x400, 7, fun i => if i = 2 then timeout else 1⟩
  fPtrs := .analysis
  inSyscall := false
  inFakeTimeoutMode := false
  postPatch := none
  sched := some ⟨{ Scheduler.ThreadInfo.create (fun _ => true) with state := .running }, false⟩

def alone : Entry := ⟨false, false, false⟩

def returns (res : Int) : Exit := ⟨res, false, false, false, false, false⟩

/-- The fake times out once, and then there is an event. -/
def twoAttempts : List Input := [.exit (returns 0), .reenter alone, .exit (returns 1)]

/-- A timeout of 20ms survives. -/
theorem transparent_iff_twenty : ∃ w t', syscallEnter firstPhase alone (pollFor 20) = some w ∧
    (machine firstPhase).exec twoAttempts w = some t' ∧
    t'.Returned ∧ Transparent firstPhase ⟨.poll, 0x400, 20⟩ (pollFor 20) w t' := by
  refine ⟨_, _, rfl, rfl, by decide, ?_⟩
  refine (@transparent_iff _ _ alone _ _ _ _ twoAttempts (by decide) rfl (by decide) rfl rfl ?_ rfl
    (by decide)).mpr ⟨rfl, .inl (by decide), ?_⟩
  · decide
  · intro nsec wait
    have value : firstPhase.waitNsec .poll (pollFor 20).ctxt = some 20000000 := by decide
    cases Option.some.inj (value.symm.trans wait)
    decide

/-- An event ends a `poll` of 5s after one attempt; the program finds 20ms in the register. -/
theorem poll_loses_timeout : ∃ w t', syscallEnter firstPhase alone (pollFor 5000) = some w ∧
    w.postPatch = some ⟨.poll, 0x400, 20⟩ ∧
    (machine firstPhase).LegalRun [.exit (returns 1)] w ∧
    (machine firstPhase).exec [.exit (returns 1)] w = some t' ∧ t'.Returned ∧
    t'.ctxt.arg 2 = 20 ∧ ¬ Transparent firstPhase ⟨.poll, 0x400, 20⟩ (pollFor 5000) w t' := by
  refine ⟨_, _, rfl, rfl, by decide, rfl, by decide, rfl, ?_⟩
  intro transparent
  have argument : (20 : Nat) = 5000 := transparent.argument
  omega

end Timeout

end Zsim
