import Zsim.Lib.Machine
import Zsim.Scheduler.Finishing

/-!
# Runs of the scheduler

The inputs are the critical sections of the threads, in any order in which each thread makes its
calls one at a time, and of the watchdog.  Each comes with the numbers drawn in it.
-/

set_option autoImplicit false

namespace Zsim.Scheduler

inductive Op where
  | start (gid : Nat) (mask : Nat → Bool)
  | join (gid : Nat)
  | leave (gid cid : Nat)
  | syscallLeave (gid cid : Nat) (blacklisted : Bool)
  | sync (gid cid : Nat)
  /-- the thread is out of `bar.sync`, and a victim -/
  | handoff (gid : Nat)
  /-- the thread is out of a futex wait -/
  | resume (gid : Nat)
  | markForSleep (gid wakeupPhase : Nat)
  | notifySleepEnd (gid : Nat)
  | watchdog
  | finish (gid : Nat)
  | finishLeave (gid : Nat) (suppressed : Bool)
  | finishCheck (gid : Nat)
  | finishEnd (gid : Nat)

structure Input where
  op : Op
  draws : Draws

def step (s : Scheduler) (input : Input) : Option Scheduler :=
  match input.op with
  | .start gid mask => s.start gid mask
  | .join gid => s.join input.draws gid
  | .leave gid cid => s.leave input.draws gid cid
  | .syscallLeave gid cid blacklisted => s.syscallLeave input.draws gid cid blacklisted
  | .sync gid cid => s.sync input.draws gid cid
  | .handoff gid => s.handoff input.draws gid
  | .resume gid => s.resume input.draws gid
  | .markForSleep gid wakeupPhase => s.markForSleep gid wakeupPhase
  | .notifySleepEnd gid => s.notifySleepEnd gid
  | .watchdog => s.watchdog input.draws
  | .finish gid => s.finish gid
  | .finishLeave gid suppressed => s.finishLeave input.draws gid suppressed
  | .finishCheck gid => s.finishCheck gid
  | .finishEnd gid => s.finishEnd gid

/-- The thread has been started, and is as `holds` says. -/
def Has (s : Scheduler) (gid : Nat) (holds : ThreadInfo → Prop) : Prop :=
  ∃ th, s.threads gid = some th ∧ holds th

def Simulated (s : Scheduler) (gid : Nat) (th : ThreadInfo) : Prop :=
  s.calls gid = .outside ∧ th.state = .running ∧ th.fakeLeave = false

/-- What a thread may do next, where its own arguments and state pass the assertions. -/
def legal (s : Scheduler) (input : Input) : Prop :=
  match input.op with
  | .start gid mask => s.threads gid = none ∧ (List.range s.numCores).any mask = true
  | .join gid => s.Has gid fun th => s.calls gid = .outside ∧
      (th.fakeLeave = true ∨ th.markedForSleep = false ∧ th.state ≠ .running)
  | .leave gid cid => s.Has gid fun th => s.Simulated gid th ∧ (s.contexts cid).curThread = some gid
  | .syscallLeave gid cid _ =>
      s.Has gid fun th => s.Simulated gid th ∧ (s.contexts cid).curThread = some gid
  | .sync gid cid => s.Has gid fun th => s.Simulated gid th ∧ (s.contexts cid).curThread = some gid ∧
      th.markedForSleep = false
  | .handoff gid => s.Has gid fun _ => s.calls gid = .handoff
  | .resume gid => s.Has gid fun th => s.Woken th (s.calls gid)
  | .markForSleep gid wakeupPhase => s.Has gid fun th => s.Simulated gid th ∧
      th.markedForSleep = false ∧ s.curPhase < wakeupPhase
  | .notifySleepEnd gid => s.Has gid fun th => s.calls gid = .outside ∧ th.markedForSleep = false ∧
      (th.state = .blocked ∨ th.state = .sleeping)
  | .watchdog => s.scheduledThreads = (s.queue .outQueue).length ∧ s.queue .sleepQueue ≠ []
  | .finish gid => s.Has gid fun th => s.calls gid = .outside ∧ th.state ≠ .sleeping
  | .finishLeave gid suppressed => s.Has gid fun _ => s.calls gid = .finishLeave suppressed
  | .finishCheck gid => s.Has gid fun th => s.calls gid = .finishCheck ∧ th.state ≠ .sleeping
  | .finishEnd gid => s.Has gid fun th => s.calls gid = .finishEnd ∧ th.state ≠ .sleeping

def machine : Machine Scheduler Input := ⟨legal, step⟩

section
variable (s : Scheduler) (gid : Nat)

theorem any_iff_has (holds : ThreadInfo → Prop) [DecidablePred holds] :
    (s.threads gid).any (fun th => decide (holds th)) = true ↔ s.Has gid holds := by
  unfold Has
  cases s.threads gid with
  | none => simp
  | some th => simp

instance decidableHas (holds : ThreadInfo → Prop) [DecidablePred holds] : Decidable (s.Has gid holds) :=
  decidable_of_iff _ (any_iff_has s gid holds)

instance decidableSimulated (th : ThreadInfo) : Decidable (s.Simulated gid th) :=
  inferInstanceAs (Decidable (_ ∧ _))

instance decidableWoken (th : ThreadInfo) : ∀ call : Call, Decidable (s.Woken th call)
  | .barJoin cid _ => inferInstanceAs (Decidable (s.bar.futexWordOf cid ≠ 1))
  | .barSync cid => inferInstanceAs (Decidable (s.bar.futexWordOf cid ≠ 1))
  | .waitForContext _ => inferInstanceAs (Decidable (th.futexWord ≠ 1))
  | .outside | .handoff | .finishLeave _ | .finishCheck | .finishEnd => .isFalse id

instance decidableLegal (input : Input) : Decidable (legal s input) := by
  unfold legal
  cases input.op <;> infer_instance

instance decidableMachineLegal (input : Input) : Decidable (machine.legal s input) :=
  decidableLegal s input

end

variable {quantum : Nat} {s : Scheduler}

theorem Core.cid_eq {hole : Option Nat} {loose : Set Nat} (core : Core hole loose s) {gid cid : Nat}
    {th : ThreadInfo} (isThread : s.threads gid = some th)
    (isCur : (s.contexts cid).curThread = some gid) : th.cid = cid :=
  (cidOf_eq isThread).symm.trans (core.held cid gid isCur).2

theorem Inv.join (inv : Inv quantum s) {gid : Nat} {th : ThreadInfo} (isThread : s.threads gid = some th)
    (outside : s.calls gid = .outside)
    (ready : th.fakeLeave = true ∨ th.markedForSleep = false ∧ th.state ≠ .running) (draws : Draws) :
    Yields quantum (s.join draws gid) (Inv quantum) := by
  by_cases fake : th.fakeLeave = true
  · have isKey : gid ∈ s.gidMap := inv.books.key isThread outside
    simp only [Scheduler.join, Option.bind_eq_bind]
    rw [isThread, Option.bind_some, if_neg (not_not_intro isKey), if_pos fake]
    exact .inr (inv.finishFakeLeave isThread fake)
  · obtain ⟨unmarked, idle⟩ := ready.resolve_left fake
    have noFake : th.fakeLeave = false := Bool.eq_false_iff.mpr fake
    have stands := (inv.threads gid th isThread).stands
    rw [outside] at stands
    cases state : th.state with
    | started => exact inv.joinNew isThread outside noFake unmarked (.inl state) draws
    | blocked => exact inv.joinNew isThread outside noFake unmarked (.inr (.inl state)) draws
    | sleeping => exact inv.joinNew isThread outside noFake unmarked (.inr (.inr state)) draws
    | out => exact inv.joinOut isThread outside noFake unmarked state draws
    | running => exact absurd state idle
    | queued => exact absurd state stands.1

theorem Inv.step (inv : Inv quantum s) {input : Input} (isLegal : legal s input) :
    Yields quantum (s.step input) (Inv quantum) := by
  obtain ⟨op, draws⟩ := input
  cases op with
  | start gid mask =>
      obtain ⟨isNew, any⟩ := isLegal
      obtain ⟨c, member, wants⟩ := List.any_eq_true.mp any
      exact .inr (inv.start isNew (List.mem_range.mp member) wants)
  | join gid =>
      obtain ⟨th, isThread, outside, ready⟩ := isLegal
      exact inv.join isThread outside ready draws
  | leave gid cid =>
      obtain ⟨th, isThread, ⟨outside, runs, noFake⟩, isCur⟩ := isLegal
      rw [← inv.core.cid_eq isThread isCur]
      exact inv.leaveOutside isThread outside runs noFake draws
  | syscallLeave gid cid blacklisted =>
      obtain ⟨th, isThread, ⟨outside, runs, noFake⟩, isCur⟩ := isLegal
      rw [← inv.core.cid_eq isThread isCur]
      exact inv.syscallLeave isThread outside runs noFake blacklisted draws
  | sync gid cid =>
      obtain ⟨th, isThread, ⟨outside, runs, noFake⟩, isCur, unmarked⟩ := isLegal
      rw [← inv.core.cid_eq isThread isCur]
      exact inv.sync isThread outside runs unmarked noFake draws
  | handoff gid =>
      obtain ⟨th, isThread, isCall⟩ := isLegal
      exact inv.handoff isThread isCall draws
  | resume gid =>
      obtain ⟨th, isThread, woken⟩ := isLegal
      exact .inr (inv.resume isThread woken draws)
  | markForSleep gid wakeupPhase =>
      obtain ⟨th, isThread, ⟨outside, runs, noFake⟩, unmarked, ahead⟩ := isLegal
      exact .inr (inv.markForSleep isThread outside runs unmarked noFake ahead)
  | notifySleepEnd gid =>
      obtain ⟨th, isThread, outside, unmarked, state⟩ := isLegal
      exact .inr (inv.notifySleepEnd isThread outside unmarked state)
  | watchdog => exact inv.watchdog isLegal.1 isLegal.2 draws
  | finish gid =>
      obtain ⟨th, isThread, outside, awake⟩ := isLegal
      exact .inr (inv.finish isThread outside awake)
  | finishLeave gid suppressed =>
      obtain ⟨th, isThread, isCall⟩ := isLegal
      exact (inv.finishLeave isThread isCall draws).imp fun _ after => after.2
  | finishCheck gid =>
      obtain ⟨th, isThread, isCall, awake⟩ := isLegal
      obtain ⟨⟨next, run, -, inv'⟩, same⟩ := inv.finishLast isThread (.inl isCall) awake
      exact .inr ⟨next, same.trans run, inv'⟩
  | finishEnd gid =>
      obtain ⟨th, isThread, isCall, awake⟩ := isLegal
      obtain ⟨⟨next, run, -, inv'⟩, -⟩ := inv.finishLast isThread (.inr isCall) awake
      exact .inr ⟨next, run, inv'⟩

/-! ## The accounting -/

theorem Core.init (parallelThreads numCores schedQuantum : Nat) (lastIdx : Nat → Nat) :
    Core none ∅ (init parallelThreads numCores schedQuantum lastIdx) where
  used c := by simp [Scheduler.init]
  held c g isCur := by cases isCur
  holds g holding := by rcases holding with state | state <;> cases state
  freeOnce := List.nodup_range
  free c := by simp [Scheduler.init]
  isHole c contra := by cases contra
  once q := List.nodup_nil
  placed q g := by cases q <;> simp [Scheduler.init, Belongs, stateOf]
  sorted := List.Pairwise.nil
  victim v g handoff := by cases handoff
  target v w g handoff := by cases handoff
  scheduled := by simp [Scheduler.init, countIn]
  conserved g c waits := by cases waits
  inRange g th isThread := by cases isThread

theorem Inv.init {parallelThreads numCores : Nat} (positive : 0 < parallelThreads)
    (cores : numCores ≤ maxThreads) (schedQuantum : Nat) (lastIdx : Nat → Nat) :
    Inv schedQuantum (init parallelThreads numCores schedQuantum lastIdx) where
  schedQuantum := rfl
  core := Core.init parallelThreads numCores schedQuantum lastIdx
  bar := Barrier.Inv.init positive lastIdx
  cores := cores
  here c isHere := by rcases isHere with state | state <;> cases state
  threads g th isThread := by cases isThread
  books := by
    refine ⟨fun _ _ => rfl, List.nodup_nil, fun g => ?_, List.nodup_nil, fun g => ?_⟩
    · simp [Scheduler.init]
    · simp [Scheduler.init]

/-- The accounts of contexts, lists and handoffs. -/
structure Accounted (s : Scheduler) : Prop where
  used : ∀ c, (s.contexts c).state = .used ↔ ∃ g th, (s.contexts c).curThread = some g ∧
    s.threads g = some th ∧ (th.state = .running ∨ th.state = .out) ∧ th.cid = c
  idle : ∀ c, c < s.numCores → ((s.contexts c).state = .idle ↔ c ∈ s.freeList)
  once : s.freeList.Nodup ∧ ∀ q, (s.queue q).Nodup
  outQueue : ∀ g, g ∈ s.queue .outQueue ↔ s.stateOf g = some .out
  sleepQueue : ∀ g, g ∈ s.queue .sleepQueue ↔ s.stateOf g = some .sleeping
  ordered : (s.queue .sleepQueue).Pairwise fun a b => s.wakeupPhaseOf a ≤ s.wakeupPhaseOf b
  runQueue : ∀ g, g ∈ s.queue .runQueue ↔ s.stateOf g = some .queued ∧
    ¬ ∃ v, s.stateOf v = some .running ∧ s.handoffOf v = some g
  victims : ∀ v g, s.handoffOf v = some g → s.stateOf v = some .running ∧
    s.stateOf g = some .queued ∧ ∀ w, s.handoffOf w = some g → w = v
  scheduledThreads : s.scheduledThreads =
    countIn (Finset.range s.numCores) s.contexts fun ctx => ctx.state = .used
  /-- no context that a waiting thread may run on is free, or held by a thread that is OUT -/
  conserved : ∀ g c, g ∈ s.queue .runQueue → c < s.numCores → s.maskOf g c = true →
    (s.contexts c).state ≠ .idle ∧ ∃ h, (s.contexts c).curThread = some h ∧ s.stateOf h ≠ some .out

theorem Core.accounted (core : Core none ∅ s) : Accounted s where
  used c := by
    rw [core.used]
    constructor
    · intro held
      obtain ⟨g, isCur⟩ := Option.ne_none_iff_exists'.mp held
      obtain ⟨holding, isCid⟩ := core.held c g isCur
      obtain ⟨th, isThread, state⟩ : ∃ th, s.threads g = some th ∧
          (th.state = .running ∨ th.state = .out) := by
        rcases holding with isState | isState
        · obtain ⟨th, isThread, runs⟩ := Option.map_eq_some_iff.mp isState
          exact ⟨th, isThread, .inl runs⟩
        · obtain ⟨th, isThread, isOut⟩ := Option.map_eq_some_iff.mp isState
          exact ⟨th, isThread, .inr isOut⟩
      exact ⟨g, th, isCur, isThread, state, (cidOf_eq isThread).symm.trans isCid⟩
    · rintro ⟨g, th, isCur, -⟩
      simp [isCur]
  idle c bound := by
    have used := core.used c
    rw [core.free]
    cases state : (s.contexts c).state with
    | idle =>
        rw [state] at used
        simp only [reduceCtorEq, false_iff, not_not] at used
        simp [bound, used]
    | used =>
        rw [state] at used
        simp [used.mp rfl]
  once := ⟨core.freeOnce, core.once⟩
  outQueue g := (core.placed .outQueue g).trans (and_iff_left id)
  sleepQueue g := (core.placed .sleepQueue g).trans (and_iff_left id)
  ordered := core.sorted
  runQueue g := by
    rw [core.placed .runQueue g]
    constructor
    · rintro ⟨⟨queued, unchosen⟩, -⟩
      refine ⟨queued, ?_⟩
      rintro ⟨v, -, handoff⟩
      exact unchosen v handoff
    · rintro ⟨queued, unchosen⟩
      exact ⟨⟨queued, fun v handoff => unchosen ⟨v, (core.victim v g handoff).1, handoff⟩⟩, id⟩
  victims v g handoff := by
    obtain ⟨runs, queued⟩ := core.victim v g handoff
    exact ⟨runs, queued, fun w handoff' => core.target w v g handoff' handoff⟩
  scheduledThreads := core.scheduled
  conserved g c waits bound wants := by
    obtain ⟨h, isCur, runs⟩ := core.conserved g c waits bound wants (by simp)
    refine ⟨fun isIdle => ?_, h, isCur, by simp [runs]⟩
    have used := (core.used c).mpr (by simp [isCur])
    rw [isIdle] at used
    cases used

/-- In every state between critical sections the accounts are in order.  No assertion fails on the
way, so that in particular `schedTick` finds a thread behind every context that it takes. -/
theorem contexts_accounted {parallelThreads numCores : Nat} (positive : 0 < parallelThreads)
    (cores : numCores ≤ maxThreads) (schedQuantum : Nat) (lastIdx : Nat → Nat) (inputs : List Input)
    (isLegal : machine.LegalRun inputs (init parallelThreads numCores schedQuantum lastIdx)) :
    (∀ final, machine.exec inputs (init parallelThreads numCores schedQuantum lastIdx) = some final →
      Accounted final) ∧
    (0 < schedQuantum →
      machine.exec inputs (init parallelThreads numCores schedQuantum lastIdx) ≠ none) := by
  have start := Inv.init positive cores schedQuantum lastIdx
  constructor
  · intro final run
    have keeps : ∀ s input next, Inv schedQuantum s → machine.legal s input →
        machine.step s input = some next → Inv schedQuantum next := by
      intro s input next inv isLegal stepped
      rcases inv.step isLegal with ⟨-, trap⟩ | ⟨next', run', inv'⟩
      · cases trap.symm.trans stepped
      · cases Option.some.inj (run'.symm.trans stepped)
        exact inv'
    exact (Machine.exec_keeps keeps start isLegal run).core.accounted
  · intro quantum
    have preserves : machine.Preserves (Inv schedQuantum) := by
      intro s input inv isLegal
      rcases inv.step isLegal with ⟨zero, -⟩ | runs
      · omega
      · exact runs
    obtain ⟨final, run, -⟩ := preserves.exec start isLegal
    rw [run]
    simp

/-- Two threads on one core: the second one waits, is handed the context at the end of the quantum,
and goes to sleep; the first one gets it back, and finishes in a fake leave. -/
def handoffRun : List Input :=
  [.start 0 fun _ => true, .start 1 fun _ => true, .join 0, .resume 0, .join 1, .sync 0 0, .resume 0,
    .handoff 0, .resume 1, .markForSleep 1 9, .leave 1 0, .resume 0, .syscallLeave 0 0 false, .finish 0,
    .finishLeave 0 true, .finishCheck 0].map fun op => ⟨op, fun _ => 0, fun _ => 0⟩

theorem contexts_accounted_handoff :
    ∃ final, machine.exec handoffRun (init 1 1 1 id) = some final ∧ Accounted final := by
  have cores : 1 ≤ maxThreads := by decide
  have isLegal : machine.LegalRun handoffRun (init 1 1 1 id) := by decide +kernel
  obtain ⟨accounted, runs⟩ := contexts_accounted Nat.one_pos cores 1 id handoffRun isLegal
  obtain ⟨final, run⟩ := Option.ne_none_iff_exists'.mp (runs Nat.one_pos)
  exact ⟨final, run, accounted final run⟩

end Zsim.Scheduler
