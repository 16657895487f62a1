import Zsim.Scheduler.Removal
import Zsim.Scheduler.Runs
import Zsim.Scheduler.Watchdog

/-!
# Cleaning up after a process

`processCleanup` takes a thread of the dead process after the other out of the scheduler.  The runs
are those of the scheduler, with cleanups between the critical sections.
-/

set_option autoImplicit false

namespace Zsim.Scheduler

/-- A thread to be finished, with the numbers drawn in the critical sections of its `finish`. -/
structure Turn where
  tid : Nat
  draws : Nat → Draws

/-- The tids collected; the hash map may give them in another order. -/
def doomedTids (s : Scheduler) (pid : Nat) : List Nat :=
  (s.gidMap.filter fun gid => getPid gid = pid).map getTid

def isSleeping (s : Scheduler) (gid : Nat) : Option Bool := do
  let th ← s.threads gid
  if gid ∈ s.gidMap then some (decide (th.state = .sleeping)) else none

def finishDoomed (pid : Nat) (s : Scheduler) (turn : Turn) : Option Scheduler := do
  let gid := getGid pid turn.tid
  let sleeping ← s.isSleeping gid
  let awake ← if sleeping = true then s.notifySleepEnd gid else some s
  awake.finishFor turn.draws gid

def cleaner (pid : Nat) : Machine Scheduler Turn where
  legal _ _ := True
  step := finishDoomed pid

/-- `processCleanup` from the loop over `doomedTids` on. -/
def processCleanup (s : Scheduler) (pid : Nat) (turns : List Turn) : Option Scheduler :=
  (cleaner pid).exec turns s

/-! ## Runs with cleanups -/

inductive Event where
  | critical (input : Input)
  | cleanup (pid : Nat) (turns : List Turn)

/-- `turns` goes through `doomedTids` in some order; a gid is a `uint32_t`. -/
def legalEvent (s : Scheduler) : Event → Prop
  | .critical input => legal s input
  | .cleanup pid turns => (∀ gid ∈ s.gidMap, gid < 2 ^ 32) ∧ (turns.map Turn.tid).Perm (s.doomedTids pid)

def stepEvent (s : Scheduler) : Event → Option Scheduler
  | .critical input => s.step input
  | .cleanup pid turns => s.processCleanup pid turns

def eventMachine : Machine Scheduler Event := ⟨legalEvent, stepEvent⟩

def InTurn (pid : Nat) (s : Scheduler) (turn : Turn) : Prop :=
  s.Has (getGid pid turn.tid) (Removable s (getGid pid turn.tid))

/-- No thread of the process is inside `finish` with a context, or asleep in it. -/
def NoneFinishing (pid : Nat) (s : Scheduler) : Prop :=
  (∀ c < s.numCores, ∀ g ∈ (s.contexts c).curThread, getPid g = pid → ¬ (s.calls g).Finishing) ∧
    ∀ g ∈ s.queue .sleepQueue, getPid g = pid → ¬ (s.calls g).Finishing

/-- The cleanups find no thread that `finish` cannot be applied to. -/
def Cleanable (s : Scheduler) : Event → Prop
  | .critical _ => True
  | .cleanup pid turns => NoneFinishing pid s ∧ (cleaner pid).Along (InTurn pid) turns s

section
variable (s : Scheduler)

instance decidableRemovable (gid : Nat) (th : ThreadInfo) : Decidable (Removable s gid th) :=
  decidable_of_iff ((th.state = .queued → gid ∈ s.queue .runQueue) ∧ th.handoffThread = none ∧
      (th.state = .running ∨ th.state = .sleeping → th.markedForSleep = false) ∧
      (th.state = .running → s.bar.stateOf th.cid = .waiting →
        (s.bar.lastIdxOf th.cid < s.bar.runListSize ∧ s.bar.runList (s.bar.lastIdxOf th.cid) = th.cid) ∧
          ∀ g ∈ s.queue .runQueue, s.maskOf g th.cid = false))
    ⟨fun ⟨listed, noHandoff, unmarked, waiting⟩ => ⟨listed, noHandoff, unmarked, waiting⟩,
      fun removable => ⟨removable.listed, removable.noHandoff, removable.unmarked, removable.waiting⟩⟩

instance decidableFinishing : ∀ call : Call, Decidable call.Finishing
  | .finishLeave _ | .finishCheck | .finishEnd => .isTrue trivial
  | .outside | .barJoin _ _ | .barSync _ | .handoff | .waitForContext _ => .isFalse id

instance decidableInTurn (pid : Nat) (turn : Turn) : Decidable (InTurn pid s turn) :=
  decidableHas s (getGid pid turn.tid) _

instance decidableNoneFinishing (pid : Nat) : Decidable (NoneFinishing pid s) :=
  inferInstanceAs (Decidable (_ ∧ _))

instance decidableCleanable : ∀ event : Event, Decidable (Cleanable s event)
  | .critical _ => .isTrue trivial
  | .cleanup _ _ => inferInstanceAs (Decidable (_ ∧ _))

instance decidableEventLegal : ∀ event : Event, Decidable (eventMachine.legal s event)
  | .critical input => decidableLegal s input
  | .cleanup _ _ => inferInstanceAs (Decidable (_ ∧ _))

end

/-- Nothing is left of a process, and of the others nothing is lost. -/
structure CleanedUp (pid : Nat) (before after : Scheduler) : Prop where
  queues : ∀ q, ∀ g ∈ after.queue q, getPid g ≠ pid
  contexts : ∀ c g, (after.contexts c).curThread = some g → getPid g ≠ pid
  handoffs : ∀ v g, after.handoffOf v = some g → getPid v ≠ pid ∧ getPid g ≠ pid
  fakeLeaves : ∀ g ∈ after.fakeLeaves, getPid g ≠ pid
  gidMap : ∀ g ∈ after.gidMap, getPid g ≠ pid
  others : ∀ g, getPid g ≠ pid → before.threads g ≠ none → after.threads g ≠ none
  queued : ∀ g, after.stateOf g = some .queued → g ∈ after.queue .runQueue ∨
    ∃ v, after.stateOf v = some .running ∧ after.handoffOf v = some g
  bar : Barrier.RepInv after.bar
  /-- a thread that is not in a futex wait of the barrier runs in the barrier, too -/
  inBar : ∀ g th, after.threads g = some th → th.state = .running →
    after.bar.stateOf th.cid = .running ∨ after.bar.stateOf th.cid = .waiting ∧
      ((∃ ofSync, after.calls g = .barJoin th.cid ofSync) ∨ after.calls g = .barSync th.cid)

variable {quantum pid : Nat} {s next before : Scheduler} {gid : Nat} {th : ThreadInfo}

/-! ## One turn -/

theorem removable_blocked (noHandoff : th.handoffThread = none) :
    Removable s gid { th with state := .blocked } where
  listed queued := by cases queued
  noHandoff := noHandoff
  unmarked state := by rcases state with contra | contra <;> cases contra
  waiting runs := by cases runs

theorem Inv.finishDoomed (inv : Inv quantum s) {turn : Turn} (isKey : getGid pid turn.tid ∈ s.gidMap)
    (inTurn : InTurn pid s turn) : Yields quantum (s.finishDoomed pid turn) fun next =>
      Removed (getGid pid turn.tid) s next ∧ Inv quantum next := by
  obtain ⟨th, isThread, removable⟩ := inTurn
  simp only [Scheduler.finishDoomed, isSleeping, Option.bind_eq_bind]
  rw [isThread, Option.bind_some, if_pos isKey, Option.bind_some]
  by_cases sleeps : th.state = .sleeping
  · obtain ⟨rouses, inv'⟩ := inv.rouse isThread isKey (removable.unmarked (.inr sleeps)) sleeps
    rw [if_pos (decide_eq_true sleeps), rouses, Option.bind_some]
    have isThread' : (s.roused (getGid pid turn.tid) th).threads (getGid pid turn.tid) =
        some { th with state := .blocked } := by rw [threads_roused, if_pos rfl]
    refine (inv'.finishFor isThread' isKey (by simp) (removable_blocked removable.noHandoff) turn.draws).imp ?_
    rintro next ⟨removed, after⟩
    refine ⟨⟨⟨removed.calls, fun g ne => ?_⟩, removed.gone, removed.gidMap⟩, after⟩
    have related := removed.threads g ne
    rwa [threads_roused, if_neg ne] at related
  · rw [if_neg (by simp [sleeps]), Option.bind_some]
    exact inv.finishFor isThread isKey sleeps removable turn.draws

/-! ## processCleanup -/

/-- Half way through a cleanup: the threads in `gids` are still to be finished. -/
structure Cleaning (quantum pid : Nat) (before : Scheduler) (gids : List Nat) (s : Scheduler) : Prop where
  inv : Inv quantum s
  once : gids.Nodup
  doomed : ∀ g, g ∈ gids ↔ g ∈ s.gidMap ∧ getPid g = pid
  finishing : ∀ g th, s.threads g = some th → getPid g = pid → (s.calls g).Finishing →
    th.state ≠ .out ∧ th.state ≠ .sleeping ∧ th.state ≠ .running
  others : ∀ g, getPid g ≠ pid → before.threads g ≠ none → s.threads g ≠ none

theorem Stands.notRunning {bar : Barrier} {call : Call} (stands : Stands bar call th)
    (idle : th.state ≠ .running) (isFinishing : call.Finishing) {bar' : Barrier} {th' : ThreadInfo}
    (stands' : Stands bar' call th') : th'.state ≠ .running := by
  cases call with
  | finishLeave suppressed => exact absurd stands.1 idle
  | finishCheck => exact stands'.1
  | finishEnd => exact stands'.1
  | outside | barJoin | barSync | handoff | waitForContext => cases isFinishing

theorem Cleaning.removed {rest : List Nat} (cleaning : Cleaning quantum pid before (gid :: rest) s)
    (removed : Removed gid s next) (inv : Inv quantum next) : Cleaning quantum pid before rest next := by
  obtain ⟨notAgain, once⟩ := List.nodup_cons.mp cleaning.once
  obtain ⟨isKey, isPid⟩ := (cleaning.doomed gid).mp List.mem_cons_self
  refine ⟨inv, once, fun g => ?_, fun g th isThread samePid isFinishing => ?_, fun g otherPid existed => ?_⟩
  · have before := cleaning.doomed g
    rw [removed.gidMap, cleaning.inv.books.keysOnce.mem_erase_iff, and_assoc, ← before, List.mem_cons]
    by_cases same : g = gid
    · simp [same, notAgain]
    · simp [same]
  · have ne : g ≠ gid := by
      rintro rfl
      cases removed.gone.symm.trans isThread
    have related := removed.threads g ne
    rw [isThread] at related
    rw [removed.calls g ne] at isFinishing
    cases was : s.threads g with
    | none =>
        rw [was] at related
        cases related
    | some x =>
        rw [was] at related
        obtain ⟨notOut, notSleeping, idle⟩ := cleaning.finishing g x was samePid isFinishing
        cases related with
        | some follows =>
            refine ⟨fun isOut => notOut (follows.isOut isOut),
              fun sleeps => notSleeping (follows.sleeps sleeps), ?_⟩
            have stands := (inv.threads g th isThread).stands
            rw [removed.calls g ne] at stands
            exact (cleaning.inv.threads g x was).stands.notRunning idle isFinishing stands
  · have ne : g ≠ gid := by
      rintro rfl
      exact otherPid isPid
    have related := removed.threads g ne
    intro isNone
    rw [isNone] at related
    cases was : s.threads g with
    | none => exact cleaning.others g otherPid existed was
    | some x =>
        rw [was] at related
        cases related

theorem Cleaning.exec {turns : List Turn}
    (cleaning : Cleaning quantum pid before (turns.map fun turn => getGid pid turn.tid) s)
    (meets : (cleaner pid).Along (InTurn pid) turns s) :
    Yields quantum ((cleaner pid).exec turns s) (Cleaning quantum pid before []) := by
  induction turns generalizing s with
  | nil => exact .inr ⟨s, rfl, cleaning⟩
  | cons turn rest ih =>
      have isKey := ((cleaning.doomed _).mp List.mem_cons_self).1
      rw [Machine.exec_cons]
      rcases cleaning.inv.finishDoomed isKey meets.1 with ⟨zero, trap⟩ | ⟨next, step, removed, inv⟩
      · exact .inl ⟨zero, by rw [show (cleaner pid).step s turn = none from trap]; rfl⟩
      · rw [show (cleaner pid).step s turn = some next from step]
        exact ih (cleaning.removed removed inv) (meets.2 next step)

theorem gids_perm {turns : List Turn} (fit : ∀ gid ∈ s.gidMap, gid < 2 ^ 32)
    (perm : (turns.map Turn.tid).Perm (s.doomedTids pid)) :
    (turns.map fun turn => getGid pid turn.tid).Perm (s.gidMap.filter fun gid => getPid gid = pid) := by
  have gids := perm.map (getGid pid)
  rw [List.map_map, doomedTids, List.map_map] at gids
  refine gids.trans (.of_eq ?_)
  conv_rhs => rw [← List.map_id (s.gidMap.filter _)]
  refine List.map_congr_left fun gid member => ?_
  obtain ⟨isKey, isPid⟩ := List.mem_filter.mp member
  have roundTrip := ForcedLeaves.getGid_getPid_getTid (fit gid isKey)
  rwa [of_decide_eq_true isPid] at roundTrip

theorem Cleaning.start {turns : List Turn} (inv : Inv quantum s) (none : NoneFinishing pid s)
    (fit : ∀ gid ∈ s.gidMap, gid < 2 ^ 32) (perm : (turns.map Turn.tid).Perm (s.doomedTids pid)) :
    Cleaning quantum pid s (turns.map fun turn => getGid pid turn.tid) s := by
  have gids := gids_perm fit perm
  refine ⟨inv, gids.nodup_iff.mpr (inv.books.keysOnce.filter _), fun g => ?_,
    fun g th isThread isPid isFinishing => ?_, fun g _ existed => existed⟩
  · rw [gids.mem_iff, List.mem_filter, decide_eq_true_iff]
  · have notHeld : ¬ s.Holding g := by
      intro holding
      have isCur := inv.core.holds g holding
      rw [cidOf_eq isThread] at isCur
      exact none.1 th.cid (inv.core.inRange g th isThread).1 g isCur isPid isFinishing
    refine ⟨fun isOut => notHeld (.inr ?_), fun sleeps => none.2 g ?_ isPid isFinishing,
      fun runs => notHeld (.inl ?_)⟩
    · exact (stateOf_eq isThread).trans (congrArg some isOut)
    · exact (inv.core.placed .sleepQueue g).mpr ⟨(stateOf_eq isThread).trans (congrArg some sleeps), id⟩
    · exact (stateOf_eq isThread).trans (congrArg some runs)

/-- A thread of the process that is still there is BLOCKED at the end of its own `finish`. -/
theorem Cleaning.idle (cleaning : Cleaning quantum pid before [] s) (isPid : getPid gid = pid)
    (isThread : s.threads gid = some th) :
    th.state ≠ .out ∧ th.state ≠ .sleeping ∧ th.state ≠ .running ∧ th.state ≠ .queued := by
  have isFinishing : (s.calls gid).Finishing := by
    by_contra notFinishing
    have isKey := (cleaning.inv.books.keys gid).mpr ⟨by rw [isThread]; rfl, notFinishing⟩
    have left := (cleaning.doomed gid).mpr ⟨isKey, isPid⟩
    cases left
  obtain ⟨notOut, awake, idle⟩ := cleaning.finishing gid th isThread isPid isFinishing
  refine ⟨notOut, awake, idle, fun queued => ?_⟩
  obtain ⟨⟨ofSync, isCall⟩, -⟩ := (cleaning.inv.threads gid th isThread).queued queued
  rw [isCall] at isFinishing
  exact isFinishing

theorem Cleaning.pid_ne (cleaning : Cleaning quantum pid before [] s) {state : ThreadState}
    (isState : s.stateOf gid = some state)
    (busy : state = .out ∨ state = .sleeping ∨ state = .running ∨ state = .queued) : getPid gid ≠ pid := by
  intro isPid
  obtain ⟨th, isThread, same⟩ := Option.map_eq_some_iff.mp isState
  obtain ⟨notOut, awake, idle, notQueued⟩ := cleaning.idle isPid isThread
  rcases busy with rfl | rfl | rfl | rfl
  · exact notOut same
  · exact awake same
  · exact idle same
  · exact notQueued same

theorem Stands.inBar {bar : Barrier} {call : Call} (stands : Stands bar call th) (runs : th.state = .running) :
    bar.stateOf th.cid = .running ∨ bar.stateOf th.cid = .waiting ∧
      ((∃ ofSync, call = .barJoin th.cid ofSync) ∨ call = .barSync th.cid) := by
  rcases stands.isHere runs with waits | inBar
  · refine .inr ⟨waits, ?_⟩
    cases call with
    | barJoin cid ofSync => exact .inl ⟨ofSync, by rw [stands.2.1]⟩
    | barSync cid => exact .inr (by rw [stands.2.1])
    | outside => cases waits.symm.trans (stands.2.2 runs)
    | handoff => cases waits.symm.trans stands.2.1
    | finishLeave suppressed => cases waits.symm.trans stands.2.1
    | waitForContext ofSync =>
        rcases stands.2 with ⟨queued, -⟩ | ⟨-, -, -, inBar⟩
        · cases runs.symm.trans queued
        · cases waits.symm.trans inBar
    | finishCheck => exact absurd runs stands.1
    | finishEnd => exact absurd runs stands.1
  · exact .inl inBar

theorem Cleaning.cleanedUp (cleaning : Cleaning quantum pid before [] s) : CleanedUp pid before s where
  queues q g member := by
    have belongs := ((cleaning.inv.core.placed q g).mp member).1
    rcases belongs.state with queued | isOut | sleeps
    · exact cleaning.pid_ne queued (by simp)
    · exact cleaning.pid_ne isOut (by simp)
    · exact cleaning.pid_ne sleeps (by simp)
  contexts c g isCur := by
    rcases (cleaning.inv.core.held c g isCur).1 with runs | isOut
    · exact cleaning.pid_ne runs (by simp)
    · exact cleaning.pid_ne isOut (by simp)
  handoffs v g isTarget := by
    obtain ⟨runs, queued⟩ := cleaning.inv.core.victim v g isTarget
    exact ⟨cleaning.pid_ne runs (by simp), cleaning.pid_ne queued (by simp)⟩
  fakeLeaves g member := by
    obtain ⟨th, isThread, fake⟩ := (cleaning.inv.books.fakes g).mp member
    have runs := ((cleaning.inv.threads g th isThread).fake fake).1
    exact cleaning.pid_ne ((stateOf_eq isThread).trans (congrArg some runs)) (by simp)
  gidMap g isKey isPid := by
    have left := (cleaning.doomed g).mpr ⟨isKey, isPid⟩
    cases left
  others := cleaning.others
  queued g isQueued := by
    by_cases isTarget : ∃ v, s.handoffOf v = some g
    · obtain ⟨v, handoff⟩ := isTarget
      exact .inr ⟨v, (cleaning.inv.core.victim v g handoff).1, handoff⟩
    · exact .inl ((cleaning.inv.core.placed .runQueue g).mpr
        ⟨⟨isQueued, fun v handoff => isTarget ⟨v, handoff⟩⟩, id⟩)
  bar := cleaning.inv.bar.repInv
  inBar g th isThread runs := (cleaning.inv.threads g th isThread).stands.inBar runs

/-- `processCleanup` is as good as its turns. -/
theorem Inv.processCleanup (inv : Inv quantum s) {turns : List Turn}
    (isLegal : legalEvent s (.cleanup pid turns))
    (cleanable : Cleanable s (.cleanup pid turns)) :
    Yields quantum (s.processCleanup pid turns) fun after => CleanedUp pid s after ∧ Inv quantum after :=
  ((Cleaning.start inv cleanable.1 isLegal.1 isLegal.2).exec cleanable.2).imp fun _ cleaning =>
    ⟨cleaning.cleanedUp, cleaning.inv⟩

theorem Inv.event (inv : Inv quantum s) {event : Event} (isLegal : legalEvent s event)
    (cleanable : Cleanable s event) : Yields quantum (s.stepEvent event) (Inv quantum) := by
  cases event with
  | critical input => exact inv.step isLegal
  | cleanup pid turns => exact (inv.processCleanup isLegal cleanable).imp fun _ after => after.2

/-- In every run in which each cleanup finds the threads of its process where `finish` can be applied
to them, no assertion fails, and each cleanup leaves nothing of its process and the others in order. -/
theorem cleanups_consistent {parallelThreads numCores : Nat} (positive : 0 < parallelThreads)
    (cores : numCores ≤ maxThreads) (schedQuantum : Nat) (lastIdx : Nat → Nat) (events : List Event)
    (isLegal : eventMachine.LegalRun events (init parallelThreads numCores schedQuantum lastIdx))
    (cleanable : eventMachine.Along Cleanable events (init parallelThreads numCores schedQuantum lastIdx)) :
    (0 < schedQuantum →
      eventMachine.exec events (init parallelThreads numCores schedQuantum lastIdx) ≠ none) ∧
    ∀ done later pid turns before after, events = done ++ .cleanup pid turns :: later →
      eventMachine.exec done (init parallelThreads numCores schedQuantum lastIdx) = some before →
      before.processCleanup pid turns = some after → CleanedUp pid before after ∧ Accounted after := by
  have start := Inv.init positive cores schedQuantum lastIdx
  constructor
  · intro quantum
    have preserves : (eventMachine.restrict Cleanable).Preserves (Inv schedQuantum) := by
      rintro s event inv ⟨isLegal, cleanable⟩
      rcases inv.event isLegal cleanable with ⟨zero, -⟩ | runs
      · omega
      · exact runs
    obtain ⟨final, run, -⟩ := preserves.exec_restrict start (isLegal.restrict cleanable)
    rw [run]
    simp
  · rintro done later pid turns before after rfl reached run
    have keeps : ∀ s event next, Inv schedQuantum s → eventMachine.legal s event → Cleanable s event →
        eventMachine.step s event = some next → Inv schedQuantum next := by
      intro s event next inv isLegal cleanable stepped
      rcases inv.event isLegal cleanable with ⟨-, trap⟩ | ⟨next', run', inv'⟩
      · cases trap.symm.trans stepped
      · cases Option.some.inj (run'.symm.trans stepped)
        exact inv'
    have first : (eventMachine.restrict Cleanable).LegalRun done
        (init parallelThreads numCores schedQuantum lastIdx) :=
      Machine.LegalRun.restrict isLegal.of_append cleanable.of_append
    have inv : Inv schedQuantum before := Machine.exec_keeps_restrict keeps start first (by simpa using reached)
    have here := isLegal.append_right reached
    have meets := cleanable.append_right reached
    rcases inv.processCleanup here.1 meets.1 with ⟨-, trap⟩ | ⟨after', run', cleaned, inv'⟩
    · cases trap.symm.trans run
    · cases Option.some.inj (run'.symm.trans run)
      exact ⟨cleaned, inv'.core.accounted⟩

/-- A thread of the second process waits, and at the end of the phase it is chosen to be handed the
context of the first one. -/
def chosenRun : List Event :=
  [.start 0 fun _ => true, .start 65536 fun _ => true, .join 0, .resume 0, .join 65536, .sync 0 0].map
    fun op => .critical ⟨op, fun _ => 0, fun _ => 0⟩

/-- The chosen thread is QUEUED, but not in `runQueue`. -/
theorem cleanup_of_target_fails :
    ¬ ∀ (parallelThreads numCores schedQuantum : Nat) (lastIdx : Nat → Nat) (events : List Event) (pid : Nat)
      (turns : List Turn), 0 < parallelThreads → numCores ≤ maxThreads → 0 < schedQuantum →
      eventMachine.LegalRun (events ++ [.cleanup pid turns])
        (init parallelThreads numCores schedQuantum lastIdx) →
      ∃ before after,
        eventMachine.exec events (init parallelThreads numCores schedQuantum lastIdx) = some before ∧
          before.processCleanup pid turns = some after ∧ CleanedUp pid before after := by
  intro claim
  have isLegal : eventMachine.LegalRun (chosenRun ++ [.cleanup 1 [⟨0, fun _ => ⟨id, id⟩⟩]]) (init 1 1 1 id) := by
    decide +kernel
  have fails : ((eventMachine.exec chosenRun (init 1 1 1 id)).bind fun before =>
      before.processCleanup 1 [⟨0, fun _ => ⟨id, id⟩⟩]).isNone = true := by decide +kernel
  obtain ⟨before, after, reached, run, -⟩ :=
    claim 1 1 1 id chosenRun 1 _ Nat.one_pos (by decide) Nat.one_pos isLegal
  rw [reached, Option.bind_some, run] at fails
  cases fails

/-- A thread that waits in the barrier is cleaned up, and its context given to one of `runQueue`. -/
def handedOnRun : List Event :=
  [.start 0 fun _ => true, .start 65536 fun _ => true, .start 1 fun _ => true, .join 0, .resume 0, .join 65536,
    .join 1].map fun op => .critical ⟨op, fun _ => 0, fun _ => 0⟩

def handedOnRest : List Event :=
  [.cleanup 1 [⟨0, fun _ => ⟨id, id⟩⟩], .critical ⟨.resume 1, id, id⟩, .critical ⟨.sync 1 1, id, id⟩]

-- the new thread runs while the barrier takes it to be WAITING, and its first `sync` fails
example : eventMachine.LegalRun (handedOnRun ++ handedOnRest) (init 1 2 4 id) ∧
    (eventMachine.exec (handedOnRun ++ handedOnRest) (init 1 2 4 id)).isNone = true := by decide +kernel

/-- Of the threads of the second process one waits in `runQueue`, one sleeps, and one is in the futex
wait of `bar.sync`. -/
def stoppedRun : List Event :=
  [.start 65538 fun _ => true, .start 65536 fun _ => true, .start 65537 fun _ => true, .start 0 fun _ => true,
    .join 65538, .resume 65538, .markForSleep 65538 9, .leave 65538 0, .join 65536, .resume 65536, .join 0,
    .sync 65536 0, .resume 0, .join 65537].map fun op => .critical ⟨op, fun _ => 0, fun _ => 0⟩

def stoppedTurns : List Turn := [1, 2, 0].map fun tid => ⟨tid, fun _ => ⟨fun _ => 0, fun _ => 0⟩⟩

/-- The thread of the first process goes on after the cleanup. -/
theorem cleanups_consistent_stopped :
    ∃ before after, eventMachine.exec stoppedRun (init 1 2 2 id) = some before ∧
      before.processCleanup 1 stoppedTurns = some after ∧ CleanedUp 1 before after ∧ Accounted after ∧
      after.stepEvent (.critical ⟨.sync 0 1, fun _ => 0, fun _ => 0⟩) ≠ none := by
  let goesOn : Event := .critical ⟨.sync 0 1, fun _ => 0, fun _ => 0⟩
  have cores : 2 ≤ maxThreads := by decide
  have isLegal : eventMachine.LegalRun (stoppedRun ++ [.cleanup 1 stoppedTurns, goesOn]) (init 1 2 2 id) := by
    decide +kernel
  have cleanable : eventMachine.Along Cleanable (stoppedRun ++ [.cleanup 1 stoppedTurns, goesOn])
      (init 1 2 2 id) := by decide +kernel
  obtain ⟨passes, cleaned⟩ := cleanups_consistent Nat.one_pos cores 2 id _ isLegal cleanable
  obtain ⟨final, run⟩ := Option.ne_none_iff_exists'.mp (passes Nat.two_pos)
  rw [Machine.exec_append] at run
  obtain ⟨before, reached, run⟩ := Option.bind_eq_some_iff.mp run
  obtain ⟨after, cleanup, run⟩ := Option.bind_eq_some_iff.mp run
  obtain ⟨last, step, -⟩ := Option.bind_eq_some_iff.mp run
  obtain ⟨isClean, accounted⟩ := cleaned stoppedRun [goesOn] 1 stoppedTurns before after rfl reached cleanup
  exact ⟨before, after, reached, cleanup, isClean, accounted, Option.ne_none_iff_exists'.mpr ⟨last, step⟩⟩

end Zsim.Scheduler
