import Zsim.Barrier.Turns
import Zsim.Scheduler.Contexts

/-!
# The end of a phase

`callback` wakes the sleepers whose deadline is met and, at the end of a quantum, chooses
running threads that have to hand their contexts over.  It is called when every running thread
is in `bar.sync`, and finds a victim behind every context that a waiting thread may run on.
-/

set_option autoImplicit false

namespace Zsim.Scheduler

variable {s : Scheduler}

/-- What is left alone by the callback. -/
structure Quiet (s s' : Scheduler) : Prop where
  numCores : s'.numCores = s.numCores
  schedQuantum : s'.schedQuantum = s.schedQuantum
  bar : s'.bar = s.bar
  gidMap : s'.gidMap = s.gidMap
  contexts : s'.contexts = s.contexts
  fakeLeaves : s'.fakeLeaves = s.fakeLeaves
  scheduledThreads : s'.scheduledThreads = s.scheduledThreads
  calls : s'.calls = s.calls

theorem Quiet.refl (s : Scheduler) : Quiet s s := ⟨rfl, rfl, rfl, rfl, rfl, rfl, rfl, rfl⟩

theorem Quiet.trans {a b c : Scheduler} (first : Quiet a b) (second : Quiet b c) : Quiet a c :=
  ⟨second.numCores.trans first.numCores, second.schedQuantum.trans first.schedQuantum,
    second.bar.trans first.bar, second.gidMap.trans first.gidMap,
    second.contexts.trans first.contexts, second.fakeLeaves.trans first.fakeLeaves,
    second.scheduledThreads.trans first.scheduledThreads, second.calls.trans first.calls⟩

theorem quiet_set (s : Scheduler) (gid : Nat) (th : ThreadInfo) (q : Queue) (gids : List Nat) :
    Quiet s ((s.setThread gid th).setQueue q gids) := ⟨rfl, rfl, rfl, rfl, rfl, rfl, rfl, rfl⟩

@[simp] theorem setThread_setThread (s : Scheduler) (gid : Nat) (th th' : ThreadInfo) :
    (s.setThread gid th).setThread gid th' = s.setThread gid th' := by
  simp [setThread]

/-! ## Waking the sleepers -/

def awakened (th : ThreadInfo) : ThreadInfo :=
  { th with state := .blocked, needsJoin := false, futexWord := 0 }

def SleepersOk (s : Scheduler) : Prop :=
  ∀ g th, s.threads g = some th → th.state = .sleeping → th.futexWord = 1 ∧ s.curPhase ≤ th.wakeupPhase

theorem Core.wakeFirst (core : Core none ∅ s) {gid : Nat} {rest : List Nat} {th : ThreadInfo}
    (isQueue : s.queue .sleepQueue = gid :: rest) (isThread : s.threads gid = some th) :
    th.state = .sleeping ∧
      Core none ∅ ((s.setThread gid (awakened th)).setQueue .sleepQueue rest) := by
  have member : gid ∈ s.queue .sleepQueue := by
    rw [isQueue]
    exact List.mem_cons_self
  have sleeps := ((core.placed .sleepQueue gid).mp member).1
  have isSleeping : th.state = .sleeping := Option.some.inj ((stateOf_eq isThread).symm.trans sleeps)
  have blocked := (core.wake isThread isSleeping).2
  rw [isQueue, List.erase_cons_head] at blocked
  have isBlocked : ((s.setQueue .sleepQueue rest).setThread gid { th with state := .blocked }).threads gid =
      some { th with state := .blocked } := by rw [threads_setThread, if_pos rfl]
  have woken := blocked.modify isBlocked (awakened th) rfl rfl rfl rfl (.inl rfl)
  rw [setThread_setThread] at woken
  refine ⟨isSleeping, woken.tighten fun q belongs => ?_⟩
  cases q <;> simp [Belongs, awakened] at belongs

theorem Core.wakeSleepers {gids : List Nat} (core : Core none ∅ s)
    (isQueue : s.queue .sleepQueue = gids) (ok : SleepersOk s) :
    ∃ s', Scheduler.wakeSleepers gids s = some s' ∧ Core none ∅ s' ∧ Quiet s s' ∧
      s'.curPhase = s.curPhase ∧
      (∀ g, s'.threads g = s.threads g ∨
        ∃ th, s.threads g = some th ∧ th.state = .sleeping ∧ s'.threads g = some (awakened th)) ∧
      ∀ g th, s'.threads g = some th → th.state = .sleeping →
        th.futexWord = 1 ∧ s'.curPhase < th.wakeupPhase := by
  induction gids generalizing s with
  | nil =>
      refine ⟨s, rfl, core, .refl s, rfl, fun g => .inl rfl, fun g th isThread sleeps => ?_⟩
      have member : g ∈ s.queue .sleepQueue :=
        (core.placed .sleepQueue g).mpr ⟨(stateOf_eq isThread).trans (congrArg some sleeps), id⟩
      rw [isQueue] at member
      cases member
  | cons gid rest ih =>
      have member : gid ∈ s.queue .sleepQueue := by
        rw [isQueue]
        exact List.mem_cons_self
      obtain ⟨th, isThread, isSleeping⟩ :=
        Option.map_eq_some_iff.mp ((core.placed .sleepQueue gid).mp member).1
      obtain ⟨isSet, notPast⟩ := ok gid th isThread isSleeping
      by_cases due : th.wakeupPhase ≤ s.curPhase
      · have woken := (core.wakeFirst isQueue isThread).2
        have ok' : SleepersOk ((s.setThread gid (awakened th)).setQueue .sleepQueue rest) := by
          intro g x isX sleeps
          change (s.setThread gid (awakened th)).threads g = some x at isX
          rw [threads_setThread] at isX
          split at isX
          · cases isX
            cases sleeps
          · exact ok g x isX sleeps
        obtain ⟨s', run, core', quiet, phase, threads, later⟩ := ih woken (by simp) ok'
        refine ⟨s', ?_, core', .trans (quiet_set s _ _ _ _) quiet, phase, fun g => ?_, later⟩
        · have isBlocked : (s.setThread gid { th with state := .blocked }).threads gid =
              some { th with state := .blocked } := by rw [threads_setThread, if_pos rfl]
          simp only [Scheduler.wakeSleepers, isThread, Option.bind_eq_bind, Option.bind_some, if_pos due,
            if_pos (Nat.le_antisymm due notPast), wakeup, isBlocked, if_pos isSet, setThread_setThread]
          exact run
        · have before : ((s.setThread gid (awakened th)).setQueue .sleepQueue rest).threads g =
              if g = gid then some (awakened th) else s.threads g := threads_setThread s gid g _
          rcases threads g with same | ⟨x, isX, sleeps, isAwake⟩
          · rw [same, before]
            by_cases isFirst : g = gid
            · rw [if_pos isFirst, isFirst]
              exact .inr ⟨th, isThread, isSleeping, rfl⟩
            · rw [if_neg isFirst]
              exact .inl rfl
          · rw [before] at isX
            split at isX
            · cases isX
              cases sleeps
            · exact .inr ⟨x, isX, sleeps, isAwake⟩
      · refine ⟨s, ?_, core, .refl s, rfl, fun g => .inl rfl, fun g x isX sleeps => ⟨(ok g x isX sleeps).1, ?_⟩⟩
        · simp only [Scheduler.wakeSleepers, isThread, Option.bind_eq_bind, Option.bind_some, if_neg due]
        · -- the queue is in the order of the deadlines
          have member' : g ∈ s.queue .sleepQueue :=
            (core.placed .sleepQueue g).mpr ⟨(stateOf_eq isX).trans (congrArg some sleeps), id⟩
          have sorted := core.sorted
          rw [isQueue] at member' sorted
          rcases List.mem_cons.mp member' with isFirst | behind
          · subst isFirst
            cases Option.some.inj (isThread.symm.trans isX)
            omega
          · have le := List.rel_of_pairwise_cons sorted behind
            rw [wakeupPhaseOf_eq isThread, wakeupPhaseOf_eq isX] at le
            omega

/-! ## Choosing victims -/

theorem shuffleFrom_range (rand : Nat → Nat) (n i : Nat) (availVec : Nat → Nat) (bound : i < n)
    (injective : ∀ a b, a < n → b < n → availVec a = availVec b → a = b)
    (below : ∀ a, a < n → availVec a < n) :
    (∀ a b, a < n → b < n → shuffleFrom rand i availVec a = shuffleFrom rand i availVec b → a = b) ∧
      ∀ a, a < n → shuffleFrom rand i availVec a < n := by
  induction i generalizing availVec with
  | zero => exact ⟨injective, below⟩
  | succ i ih =>
      have swapped : ∀ a, a < n → Equiv.swap (i + 1) (rand (i + 1) % (i + 2)) a < n := by
        intro a lt
        have drawn : rand (i + 1) % (i + 2) < i + 2 := Nat.mod_lt _ (Nat.succ_pos _)
        rw [Equiv.swap_apply_def]
        split_ifs <;> omega
      apply ih
      · omega
      · intro a b ltA ltB same
        exact (Equiv.swap _ _).injective (injective _ _ (swapped a ltA) (swapped b ltB) same)
      · exact fun a lt => below _ (swapped a lt)

theorem avail_spec (rand : Nat → Nat) (n : Nat) :
    (avail rand n).Nodup ∧ ∀ c, c ∈ avail rand n → c < n := by
  cases n with
  | zero => simp [avail]
  | succ n =>
      obtain ⟨injective, below⟩ := shuffleFrom_range rand (n + 1) n id (Nat.lt_succ_self n)
        (fun a b _ _ same => same) fun a lt => lt
      refine ⟨List.Nodup.map_on ?_ List.nodup_range, fun c member => ?_⟩
      · intro a memberA b memberB same
        exact injective a b (List.mem_range.mp memberA) (List.mem_range.mp memberB) same
      · obtain ⟨a, memberA, rfl⟩ := List.mem_map.mp member
        exact below a (List.mem_range.mp memberA)

/-- No running thread has been chosen yet behind the contexts on offer. -/
def Offers (s : Scheduler) (avail : List Nat) : Prop :=
  avail.Nodup ∧ ∀ c ∈ avail, c < s.numCores ∧
    ∀ v, (s.contexts c).curThread = some v → s.handoffOf v = none

/-- The loop of `schedTick` finds a running victim behind every context that it takes. -/
theorem Core.assign {gids avail : List Nat} (core : Core none ∅ s) (offers : Offers s avail)
    (waiting : ∀ g ∈ gids, g ∈ s.queue .runQueue) (once : gids.Nodup) :
    ∃ s', Scheduler.assign gids avail s = some s' ∧ Core none ∅ s' ∧ Quiet s s' ∧
      s'.curPhase = s.curPhase ∧
      ∀ g, s'.threads g = s.threads g ∨ ∃ th d, s.threads g = some th ∧ th.state = .running ∧
        s'.threads g = some { th with handoffThread := some d } := by
  induction gids generalizing s avail with
  | nil => exact ⟨s, rfl, core, .refl s, rfl, fun g => .inl rfl⟩
  | cons gid rest ih =>
      obtain ⟨notAgain, once⟩ := List.nodup_cons.mp once
      cases found : avail.find? (s.maskOf gid) with
      | none =>
          obtain ⟨s', run, facts⟩ :=
            ih core offers (fun g member => waiting g (List.mem_cons_of_mem _ member)) once
          exact ⟨s', by rw [Scheduler.assign, found]; exact run, facts⟩
      | some cid =>
          have isOffered := List.mem_of_find?_eq_some found
          have waits := waiting gid List.mem_cons_self
          obtain ⟨bound, unchosen⟩ := offers.2 cid isOffered
          obtain ⟨victim, isHeld, runs⟩ :=
            core.conserved gid cid waits bound (List.find?_some found) (by simp)
          obtain ⟨victimTh, isThread, isRunning⟩ := Option.map_eq_some_iff.mp runs
          have noHandoff : victimTh.handoffThread = none :=
            (handoffOf_eq isThread).symm.trans (unchosen victim isHeld)
          have chosen := core.choose waits isThread isRunning noHandoff
          have offers' : Offers ((s.setThread victim { victimTh with handoffThread := some gid }).setQueue
              .runQueue ((s.queue .runQueue).erase gid)) (avail.erase cid) := by
            refine ⟨offers.1.erase cid, fun c member => ?_⟩
            obtain ⟨ne, member⟩ := offers.1.mem_erase_iff.mp member
            refine ⟨(offers.2 c member).1, fun v isHeld' => ?_⟩
            have other : v ≠ victim := by
              rintro rfl
              exact ne ((core.held c v isHeld').2.symm.trans (core.held cid v isHeld).2)
            change (s.setThread victim _).handoffOf v = none
            rw [handoffOf_setThread, if_neg other]
            exact (offers.2 c member).2 v isHeld'
          obtain ⟨s', run, core', quiet, phase, threads⟩ := ih chosen offers' (fun g member => by
            rw [queue_setQueue, if_pos rfl, (core.once _).mem_erase_iff]
            refine ⟨?_, waiting g (List.mem_cons_of_mem _ member)⟩
            rintro rfl
            exact notAgain member) once
          refine ⟨s', ?_, core', .trans (quiet_set s _ _ _ _) quiet, phase, fun g => ?_⟩
          · have isOwner : (s.setThread victim { victimTh with handoffThread := some gid }).owner gid =
                some .runQueue := core.owner_eq waits
            simp only [Scheduler.assign, found, isHeld, isThread, Option.bind_eq_bind, Option.bind_some,
              Scheduler.remove, if_pos isOwner]
            exact run
          · have before : ((s.setThread victim { victimTh with handoffThread := some gid }).setQueue
                .runQueue ((s.queue .runQueue).erase gid)).threads g =
                  if g = victim then some { victimTh with handoffThread := some gid } else s.threads g :=
              threads_setThread s victim g _
            rcases threads g with same | ⟨th, d, isTh, runs', isChosen⟩
            · rw [same, before]
              split
              · rename_i isVictim
                rw [isVictim]
                exact .inr ⟨victimTh, gid, isThread, isRunning, rfl⟩
              · exact .inl rfl
            · rw [before] at isTh
              split at isTh
              · rename_i isVictim
                cases isTh
                rw [isVictim]
                exact .inr ⟨victimTh, d, isThread, isRunning, isVictim ▸ isChosen⟩
              · exact .inr ⟨th, d, isTh, runs', isChosen⟩

/-! ## callback -/

def Ticked (th th' : ThreadInfo) : Prop :=
  th' = th ∨ (th.state = .running ∧ ∃ d, th' = { th with handoffThread := some d }) ∨
    (th.state = .sleeping ∧ th' = awakened th)

def Unchosen (s : Scheduler) : Prop :=
  ∀ g th, s.threads g = some th → th.state = .running → th.handoffThread = none

/-- What is returned; only the division by a quantum of 0 traps. -/
def Yields {α : Type} (schedQuantum : Nat) (result : Option α) (holds : α → Prop) : Prop :=
  schedQuantum = 0 ∧ result = none ∨ ∃ next, result = some next ∧ holds next

theorem Yields.imp {α : Type} {schedQuantum : Nat} {result : Option α} {holds holds' : α → Prop}
    (yields : Yields schedQuantum result holds) (imp : ∀ next, holds next → holds' next) :
    Yields schedQuantum result holds' :=
  yields.imp_right fun ⟨next, run, here⟩ => ⟨next, run, imp next here⟩

theorem Yields.map {α β : Type} {schedQuantum : Nat} {result : Option α} {holds : α → Prop}
    (yields : Yields schedQuantum result holds) {f : α → β} {holds' : β → Prop}
    (imp : ∀ next, holds next → holds' (f next)) : Yields schedQuantum (result.map f) holds' := by
  rcases yields with ⟨zero, trap⟩ | ⟨next, run, facts⟩
  · exact .inl ⟨zero, by rw [trap, Option.map_none]⟩
  · exact .inr ⟨f next, by rw [run, Option.map_some], imp next facts⟩

/-- A phase has ended in `s`. -/
structure PhaseEnded (s s' : Scheduler) : Prop where
  core : Core none ∅ s'
  quiet : Quiet s s'
  phase : s'.curPhase = s.curPhase + 1
  before : ∀ g th', s'.threads g = some th' → ∃ th, s.threads g = some th ∧ Ticked th th'
  after : ∀ g th, s.threads g = some th → ∃ th', s'.threads g = some th' ∧ Ticked th th'
  sleepers : ∀ g th, s'.threads g = some th → th.state = .sleeping →
    th.futexWord = 1 ∧ s'.curPhase < th.wakeupPhase

theorem Core.callback (core : Core none ∅ s) (unchosen : Unchosen s)
    (sleeps : ∀ g th, s.threads g = some th → th.state = .sleeping →
      th.futexWord = 1 ∧ s.curPhase < th.wakeupPhase) (rand : Nat → Nat) :
    Yields s.schedQuantum (s.callback rand) (PhaseEnded s) := by
  have few : s.scheduledThreads ≤ s.numCores := by
    rw [core.scheduled, countIn]
    exact (Finset.card_filter_le _ _).trans_eq (Finset.card_range _)
  let next := { s with curPhase := s.curPhase + 1 }
  have nextCore : Core none ∅ next := core.congr rfl rfl rfl rfl rfl rfl
  have ok : SleepersOk next := fun g th isThread isSleeping => sleeps g th isThread isSleeping
  obtain ⟨mid, woke, midCore, midQuiet, midPhase, midThreads, later⟩ := nextCore.wakeSleepers rfl ok
  have isNext : Quiet s next := ⟨rfl, rfl, rfl, rfl, rfl, rfl, rfl, rfl⟩
  have toMid := isNext.trans midQuiet
  have phase : mid.curPhase = s.curPhase + 1 := midPhase
  have ticked : ∀ g, mid.threads g = s.threads g ∨
      ∃ th, s.threads g = some th ∧ th.state = .sleeping ∧ mid.threads g = some (awakened th) := midThreads
  have forward : ∀ g th, s.threads g = some th → ∃ th', mid.threads g = some th' ∧
      (th' = th ∨ th.state = .sleeping ∧ th' = awakened th) := by
    intro g th isThread
    rcases ticked g with same | ⟨x, isX, isSleeping, isAwake⟩
    · exact ⟨th, same.trans isThread, .inl rfl⟩
    · cases Option.some.inj (isThread.symm.trans isX)
      exact ⟨awakened th, isAwake, .inr ⟨isSleeping, rfl⟩⟩
  have backward : ∀ g th', mid.threads g = some th' → ∃ th, s.threads g = some th ∧
      (th' = th ∨ th.state = .sleeping ∧ th' = awakened th) := by
    intro g th' isThread
    rcases ticked g with same | ⟨x, isX, isSleeping, isAwake⟩
    · exact ⟨th', same.symm.trans isThread, .inl rfl⟩
    · exact ⟨x, isX, .inr ⟨isSleeping, Option.some.inj (isThread.symm.trans isAwake)⟩⟩
  have stop : PhaseEnded s mid := by
    refine ⟨midCore, toMid, phase, fun g th' isThread => ?_, fun g th isThread => ?_, later⟩
    · obtain ⟨th, isBefore, change⟩ := backward g th' isThread
      exact ⟨th, isBefore, change.imp_right .inr⟩
    · obtain ⟨th', isAfter, change⟩ := forward g th isThread
      exact ⟨th', isAfter, change.imp_right .inr⟩
  simp only [Scheduler.callback, if_pos few, Option.bind_eq_bind]
  rw [show Scheduler.wakeSleepers (s.queue .sleepQueue) next = some mid from woke, Option.bind_some]
  by_cases empty : mid.queue .runQueue = []
  · rw [if_pos empty]
    exact .inr ⟨mid, rfl, stop⟩
  · rw [if_neg empty]
    by_cases quantum : mid.schedQuantum = 0
    · rw [if_pos quantum]
      exact .inl ⟨toMid.schedQuantum.symm.trans quantum, rfl⟩
    rw [if_neg quantum]
    by_cases ends : mid.curPhase % mid.schedQuantum = 0
    · rw [if_pos ends]
      -- the victims are running, so that none of them has been chosen before
      have offers : Offers mid (avail rand mid.numCores) := by
        obtain ⟨once, below⟩ := avail_spec rand mid.numCores
        refine ⟨once, fun c member => ⟨below c member, fun v isHeld => ?_⟩⟩
        obtain ⟨holding, -⟩ := midCore.held c v isHeld
        rcases holding with state | state
        · obtain ⟨th', isThread, runs⟩ := Option.map_eq_some_iff.mp state
          obtain ⟨th, isBefore, change⟩ := backward v th' isThread
          rcases change with same | ⟨-, isAwake⟩
          · subst same
            exact (handoffOf_eq isThread).trans (unchosen v th' isBefore runs)
          · rw [isAwake] at runs
            cases runs
        · obtain ⟨th', isThread, isOut⟩ := Option.map_eq_some_iff.mp state
          exact (handoffOf_eq isThread).trans (midCore.noHandoff isThread (by simp [isOut]))
      obtain ⟨s', run, core', quiet, phase', threads⟩ :=
        midCore.assign offers (fun g member => member) (midCore.once .runQueue)
      refine .inr ⟨s', run, core', toMid.trans quiet, phase'.trans phase, fun g th' isThread => ?_,
        fun g th isThread => ?_, fun g th' isThread isSleeping => ?_⟩
      · rcases threads g with same | ⟨x, d, isX, runs, isChosen⟩
        · obtain ⟨th, isBefore, change⟩ := backward g th' (same.symm.trans isThread)
          exact ⟨th, isBefore, change.imp_right .inr⟩
        · obtain ⟨th, isBefore, change⟩ := backward g x isX
          rcases change with same | ⟨-, isAwake⟩
          · subst same
            exact ⟨x, isBefore, .inr (.inl ⟨runs, d, Option.some.inj (isThread.symm.trans isChosen)⟩)⟩
          · rw [isAwake] at runs
            cases runs
      · obtain ⟨x, isX, change⟩ := forward g th isThread
        rcases threads g with same | ⟨y, d, isY, runs, isChosen⟩
        · exact ⟨x, same.trans isX, change.imp_right .inr⟩
        · cases Option.some.inj (isX.symm.trans isY)
          rcases change with same | ⟨-, isAwake⟩
          · subst same
            exact ⟨_, isChosen, .inr (.inl ⟨runs, d, rfl⟩)⟩
          · rw [isAwake] at runs
            cases runs
      · rw [phase']
        rcases threads g with same | ⟨x, d, isX, runs, isChosen⟩
        · exact later g th' (same.symm.trans isThread) isSleeping
        · cases Option.some.inj (isThread.symm.trans isChosen)
          exact absurd (runs.symm.trans isSleeping) (by simp)
    · rw [if_neg ends]
      exact .inr ⟨mid, rfl, stop⟩

end Zsim.Scheduler
