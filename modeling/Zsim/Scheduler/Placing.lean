import Zsim.Scheduler.Contexts

/-!
# Placing a thread

What `schedThread` and `schedContext` take off the lists, and what a thread that is given a
context ends up as.  None of these fails between two operations: a context that is IDLE is on
`freeList`, and a thread that waits has its futex word set.
-/

set_option autoImplicit false

namespace Zsim.Scheduler

variable {hole : Option Nat} {loose : Set Nat} {s : Scheduler} {gid cid : Nat} {th : ThreadInfo}

/-- Only threads, contexts and lists change. -/
structure Frame (s s' : Scheduler) : Prop where
  numCores : s'.numCores = s.numCores
  schedQuantum : s'.schedQuantum = s.schedQuantum
  bar : s'.bar = s.bar
  gidMap : s'.gidMap = s.gidMap
  fakeLeaves : s'.fakeLeaves = s.fakeLeaves
  curPhase : s'.curPhase = s.curPhase
  calls : s'.calls = s.calls

theorem Frame.refl (s : Scheduler) : Frame s s := ⟨rfl, rfl, rfl, rfl, rfl, rfl, rfl⟩

theorem Frame.trans {a b c : Scheduler} (first : Frame a b) (second : Frame b c) : Frame a c :=
  ⟨second.numCores.trans first.numCores, second.schedQuantum.trans first.schedQuantum,
    second.bar.trans first.bar, second.gidMap.trans first.gidMap,
    second.fakeLeaves.trans first.fakeLeaves, second.curPhase.trans first.curPhase,
    second.calls.trans first.calls⟩

theorem frame_setThread (s : Scheduler) (gid : Nat) (th : ThreadInfo) : Frame s (s.setThread gid th) :=
  ⟨rfl, rfl, rfl, rfl, rfl, rfl, rfl⟩

theorem frame_setQueue (s : Scheduler) (q : Queue) (gids : List Nat) : Frame s (s.setQueue q gids) :=
  ⟨rfl, rfl, rfl, rfl, rfl, rfl, rfl⟩

theorem frame_freeList (s : Scheduler) (cids : List Nat) : Frame s { s with freeList := cids } :=
  ⟨rfl, rfl, rfl, rfl, rfl, rfl, rfl⟩

theorem frame_occupy (s : Scheduler) (gid cid : Nat) (th : ThreadInfo) : Frame s (s.occupy gid cid th) :=
  ⟨rfl, rfl, rfl, rfl, rfl, rfl, rfl⟩

theorem frame_vacate (s : Scheduler) (gid cid : Nat) (th : ThreadInfo) (targetState : ThreadState) :
    Frame s (s.vacate gid cid th targetState) := ⟨rfl, rfl, rfl, rfl, rfl, rfl, rfl⟩

theorem Belongs.state {s : Scheduler} {q : Queue} (belongs : s.Belongs gid q) :
    s.stateOf gid = some .queued ∨ s.stateOf gid = some .out ∨ s.stateOf gid = some .sleeping := by
  cases q with
  | runQueue => exact .inl belongs.1
  | outQueue => exact .inr (.inl belongs)
  | sleepQueue => exact .inr (.inr belongs)

theorem not_belongs {state : ThreadState} (isState : s.stateOf gid = some state)
    (idle : state = .started ∨ state = .running ∨ state = .blocked) (q : Queue) :
    ¬ s.Belongs gid q := by
  intro belongs
  have states := belongs.state
  rw [isState] at states
  rcases idle with rfl | rfl | rfl <;> simp at states

/-! ## Taking a context and giving it -/

theorem Core.deschedule (core : Core none loose s) (isThread : s.threads gid = some th)
    (holding : th.state = .running ∨ th.state = .out) (absent : ∀ q, gid ∉ s.queue q)
    (noHandoff : th.handoffThread = none) {targetState : ThreadState}
    (isTarget : targetState = .blocked ∨ targetState = .queued ∨ targetState = .sleeping) :
    s.deschedule gid th.cid targetState = some (s.vacate gid th.cid th targetState) ∧
      Core (some th.cid) (insert gid loose) (s.vacate gid th.cid th targetState) := by
  have holds : s.Holding gid := by
    unfold Holding
    rw [stateOf_eq isThread]
    exact holding.imp (congrArg some) (congrArg some)
  have isCur := core.holds gid holds
  rw [cidOf_eq isThread] at isCur
  have isUsed : (s.contexts th.cid).state = .used := (core.used th.cid).mpr (by simp [isCur])
  refine ⟨?_, core.vacate isThread holds absent noHandoff isTarget⟩
  unfold Scheduler.deschedule
  rw [isThread]
  exact if_pos ⟨holding, isUsed, rfl, isCur⟩

theorem Core.schedule (core : Core (some cid) (insert gid loose) s) (isThread : s.threads gid = some th)
    (waits : th.state = .started ∨ th.state = .blocked ∨ th.state = .queued)
    (noTarget : ∀ v, s.handoffOf v ≠ some gid) :
    s.schedule gid cid = some (s.occupy gid cid th) ∧ Core none loose (s.occupy gid cid th) := by
  obtain ⟨-, empty⟩ := core.isHole cid rfl
  have isIdle : (s.contexts cid).state = .idle := by
    have notUsed := core.hole_used
    cases state : (s.contexts cid).state with
    | idle => rfl
    | used => exact absurd state notUsed
  have idle : ¬ s.Holding gid := by
    unfold Holding
    rw [stateOf_eq isThread]
    rcases waits with state | state | state <;> simp [state]
  refine ⟨?_, ?_⟩
  · unfold Scheduler.schedule
    rw [isThread]
    exact if_pos ⟨waits, isIdle, empty⟩
  · have placed := core.occupy isThread (Set.mem_insert gid loose) idle noTarget
    apply placed.tighten
    exact not_belongs (by rw [stateOf_occupy, if_pos rfl]) (.inr (.inl rfl))

/-- The thread is out of the queue and has its context. -/
def granted (th : ThreadInfo) (cid : Nat) : ThreadInfo :=
  { th with state := .running, cid := cid, needsJoin := false, futexWord := 0 }

theorem Core.giveTo (core : Core (some cid) (insert gid loose) s) (isThread : s.threads gid = some th)
    (queued : th.state = .queued) (noTarget : ∀ v, s.handoffOf v ≠ some gid)
    (isSet : th.futexWord = 1) :
    ∃ next, s.giveTo gid cid = some next ∧ Core none loose next ∧ Frame s next ∧
      (∀ g, next.threads g = if g = gid then some (granted th cid) else s.threads g) ∧
      ∀ c, next.contexts c = if c = cid then ⟨.used, some gid⟩ else s.contexts c := by
  obtain ⟨run, placed⟩ := core.schedule isThread (.inr (.inr queued)) noTarget
  have isRunning : (s.occupy gid cid th).threads gid = some { th with state := .running, cid := cid } := by
    rw [threads_occupy, if_pos rfl]
  have notAsleep : gid ∉ (s.occupy gid cid th).queue .sleepQueue :=
    placed.absent (not_belongs (by rw [stateOf_occupy, if_pos rfl]) (.inr (.inl rfl))) .sleepQueue
  refine ⟨(s.occupy gid cid th).setThread gid (granted th cid), ?_,
    placed.modify isRunning (granted th cid) rfl rfl rfl rfl (.inr notAsleep),
    ⟨rfl, rfl, rfl, rfl, rfl, rfl, rfl⟩, fun g => ?_, fun c => contexts_occupy c⟩
  · unfold Scheduler.giveTo Scheduler.wakeup
    rw [run, Option.bind_eq_bind, Option.bind_some, isRunning, Option.bind_eq_bind, Option.bind_some,
      if_pos isSet]
    rfl
  · rw [threads_setThread, threads_occupy]
    split <;> rfl

theorem Core.release (core : Core (some cid) loose s)
    (unwanted : ∀ g ∈ s.queue .runQueue, s.maskOf g cid = false) :
    s.pushFree cid = some { s with freeList := s.freeList ++ [cid] } ∧
      Core none loose { s with freeList := s.freeList ++ [cid] } :=
  ⟨if_neg fun isFree => ((core.free cid).mp isFree).2.2 rfl, core.pushFree unwanted⟩

/-! ## schedContext -/

/-- Either nobody in `runQueue` wants the context, or the first who does is taken. -/
theorem Core.schedContext (core : Core hole loose s) (cid : Nat) :
    (s.schedContext cid = some (s, none) ∧ ∀ g ∈ s.queue .runQueue, s.maskOf g cid = false) ∨
      ∃ inTh, s.schedContext cid =
          some (s.setQueue .runQueue ((s.queue .runQueue).erase inTh), some inTh) ∧
        Core hole (insert inTh loose) (s.setQueue .runQueue ((s.queue .runQueue).erase inTh)) ∧
        s.Belongs inTh .runQueue := by
  unfold Scheduler.schedContext
  cases found : (s.queue .runQueue).find? fun blockedTh => s.maskOf blockedTh cid with
  | none =>
      refine .inl ⟨rfl, fun g member => ?_⟩
      exact Bool.eq_false_iff.mpr (List.find?_eq_none.mp found g member)
  | some inTh =>
      have member := List.mem_of_find?_eq_some found
      obtain ⟨run, removed⟩ := core.remove member
      refine .inr ⟨inTh, ?_, removed, ((core.placed .runQueue inTh).mp member).1⟩
      dsimp only
      rw [run]
      rfl

/-! ## schedThread -/

/-- A context has been found for a thread. -/
structure Taken (s taken : Scheduler) (cid : Nat) : Prop where
  frame : Frame s taken
  threads : ∀ g, taken.threads g = s.threads g ∨ ∃ th, s.threads g = some th ∧ th.state = .out ∧
    taken.threads g = some { th with state := .blocked }
  contexts : ∀ c, c ≠ cid → taken.contexts c = s.contexts c
  free : ∀ g, (s.contexts cid).curThread = some g → s.stateOf g = some .out

/-- Every context that the thread may run on is held by a running thread. -/
def Crowded (s : Scheduler) (th : ThreadInfo) : Prop :=
  ∀ c, c < s.numCores → th.mask c = true →
    ∃ g, (s.contexts c).curThread = some g ∧ s.stateOf g = some .running

theorem Core.takeFirst (core : Core none loose s) (isFree : cid ∈ s.freeList) :
    s.removeFree cid = some { s with freeList := s.freeList.erase cid } ∧
      Taken s { s with freeList := s.freeList.erase cid } cid ∧
      Core (some cid) loose { s with freeList := s.freeList.erase cid } := by
  obtain ⟨-, empty, -⟩ := (core.free cid).mp isFree
  refine ⟨if_pos isFree, ⟨⟨rfl, rfl, rfl, rfl, rfl, rfl, rfl⟩, fun g => .inl rfl, fun c _ => rfl, ?_⟩,
    core.takeFree isFree⟩
  intro g isCur
  cases empty.symm.trans isCur

/-- Nothing is free, so that only the threads that are OUT have a context to give. -/
theorem Core.stealContext (core : Core none loose s)
    (noneOut : ∀ g ∈ loose, s.stateOf g ≠ some .out) (noneFree : ∀ c ∈ s.freeList, th.mask c ≠ true) :
    (s.stealContext th = some (s, none) ∧ Crowded s th) ∨
      ∃ taken cid, s.stealContext th = some (taken, some cid) ∧ Taken s taken cid ∧
        Core (some cid) loose taken := by
  unfold Scheduler.stealContext
  cases found : (s.queue .outQueue).find? fun outTh => th.mask (s.cidOf outTh) with
  | none =>
      refine .inl ⟨rfl, fun c bound wants => ?_⟩
      cases isCur : (s.contexts c).curThread with
      | none => exact absurd wants (noneFree c ((core.free c).mpr ⟨bound, isCur, by simp⟩))
      | some g =>
          obtain ⟨holding, isCid⟩ := core.held c g isCur
          refine ⟨g, rfl, holding.resolve_right fun isOut => ?_⟩
          have member : g ∈ s.queue .outQueue :=
            (core.placed .outQueue g).mpr ⟨isOut, fun isLoose => noneOut g isLoose isOut⟩
          apply List.find?_eq_none.mp found g member
          rw [isCid]
          exact wants
  | some outTh =>
      have member := List.mem_of_find?_eq_some found
      obtain ⟨removes, removed⟩ := core.remove member
      have isOut : s.stateOf outTh = some .out := ((core.placed .outQueue outTh).mp member).1
      obtain ⟨outInfo, isThread, state⟩ := Option.map_eq_some_iff.mp isOut
      let gone := s.setQueue .outQueue ((s.queue .outQueue).erase outTh)
      have isThread' : gone.threads outTh = some outInfo := isThread
      have noHandoff := core.noHandoff isThread (by simp [state])
      obtain ⟨descheds, freed⟩ := removed.deschedule isThread' (.inr state)
        (removed.absent_of_loose (Set.mem_insert outTh loose)) noHandoff (.inl rfl)
      rw [Set.insert_idem] at freed
      have core' := freed.tighten (not_belongs (by rw [stateOf_vacate, if_pos rfl]) (.inr (.inr rfl)))
      have frame : Frame s (gone.vacate outTh outInfo.cid outInfo .blocked) :=
        ⟨rfl, rfl, rfl, rfl, rfl, rfl, rfl⟩
      refine .inr ⟨gone.vacate outTh outInfo.cid outInfo .blocked, outInfo.cid, ?_,
        ⟨frame, fun g => ?_, fun c ne => ?_, fun g isCur => ?_⟩, core'⟩
      · dsimp only
        rw [removes, Option.bind_eq_bind, Option.bind_some, cidOf_eq isThread, descheds]
        rfl
      · rw [threads_vacate]
        by_cases same : g = outTh
        · rw [if_pos same, same]
          exact .inr ⟨outInfo, isThread, state, rfl⟩
        · rw [if_neg same]
          exact .inl rfl
      · rw [contexts_vacate, if_neg ne]
        rfl
      · have holds := core.holds outTh (.inr isOut)
        rw [cidOf_eq isThread, isCur] at holds
        rw [Option.some.inj holds]
        exact isOut

theorem Core.schedThread (core : Core none loose s) (isThread : s.threads gid = some th)
    (noneOut : ∀ g ∈ loose, s.stateOf g ≠ some .out) :
    (s.schedThread gid = some (s, none) ∧ Crowded s th) ∨
      ∃ taken cid, s.schedThread gid = some (taken, some cid) ∧ Taken s taken cid ∧
        Core (some cid) loose taken := by
  have bound := (core.inRange gid th isThread).1
  unfold Scheduler.schedThread
  rw [isThread, Option.bind_eq_bind, Option.bind_some, if_pos bound]
  by_cases last : (s.contexts th.cid).state = .idle ∧ th.mask th.cid = true
  · rw [if_pos last]
    have isFree : th.cid ∈ s.freeList := by
      refine (core.free th.cid).mpr ⟨bound, ?_, by simp⟩
      by_contra held
      have used := (core.used th.cid).mpr held
      rw [last.1] at used
      cases used
    obtain ⟨run, taken, core'⟩ := core.takeFirst isFree
    exact .inr ⟨_, th.cid, by rw [run]; rfl, taken, core'⟩
  · rw [if_neg last]
    cases found : s.freeList.find? th.mask with
    | none => exact core.stealContext noneOut (List.find?_eq_none.mp found)
    | some cid =>
        obtain ⟨run, taken, core'⟩ := core.takeFirst (List.mem_of_find?_eq_some found)
        exact .inr ⟨_, cid, by dsimp only; rw [run]; rfl, taken, core'⟩

end Zsim.Scheduler
