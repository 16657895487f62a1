import Zsim.Scheduler.Leaving

/-!
# Joining

A thread without a context is placed on one, by `join` or after a handoff, or waits in
`runQueue`; then every context that it may run on is held by a running thread.
-/

set_option autoImplicit false

namespace Zsim.Scheduler

variable {quantum : Nat} {s mid taken : Scheduler} {gid cid : Nat} {th th' : ThreadInfo}

/-! ## Placing a thread -/

/-- The thread has no context, in the middle of an operation of its own. -/
structure Homeless (s mid : Scheduler) (gid : Nat) (th' : ThreadInfo) : Prop where
  frame : Frame s mid
  core : Core none (insert gid ∅) mid
  others : OthersTouched s.bar gid s mid
  isThread : mid.threads gid = some th'
  waits : th'.state = .started ∨ th'.state = .blocked ∨ th'.state = .queued
  noTarget : ∀ v, mid.handoffOf v ≠ some gid
  unmarked : th'.markedForSleep = false
  noFake : th'.fakeLeave = false
  holders : ∀ c, s.bar.Here c → ∃ g x, g ≠ gid ∧ mid.threads g = some x ∧ x.state = .running ∧ x.cid = c

theorem Homeless.noHandoff (homeless : Homeless s mid gid th') : th'.handoffThread = none := by
  apply homeless.core.noHandoff homeless.isThread
  rcases homeless.waits with state | state | state <;> simp [state]

theorem Homeless.not_held (homeless : Homeless s mid gid th') : ¬ mid.Holding gid := by
  unfold Holding
  rw [stateOf_eq homeless.isThread]
  rcases homeless.waits with state | state | state <;> simp [state]

theorem Taken.handoffOf (taken' : Taken mid taken cid) (v : Nat) : taken.handoffOf v = mid.handoffOf v := by
  unfold Scheduler.handoffOf
  rcases taken'.threads v with same | ⟨x, isX, -, stolen⟩
  · rw [same]
  · rw [stolen, isX]
    rfl

theorem Taken.eq_of_state (taken' : Taken mid taken cid) {g : Nat} {x : ThreadInfo}
    (isX : mid.threads g = some x) (notOut : x.state ≠ .out) : taken.threads g = some x := by
  rcases taken'.threads g with same | ⟨y, isY, isOut, -⟩
  · exact same.trans isX
  · cases Option.some.inj (isX.symm.trans isY)
    exact absurd isOut notOut

theorem othersTouched_taken {b : Barrier} (others : OthersTouched b gid s mid)
    (taken' : Taken mid taken cid) : OthersTouched b gid s taken := by
  intro g ne
  have related := others g ne
  rcases taken'.threads g with same | ⟨x, isX, isOut, stolen⟩
  · rw [same]
    exact related
  · rw [stolen]
    rw [isX] at related
    cases before : s.threads g with
    | none =>
        rw [before] at related
        cases related
    | some y =>
        rw [before] at related
        cases related with
        | some touched => exact .some (touched.then_stolen isOut)

section
variable (inv : Inv quantum s) (homeless : Homeless s mid gid th') (isThread : s.threads gid = some th)
  (noFake : th.fakeLeave = false) (notFinishing : ¬ (s.calls gid).Finishing)
include inv homeless isThread noFake notFinishing

theorem Inv.placeOn (taken' : Taken mid taken cid) (core : Core (some cid) (insert gid ∅) taken)
    (ofSync : Bool) (draws : Draws) :
    Yields quantum (taken.scheduleOrQueue draws gid (some cid) ofSync) (Inv quantum) := by
  have notOut : th'.state ≠ .out := by
    rcases homeless.waits with state | state | state <;> simp [state]
  have isTaken := taken'.eq_of_state homeless.isThread notOut
  have noTarget : ∀ v, taken.handoffOf v ≠ some gid := by
    intro v
    rw [taken'.handoffOf]
    exact homeless.noTarget v
  obtain ⟨schedules, placed⟩ := core.schedule isTaken homeless.waits noTarget
  have whole := (homeless.frame.trans taken'.frame).trans (frame_occupy taken gid cid th')
  -- the context is free, so that it is not in the barrier
  have gone : ¬ s.bar.Here cid := by
    intro isHere
    obtain ⟨g, x, -, isX, runs, isCid⟩ := homeless.holders cid isHere
    have state : mid.stateOf g = some .running := (stateOf_eq isX).trans (congrArg some runs)
    have isCur := homeless.core.holds g (.inl state)
    rw [cidOf_eq isX, isCid] at isCur
    have isOut := taken'.free g isCur
    rw [state] at isOut
    cases isOut
  have bound : cid < maxThreads := by
    have inRange := (core.isHole cid rfl).1
    rw [taken'.frame.numCores, homeless.frame.numCores] at inRange
    exact Nat.lt_of_lt_of_le inRange inv.cores
  obtain ⟨joined, joinedInv, due, isHere, isDue, isRunning, joins⟩ := inv.bar.joining bound gone
  simp only [scheduleOrQueue, Option.bind_eq_bind]
  rw [schedules, Option.bind_some]
  rw [← whole.bar] at joins
  refine Inv.barJoin (s := (taken.occupy gid cid th').setCall gid (.barJoin cid ofSync)) (b := joined)
    ?_ draws joins
  have isPlaced : (taken.occupy gid cid th').threads gid =
      some { th' with state := .running, cid := cid } := by rw [threads_occupy, if_pos rfl]
  have others : OthersTouched joined gid s (taken.occupy gid cid th') := by
    intro g ne
    rw [threads_occupy, if_neg ne]
    have related := othersTouched_taken homeless.others taken' g ne
    revert related
    cases s.threads g <;> cases taken.threads g <;> intro related <;> cases related
    · exact .none
    · exact .some (Touched.mono ‹_› isRunning)
  have ok : ThreadOk joined s.curPhase (.barJoin cid ofSync) { th' with state := .running, cid := cid } :=
    .plain ⟨rfl, rfl, due, homeless.noHandoff, homeless.unmarked⟩ (by simp) homeless.unmarked
      homeless.noFake
  apply inv.change whole placed joinedInv others ?_ isThread isPlaced (homeless.noFake.trans noFake.symm)
    (iff_of_false id notFinishing) ok
  · intro c inJoined
    rcases (isHere c).mp inJoined with inOld | isNew
    · obtain ⟨g, x, ne, isX, runs, isCid⟩ := homeless.holders c inOld
      refine ⟨g, x, ?_, runs, isCid⟩
      rw [threads_occupy, if_neg ne]
      exact taken'.eq_of_state isX (by simp [runs])
    · exact ⟨gid, _, isPlaced, rfl, isNew.symm⟩
  · intro g x _ _ _
    exact ⟨fun inOld => (isHere x.cid).mpr (.inl inOld), isDue x.cid, isRunning x.cid⟩

theorem Inv.wait (crowded : Crowded mid th') (ofSync : Bool) (draws : Draws) :
    Yields quantum (mid.scheduleOrQueue draws gid none ofSync) (Inv quantum) := by
  have isMid := homeless.isThread
  have queued := homeless.core.setState isMid (Set.mem_insert gid ∅) homeless.noHandoff homeless.noTarget
    .queued (by simp [homeless.not_held]) (fun contra => by cases contra)
  have absent := homeless.core.absent_of_loose (Set.mem_insert gid ∅)
  have belongs : (mid.setThread gid { th' with state := .queued }).Belongs gid .runQueue := by
    refine ⟨by rw [stateOf_setThread, if_pos rfl], fun v => ?_⟩
    rw [handoffOf_same isMid v (by rfl)]
    exact homeless.noTarget v
  have waiting := queued.enqueue (Set.notMem_empty gid) belongs
    (List.perm_append_singleton gid (mid.queue .runQueue)) (fun contra => by cases contra) (by
      intro _ c bound wants _
      rw [maskOf_setThread, if_pos rfl] at wants
      obtain ⟨g, isCur, runs⟩ := crowded c bound wants
      have other : g ≠ gid := by
        rintro rfl
        exact homeless.not_held (.inl runs)
      refine ⟨g, isCur, ?_⟩
      rw [stateOf_setThread, if_neg other]
      exact runs)
  let line := (mid.setThread gid { th' with state := .queued }).setQueue .runQueue
    (mid.queue .runQueue ++ [gid])
  have isWaiting : line.threads gid = some { th' with state := .queued } := by
    change (mid.setThread gid _).threads gid = _
    rw [threads_setThread, if_pos rfl]
  have core := waiting.modify isWaiting { th' with state := .queued, futexWord := 1 } rfl rfl rfl rfl (.inl rfl)
  have whole : Frame s (line.setThread gid { th' with state := .queued, futexWord := 1 }) :=
    ((homeless.frame.trans (frame_setThread ..)).trans (frame_setQueue ..)).trans (frame_setThread ..)
  have threads : ∀ g, g ≠ gid → (line.setThread gid { th' with state := .queued, futexWord := 1 }).threads g =
      mid.threads g := by
    intro g ne
    rw [threads_setThread, if_neg ne]
    change (mid.setThread gid _).threads g = _
    rw [threads_setThread, if_neg ne]
  have isLast : (line.setThread gid { th' with state := .queued, futexWord := 1 }).threads gid =
      some { th' with state := .queued, futexWord := 1 } := by rw [threads_setThread, if_pos rfl]
  have others :
      OthersTouched s.bar gid s (line.setThread gid { th' with state := .queued, futexWord := 1 }) := by
    intro g ne
    rw [threads g ne]
    exact homeless.others g ne
  have ok : ThreadOk s.bar s.curPhase (.waitForContext ofSync)
      { th' with state := .queued, futexWord := 1 } :=
    .plain ⟨homeless.noHandoff, .inl ⟨rfl, rfl⟩⟩ (by simp) homeless.unmarked homeless.noFake
  have pushes : (mid.setThread gid { th' with state := .queued }).pushBack .runQueue gid = some line :=
    pushBack_eq (s := mid.setThread gid { th' with state := .queued }) absent .runQueue
  simp only [scheduleOrQueue, waitForContext, Option.bind_eq_bind]
  rw [isMid, Option.bind_some, pushes, Option.bind_some, isWaiting, Option.bind_some]
  refine .inr ⟨_, rfl, ?_⟩
  rw [← setBar_self ((line.setThread gid _).setCall gid _) whole.bar]
  apply inv.change whole core inv.bar others (fun _ x _ _ _ => .refl s.bar x.cid) isThread isLast
    (homeless.noFake.trans noFake.symm) (iff_of_false id notFinishing) ok
  intro c isHere
  obtain ⟨g, x, ne, isX, runs, isCid⟩ := homeless.holders c isHere
  exact ⟨g, x, (threads g ne).trans isX, runs, isCid⟩

theorem Inv.place (ofSync : Bool) (draws : Draws) :
    ∃ taken ctx, mid.schedThread gid = some (taken, ctx) ∧
      Yields quantum (taken.scheduleOrQueue draws gid ctx ofSync) (Inv quantum) := by
  have noneOut : ∀ g ∈ insert gid (∅ : Set Nat), mid.stateOf g ≠ some .out := by
    rintro g (rfl | contra)
    · exact fun isOut => homeless.not_held (.inr isOut)
    · cases contra
  rcases homeless.core.schedThread homeless.isThread noneOut with
    ⟨finds, crowded⟩ | ⟨taken, cid, finds, taken', core⟩
  · exact ⟨mid, none, finds, inv.wait homeless isThread noFake notFinishing crowded ofSync draws⟩
  · exact ⟨taken, some cid, finds,
      inv.placeOn homeless isThread noFake notFinishing taken' core ofSync draws⟩

end

/-! ## join -/

/-- Only `gid`, which does not run, has changed. -/
theorem Inv.homeless (inv : Inv quantum s) (isThread : s.threads gid = some th) (idle : th.state ≠ .running)
    (frame : Frame s mid) (core : Core none (insert gid ∅) mid)
    (threads : ∀ g, mid.threads g = if g = gid then some th' else s.threads g)
    (waits : th'.state = .started ∨ th'.state = .blocked ∨ th'.state = .queued)
    (noTarget : ∀ v, mid.handoffOf v ≠ some gid) (unmarked : th'.markedForSleep = false)
    (noFake : th'.fakeLeave = false) : Homeless s mid gid th' := by
  refine ⟨frame, core, fun g ne => ?_, by rw [threads, if_pos rfl], waits, noTarget, unmarked, noFake,
    fun c isHere => ?_⟩
  · rw [threads, if_neg ne]
    exact rel_same s.bar _
  · obtain ⟨g, x, isX, runs, isCid⟩ := inv.holder isHere
    have other : g ≠ gid := by
      rintro rfl
      cases Option.some.inj (isX.symm.trans isThread)
      exact idle runs
    exact ⟨g, x, other, by rw [threads, if_neg other, isX], runs, isCid⟩

section
variable (inv : Inv quantum s) (isThread : s.threads gid = some th) (outside : s.calls gid = .outside)
  (noFake : th.fakeLeave = false) (unmarked : th.markedForSleep = false)
include inv isThread outside noFake unmarked

theorem Inv.joinOut (isOut : th.state = .out) (draws : Draws) :
    Yields quantum (s.join draws gid) (Inv quantum) := by
  have state : s.stateOf gid = some .out := (stateOf_eq isThread).trans (congrArg some isOut)
  have noHandoff := inv.core.noHandoff isThread (by simp [isOut])
  have noTarget := inv.core.noTarget isThread (by simp [isOut])
  have member : gid ∈ s.queue .outQueue := (inv.core.placed .outQueue gid).mpr ⟨state, id⟩
  have removed := (inv.core.remove member).2
  have holding : s.Holding gid := .inr state
  let back := (s.setQueue .outQueue ((s.queue .outQueue).erase gid)).setThread gid
    { th with state := .running }
  have removes : (s.setThread gid { th with state := .running }).remove .outQueue gid = some back :=
    if_pos (inv.core.owner_eq member)
  have moved := removed.setState (s := s.setQueue .outQueue ((s.queue .outQueue).erase gid)) isThread
    (Set.mem_insert gid ∅) noHandoff noTarget .running (by
      change s.Holding gid ↔ _
      simp [holding]) (fun contra => by cases contra)
  have core : Core none ∅ back :=
    moved.tighten (not_belongs (by rw [stateOf_setThread, if_pos rfl]) (.inr (.inl rfl)))
  have threads : ∀ g, back.threads g = if g = gid then some { th with state := .running } else s.threads g :=
    fun g => threads_setThread (s.setQueue .outQueue ((s.queue .outQueue).erase gid)) gid g _
  have apart : ∀ g x, s.threads g = some x → x.state = .running → g ≠ gid ∧ x.cid ≠ th.cid := by
    intro g x isX runs
    have other : g ≠ gid := by
      rintro rfl
      cases Option.some.inj (isX.symm.trans isThread)
      exact absurd (runs.symm.trans isOut) (by simp)
    refine ⟨other, fun same => other ?_⟩
    exact inv.core.cid_inj isX isThread (.inl ((stateOf_eq isX).trans (congrArg some runs))) holding same
  have gone : ¬ s.bar.Here th.cid := by
    intro isHere
    obtain ⟨g, x, isX, runs, isCid⟩ := inv.holder isHere
    exact (apart g x isX runs).2 isCid
  have bound := Nat.lt_of_lt_of_le (inv.core.inRange gid th isThread).1 inv.cores
  obtain ⟨joined, joinedInv, due, isHere, isDue, isRunning, joins⟩ := inv.bar.joining bound gone
  have whole : Frame s back := (frame_setQueue s ..).trans (frame_setThread ..)
  have isKey : gid ∈ s.gidMap := inv.books.key isThread outside
  simp only [Scheduler.join, joinAwake, Option.bind_eq_bind]
  rw [isThread, Option.bind_some, if_neg (not_not_intro isKey), if_neg (by simp [noFake]),
    if_neg (by simp [unmarked]), if_neg (by simp [isOut]), Option.bind_some, isOut]
  dsimp only
  rw [removes, Option.bind_some]
  refine Inv.barJoin (s := back.setCall gid (.barJoin th.cid false)) (b := joined) ?_ draws joins
  have ok : ThreadOk joined s.curPhase (.barJoin th.cid false) { th with state := .running } :=
    .plain ⟨rfl, rfl, due, noHandoff, unmarked⟩ (by simp) unmarked noFake
  have isBack : back.threads gid = some { th with state := .running } := by rw [threads, if_pos rfl]
  apply inv.change whole core joinedInv ?_ ?_ isThread isBack rfl (by rw [outside]; rfl) ok
  · intro c inJoined
    rcases (isHere c).mp inJoined with inOld | isNew
    · obtain ⟨g, x, isX, runs, isCid⟩ := inv.holder inOld
      exact ⟨g, x, by rw [threads, if_neg (apart g x isX runs).1, isX], runs, isCid⟩
    · exact ⟨gid, _, isBack, rfl, isNew.symm⟩
  · intro g ne
    rw [threads, if_neg ne]
    exact rel_same joined _
  · intro g x _ _ _
    exact ⟨fun inOld => (isHere x.cid).mpr (.inl inOld), isDue x.cid, isRunning x.cid⟩

/-- A thread without a context, which may still be in `sleepQueue`. -/
theorem Inv.joinNew (state : th.state = .started ∨ th.state = .blocked ∨ th.state = .sleeping)
    (draws : Draws) : Yields quantum (s.join draws gid) (Inv quantum) := by
  have notFinishing : ¬ (s.calls gid).Finishing := by
    rw [outside]
    exact id
  have isKey : gid ∈ s.gidMap := inv.books.key isThread outside
  have noTarget := inv.core.noTarget isThread (by rcases state with h | h | h <;> simp [h])
  have idle : th.state ≠ .running := by rcases state with h | h | h <;> simp [h]
  simp only [Scheduler.join, Option.bind_eq_bind]
  rw [isThread, Option.bind_some, if_neg (not_not_intro isKey), if_neg (by simp [noFake]),
    if_neg (by simp [unmarked])]
  by_cases sleeps : th.state = .sleeping
  · rw [if_pos sleeps]
    obtain ⟨removes, core⟩ := inv.core.wake isThread sleeps
    let awake := s.setQueue .sleepQueue ((s.queue .sleepQueue).erase gid)
    have noTarget' : ∀ v, (awake.setThread gid { th with state := .blocked }).handoffOf v ≠ some gid := by
      intro v
      rw [handoffOf_same (s := awake) isThread v (by rfl)]
      exact noTarget v
    have homeless := inv.homeless isThread idle ((frame_setQueue s ..).trans (frame_setThread ..)) core
      (fun g => threads_setThread awake gid g _) (.inr (.inl rfl)) noTarget' unmarked noFake
    obtain ⟨taken, ctx, finds, yields⟩ := inv.place homeless isThread noFake notFinishing false draws
    rw [removes, Option.bind_some]
    simp only [joinAwake, Option.bind_eq_bind]
    rw [homeless.isThread, Option.bind_some]
    dsimp only
    rw [finds, Option.bind_some]
    exact yields
  · rw [if_neg sleeps]
    have waits : th.state = .started ∨ th.state = .blocked := by
      rcases state with h | h | h
      · exact .inl h
      · exact .inr h
      · exact absurd h sleeps
    have isState : ∃ state, s.stateOf gid = some state ∧
        (state = .started ∨ state = .running ∨ state = .blocked) :=
      ⟨th.state, stateOf_eq isThread, waits.imp_right .inr⟩
    obtain ⟨_, isState, waits'⟩ := isState
    have core := inv.core.loosen (inv.core.absent (not_belongs isState waits'))
    have threads : ∀ g, s.threads g = if g = gid then some th else s.threads g := by
      intro g
      split
      · rename_i same
        rw [same, isThread]
      · rfl
    have homeless := inv.homeless isThread idle (.refl s) core threads (waits.imp_right .inl) noTarget
      unmarked noFake
    obtain ⟨taken, ctx, finds, yields⟩ := inv.place homeless isThread noFake notFinishing false draws
    simp only [joinAwake, Option.bind_eq_bind]
    rw [isThread, Option.bind_some]
    rcases waits with h | h <;>
    · rw [h]
      dsimp only
      rw [finds, Option.bind_some]
      exact yields

end

/-! ## sync and the handoff -/

theorem Inv.sync (inv : Inv quantum s) (isThread : s.threads gid = some th) (outside : s.calls gid = .outside)
    (runs : th.state = .running) (unmarked : th.markedForSleep = false) (noFake : th.fakeLeave = false)
    (draws : Draws) : Yields quantum (s.sync draws gid th.cid) (Inv quantum) := by
  have stands := (inv.threads gid th isThread).stands
  rw [outside] at stands
  obtain ⟨-, noHandoff, inBar⟩ := stands
  have holding : s.Holding gid := .inl ((stateOf_eq isThread).trans (congrArg some runs))
  have isCur := inv.core.holds gid holding
  rw [cidOf_eq isThread] at isCur
  obtain ⟨synced, syncedInv, isHere, isDue, isRunning, syncs⟩ := inv.bar.syncing (inBar runs)
  simp only [Scheduler.sync, Option.bind_eq_bind]
  rw [isThread, Option.bind_some, if_pos ⟨isCur, unmarked⟩]
  refine Inv.barSync (s := s.setCall gid (.barSync th.cid)) (b := synced) ?_ draws syncs
  have stands' : Stands synced (.barSync th.cid) th :=
    ⟨runs, rfl, (isHere th.cid).mpr (.inr (inBar runs)), fun handoff => absurd noHandoff handoff, unmarked⟩
  have ok : ThreadOk synced s.curPhase (.barSync th.cid) th :=
    .plain stands' (by simp [runs]) unmarked noFake
  apply inv.change (.refl s) inv.core syncedInv (fun g _ => rel_same synced _) ?_ isThread isThread rfl
    (by rw [outside]; rfl) ok
  · intro c inSynced
    exact inv.holder ((isHere c).mp inSynced)
  · intro g x ne isX runsX
    have apart : x.cid ≠ th.cid := by
      intro same
      have holding' : s.Holding g := .inl ((stateOf_eq isX).trans (congrArg some runsX))
      exact ne (inv.core.cid_inj isX isThread holding' holding same)
    exact ⟨(isHere x.cid).mpr, isDue x.cid apart, isRunning x.cid apart⟩

/-- The victim's context goes to the thread it was chosen for, and the victim looks for another. -/
theorem Inv.handoff (inv : Inv quantum s) (isThread : s.threads gid = some th) (isCall : s.calls gid = .handoff)
    (draws : Draws) : Yields quantum (s.handoff draws gid) (Inv quantum) := by
  have okGid := inv.threads gid th isThread
  have stands := okGid.stands
  rw [isCall] at stands
  obtain ⟨runs, inBar, chosen, unmarked⟩ := stands
  have noFake : th.fakeLeave = false := okGid.noFake (by simp [isCall])
  obtain ⟨dst, isDst⟩ := Option.ne_none_iff_exists'.mp chosen
  have handoff : s.handoffOf gid = some dst := (handoffOf_eq isThread).trans isDst
  obtain ⟨dstInfo, isInfo, queued⟩ := Option.map_eq_some_iff.mp (inv.core.victim gid dst handoff).2
  obtain ⟨-, noHandoff, isSet, -⟩ := (inv.threads dst dstInfo isInfo).queued queued
  have other : dst ≠ gid := by
    rintro rfl
    cases Option.some.inj (isInfo.symm.trans isThread)
    exact absurd (runs.symm.trans queued) (by simp)
  have state : s.stateOf gid = some .running := (stateOf_eq isThread).trans (congrArg some runs)
  have absent := inv.core.absent (not_belongs state (.inr (.inl rfl)))
  let cleared := s.setThread gid { th with handoffThread := none }
  have isCleared : cleared.threads gid = some { th with handoffThread := none } := by
    rw [threads_setThread, if_pos rfl]
  have core := inv.core.clearHandoff isThread isDst
  obtain ⟨descheds, freed⟩ := core.deschedule isCleared (.inl runs) absent rfl (.inr (.inl rfl))
  rw [Set.insert_comm] at freed
  let left := cleared.vacate gid th.cid { th with handoffThread := none } .queued
  have threads : ∀ g, left.threads g =
      if g = gid then some { th with handoffThread := none, state := .queued } else s.threads g := by
    intro g
    rw [threads_vacate, threads_setThread]
    split <;> rfl
  have handoffs : ∀ v, left.handoffOf v = if v = gid then none else s.handoffOf v := by
    intro v
    rw [handoffOf, threads]
    split <;> rfl
  have noTarget : ∀ v, left.handoffOf v ≠ some dst := by
    intro v
    rw [handoffs]
    split
    · simp
    · rename_i ne
      exact fun isTarget => ne (inv.core.target v gid dst isTarget handoff)
  have isInfo' : left.threads dst = some dstInfo := by rw [threads, if_neg other, isInfo]
  obtain ⟨given, gives, givenCore, givenFrame, givenThreads, -⟩ :=
    freed.giveTo isInfo' queued noTarget isSet
  have isGiven : given.threads gid = some { th with handoffThread := none, state := .queued } := by
    rw [givenThreads, if_neg (Ne.symm other), threads, if_pos rfl]
  have homeless : Homeless s given gid { th with handoffThread := none, state := .queued } := by
    refine ⟨((frame_setThread s ..).trans (frame_vacate ..)).trans givenFrame, givenCore, fun g ne => ?_,
      isGiven, .inr (.inr rfl), fun v => ?_, unmarked, noFake, fun c isHere => ?_⟩
    · rw [givenThreads]
      by_cases isGranted : g = dst
      · rw [if_pos isGranted, isGranted, isInfo]
        exact .some (.granted dstInfo th.cid queued inBar)
      · rw [if_neg isGranted, threads, if_neg ne]
        exact rel_same s.bar _
    · rw [handoffOf, givenThreads]
      by_cases isGranted : v = dst
      · rw [if_pos isGranted, Option.bind_some, granted, noHandoff]
        simp
      · rw [if_neg isGranted]
        change left.handoffOf v ≠ _
        rw [handoffs]
        split
        · simp
        · exact inv.core.noTarget isThread (by simp [runs]) v
    · obtain ⟨g, x, isX, runsX, isCid⟩ := inv.holder isHere
      by_cases same : g = gid
      · rw [same] at isX
        cases Option.some.inj (isX.symm.trans isThread)
        exact ⟨dst, granted dstInfo th.cid, other, by rw [givenThreads, if_pos rfl], rfl, isCid⟩
      · have notDst : g ≠ dst := by
          rintro rfl
          cases Option.some.inj (isX.symm.trans isInfo)
          exact absurd (runsX.symm.trans queued) (by simp)
        exact ⟨g, x, same, by rw [givenThreads, if_neg notDst, threads, if_neg same, isX], runsX, isCid⟩
  obtain ⟨taken, ctx, finds, yields⟩ := inv.place homeless isThread noFake (by rw [isCall]; exact id) true draws
  simp only [Scheduler.handoff, Option.bind_eq_bind]
  rw [isThread, Option.bind_some, isDst, Option.bind_some, descheds, Option.bind_some, gives,
    Option.bind_some, finds, Option.bind_some]
  exact yields

/-! ## Going on after a futex wait -/

/-- The futex word has changed. -/
def Woken (s : Scheduler) (th : ThreadInfo) : Call → Prop
  | .barJoin cid _ => s.bar.futexWordOf cid ≠ 1
  | .barSync cid => s.bar.futexWordOf cid ≠ 1
  | .waitForContext _ => th.futexWord ≠ 1
  | _ => False

theorem Inv.moveTo (inv : Inv quantum s) (isThread : s.threads gid = some th) {call : Call}
    (notFinishing : ¬ call.Finishing) (notFinishing' : ¬ (s.calls gid).Finishing)
    (ok : ThreadOk s.bar s.curPhase call th) : Inv quantum (s.setCall gid call) := by
  rw [← setBar_self (s.setCall gid call) (b := s.bar) rfl]
  exact inv.change (.refl s) inv.core inv.bar (fun g _ => rel_same s.bar _)
    (fun _ x _ _ _ => .refl s.bar x.cid) isThread isThread rfl (iff_of_false notFinishing notFinishing') ok
    fun _ isHere => inv.holder isHere

/-- `sync` and `join` return to a running thread. -/
theorem Inv.endCall (inv : Inv quantum s) (isThread : s.threads gid = some th) (runs : th.state = .running)
    (inBar : s.bar.stateOf th.cid = .running) (noHandoff : th.handoffThread = none)
    (unmarked : th.markedForSleep = false) (noFake : th.fakeLeave = false)
    (notFinishing : ¬ (s.calls gid).Finishing) (ofSync : Bool) :
    ∃ next, s.endCall gid ofSync = some next ∧ Inv quantum next := by
  have state : s.stateOf gid = some .running := (stateOf_eq isThread).trans (congrArg some runs)
  have stands : Stands s.bar .outside th := ⟨by simp [runs], noHandoff, fun _ => inBar⟩
  refine ⟨s.setCall gid .outside, if_neg fun wrong => wrong.2 state, ?_⟩
  exact inv.moveTo isThread id notFinishing (.plain stands (by simp [runs]) unmarked noFake)

theorem Inv.resume (inv : Inv quantum s) (isThread : s.threads gid = some th) (woken : Woken s th (s.calls gid))
    (draws : Draws) : ∃ next, s.resume draws gid = some next ∧ Inv quantum next := by
  have ok := inv.threads gid th isThread
  have stands := ok.stands
  simp only [Scheduler.resume, Option.bind_eq_bind]
  rw [isThread, Option.bind_some]
  cases isCall : s.calls gid with
  | barJoin cid ofSync =>
      rw [isCall] at stands woken
      obtain ⟨runs, rfl, due, noHandoff, unmarked⟩ := stands
      obtain ⟨inBar, resumes⟩ := inv.bar.resume due.here woken
      dsimp only
      rw [resumes, Option.bind_some, setBar_self s rfl]
      exact inv.endCall isThread runs inBar noHandoff unmarked (ok.noFake (by simp [isCall]))
        (by rw [isCall]; exact id) ofSync
  | barSync cid =>
      rw [isCall] at stands woken
      obtain ⟨runs, rfl, isHere, -, unmarked⟩ := stands
      obtain ⟨inBar, resumes⟩ := inv.bar.resume isHere woken
      have notFinishing : ¬ (s.calls gid).Finishing := by
        rw [isCall]
        exact id
      have noFake := ok.noFake (by simp [isCall])
      dsimp only
      rw [resumes, Option.bind_some, setBar_self s rfl]
      by_cases noHandoff : th.handoffThread = none
      · rw [if_pos noHandoff]
        exact inv.endCall isThread runs inBar noHandoff unmarked noFake notFinishing true
      · rw [if_neg noHandoff]
        have stands : Stands s.bar .handoff th := ⟨runs, inBar, noHandoff, unmarked⟩
        exact ⟨_, rfl, inv.moveTo isThread id notFinishing
          (.plain stands (by simp [runs]) unmarked noFake)⟩
  | waitForContext ofSync =>
      rw [isCall] at stands woken
      obtain ⟨noHandoff, waits | ⟨runs, -, noJoin, inBar⟩⟩ := stands
      · exact absurd waits.2 woken
      · dsimp only
        rw [if_neg (by simp [noJoin])]
        exact inv.endCall isThread runs inBar noHandoff (ok.awake ofSync isCall)
          (ok.noFake (by simp [isCall])) (by rw [isCall]; exact id) ofSync
  | outside | handoff | finishLeave | finishCheck | finishEnd =>
      rw [isCall] at woken
      exact woken.elim

end Zsim.Scheduler
