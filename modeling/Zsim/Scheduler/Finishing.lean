import Zsim.Scheduler.Joining

/-!
# Starting, sleeping and finishing

The operations that change one thread outside the barrier, and those that change which threads
there are.
-/

set_option autoImplicit false

namespace Zsim.Scheduler

variable {quantum : Nat} {s mid : Scheduler} {gid : Nat} {th th' : ThreadInfo} {call : Call}

theorem setCall_same (s : Scheduler) (same : s.calls gid = call) : s.setCall gid call = s := by
  rw [← same, setCall_self]

theorem Books.update (books : Books s) (calls : mid.calls = s.calls)
    (threads : ∀ g, mid.threads g = if g = gid then some th' else s.threads g)
    (keysOnce : mid.gidMap.Nodup)
    (keys : ∀ g, g ∈ mid.gidMap ↔ if g = gid then ¬ call.Finishing else g ∈ s.gidMap)
    (fakesOnce : mid.fakeLeaves.Nodup)
    (fakes : ∀ g, g ∈ mid.fakeLeaves ↔ if g = gid then th'.fakeLeave = true else g ∈ s.fakeLeaves) :
    Books (mid.setCall gid call) := by
  refine ⟨fun g isNone => ?_, keysOnce, fun g => ?_, fakesOnce, fun g => ?_⟩
  · rw [calls_setCall, calls]
    change mid.threads g = none at isNone
    rw [threads] at isNone
    split at isNone
    · cases isNone
    · rename_i ne
      rw [if_neg ne]
      exact books.absent g isNone
  · rw [calls_setCall, calls]
    change g ∈ mid.gidMap ↔ (mid.threads g).isSome = true ∧ _
    rw [keys, threads]
    by_cases same : g = gid
    · simp [same]
    · rw [if_neg same, if_neg same, if_neg same]
      exact books.keys g
  · change g ∈ mid.fakeLeaves ↔ ∃ x, mid.threads g = some x ∧ x.fakeLeave = true
    rw [fakes, threads]
    by_cases same : g = gid
    · simp [same]
    · rw [if_neg same, if_neg same]
      exact books.fakes g

/-- Only `gid` has changed, outside the barrier. -/
theorem Inv.alter (inv : Inv quantum s) (schedQuantum : mid.schedQuantum = s.schedQuantum)
    (numCores : mid.numCores = s.numCores)
    (curPhase : mid.curPhase = s.curPhase) (calls : mid.calls = s.calls) (bar : mid.bar = s.bar)
    (core : Core none ∅ mid) (threads : ∀ g, mid.threads g = if g = gid then some th' else s.threads g)
    (keeps : ∀ x, s.threads gid = some x → x.state = .running → th'.state = .running ∧ th'.cid = x.cid)
    (ok : ThreadOk s.bar s.curPhase call th') (books : Books (mid.setCall gid call)) :
    Inv quantum (mid.setCall gid call) := by
  rw [← setBar_self (mid.setCall gid call) bar]
  apply inv.rebook schedQuantum numCores curPhase calls core inv.bar ?_ (fun _ x _ _ _ => .refl s.bar x.cid)
    (by rw [threads, if_pos rfl]) ok ?_ books
  · intro g ne
    rw [threads, if_neg ne]
    exact rel_same s.bar _
  · intro c isHere
    obtain ⟨g, x, isX, runs, isCid⟩ := inv.holder isHere
    by_cases same : g = gid
    · rw [same] at isX
      obtain ⟨runs', isCid'⟩ := keeps x isX runs
      exact ⟨gid, th', by rw [threads, if_pos rfl], runs', isCid'.trans isCid⟩
    · exact ⟨g, x, by rw [threads, if_neg same, isX], runs, isCid⟩

/-! ## start -/

theorem Inv.start (inv : Inv quantum s) (isNew : s.threads gid = none) {mask : Nat → Bool} {c : Nat}
    (bound : c < s.numCores) (wants : mask c = true) :
    ∃ next, s.start gid mask = some next ∧ Inv quantum next := by
  have notKey : gid ∉ s.gidMap := by
    rw [inv.books.keys, isNew]
    simp
  have outside := inv.books.absent gid isNew
  let started := { s.setThread gid (.create mask) with gidMap := s.gidMap ++ [gid] }
  have threads : ∀ g, started.threads g = if g = gid then some (.create mask) else s.threads g := fun g =>
    threads_setThread s gid g _
  refine ⟨started, ?_, ?_⟩
  · unfold Scheduler.start
    rw [if_neg notKey, if_pos (List.any_eq_true.mpr ⟨c, List.mem_range.mpr bound, wants⟩)]
  · have same : started.setCall gid .outside = started := setCall_same started outside
    rw [← same]
    have core : Core none ∅ started := (inv.core.create isNew bound wants).congr rfl rfl rfl rfl rfl rfl
    refine inv.alter rfl rfl rfl rfl rfl core threads ?_ ?_ ?_
    · intro x isX
      cases isNew.symm.trans isX
    · exact .away trivial rfl (.inl rfl) (fun contra => by cases contra) rfl
    · refine inv.books.update rfl threads ?_ ?_ inv.books.fakesOnce ?_
      · exact List.nodup_append.mpr ⟨inv.books.keysOnce, List.nodup_singleton gid, by grind⟩
      · intro g
        change g ∈ s.gidMap ++ [gid] ↔ _
        by_cases same : g = gid
        · simp [same, Call.Finishing]
        · simp [same]
      · intro g
        change g ∈ s.fakeLeaves ↔ _
        by_cases same : g = gid
        · rw [same, inv.books.fakes, isNew]
          simp [ThreadInfo.create]
        · rw [if_neg same]

/-! ## Sleeping -/

theorem Inv.amend (inv : Inv quantum s) (frame : Frame s mid) (core : Core none ∅ mid)
    (isThread : s.threads gid = some th)
    (threads : ∀ g, mid.threads g = if g = gid then some th' else s.threads g)
    (keeps : th.state = .running → th'.state = .running ∧ th'.cid = th.cid)
    (fake : th'.fakeLeave = th.fakeLeave) (ok : ThreadOk s.bar s.curPhase (s.calls gid) th') :
    Inv quantum mid := by
  have isThread' : mid.threads gid = some th' := by rw [threads, if_pos rfl]
  rw [← setBar_self mid frame.bar, ← setCall_same mid (congrFun frame.calls gid)]
  apply inv.change frame core inv.bar ?_ (fun _ x _ _ _ => .refl s.bar x.cid) isThread isThread' fake
    Iff.rfl ok
  · intro c isHere
    obtain ⟨g, x, isX, runs, isCid⟩ := inv.holder isHere
    by_cases same : g = gid
    · rw [same] at isX
      cases Option.some.inj (isX.symm.trans isThread)
      obtain ⟨runs', isCid'⟩ := keeps runs
      exact ⟨gid, th', isThread', runs', isCid'.trans isCid⟩
    · exact ⟨g, x, by rw [threads, if_neg same, isX], runs, isCid⟩
  · intro g ne
    rw [threads, if_neg ne]
    exact rel_same s.bar _

theorem Inv.markForSleep (inv : Inv quantum s) (isThread : s.threads gid = some th)
    (outside : s.calls gid = .outside) (runs : th.state = .running) (unmarked : th.markedForSleep = false)
    (noFake : th.fakeLeave = false) {wakeupPhase : Nat} (ahead : s.curPhase < wakeupPhase) :
    ∃ next, s.markForSleep gid wakeupPhase = some next ∧ Inv quantum next := by
  have isKey : gid ∈ s.gidMap := inv.books.key isThread outside
  let marked : ThreadInfo := { th with markedForSleep := true, wakeupPhase := wakeupPhase, futexWord := 1 }
  have state : s.stateOf gid = some .running := (stateOf_eq isThread).trans (congrArg some runs)
  have absent := inv.core.absent (not_belongs state (.inr (.inl rfl))) .sleepQueue
  have core := inv.core.modify isThread marked rfl rfl rfl rfl (.inr absent)
  refine ⟨s.setThread gid marked, ?_, ?_⟩
  · simp only [Scheduler.markForSleep, Option.bind_eq_bind]
    rw [isThread, Option.bind_some, if_pos ⟨isKey, unmarked⟩]
  · have stands := (inv.threads gid th isThread).stands
    rw [outside] at stands
    have ok : ThreadOk s.bar s.curPhase (s.calls gid) marked := by
      rw [outside]
      refine ⟨stands, fun _ => ⟨rfl, ahead⟩, fun _ contra => ?_, fun fake => ?_⟩
      · cases contra
      · exact absurd (fake.symm.trans noFake) (by simp)
    exact inv.amend (frame_setThread ..) core isThread (fun g => threads_setThread s gid g marked)
      (fun _ => ⟨runs, rfl⟩) rfl ok

/-- The sleeper is off `sleepQueue`, and BLOCKED. -/
def roused (s : Scheduler) (gid : Nat) (th : ThreadInfo) : Scheduler :=
  (s.setQueue .sleepQueue ((s.queue .sleepQueue).erase gid)).setThread gid { th with state := .blocked }

theorem threads_roused (g : Nat) :
    (s.roused gid th).threads g = if g = gid then some { th with state := .blocked } else s.threads g :=
  threads_setThread (s.setQueue ..) gid g _

theorem Inv.rouse (inv : Inv quantum s) (isThread : s.threads gid = some th) (isKey : gid ∈ s.gidMap)
    (unmarked : th.markedForSleep = false) (sleeps : th.state = .sleeping) :
    s.notifySleepEnd gid = some (s.roused gid th) ∧ Inv quantum (s.roused gid th) := by
  obtain ⟨removes, blocked⟩ := inv.core.wake isThread sleeps
  have noHandoff := inv.core.noHandoff isThread (by simp [sleeps])
  have core := blocked.tighten (not_belongs (by rw [stateOf_setThread, if_pos rfl]) (.inr (.inr rfl)))
  obtain ⟨isAway, noFake⟩ := (inv.threads gid th isThread).isAway (by simp [sleeps]) (by simp [sleeps])
  constructor
  · simp only [Scheduler.notifySleepEnd, Option.bind_eq_bind]
    rw [isThread, Option.bind_some, if_pos ⟨isKey, unmarked⟩, sleeps]
    dsimp only
    rw [removes]
    rfl
  · refine inv.amend ((frame_setQueue s ..).trans (frame_setThread ..)) core isThread threads_roused
      (fun runs => ?_) rfl ?_
    · exact absurd (sleeps.symm.trans runs) (by simp)
    · exact .away isAway noHandoff (.inr (.inr (.inl rfl))) (fun contra => by cases contra) noFake

theorem Inv.notifySleepEnd (inv : Inv quantum s) (isThread : s.threads gid = some th)
    (outside : s.calls gid = .outside) (unmarked : th.markedForSleep = false)
    (state : th.state = .blocked ∨ th.state = .sleeping) :
    ∃ next, s.notifySleepEnd gid = some next ∧ Inv quantum next := by
  have isKey : gid ∈ s.gidMap := inv.books.key isThread outside
  rcases state with blocked | sleeps
  · refine ⟨s, ?_, inv⟩
    simp only [Scheduler.notifySleepEnd, Option.bind_eq_bind]
    rw [isThread, Option.bind_some, if_pos ⟨isKey, unmarked⟩, blocked]
  · exact ⟨_, inv.rouse isThread isKey unmarked sleeps⟩

/-! ## Fake leaves -/

theorem Inv.setFake (inv : Inv quantum s) (isThread : s.threads gid = some th) (outside : s.calls gid = .outside)
    (runs : th.state = .running) (fakeLeave : Bool) {fakeLeaves : List Nat} (once : fakeLeaves.Nodup)
    (fakes : ∀ g, g ∈ fakeLeaves ↔ if g = gid then fakeLeave = true else g ∈ s.fakeLeaves) :
    Inv quantum { s.setThread gid { th with fakeLeave := fakeLeave } with fakeLeaves := fakeLeaves } := by
  let next := { s.setThread gid { th with fakeLeave := fakeLeave } with fakeLeaves := fakeLeaves }
  have ok := inv.threads gid th isThread
  rw [outside] at ok
  have core : Core none ∅ next :=
    (inv.core.modify isThread { th with fakeLeave := fakeLeave } rfl rfl rfl rfl (.inl rfl)).congr
      rfl rfl rfl rfl rfl rfl
  have threads : ∀ g, next.threads g =
      if g = gid then some { th with fakeLeave := fakeLeave } else s.threads g := fun g =>
    threads_setThread s gid g _
  have ok' : ThreadOk s.bar s.curPhase .outside { th with fakeLeave := fakeLeave } :=
    ⟨ok.stands, ok.sleeps, ok.awake, fun _ => ⟨runs, rfl⟩⟩
  have same : next.setCall gid .outside = next := setCall_same next outside
  change Inv quantum next
  rw [← same]
  refine inv.alter rfl rfl rfl rfl rfl core threads ?_ ok' ?_
  · intro x isX _
    cases Option.some.inj (isX.symm.trans isThread)
    exact ⟨runs, rfl⟩
  · refine inv.books.update rfl threads inv.books.keysOnce (fun g => ?_) once fakes
    change g ∈ s.gidMap ↔ _
    by_cases isGid : g = gid
    · rw [isGid, if_pos rfl, inv.books.keys, isThread, outside]
      simp
    · rw [if_neg isGid]

theorem Inv.finishFakeLeave (inv : Inv quantum s) (isThread : s.threads gid = some th)
    (fake : th.fakeLeave = true) :
    ∃ next, s.finishFakeLeave gid = some next ∧ Inv quantum next := by
  obtain ⟨runs, outside⟩ := (inv.threads gid th isThread).fake fake
  have isFake : gid ∈ s.fakeLeaves := (inv.books.fake_iff isThread).mpr fake
  refine ⟨_, ?_, inv.setFake isThread outside runs false (inv.books.fakesOnce.erase gid) fun g => ?_⟩
  · simp only [Scheduler.finishFakeLeave, Option.bind_eq_bind]
    rw [isThread, Option.bind_some, if_pos ⟨fake, runs, isFake⟩]
  · rw [inv.books.fakesOnce.mem_erase_iff]
    by_cases same : g = gid
    · simp [same]
    · simp [same]

theorem Inv.leaves (inv : Inv quantum s) (isThread : s.threads gid = some th) (outside : s.calls gid = .outside)
    (runs : th.state = .running) (noFake : th.fakeLeave = false) : Leaves s gid th := by
  have stands := (inv.threads gid th isThread).stands
  rw [outside] at stands
  exact ⟨isThread, runs, stands.2.2 runs, stands.2.1, noFake⟩

/-- `leave` called from outside the scheduler. -/
theorem Inv.leaveOutside (inv : Inv quantum s) (isThread : s.threads gid = some th)
    (outside : s.calls gid = .outside) (runs : th.state = .running) (noFake : th.fakeLeave = false)
    (draws : Draws) : Yields quantum (s.leave draws gid th.cid) (Inv quantum) := by
  have isAway : Call.Away .outside := trivial
  rcases inv.leave (inv.leaves isThread outside runs noFake) isAway (by rw [outside]) draws
    with trap | ⟨next, run, th', -, kept, inv'⟩
  · exact .inl trap
  · rw [setCall_same next ((congrFun kept.calls gid).trans outside)] at inv'
    exact .inr ⟨next, run, inv'⟩

theorem Inv.syscallLeave (inv : Inv quantum s) (isThread : s.threads gid = some th)
    (outside : s.calls gid = .outside) (runs : th.state = .running) (noFake : th.fakeLeave = false)
    (blacklisted : Bool) (draws : Draws) :
    Yields quantum (s.syscallLeave draws gid th.cid blacklisted) (Inv quantum) := by
  have isCur := inv.core.holds gid (.inl ((stateOf_eq isThread).trans (congrArg some runs)))
  rw [cidOf_eq isThread] at isCur
  simp only [Scheduler.syscallLeave, Option.bind_eq_bind]
  rw [isThread, Option.bind_some, if_pos ⟨isCur, rfl, runs⟩]
  by_cases leaves : blacklisted = true ∨ th.markedForSleep = true
  · rw [if_pos leaves]
    exact inv.leaveOutside isThread outside runs noFake draws
  · have notFake : gid ∉ s.fakeLeaves := by
      rw [inv.books.fake_iff isThread, noFake]
      simp
    rw [if_neg leaves, if_neg (by simp [noFake, notFake])]
    refine .inr ⟨_, rfl, ?_⟩
    apply inv.setFake isThread outside runs true
    · exact List.nodup_append.mpr ⟨inv.books.fakesOnce, List.nodup_singleton gid, by grind⟩
    · intro g
      by_cases same : g = gid
      · simp [same]
      · simp [same]

/-! ## The watchdog -/

theorem Core.none_running (core : Core none ∅ s)
    (allOut : s.scheduledThreads = (s.queue .outQueue).length) (isThread : s.threads gid = some th) :
    th.state ≠ .running := by
  intro runs
  have state : s.stateOf gid = some .running := (stateOf_eq isThread).trans (congrArg some runs)
  have holder : ∀ g ∈ gid :: s.queue .outQueue, s.Holding g := by
    intro g member
    rcases List.mem_cons.mp member with rfl | isOut
    · exact .inl state
    · exact .inr ((core.placed .outQueue g).mp isOut).1
  have notOut : gid ∉ s.queue .outQueue := core.absent (not_belongs state (.inr (.inl rfl))) .outQueue
  have once : ((gid :: s.queue .outQueue).map s.cidOf).Nodup := by
    apply List.Nodup.map_on ?_ (List.nodup_cons.mpr ⟨notOut, core.once .outQueue⟩)
    intro a memberA b memberB same
    have first := core.holds a (holder a memberA)
    rw [same, core.holds b (holder b memberB)] at first
    exact (Option.some.inj first).symm
  have inUse : ((gid :: s.queue .outQueue).map s.cidOf).toFinset ⊆
      (Finset.range s.numCores).filter fun c => (s.contexts c).state = .used := by
    intro c member
    obtain ⟨g, isHolder, rfl⟩ := List.mem_map.mp (List.mem_toFinset.mp member)
    have isCur := core.holds g (holder g isHolder)
    obtain ⟨x, isX⟩ : ∃ x, s.threads g = some x := by
      rcases holder g isHolder with isState | isState <;>
      · obtain ⟨x, isX, -⟩ := Option.map_eq_some_iff.mp isState
        exact ⟨x, isX⟩
    have bound := (core.inRange g x isX).1
    rw [← cidOf_eq isX] at bound
    exact Finset.mem_filter.mpr ⟨Finset.mem_range.mpr bound, (core.used _).mpr (by simp [isCur])⟩
  have most := Finset.card_le_card inUse
  rw [List.toFinset_card_of_nodup once, List.length_map, List.length_cons] at most
  have scheduled := core.scheduled
  rw [countIn] at scheduled
  omega

theorem Inv.watchdog (inv : Inv quantum s) (allOut : s.scheduledThreads = (s.queue .outQueue).length)
    (sleepers : s.queue .sleepQueue ≠ []) (draws : Draws) :
    Yields quantum (s.watchdog draws) (Inv quantum) := by
  have noneRuns : ∀ g x, s.threads g = some x → x.state ≠ .running := fun g x isX =>
    inv.core.none_running allOut isX
  have noneHere : ∀ c, ¬ s.bar.Here c := by
    intro c isHere
    obtain ⟨g, x, isX, runs, -⟩ := inv.holder isHere
    exact noneRuns g x isX runs
  have unchosen : Unchosen s := fun g x isX runs => absurd runs (noneRuns g x isX)
  have sleeps : ∀ g x, s.threads g = some x → x.state = .sleeping →
      x.futexWord = 1 ∧ s.curPhase < x.wakeupPhase := fun g x isX isSleeping =>
    (inv.threads g x isX).sleeps (.inl isSleeping)
  unfold Scheduler.watchdog
  rw [if_pos ⟨allOut, sleepers⟩]
  have called := inv.core.callback unchosen sleeps draws.sched
  rw [inv.schedQuantum] at called
  rcases called with trap | ⟨next, run, ended⟩
  · exact .inl trap
  · refine .inr ⟨next, run, ?_⟩
    have inv' : Inv quantum { s with bar := s.bar, calls := s.calls } := inv
    have ended' := inv'.phaseEnds ended inv.bar (fun c due => noneHere c due.here)
      (fun c isHere => absurd isHere (noneHere c)) fun c isHere => absurd isHere (noneHere c)
    rw [← ended.quiet.bar, ← ended.quiet.calls] at ended'
    exact ended'

/-! ## finish -/

/-- The thread is gone; it was in neither the barrier nor `fakeLeaves`. -/
theorem Inv.deleted (inv : Inv quantum s) (isThread : s.threads gid = some th) (idle : th.state ≠ .running)
    (noFake : th.fakeLeave = false)
    (schedQuantum : mid.schedQuantum = s.schedQuantum) (numCores : mid.numCores = s.numCores)
    (curPhase : mid.curPhase = s.curPhase) (calls : mid.calls = s.calls) (bar : mid.bar = s.bar)
    (fakeLeaves : mid.fakeLeaves = s.fakeLeaves) (core : Core none ∅ (mid.delete gid))
    (threads : ∀ g, g ≠ gid → mid.threads g = s.threads g) (once : mid.gidMap.Nodup)
    (keys : ∀ g, g ∈ mid.gidMap ↔ g ∈ s.gidMap ∧ g ≠ gid) : Inv quantum (mid.delete gid) := by
  have after : ∀ g, (mid.delete gid).threads g = if g = gid then none else s.threads g := by
    intro g
    change Function.update mid.threads gid none g = _
    by_cases same : g = gid
    · simp [same]
    · simp [same, threads g same]
  have callsAfter : ∀ g, (mid.delete gid).calls g = if g = gid then .outside else s.calls g := by
    intro g
    change (mid.setCall gid .outside).calls g = _
    rw [calls_setCall, calls]
  have held : ∀ c, s.bar.Here c → ∃ g x, g ≠ gid ∧ s.threads g = some x ∧ x.state = .running ∧ x.cid = c := by
    intro c isHere
    obtain ⟨g, x, isX, runs, isCid⟩ := inv.holder isHere
    refine ⟨g, x, ?_, isX, runs, isCid⟩
    rintro rfl
    cases Option.some.inj (isX.symm.trans isThread)
    exact idle runs
  refine ⟨schedQuantum.trans inv.schedQuantum, core, (bar ▸ inv.bar :), (numCores ▸ inv.cores :),
    fun c isHere => ?_, fun g x isX => ?_,
    fun g isNone => ?_, once, fun g => ?_, (fakeLeaves ▸ inv.books.fakesOnce :), fun g => ?_⟩
  · change mid.bar.Here c at isHere
    rw [bar] at isHere
    obtain ⟨g, x, ne, isX, runs, isCid⟩ := held c isHere
    have isX' : (mid.delete gid).threads g = some x := by rw [after, if_neg ne, isX]
    have state : (mid.delete gid).stateOf g = some .running := (stateOf_eq isX').trans (congrArg some runs)
    have holds := core.holds g (.inl state)
    rw [cidOf_eq isX', isCid] at holds
    exact ⟨g, holds, state⟩
  · rw [after] at isX
    rw [callsAfter]
    split at isX
    · cases isX
    · rename_i ne
      rw [if_neg ne]
      change ThreadOk mid.bar mid.curPhase _ x
      rw [bar, curPhase]
      exact inv.threads g x isX
  · rw [after] at isNone
    rw [callsAfter]
    split
    · rfl
    · rename_i ne
      rw [if_neg ne] at isNone
      exact inv.books.absent g isNone
  · change g ∈ mid.gidMap ↔ _
    rw [keys, after, callsAfter, inv.books.keys]
    by_cases same : g = gid
    · simp [same]
    · simp [same]
  · change g ∈ mid.fakeLeaves ↔ _
    rw [fakeLeaves, after, inv.books.fakes]
    by_cases same : g = gid
    · simp [same, isThread, noFake]
    · simp [same]

structure Gone (gid : Nat) (s next : Scheduler) : Prop where
  calls : ∀ g, g ≠ gid → next.calls g = s.calls g
  ended : next.calls gid = .outside
  gidMap : next.gidMap = s.gidMap
  gone : next.threads gid = none
  threads : ∀ g, g ≠ gid → next.threads g = s.threads g

theorem gone_delete (calls : mid.calls = s.calls) (gidMap : mid.gidMap = s.gidMap)
    (threads : ∀ g, g ≠ gid → mid.threads g = s.threads g) : Gone gid s (mid.delete gid) := by
  have after : ∀ g, (mid.delete gid).calls g = if g = gid then .outside else mid.calls g :=
    calls_setCall mid gid .outside
  refine ⟨fun g ne => ?_, ?_, gidMap, ?_, fun g ne => ?_⟩
  · rw [after, if_neg ne, calls]
  · rw [after, if_pos rfl]
  · exact Function.update_self gid none mid.threads
  · exact (Function.update_of_ne ne none mid.threads).trans (threads g ne)

theorem delete_setThread (s : Scheduler) (gid : Nat) (th : ThreadInfo) :
    (s.setThread gid th).delete gid = s.delete gid := by
  simp [delete, setThread, setCall]

/-- A thread that waits in `runQueue` is taken off it, and deleted. -/
theorem Core.endQueued (core : Core none ∅ s) (isThread : s.threads gid = some th)
    (waits : gid ∈ s.queue .runQueue) :
    s.remove .runQueue gid = some (s.setQueue .runQueue ((s.queue .runQueue).erase gid)) ∧
      Core none ∅ ((s.setQueue .runQueue ((s.queue .runQueue).erase gid)).delete gid) := by
  obtain ⟨queued, unchosen⟩ := ((core.placed .runQueue gid).mp waits).1
  obtain ⟨removes, removed⟩ := core.unlist isThread waits (by simp [Holding, queued]) unchosen
  have isBlocked : ((s.setQueue .runQueue ((s.queue .runQueue).erase gid)).setThread gid
      { th with state := .blocked }).threads gid = some { th with state := .blocked } := by
    rw [threads_setThread, if_pos rfl]
  have blocked := stateOf_eq isBlocked
  have nowhere := not_belongs blocked (.inr (.inr rfl))
  have unlisted := removed.tighten nowhere
  have deleted := unlisted.delete isBlocked (by simp [Holding, blocked]) (unlisted.absent nowhere)
    (unlisted.noTarget isBlocked (by simp))
  rw [delete_setThread] at deleted
  exact ⟨removes, deleted⟩

theorem Core.endOut (core : Core none ∅ s) (isThread : s.threads gid = some th) (isOut : th.state = .out) :
    s.owner gid = some .outQueue ∧ ∃ freed,
      ((s.remove .outQueue gid).bind fun removed =>
        (removed.deschedule gid th.cid .blocked).bind fun freed => freed.pushFree th.cid) = some freed ∧
      Frame s freed ∧ Core none ∅ (freed.delete gid) ∧ ∀ g, g ≠ gid → freed.threads g = s.threads g := by
  have isState : s.stateOf gid = some .out := (stateOf_eq isThread).trans (congrArg some isOut)
  have member : gid ∈ s.queue .outQueue := (core.placed .outQueue gid).mpr ⟨isState, id⟩
  obtain ⟨removes, removed⟩ := core.remove member
  have noHandoff := core.noHandoff isThread (by simp [isOut])
  let gone := s.setQueue .outQueue ((s.queue .outQueue).erase gid)
  have isGone : gone.threads gid = some th := isThread
  obtain ⟨descheds, freed⟩ := removed.deschedule isGone (.inr isOut)
    (removed.absent_of_loose (Set.mem_insert gid ∅)) noHandoff (.inl rfl)
  rw [Set.insert_idem] at freed
  have freed' := freed.tighten (not_belongs (by rw [stateOf_vacate, if_pos rfl]) (.inr (.inr rfl)))
  -- the context was on offer while its thread was OUT
  have unwanted : ∀ g ∈ (gone.vacate gid th.cid th .blocked).queue .runQueue,
      (gone.vacate gid th.cid th .blocked).maskOf g th.cid = false := by
    intro g waits
    rw [(reads_vacate isGone th.cid .blocked).2.1]
    by_contra wants
    obtain ⟨h, isCur, runs⟩ := core.conserved g th.cid waits (core.inRange gid th isThread).1
      (Bool.not_eq_false _ |>.mp wants) (by simp)
    have holds := core.holds gid (.inr isState)
    rw [cidOf_eq isThread, isCur] at holds
    cases Option.some.inj holds
    rw [isState] at runs
    cases runs
  obtain ⟨frees, free⟩ := freed'.release unwanted
  have isBlocked : (gone.vacate gid th.cid th .blocked).threads gid = some { th with state := .blocked } := by
    rw [threads_vacate, if_pos rfl]
  have blocked : (gone.vacate gid th.cid th .blocked).stateOf gid = some .blocked := by
    rw [stateOf_vacate, if_pos rfl]
  have deleted := free.delete isBlocked (by
      change ¬ (gone.vacate gid th.cid th .blocked).Holding gid
      simp [Holding, blocked])
    (free.absent (not_belongs blocked (.inr (.inr rfl))))
    (free.noTarget isBlocked (by simp))
  refine ⟨core.owner_eq member, _, ?_, ?_, deleted, fun g ne => ?_⟩
  · rw [removes, Option.bind_some, descheds, Option.bind_some, frees]
  · exact ((frame_setQueue ..).trans (frame_vacate gone gid th.cid th .blocked)).trans (frame_freeList ..)
  · change (gone.vacate gid th.cid th .blocked).threads g = _
    rw [threads_vacate, if_neg ne]
    rfl

/-- The end of `finish`, also where the thread has just been taken out of `gidMap`. -/
theorem Inv.finishEnd (inv : Inv quantum s) (isThread : s.threads gid = some th) (idle : th.state ≠ .running)
    (awake : th.state ≠ .sleeping) (listed : th.state = .queued → gid ∈ s.queue .runQueue) {gidMap : List Nat}
    (once : gidMap.Nodup) (keys : ∀ g, g ∈ gidMap ↔ g ∈ s.gidMap ∧ g ≠ gid) :
    ∃ next, ({ s with gidMap := gidMap } : Scheduler).finishEnd gid = some next ∧
      Gone gid { s with gidMap := gidMap } next ∧ Inv quantum next := by
  let erased : Scheduler := { s with gidMap := gidMap }
  have core : Core none ∅ erased := inv.core.congr rfl rfl rfl rfl rfl rfl
  have isThread' : erased.threads gid = some th := isThread
  have noFake : th.fakeLeave = false :=
    Bool.eq_false_iff.mpr fun fake => idle ((inv.threads gid th isThread).fake fake).1
  have passes : th.state = .started ∨ th.state = .out ∨ th.state = .blocked ∨ th.state = .queued := by
    cases state : th.state with
    | running => exact absurd state idle
    | sleeping => exact absurd state awake
    | started | out | blocked | queued => simp
  have deleted : ∀ mid : Scheduler, Frame erased mid → Core none ∅ (mid.delete gid) →
      (∀ g, g ≠ gid → mid.threads g = s.threads g) → Gone gid erased (mid.delete gid) ∧
        Inv quantum (mid.delete gid) := fun mid frame core threads =>
    ⟨gone_delete frame.calls frame.gidMap threads,
      inv.deleted isThread idle noFake frame.schedQuantum frame.numCores frame.curPhase frame.calls frame.bar
        frame.fakeLeaves core threads (frame.gidMap ▸ once) (frame.gidMap ▸ keys)⟩
  simp only [Scheduler.finishEnd, Option.bind_eq_bind]
  rw [show erased.threads gid = some th from isThread, Option.bind_some, if_pos passes]
  by_cases queued : th.state = .queued
  · obtain ⟨removes, core'⟩ := core.endQueued isThread' (listed queued)
    rw [if_pos queued, show erased.remove .runQueue gid = _ from removes, Option.map_some]
    exact ⟨_, rfl, deleted _ (frame_setQueue ..) core' fun g _ => rfl⟩
  rw [if_neg queued]
  by_cases isOut : th.state = .out
  · obtain ⟨isOwner, freed, run, frame, core', threads⟩ := core.endOut isThread' isOut
    rw [if_neg (by rw [isOwner]; simp)]
    refine ⟨freed.delete gid, ?_, deleted freed frame core' threads⟩
    obtain ⟨removed, removes, run⟩ := Option.bind_eq_some_iff.mp run
    obtain ⟨vacated, descheds, frees⟩ := Option.bind_eq_some_iff.mp run
    rw [removes, Option.bind_some, descheds, Option.bind_some, frees, Option.map_some]
  · have isState : th.state = .started ∨ th.state = .running ∨ th.state = .blocked := by
      rcases passes with h | h | h | h
      · exact .inl h
      · exact absurd h isOut
      · exact .inr (.inr h)
      · exact absurd h queued
    have absent := core.absent (not_belongs (stateOf_eq isThread') isState)
    have notHeld : ¬ erased.Holding gid := by
      unfold Holding
      rw [stateOf_eq isThread']
      simp [idle, isOut]
    rw [if_pos (owner_eq_none absent)]
    exact ⟨_, rfl, deleted erased (.refl _) (core.delete isThread' notHeld absent
      (core.noTarget isThread' queued)) fun g _ => rfl⟩

/-- `finish` has taken the thread out of `gidMap`, and goes on to call `leave`. -/
def finishing (s : Scheduler) (gid : Nat) (th : ThreadInfo) (fakeLeaves : List Nat) (suppressed : Bool) :
    Scheduler :=
  Scheduler.setCall { s.setThread gid { th with fakeLeave := false } with
    gidMap := s.gidMap.erase gid, fakeLeaves := fakeLeaves } gid (.finishLeave suppressed)

theorem Books.finishing (books : Books s) (calls : mid.calls = s.calls)
    (threads : ∀ g, mid.threads g = if g = gid then some th' else s.threads g)
    (gidMap : mid.gidMap = s.gidMap.erase gid) (once : mid.fakeLeaves.Nodup)
    (fakes : ∀ g, g ∈ mid.fakeLeaves ↔ g ∈ s.fakeLeaves ∧ g ≠ gid) (noFake : th'.fakeLeave = false)
    (isFinishing : call.Finishing) : Books (mid.setCall gid call) := by
  refine books.update calls threads (gidMap ▸ books.keysOnce.erase gid) (fun g => ?_) once fun g => ?_
  · rw [gidMap, books.keysOnce.mem_erase_iff]
    by_cases same : g = gid
    · simp [same, isFinishing]
    · simp [same]
  · rw [fakes]
    by_cases same : g = gid
    · simp [same, noFake]
    · simp [same]

theorem Inv.startFinish (inv : Inv quantum s) (isThread : s.threads gid = some th) (runs : th.state = .running)
    (inBar : s.bar.stateOf th.cid = .running) (noHandoff : th.handoffThread = none) {fakeLeaves : List Nat}
    (once : fakeLeaves.Nodup) (fakes : ∀ g, g ∈ fakeLeaves ↔ g ∈ s.fakeLeaves ∧ g ≠ gid)
    (suppressed : Bool) : Inv quantum (s.finishing gid th fakeLeaves suppressed) := by
  have ok := inv.threads gid th isThread
  let erased : Scheduler := { s.setThread gid { th with fakeLeave := false } with
    gidMap := s.gidMap.erase gid, fakeLeaves := fakeLeaves }
  have core : Core none ∅ erased :=
    (inv.core.modify isThread { th with fakeLeave := false } rfl rfl rfl rfl (.inl rfl)).congr
      rfl rfl rfl rfl rfl rfl
  have threads : ∀ g, erased.threads g =
      if g = gid then some { th with fakeLeave := false } else s.threads g := fun g =>
    threads_setThread s gid g _
  have ok' : ThreadOk s.bar s.curPhase (.finishLeave suppressed) { th with fakeLeave := false } := by
    refine ⟨⟨runs, inBar, noHandoff⟩, ok.sleeps, fun _ contra => ?_, fun contra => ?_⟩
    · cases contra
    · cases contra
  refine inv.alter rfl rfl rfl rfl rfl core threads ?_ ok'
    (inv.books.finishing rfl threads rfl once fakes rfl trivial)
  intro x isX _
  cases Option.some.inj (isX.symm.trans isThread)
  exact ⟨runs, rfl⟩

/-- The first critical section of `finish`, of a running thread. -/
theorem Inv.finish_running (inv : Inv quantum s) (isThread : s.threads gid = some th)
    (isKey : gid ∈ s.gidMap) (runs : th.state = .running) :
    ∃ fakeLeaves suppressed, s.finish gid = some (s.finishing gid th fakeLeaves suppressed) ∧
      fakeLeaves.Nodup ∧ ∀ g, g ∈ fakeLeaves ↔ g ∈ s.fakeLeaves ∧ g ≠ gid := by
  simp only [Scheduler.finish, Option.bind_eq_bind]
  rw [isThread, Option.bind_some, if_pos isKey]
  by_cases fake : th.fakeLeave = true
  · have isFake : gid ∈ s.fakeLeaves := (inv.books.fake_iff isThread).mpr fake
    refine ⟨s.fakeLeaves.erase gid, true, ?_, inv.books.fakesOnce.erase gid, fun g => ?_⟩
    · simp only [Scheduler.finishFakeLeave, Option.bind_eq_bind]
      rw [if_pos fake, isThread, Option.bind_some, if_pos ⟨fake, runs, isFake⟩]
      rfl
    · rw [inv.books.fakesOnce.mem_erase_iff, and_comm]
  · have notFake : gid ∉ s.fakeLeaves := fun isFake => fake ((inv.books.fake_iff isThread).mp isFake)
    have same : s.setThread gid { th with fakeLeave := false } = s := by
      have isTh : { th with fakeLeave := false } = th := by
        rw [← Bool.eq_false_iff.mpr fake]
      rw [isTh, setThread, ← isThread, Function.update_eq_self]
    refine ⟨s.fakeLeaves, false, ?_, inv.books.fakesOnce, fun g => ?_⟩
    · simp only [Scheduler.finishCheck, Option.bind_eq_bind]
      rw [if_neg fake, isThread, Option.bind_some, if_pos runs, finishing, same]
    · exact (and_iff_left_of_imp fun isFake => ne_of_mem_of_not_mem isFake notFake).symm

/-- The only critical section of `finish`, of a thread that does not run. -/
theorem Inv.finish_idle (inv : Inv quantum s) (isThread : s.threads gid = some th) (isKey : gid ∈ s.gidMap)
    (idle : th.state ≠ .running) (awake : th.state ≠ .sleeping)
    (listed : th.state = .queued → gid ∈ s.queue .runQueue) :
    ∃ next, s.finish gid = some next ∧ Gone gid { s with gidMap := s.gidMap.erase gid } next ∧
      Inv quantum next := by
  have noFake : ¬ th.fakeLeave = true := fun fake => idle ((inv.threads gid th isThread).fake fake).1
  simp only [Scheduler.finish, Scheduler.finishCheck, Option.bind_eq_bind]
  rw [isThread, Option.bind_some, if_pos isKey, if_neg noFake, Option.bind_some, if_neg idle]
  refine inv.finishEnd isThread idle awake listed (inv.books.keysOnce.erase gid) fun g => ?_
  rw [inv.books.keysOnce.mem_erase_iff, and_comm]

theorem Inv.finish (inv : Inv quantum s) (isThread : s.threads gid = some th) (outside : s.calls gid = .outside)
    (awake : th.state ≠ .sleeping) : ∃ next, s.finish gid = some next ∧ Inv quantum next := by
  have isKey : gid ∈ s.gidMap := inv.books.key isThread outside
  have stands := (inv.threads gid th isThread).stands
  rw [outside] at stands
  obtain ⟨notQueued, noHandoff, inBar⟩ := stands
  by_cases runs : th.state = .running
  · obtain ⟨fakeLeaves, suppressed, run, once, fakes⟩ := inv.finish_running isThread isKey runs
    exact ⟨_, run, inv.startFinish isThread runs (inBar runs) noHandoff once fakes suppressed⟩
  · obtain ⟨next, run, -, inv'⟩ := inv.finish_idle isThread isKey runs awake fun queued =>
      absurd queued notQueued
    exact ⟨next, run, inv'⟩

/-- What the `leave` of `finish` does to the threads. -/
structure LeftFinish (gid : Nat) (th : ThreadInfo) (suppressed : Bool) (s next : Scheduler) : Prop where
  calls : next.calls = Function.update s.calls gid (if suppressed = true then .finishCheck else .finishEnd)
  gidMap : next.gidMap = s.gidMap
  left : ∃ th', next.threads gid = some th' ∧ (th.markedForSleep = false → th'.state ≠ .sleeping)
  others : ∀ g, g ≠ gid → Option.Rel Follows (s.threads g) (next.threads g)

/-- The `leave` that `finish` calls. -/
theorem Inv.finishLeave (inv : Inv quantum s) (isThread : s.threads gid = some th) {suppressed : Bool}
    (isCall : s.calls gid = .finishLeave suppressed) (draws : Draws) :
    Yields quantum (s.finishLeave draws gid suppressed) fun next =>
      LeftFinish gid th suppressed s next ∧ Inv quantum next := by
  have ok := inv.threads gid th isThread
  have stands := ok.stands
  rw [isCall] at stands
  obtain ⟨runs, inBar, noHandoff⟩ := stands
  have noFake : th.fakeLeave = false := ok.noFake (by simp [isCall])
  have isAway : Call.Away (if suppressed = true then .finishCheck else .finishEnd) := by
    split <;> trivial
  have finishing : Call.Finishing (if suppressed = true then .finishCheck else .finishEnd) ↔
      (s.calls gid).Finishing := by
    rw [isCall]
    split <;> exact Iff.rfl
  simp only [Scheduler.finishLeave, Option.bind_eq_bind]
  rw [isThread, Option.bind_some]
  rcases inv.leave ⟨isThread, runs, inBar, noHandoff, noFake⟩ isAway finishing draws
    with ⟨zero, trap⟩ | ⟨left, run, th', awake, kept, inv'⟩
  · exact .inl ⟨zero, by rw [trap]; rfl⟩
  · rw [run, Option.bind_some]
    refine .inr ⟨_, rfl, ⟨congrArg (Function.update · gid _) kept.calls, kept.gidMap, ?_, fun g ne => ?_⟩, inv'⟩
    · have related := kept.threads gid
      rw [threads_setThread, if_pos rfl] at related
      change ∃ x, left.threads gid = some x ∧ _
      cases after : left.threads gid with
      | none =>
          rw [after] at related
          cases related
      | some x =>
          rw [after] at related
          cases related with
          | some follows => exact ⟨x, rfl, fun unmarked isSleeping => awake unmarked (follows.sleeps isSleeping)⟩
    · have related := kept.threads g
      rw [threads_setThread, if_neg ne] at related
      exact related

/-- The last two critical sections of `finish`, of a thread that has not been put to sleep. -/
theorem Inv.finishLast (inv : Inv quantum s) (isThread : s.threads gid = some th)
    (isCall : s.calls gid = .finishCheck ∨ s.calls gid = .finishEnd) (awake : th.state ≠ .sleeping) :
    (∃ next, s.finishEnd gid = some next ∧ Gone gid s next ∧ Inv quantum next) ∧
      s.finishCheck gid = s.finishEnd gid := by
  have stands := (inv.threads gid th isThread).stands
  have idle : th.state ≠ .running ∧ th.state ≠ .queued := by
    rcases isCall with isCall | isCall <;>
    · rw [isCall] at stands
      exact stands
  have finishing : (s.calls gid).Finishing := by
    rcases isCall with isCall | isCall <;>
    · rw [isCall]
      trivial
  have notKey : gid ∉ s.gidMap := fun isKey => ((inv.books.keys gid).mp isKey).2 finishing
  constructor
  · apply inv.finishEnd isThread idle.1 awake (fun queued => absurd queued idle.2) inv.books.keysOnce
    exact fun g => (and_iff_left_of_imp fun isKey => ne_of_mem_of_not_mem isKey notKey).symm
  · simp only [Scheduler.finishCheck, Option.bind_eq_bind]
    rw [isThread, Option.bind_some, if_neg idle.1]

end Zsim.Scheduler
