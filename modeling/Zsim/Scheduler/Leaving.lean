import Zsim.Scheduler.Changes

/-!
# Leaving

A thread that leaves goes to sleep, or OUT, or BLOCKED where another thread waits for its
context.  In each case its context is free, or held by the thread that is OUT, only if no thread
in `runQueue` wants it.
-/

set_option autoImplicit false

namespace Zsim.Scheduler

variable {quantum : Nat} {s mid : Scheduler} {gid : Nat} {th th' : ThreadInfo} {call : Call}

/-! ## The ordered insert -/

theorem insertByPhase_perm (wakeupPhase : Nat → Nat) (gid : Nat) (gids : List Nat) :
    (insertByPhase wakeupPhase gid gids).Perm (gid :: gids) := by
  induction gids with
  | nil => exact .refl _
  | cons cur rest ih =>
      rw [insertByPhase]
      split
      · exact (ih.cons cur).trans (.swap gid cur rest)
      · exact .refl _

theorem insertByPhase_sorted {wakeupPhase : Nat → Nat} (gid : Nat) {gids : List Nat}
    (sorted : gids.Pairwise fun a b => wakeupPhase a ≤ wakeupPhase b) :
    (insertByPhase wakeupPhase gid gids).Pairwise fun a b => wakeupPhase a ≤ wakeupPhase b := by
  induction gids with
  | nil => exact List.pairwise_singleton _ gid
  | cons cur rest ih =>
      obtain ⟨first, later⟩ := List.pairwise_cons.mp sorted
      rw [insertByPhase]
      split
      case isTrue le =>
        refine List.pairwise_cons.mpr ⟨fun x member => ?_, ih later⟩
        rcases List.mem_cons.mp ((insertByPhase_perm wakeupPhase gid rest).mem_iff.mp member) with rfl | behind
        · exact le
        · exact first x behind
      case isFalse lt =>
        refine List.pairwise_cons.mpr ⟨fun x member => ?_, sorted⟩
        rcases List.mem_cons.mp member with rfl | behind
        · omega
        · have := first x behind
          omega

/-! ## The two ends of `leave` -/

theorem rel_same (b : Barrier) (x : Option ThreadInfo) : Option.Rel (Touched b) x x := by
  cases x with
  | none => exact .none
  | some th => exact .some (.same th)

theorem Carries.refl (b : Barrier) (cid : Nat) : Carries b b cid := ⟨id, id, id⟩

theorem setBar_self (s : Scheduler) {b : Barrier} (same : s.bar = b) : s.setBar b = s := by
  rw [← same]
  rfl

theorem Inv.without {left : Barrier} (inv : Inv quantum s) (isThread : s.threads gid = some th)
    (runs : th.state = .running) (threads : ∀ g, mid.threads g = if g = gid then some th' else s.threads g)
    (without : Barrier.Without s.bar th.cid left) :
    OthersTouched left gid s mid ∧
      (∀ g x, g ≠ gid → s.threads g = some x → x.state = .running → Carries s.bar left x.cid) ∧
      ∀ c, left.Here c → ∃ g x, mid.threads g = some x ∧ x.state = .running ∧ x.cid = c := by
  have holding : s.Holding gid := .inl ((stateOf_eq isThread).trans (congrArg some runs))
  refine ⟨fun g ne => ?_, fun g x ne isX runsX => ?_, fun c inLeft => ?_⟩
  · rw [threads, if_neg ne]
    exact rel_same left _
  · have holding' : s.Holding g := .inl ((stateOf_eq isX).trans (congrArg some runsX))
    have ne' : x.cid ≠ th.cid := fun same => ne (inv.core.cid_inj isX isThread holding' holding same)
    exact ⟨fun isHere => (without.here x.cid).mpr ⟨isHere, ne'⟩, without.due x.cid ne',
      without.running x.cid ne'⟩
  · obtain ⟨inOld, ne⟩ := (without.here c).mp inLeft
    obtain ⟨g, x, isX, runsX, isCid⟩ := inv.holder inOld
    have other : g ≠ gid := by
      rintro rfl
      cases Option.some.inj (isX.symm.trans isThread)
      exact ne isCid.symm
    exact ⟨g, x, by rw [threads, if_neg other, isX], runsX, isCid⟩

/-- `gid` has left its context to a thread that was waiting for it. -/
structure GivenTo (s : Scheduler) (gid cid : Nat) (th' : ThreadInfo) (inTh : Nat) (inInfo : ThreadInfo)
    (next : Scheduler) : Prop where
  core : Core none ∅ next
  isIn : s.threads inTh = some inInfo
  queued : inInfo.state = .queued
  other : inTh ≠ gid
  threads : ∀ g, next.threads g =
    if g = inTh then some (granted inInfo cid) else if g = gid then some th' else s.threads g

section
variable {cid inTh : Nat} {inInfo : ThreadInfo} {next : Scheduler}
    (given : GivenTo s gid cid th' inTh inInfo next)
include given

theorem GivenTo.follows (g : Nat) : Option.Rel Follows ((s.setThread gid th').threads g) (next.threads g) := by
  rw [given.threads, threads_setThread]
  by_cases isGranted : g = inTh
  · rw [if_pos isGranted, isGranted, if_neg given.other, given.isIn]
    exact .some ⟨by simp [granted], by simp [granted],
      fun runs => absurd (runs.symm.trans given.queued) (by simp)⟩
  · rw [if_neg isGranted]
    exact rel_follows _

theorem GivenTo.here (inv : Inv quantum s) (isThread : s.threads gid = some th) (isCid : th.cid = cid) {c : Nat}
    (isHere : s.bar.Here c) : ∃ g x, next.threads g = some x ∧ x.state = .running ∧ x.cid = c := by
  obtain ⟨g, x, isX, runsX, isCid'⟩ := inv.holder isHere
  by_cases same : g = gid
  · rw [same] at isX
    cases Option.some.inj (isX.symm.trans isThread)
    exact ⟨inTh, granted inInfo cid, by rw [given.threads, if_pos rfl], rfl, isCid.symm.trans isCid'⟩
  · have notIn : g ≠ inTh := by
      rintro rfl
      cases Option.some.inj (isX.symm.trans given.isIn)
      exact absurd (runsX.symm.trans given.queued) (by simp)
    exact ⟨g, x, by rw [given.threads, if_neg notIn, if_neg same, isX], runsX, isCid'⟩

end

/-- A thread in `runQueue` can be given a context. -/
theorem Inv.gives {cid inTh : Nat} (inv : Inv quantum s)
    (threads : ∀ g, mid.threads g = if g = gid then some th' else s.threads g)
    (core : Core (some cid) (insert inTh ∅) mid) (waits : mid.Belongs inTh .runQueue)
    (notQueued : th'.state ≠ .queued) :
    ∃ next inInfo, mid.giveTo inTh cid = some next ∧ Frame mid next ∧
    GivenTo s gid cid th' inTh inInfo next := by
  obtain ⟨inInfo, isIn', queued⟩ := Option.map_eq_some_iff.mp waits.1
  have other : inTh ≠ gid := by
    rintro rfl
    rw [threads, if_pos rfl] at isIn'
    cases isIn'
    exact notQueued queued
  have isIn : s.threads inTh = some inInfo := by rw [← isIn', threads, if_neg other]
  obtain ⟨-, -, isSet, -⟩ := (inv.threads inTh inInfo isIn).queued queued
  obtain ⟨next, run, core', frame', threads', -⟩ := core.giveTo isIn' queued waits.2 isSet
  exact ⟨next, inInfo, run, frame', core', isIn, queued, other, fun g => by rw [threads', threads]⟩

section
variable (inv : Inv quantum s) (frame : Frame s mid) (isThread : s.threads gid = some th)
  (inBar : s.bar.stateOf th.cid = .running)
  (threads : ∀ g, mid.threads g = if g = gid then some th' else s.threads g)
  (fake : th'.fakeLeave = th.fakeLeave) (finishing : call.Finishing ↔ (s.calls gid).Finishing)
  (ok : ∀ b, ThreadOk b s.curPhase call th')
include inv frame isThread inBar threads fake finishing ok

/-- The context goes to a thread that waits for it, and the barrier does not notice. -/
theorem Inv.passOn {inTh : Nat} (core : Core (some th.cid) (insert inTh ∅) mid)
    (waits : mid.Belongs inTh .runQueue) (notQueued : th'.state ≠ .queued) :
    ∃ next, mid.giveTo inTh th.cid = some next ∧ Kept (s.setThread gid th') next ∧
      Inv quantum (next.setCall gid call) := by
  obtain ⟨next, inInfo, run, frame', given⟩ := inv.gives threads core waits notQueued
  have whole := frame.trans frame'
  refine ⟨next, run, ⟨whole.calls, whole.gidMap, given.follows⟩, ?_⟩
  rw [← setBar_self (next.setCall gid call) whole.bar]
  have isThread' : next.threads gid = some th' := by
    rw [given.threads, if_neg (Ne.symm given.other), if_pos rfl]
  refine inv.change whole given.core inv.bar (fun g ne => ?_) (fun _ x _ _ _ => .refl s.bar x.cid) isThread
    isThread' fake finishing (ok s.bar) fun c isHere => given.here inv isThread rfl isHere
  rw [given.threads, if_neg ne]
  by_cases isGranted : g = inTh
  · rw [if_pos isGranted, isGranted, given.isIn]
    exact .some (.granted inInfo th.cid given.queued inBar)
  · rw [if_neg isGranted]
    exact rel_same s.bar _

theorem Inv.departs (core : Core none ∅ mid) (runs : th.state = .running) (draws : Draws) :
    Yields quantum (mid.barLeave draws th.cid) fun next =>
      Kept (s.setThread gid th') next ∧ Inv quantum (next.setCall gid call) := by
  obtain ⟨left, leftInv, without, leaves⟩ := inv.bar.leaving inBar
  rw [← frame.bar] at leaves
  have same : ∀ g, mid.threads g = (s.setThread gid th').threads g := fun g => by
    rw [threads, threads_setThread]
  suffices after : Inv quantum ((mid.setCall gid call).setBar left) from
    (after.barLeave draws leaves).imp fun next left =>
      ⟨left.1.congr frame.calls frame.gidMap same, left.2⟩
  obtain ⟨others, carries, here⟩ := inv.without isThread runs threads without
  exact inv.change frame core leftInv others carries isThread (by rw [threads, if_pos rfl]) fake finishing
    (ok left) here

end

/-! ## leave -/

/-- The thread is in the simulation, at a place from which it may leave. -/
structure Leaves (s : Scheduler) (gid : Nat) (th : ThreadInfo) : Prop where
  isThread : s.threads gid = some th
  runs : th.state = .running
  inBar : s.bar.stateOf th.cid = .running
  noHandoff : th.handoffThread = none
  noFake : th.fakeLeave = false

theorem Inv.leaveToSleep (inv : Inv quantum s) (leaves : Leaves s gid th) (marked : th.markedForSleep = true)
    (isAway : call.Away) (finishing : call.Finishing ↔ (s.calls gid).Finishing) (draws : Draws) :
    Yields quantum (s.leaveToSleep draws gid th.cid th) fun next =>
      ∃ th', Kept (s.setThread gid th') next ∧ Inv quantum (next.setCall gid call) := by
  obtain ⟨isThread, runs, inBar, noHandoff, noFake⟩ := leaves
  obtain ⟨isSet, ahead⟩ := (inv.threads gid th isThread).sleeps (.inr ⟨runs, marked⟩)
  have state : s.stateOf gid = some .running := (stateOf_eq isThread).trans (congrArg some runs)
  have absent := inv.core.absent (not_belongs state (.inr (.inl rfl)))
  have core := inv.core.modify isThread { th with markedForSleep := false } rfl rfl rfl rfl (.inl rfl)
  have isUnmarked : (s.setThread gid { th with markedForSleep := false }).threads gid =
      some { th with markedForSleep := false } := by rw [threads_setThread, if_pos rfl]
  obtain ⟨descheds, freed⟩ := core.deschedule isUnmarked (.inl runs) absent noHandoff (.inr (.inr rfl))
  have threads : ∀ g, ((s.setThread gid { th with markedForSleep := false }).vacate gid th.cid
      { th with markedForSleep := false } .sleeping).threads g =
        if g = gid then some { th with markedForSleep := false, state := .sleeping } else s.threads g := by
    intro g
    rw [threads_vacate, threads_setThread]
    split <;> rfl
  have frame : Frame s ((s.setThread gid { th with markedForSleep := false }).vacate gid th.cid
      { th with markedForSleep := false } .sleeping) :=
    (frame_setThread s gid _).trans (frame_vacate _ gid th.cid _ .sleeping)
  simp only [Scheduler.leaveToSleep, Option.bind_eq_bind]
  rw [descheds, Option.bind_some]
  dsimp only at freed
  generalize (s.setThread gid { th with markedForSleep := false }).vacate gid th.cid
    { th with markedForSleep := false } .sleeping = mid at freed threads frame ⊢
  have sleeping : mid.stateOf gid = some .sleeping := by rw [stateOf, threads, if_pos rfl]; rfl
  have ok : ∀ b, ThreadOk b s.curPhase call { th with markedForSleep := false, state := .sleeping } :=
    fun b => .away isAway noHandoff (.inr (.inr (.inr rfl))) (fun _ => ⟨isSet, ahead⟩) noFake
  have inserts : mid.insertSleep gid = some (mid.setQueue .sleepQueue
      (insertByPhase mid.wakeupPhaseOf gid (mid.queue .sleepQueue))) :=
    if_pos (owner_eq_none (freed.absent_of_loose (Set.mem_insert gid ∅)))
  have asleep := freed.enqueue (Set.notMem_empty gid) (q := .sleepQueue) sleeping
    (insertByPhase_perm mid.wakeupPhaseOf gid (mid.queue .sleepQueue))
    (fun _ => insertByPhase_sorted gid freed.sorted) (fun contra => by cases contra)
  have frame' : Frame s (mid.setQueue .sleepQueue
    (insertByPhase mid.wakeupPhaseOf gid (mid.queue .sleepQueue))) := frame.trans (frame_setQueue ..)
  rw [inserts, Option.bind_some]
  rcases asleep.schedContext th.cid with ⟨finds, unwanted⟩ | ⟨inTh, finds, core', waits⟩
  · obtain ⟨pushes, core'⟩ := asleep.release unwanted
    rw [finds, Option.bind_some]
    dsimp only
    rw [pushes, Option.bind_some]
    exact (inv.departs (frame'.trans (frame_freeList ..)) isThread inBar threads rfl
      finishing ok core' runs draws).imp fun _ after => ⟨_, after⟩
  · rw [finds, Option.bind_some]
    obtain ⟨next, run, inv'⟩ := inv.passOn (frame'.trans (frame_setQueue ..)) isThread
      inBar threads rfl finishing ok core' waits (by simp)
    exact .inr ⟨next, run, _, inv'⟩

theorem Core.goOut (core : Core none ∅ s) (isThread : s.threads gid = some th) (runs : th.state = .running)
    (noHandoff : th.handoffThread = none) (unwanted : ∀ g ∈ s.queue .runQueue, s.maskOf g th.cid = false) :
    (s.setThread gid { th with state := .out }).pushBack .outQueue gid =
        some ((s.setThread gid { th with state := .out }).setQueue .outQueue (s.queue .outQueue ++ [gid])) ∧
      Core none ∅ ((s.setThread gid { th with state := .out }).setQueue .outQueue
        (s.queue .outQueue ++ [gid])) := by
  have state : s.stateOf gid = some .running := (stateOf_eq isThread).trans (congrArg some runs)
  have holding : s.Holding gid := .inl state
  have absent := core.absent (not_belongs state (.inr (.inl rfl)))
  have noTarget := core.noTarget isThread (by simp [runs])
  have out := (core.loosen absent).setState isThread (Set.mem_insert gid ∅) noHandoff noTarget .out
    (by simp [holding]) (fun _ => unwanted)
  have isOut : (s.setThread gid { th with state := .out }).stateOf gid = some .out := by
    rw [stateOf_setThread, if_pos rfl]
  exact ⟨pushBack_eq (s := s.setThread gid { th with state := .out }) absent .outQueue,
    out.enqueue (Set.notMem_empty gid) (q := .outQueue) isOut
      (List.perm_append_singleton gid (s.queue .outQueue)) (fun contra => by cases contra)
      (fun contra => by cases contra)⟩

theorem Core.giveUp {inTh : Nat}
    (taken : Core none (insert inTh ∅) (s.setQueue .runQueue ((s.queue .runQueue).erase inTh)))
    (isThread : s.threads gid = some th) (runs : th.state = .running) (noHandoff : th.handoffThread = none)
    (waits : s.Belongs inTh .runQueue) {freed : Scheduler}
    (isFreed : freed = (s.setQueue .runQueue ((s.queue .runQueue).erase inTh)).vacate gid th.cid th .blocked) :
    (s.setQueue .runQueue ((s.queue .runQueue).erase inTh)).deschedule gid th.cid .blocked = some freed ∧
      Core (some th.cid) (insert inTh ∅) freed ∧ freed.Belongs inTh .runQueue ∧ Frame s freed ∧
      ∀ g, freed.threads g = if g = gid then some { th with state := .blocked } else s.threads g := by
  subst isFreed
  have state : s.stateOf gid = some .running := (stateOf_eq isThread).trans (congrArg some runs)
  have nowhere := not_belongs state (.inr (.inl rfl))
  have other : inTh ≠ gid := by
    rintro rfl
    exact nowhere .runQueue waits
  have isThread' : (s.setQueue .runQueue ((s.queue .runQueue).erase inTh)).threads gid = some th := isThread
  have absent : ∀ q, gid ∉ (s.setQueue .runQueue ((s.queue .runQueue).erase inTh)).queue q :=
    taken.absent nowhere
  obtain ⟨descheds, freed⟩ := taken.deschedule isThread' (.inl runs) absent noHandoff (.inl rfl)
  refine ⟨descheds, freed.tighten (not_belongs (by rw [stateOf_vacate, if_pos rfl]) (.inr (.inr rfl))),
    ⟨?_, fun v => ?_⟩, (frame_setQueue ..).trans (frame_vacate _ gid th.cid th .blocked),
    threads_vacate .blocked⟩
  · rw [stateOf_vacate, if_neg other]
    exact waits.1
  · rw [(reads_vacate isThread' th.cid .blocked).1]
    exact waits.2 v

theorem Inv.leaveToOut (inv : Inv quantum s) (leaves : Leaves s gid th) (isAway : call.Away)
    (finishing : call.Finishing ↔ (s.calls gid).Finishing) (draws : Draws) :
    Yields quantum (s.leaveToOut draws gid th.cid th) fun next =>
      ∃ th', th'.state ≠ .sleeping ∧ Kept (s.setThread gid th') next ∧ Inv quantum (next.setCall gid call) := by
  obtain ⟨isThread, runs, inBar, noHandoff, noFake⟩ := leaves
  simp only [Scheduler.leaveToOut, Option.bind_eq_bind]
  rcases inv.core.schedContext th.cid with ⟨finds, unwanted⟩ | ⟨inTh, finds, core, waits⟩
  · rw [finds, Option.bind_some]
    dsimp only
    obtain ⟨pushes, core⟩ := inv.core.goOut isThread runs noHandoff unwanted
    have ok : ∀ b, ThreadOk b s.curPhase call { th with state := .out } := fun b =>
      .away isAway noHandoff (.inr (.inl rfl)) (fun contra => by cases contra) noFake
    rw [pushes, Option.bind_some]
    have frame := (frame_setThread s gid { th with state := .out }).trans
      (frame_setQueue _ .outQueue (s.queue .outQueue ++ [gid]))
    exact (inv.departs frame isThread inBar (fun g => threads_setThread s gid g { th with state := .out })
      rfl finishing ok core runs draws).imp fun _ after => ⟨{ th with state := .out }, by simp, after⟩
  · rw [finds, Option.bind_some]
    dsimp only
    have ok : ∀ b, ThreadOk b s.curPhase call { th with state := .blocked } := fun b =>
      .away isAway noHandoff (.inr (.inr (.inl rfl))) (fun contra => by cases contra) noFake
    obtain ⟨descheds, core', waits', frame, threads⟩ := core.giveUp isThread runs noHandoff waits rfl
    obtain ⟨next, run, inv'⟩ := inv.passOn frame isThread inBar threads rfl finishing ok core' waits' (by simp)
    rw [descheds, Option.bind_some]
    exact .inr ⟨next, run, { th with state := .blocked }, by simp, inv'⟩

/-- No assertion of `leave` fails, and the thread goes on outside, or at the end of `finish`. -/
theorem Inv.leave (inv : Inv quantum s) (leaves : Leaves s gid th) (isAway : call.Away)
    (finishing : call.Finishing ↔ (s.calls gid).Finishing) (draws : Draws) :
    Yields quantum (s.leave draws gid th.cid) fun next =>
      ∃ th', (th.markedForSleep = false → th'.state ≠ .sleeping) ∧ Kept (s.setThread gid th') next ∧
        Inv quantum (next.setCall gid call) := by
  have isThread := leaves.isThread
  have state : s.stateOf gid = some .running := (stateOf_eq isThread).trans (congrArg some leaves.runs)
  have isCur := inv.core.holds gid (.inl state)
  rw [cidOf_eq isThread] at isCur
  simp only [Scheduler.leave, Option.bind_eq_bind]
  rw [isThread, Option.bind_some, if_pos ⟨isCur, leaves.runs⟩]
  split
  case isTrue marked =>
    exact (inv.leaveToSleep leaves marked isAway finishing draws).imp fun _ ⟨th', after⟩ =>
      ⟨th', fun unmarked => absurd (marked.symm.trans unmarked) (by simp), after⟩
  case isFalse =>
    exact (inv.leaveToOut leaves isAway finishing draws).imp fun _ ⟨th', awake, after⟩ =>
      ⟨th', fun _ => awake, after⟩

end Zsim.Scheduler
