import Zsim.Scheduler.Calls
import Zsim.Scheduler.Placing

/-!
# From one critical section to the next

An operation changes the thread that calls it, and of the others only those that it takes a
context from or gives one to.  Before the barrier wakes anyone, `Inv` holds with the barrier that
the call leaves; waking the next threads, and ending the phase, keeps it.
-/

set_option autoImplicit false

namespace Zsim.Scheduler

variable {quantum : Nat} {s mid : Scheduler} {gid : Nat} {th : ThreadInfo}

theorem setCall_self (s : Scheduler) (gid : Nat) : s.setCall gid (s.calls gid) = s := by
  simp [setCall]

/-! ## The threads of others -/

/-- What an operation of another thread does to a thread. -/
inductive Touched (b : Barrier) : ThreadInfo → ThreadInfo → Prop
  | same (th : ThreadInfo) : Touched b th th
  | stolen (th : ThreadInfo) (isOut : th.state = .out) : Touched b th { th with state := .blocked }
  | granted (th : ThreadInfo) (cid : Nat) (queued : th.state = .queued)
      (inBar : b.stateOf cid = .running) : Touched b th (granted th cid)

theorem Touched.fakeLeave {b : Barrier} {th th' : ThreadInfo} (touched : Touched b th th') :
    th'.fakeLeave = th.fakeLeave := by
  cases touched <;> rfl

theorem Touched.mono {b b' : Barrier} {th th' : ThreadInfo} (touched : Touched b th th')
    (running : ∀ c, b.stateOf c = .running → b'.stateOf c = .running) : Touched b' th th' := by
  cases touched with
  | same => exact .same th
  | stolen isOut => exact .stolen th isOut
  | granted cid queued inBar => exact .granted th cid queued (running cid inBar)

theorem Touched.then_stolen {b : Barrier} {th th' : ThreadInfo} (touched : Touched b th th')
    (isOut : th'.state = .out) : Touched b th { th' with state := .blocked } := by
  cases touched with
  | same => exact .stolen th isOut
  | stolen => cases isOut
  | granted => cases isOut

/-- A QUEUED thread is in the futex wait of `waitForContext`. -/
theorem ThreadOk.queued {b : Barrier} {curPhase : Nat} {call : Call}
    (ok : ThreadOk b curPhase call th) (queued : th.state = .queued) :
    (∃ ofSync, call = .waitForContext ofSync) ∧ th.handoffThread = none ∧ th.futexWord = 1 ∧
      th.markedForSleep = false := by
  have stands := ok.stands
  cases call with
  | waitForContext ofSync =>
      obtain ⟨noHandoff, waits⟩ := stands
      rcases waits with ⟨-, isSet⟩ | ⟨runs, -⟩
      · exact ⟨⟨ofSync, rfl⟩, noHandoff, isSet, ok.awake ofSync rfl⟩
      · exact absurd (queued.symm.trans runs) (by simp)
  | outside => exact absurd queued stands.1
  | finishCheck => exact absurd queued stands.2
  | finishEnd => exact absurd queued stands.2
  | barJoin => exact absurd (queued.symm.trans stands.1) (by simp)
  | barSync => exact absurd (queued.symm.trans stands.1) (by simp)
  | handoff => exact absurd (queued.symm.trans stands.1) (by simp)
  | finishLeave => exact absurd (queued.symm.trans stands.1) (by simp)

/-- The calls in which a thread need not hold a context. -/
def Call.Away : Call → Prop
  | .outside | .finishCheck | .finishEnd => True
  | _ => False

theorem ThreadOk.away {b : Barrier} {curPhase : Nat} {call : Call} (isAway : call.Away)
    (noHandoff : th.handoffThread = none)
    (state : th.state = .started ∨ th.state = .out ∨ th.state = .blocked ∨ th.state = .sleeping)
    (sleeps : th.state = .sleeping → th.futexWord = 1 ∧ curPhase < th.wakeupPhase)
    (noFake : th.fakeLeave = false) : ThreadOk b curPhase call th := by
  have notRunning : th.state ≠ .running := by rcases state with h | h | h | h <;> simp [h]
  have notQueued : th.state ≠ .queued := by rcases state with h | h | h | h <;> simp [h]
  refine ⟨?_, ?_, ?_, fun fake => ?_⟩
  · cases call with
    | outside => exact ⟨notQueued, noHandoff, fun runs => absurd runs notRunning⟩
    | finishCheck => exact ⟨notRunning, notQueued⟩
    | finishEnd => exact ⟨notRunning, notQueued⟩
    | barJoin | barSync | handoff | waitForContext | finishLeave => cases isAway
  · rintro (isSleeping | ⟨runs, -⟩)
    · exact sleeps isSleeping
    · exact absurd runs notRunning
  · intro ofSync isCall
    rw [isCall] at isAway
    cases isAway
  · rw [noFake] at fake
    cases fake

theorem ThreadOk.plain {b : Barrier} {curPhase : Nat} {call : Call} (stands : Stands b call th)
    (awake : th.state ≠ .sleeping) (unmarked : th.markedForSleep = false)
    (noFake : th.fakeLeave = false) : ThreadOk b curPhase call th := by
  refine ⟨stands, ?_, fun _ _ => unmarked, fun fake => ?_⟩
  · rintro (isSleeping | ⟨-, marked⟩)
    · exact absurd isSleeping awake
    · exact absurd (marked.symm.trans unmarked) (by simp)
  · exact absurd (fake.symm.trans noFake) (by simp)

theorem ThreadOk.noFake {b : Barrier} {curPhase : Nat} {call : Call} (ok : ThreadOk b curPhase call th)
    (inside : call ≠ .outside) : th.fakeLeave = false := by
  cases fake : th.fakeLeave with
  | false => rfl
  | true => exact absurd (ok.fake fake).2 inside

theorem ThreadOk.isAway {b : Barrier} {curPhase : Nat} {call : Call}
    (ok : ThreadOk b curPhase call th) (notRunning : th.state ≠ .running)
    (notQueued : th.state ≠ .queued) : call.Away ∧ th.fakeLeave = false := by
  have stands := ok.stands
  refine ⟨?_, ?_⟩
  · cases call with
    | outside => trivial
    | finishCheck => trivial
    | finishEnd => trivial
    | waitForContext =>
        rcases stands.2 with ⟨queued, -⟩ | ⟨runs, -⟩
        · exact absurd queued notQueued
        · exact absurd runs notRunning
    | barJoin | barSync | handoff | finishLeave => exact absurd stands.1 notRunning
  · cases fake : th.fakeLeave with
    | false => rfl
    | true => exact absurd (ok.fake fake).1 notRunning

theorem ThreadOk.touched {b b' : Barrier} {curPhase : Nat} {call : Call} {th' : ThreadInfo}
    (ok : ThreadOk b curPhase call th) (touched : Touched b' th th')
    (noHandoff : th.state ≠ .running → th.handoffThread = none)
    (carries : th.state = .running → Carries b b' th.cid) : ThreadOk b' curPhase call th' := by
  cases touched with
  | same => exact ok.carry carries
  | stolen isOut =>
      have notRunning : th.state ≠ .running := by simp [isOut]
      obtain ⟨isAway, noFake⟩ := ok.isAway notRunning (by simp [isOut])
      exact .away isAway (noHandoff notRunning) (.inr (.inr (.inl rfl)))
        (fun isSleeping => by cases isSleeping) noFake
  | granted cid queued inBar =>
      obtain ⟨⟨ofSync, isCall⟩, noHandoff, -, unmarked⟩ := ok.queued queued
      rw [isCall]
      refine ⟨⟨noHandoff, .inr ⟨rfl, rfl, rfl, inBar⟩⟩, ?_, fun _ _ => unmarked, fun fake => ?_⟩
      · rintro (isSleeping | ⟨-, marked⟩)
        · cases isSleeping
        · exact absurd (marked.symm.trans unmarked) (by simp)
      · exact absurd (queued.symm.trans (ok.fake fake).1) (by simp)

/-- A thread goes OUT or to sleep, and gives its context up, only in a call of its own. -/
structure Follows (th th' : ThreadInfo) : Prop where
  isOut : th'.state = .out → th.state = .out
  sleeps : th'.state = .sleeping → th.state = .sleeping
  runs : th.state = .running →
    th'.state = .running ∧ th'.futexWord = th.futexWord ∧ th'.needsJoin = th.needsJoin

theorem Follows.refl (th : ThreadInfo) : Follows th th := ⟨id, id, fun runs => ⟨runs, rfl, rfl⟩⟩

theorem Ticked.follows {th th' : ThreadInfo} (ticked : Ticked th th') : Follows th th' := by
  rcases ticked with same | ⟨-, dst, isChosen⟩ | ⟨isSleeping, isAwake⟩
  · subst same
    exact .refl th'
  · subst isChosen
    exact ⟨id, id, fun runs => ⟨runs, rfl, rfl⟩⟩
  · subst isAwake
    exact ⟨by simp [awakened], by simp [awakened], fun runs => absurd (runs.symm.trans isSleeping) (by simp)⟩

structure Kept (s next : Scheduler) : Prop where
  calls : next.calls = s.calls
  gidMap : next.gidMap = s.gidMap
  threads : ∀ g, Option.Rel Follows (s.threads g) (next.threads g)

theorem rel_follows (x : Option ThreadInfo) : Option.Rel Follows x x := by
  cases x with
  | none => exact .none
  | some th => exact .some (.refl th)

theorem Kept.congr {next : Scheduler} (kept : Kept mid next) (calls : mid.calls = s.calls)
    (gidMap : mid.gidMap = s.gidMap) (threads : ∀ g, mid.threads g = s.threads g) : Kept s next :=
  ⟨kept.calls.trans calls, kept.gidMap.trans gidMap, fun g => threads g ▸ kept.threads g⟩

/-! ## The books -/

theorem Books.key (books : Books s) (isThread : s.threads gid = some th) (outside : s.calls gid = .outside) :
    gid ∈ s.gidMap :=
  (books.keys gid).mpr ⟨by rw [isThread]; rfl, by rw [outside]; exact id⟩

theorem Books.fake_iff (books : Books s) (isThread : s.threads gid = some th) :
    gid ∈ s.fakeLeaves ↔ th.fakeLeave = true := by
  rw [books.fakes]
  constructor
  · rintro ⟨x, isX, fake⟩
    cases Option.some.inj (isX.symm.trans isThread)
    exact fake
  · exact fun fake => ⟨th, isThread, fake⟩

theorem Books.congr (books : Books s) {next : Scheduler} (gidMap : next.gidMap = s.gidMap)
    (fakeLeaves : next.fakeLeaves = s.fakeLeaves)
    (threads : ∀ g, Option.Rel (fun th th' => th'.fakeLeave = th.fakeLeave) (s.threads g) (next.threads g))
    (calls : ∀ g, ((next.calls g).Finishing ↔ (s.calls g).Finishing) ∧
      (s.threads g = none → next.calls g = s.calls g)) : Books next := by
  have isSome : ∀ g, (next.threads g).isSome = (s.threads g).isSome := by
    intro g
    have related := threads g
    revert related
    cases s.threads g <;> cases next.threads g <;> intro related <;> cases related <;> rfl
  refine ⟨fun g isNone => ?_, gidMap ▸ books.keysOnce, fun g => ?_, fakeLeaves ▸ books.fakesOnce, fun g => ?_⟩
  · have before : s.threads g = none := by
      rw [← Option.not_isSome_iff_eq_none, ← isSome, isNone]
      simp
    exact ((calls g).2 before).trans (books.absent g before)
  · rw [gidMap, books.keys, isSome, (calls g).1]
  · rw [fakeLeaves, books.fakes]
    have related := threads g
    cases before : s.threads g with
    | none =>
        rw [before] at related
        cases after : next.threads g with
        | none => simp
        | some th' =>
            rw [after] at related
            cases related
    | some th =>
        rw [before] at related
        cases after : next.threads g with
        | none =>
            rw [after] at related
            cases related
        | some th' =>
            rw [after] at related
            cases related with
            | some fake => simp [fake]

/-! ## A change of threads, contexts and lists -/

theorem Inv.holder (inv : Inv quantum s) {c : Nat} (isHere : s.bar.Here c) :
    ∃ g th, s.threads g = some th ∧ th.state = .running ∧ th.cid = c := by
  obtain ⟨g, isCur, state⟩ := inv.here c isHere
  obtain ⟨th, isThread, runs⟩ := Option.map_eq_some_iff.mp state
  have isCid := (inv.core.held c g isCur).2
  rw [cidOf_eq isThread] at isCid
  exact ⟨g, th, isThread, runs, isCid⟩

theorem Core.cid_inj {hole : Option Nat} {loose : Set Nat} (core : Core hole loose s) {g g' : Nat}
    {x x' : ThreadInfo} (isThread : s.threads g = some x) (isThread' : s.threads g' = some x')
    (holding : s.Holding g) (holding' : s.Holding g') (same : x.cid = x'.cid) : g = g' := by
  have first := core.holds g holding
  have second := core.holds g' holding'
  rw [cidOf_eq isThread, same, ← cidOf_eq isThread', second] at first
  exact (Option.some.inj first).symm

/-- What an operation of `gid` may do to the other threads. -/
def OthersTouched (b : Barrier) (gid : Nat) (s mid : Scheduler) : Prop :=
  ∀ g, g ≠ gid → Option.Rel (Touched b) (s.threads g) (mid.threads g)

theorem calls_setCall (s : Scheduler) (gid : Nat) (call : Call) (g : Nat) :
    (s.setCall gid call).calls g = if g = gid then call else s.calls g := by
  unfold setCall
  by_cases same : g = gid
  · simp [same]
  · simp [same]

theorem Inv.rebook (inv : Inv quantum s) {b : Barrier} {call : Call} {th' : ThreadInfo}
    (schedQuantum : mid.schedQuantum = s.schedQuantum) (numCores : mid.numCores = s.numCores)
    (curPhase : mid.curPhase = s.curPhase) (calls : mid.calls = s.calls) (core : Core none ∅ mid)
    (bar : Barrier.Inv b)
    (others : OthersTouched b gid s mid)
    (carries : ∀ g x, g ≠ gid → s.threads g = some x → x.state = .running → Carries s.bar b x.cid)
    (isThread' : mid.threads gid = some th') (ok : ThreadOk b s.curPhase call th')
    (here : ∀ c, b.Here c → ∃ g x, mid.threads g = some x ∧ x.state = .running ∧ x.cid = c)
    (books : Books (mid.setCall gid call)) : Inv quantum ((mid.setCall gid call).setBar b) := by
  refine ⟨schedQuantum.trans inv.schedQuantum, core.congr rfl rfl rfl rfl rfl rfl, bar,
    (numCores ▸ inv.cores :), fun c isHere => ?_,
    fun g x' isX' => ?_, ⟨books.absent, books.keysOnce, books.keys, books.fakesOnce, books.fakes⟩⟩
  · obtain ⟨g, x, isX, runs, isCid⟩ := here c isHere
    have state : mid.stateOf g = some .running := (stateOf_eq isX).trans (congrArg some runs)
    have holds := core.holds g (.inl state)
    rw [cidOf_eq isX, isCid] at holds
    exact ⟨g, holds, state⟩
  · change ThreadOk b mid.curPhase ((mid.setCall gid call).calls g) x'
    change mid.threads g = some x' at isX'
    rw [calls_setCall, calls, curPhase]
    by_cases same : g = gid
    · rw [same] at isX'
      cases Option.some.inj (isX'.symm.trans isThread')
      rw [if_pos same]
      exact ok
    · rw [if_neg same]
      have related := others g same
      rw [isX'] at related
      cases before : s.threads g with
      | none =>
          rw [before] at related
          cases related
      | some x =>
          rw [before] at related
          cases related with
          | some touched =>
              exact (inv.threads g x before).touched touched (inv.core.noHandoff before)
                (carries g x same before)

theorem Inv.change (inv : Inv quantum s) {b : Barrier} {call : Call} {th' : ThreadInfo} (frame : Frame s mid)
    (core : Core none ∅ mid) (bar : Barrier.Inv b) (others : OthersTouched b gid s mid)
    (carries : ∀ g x, g ≠ gid → s.threads g = some x → x.state = .running → Carries s.bar b x.cid)
    (isThread : s.threads gid = some th) (isThread' : mid.threads gid = some th')
    (fake : th'.fakeLeave = th.fakeLeave) (finishing : call.Finishing ↔ (s.calls gid).Finishing)
    (ok : ThreadOk b s.curPhase call th')
    (here : ∀ c, b.Here c → ∃ g x, mid.threads g = some x ∧ x.state = .running ∧ x.cid = c) :
    Inv quantum ((mid.setCall gid call).setBar b) := by
  apply inv.rebook frame.schedQuantum frame.numCores frame.curPhase frame.calls core bar others carries
    isThread' ok here
  refine inv.books.congr frame.gidMap frame.fakeLeaves (fun g => ?_) fun g => ?_
  · change Option.Rel _ (s.threads g) (mid.threads g)
    by_cases same : g = gid
    · rw [same, isThread, isThread']
      exact .some fake
    · have related := others g same
      revert related
      cases s.threads g <;> cases mid.threads g <;> intro related <;> cases related
      · exact .none
      · exact .some (Touched.fakeLeave ‹_›)
  · rw [calls_setCall, frame.calls]
    by_cases same : g = gid
    · rw [if_pos same, same]
      refine ⟨finishing, fun isNone => ?_⟩
      cases isNone.symm.trans isThread
    · rw [if_neg same]
      exact ⟨Iff.rfl, fun _ => rfl⟩

/-! ## Waking the next threads -/

theorem PhaseEnded.kept {s' : Scheduler} (ended : PhaseEnded s s') : Kept s s' := by
  refine ⟨ended.quiet.calls, ended.quiet.gidMap, fun g => ?_⟩
  cases before : s.threads g with
  | none =>
      cases after : s'.threads g with
      | none => exact .none
      | some th' =>
          obtain ⟨th, isThread, -⟩ := ended.before g th' after
          cases before.symm.trans isThread
  | some th =>
      obtain ⟨th', isThread', ticked⟩ := ended.after g th before
      rw [isThread']
      exact .some ticked.follows

/-- A new phase with the barrier of the new phase. -/
theorem Inv.phaseEnds {b b' : Barrier} {calls : Nat → Call} {s' : Scheduler}
    (inv : Inv quantum { s with bar := b, calls := calls }) (ended : PhaseEnded s s') (bar : Barrier.Inv b')
    (noneDue : ∀ c, ¬ b.Due c) (fresh : ∀ c, b.Here c → b'.Due c) (back : ∀ c, b'.Here c → b.Here c) :
    Inv quantum { s' with bar := b', calls := calls } := by
  refine ⟨ended.quiet.schedQuantum.trans inv.schedQuantum, ended.core.congr rfl rfl rfl rfl rfl rfl, bar,
    (ended.quiet.numCores ▸ inv.cores :),
    fun c isHere => ?_, fun g th' isThread' => ?_, ?_⟩
  · obtain ⟨g, isCur, state⟩ := inv.here c (back c isHere)
    obtain ⟨th, isThread, runs⟩ := Option.map_eq_some_iff.mp state
    obtain ⟨th', isThread', ticked⟩ := ended.after g th isThread
    refine ⟨g, (congrArg (fun ctx => (ctx c).curThread) ended.quiet.contexts).trans isCur, ?_⟩
    apply (stateOf_eq isThread').trans
    rcases ticked with same | ⟨-, dst, isChosen⟩ | ⟨sleeps, -⟩
    · rw [same, runs]
    · rw [isChosen]
      exact congrArg some runs
    · exact absurd (runs.symm.trans sleeps) (by simp)
  · obtain ⟨th, isThread, ticked⟩ := ended.before g th' isThread'
    change ThreadOk b' s'.curPhase (calls g) th'
    rw [ended.phase]
    apply (inv.threads g th isThread).ticked ticked (noneDue th.cid) (fresh th.cid)
    intro isSleeping
    rw [← ended.phase]
    exact ended.sleepers g th' isThread' isSleeping
  · refine inv.books.congr ended.quiet.gidMap ended.quiet.fakeLeaves ?_ ?_
    · intro g
      change Option.Rel _ (s.threads g) (s'.threads g)
      cases before : s.threads g with
      | none =>
          cases after : s'.threads g with
          | none => exact .none
          | some th' =>
              obtain ⟨th, isThread, -⟩ := ended.before g th' after
              cases before.symm.trans isThread
      | some th =>
          obtain ⟨th', isThread', ticked⟩ := ended.after g th before
          rw [isThread']
          apply Option.Rel.some
          rcases ticked with same | ⟨-, dst, isChosen⟩ | ⟨-, isAwake⟩
          · rw [same]
          · rw [isChosen]
          · rw [isAwake]
            rfl
    · exact fun g => ⟨Iff.rfl, fun _ => rfl⟩

theorem Inv.tryWake {b : Barrier} {calls : Nat → Call} (inv : Inv quantum { s with bar := b, calls := calls })
    (draws : Draws) :
    Yields quantum (b.tryWakeNext (callback draws.sched) draws.bar s) fun result =>
      Kept s result.2.1 ∧ Inv quantum { result.2.1 with bar := result.1, calls := calls } := by
  have core : Core none ∅ s := inv.core.congr rfl rfl rfl rfl rfl rfl
  obtain ⟨ended, final, turns, events, run⟩ := Barrier.Inv.tryWakeNext inv.bar draws.bar
  rw [run]
  cases ended with
  | false =>
      refine .inr ⟨(final, s, events), rfl, ⟨rfl, rfl, fun g => rel_follows (s.threads g)⟩, inv.schedQuantum,
        core.congr rfl rfl rfl rfl rfl rfl, turns.inv, inv.cores,
        fun c isHere => inv.here c ((turns.here c).mp isHere), fun g th isThread => ?_,
        inv.books.congr rfl rfl (fun g => ?_) fun g => ⟨Iff.rfl, fun _ => rfl⟩⟩
      · exact (inv.threads g th isThread).carry fun _ =>
          ⟨(turns.here th.cid).mpr, fun due => (turns.due th.cid due).2,
            fun runs => (turns.running th.cid runs).2⟩
      · change Option.Rel _ (s.threads g) (s.threads g)
        cases s.threads g with
        | none => exact .none
        | some th => exact .some rfl
  | true =>
      have noneDue : ∀ c, ¬ b.Due c := by
        intro c due
        cases (turns.due c due).1
      have unchosen : Unchosen s := by
        intro g th isThread runs
        exact (((inv.threads g th isThread).stands.due runs).resolve_left (noneDue th.cid)).2.1
      have sleeps : ∀ g th, s.threads g = some th → th.state = .sleeping →
          th.futexWord = 1 ∧ s.curPhase < th.wakeupPhase := fun g th isThread isSleeping =>
        (inv.threads g th isThread).sleeps (.inl isSleeping)
      have called := core.callback unchosen sleeps draws.sched
      have isQuantum : s.schedQuantum = quantum := inv.schedQuantum
      rw [isQuantum] at called
      rw [if_pos rfl]
      apply called.map
      intro s' phaseEnded
      exact ⟨phaseEnded.kept,
        inv.phaseEnds phaseEnded turns.inv noneDue (turns.fresh rfl) fun c => (turns.here c).mp⟩

/-- `bar.join` with the barrier in which the thread has joined. -/
theorem Inv.barJoin {b : Barrier} {cid : Nat} (inv : Inv quantum (s.setBar b)) (draws : Draws)
    (joins : ∀ {σ : Type} (callback : σ → Option σ) (rand : Nat → Nat) (t : σ),
      s.bar.join callback rand cid t = b.tryWakeNext callback rand t) :
    Yields quantum (s.barJoin draws cid) (Inv quantum) := by
  unfold Scheduler.barJoin
  rw [joins]
  have inv' : Inv quantum { s with bar := b, calls := s.calls } := inv
  apply (inv'.tryWake draws).map
  rintro ⟨bar, s', events⟩ ⟨kept, woken⟩
  rw [← kept.calls] at woken
  exact woken

theorem Inv.barSync {b : Barrier} {cid : Nat} (inv : Inv quantum (s.setBar b)) (draws : Draws)
    (syncs : ∀ {σ : Type} (callback : σ → Option σ) (rand : Nat → Nat) (t : σ),
      s.bar.sync callback rand cid t = b.tryWakeNext callback rand t) :
    Yields quantum (s.barSync draws cid) (Inv quantum) := by
  unfold Scheduler.barSync
  rw [syncs]
  have inv' : Inv quantum { s with bar := b, calls := s.calls } := inv
  apply (inv'.tryWake draws).map
  rintro ⟨bar, s', events⟩ ⟨kept, woken⟩
  rw [← kept.calls] at woken
  exact woken

/-- `bar.leave`, from which the thread goes on to its next place. -/
theorem Inv.barLeave {b : Barrier} {cid : Nat} {call : Call} (inv : Inv quantum ((s.setCall gid call).setBar b))
    (draws : Draws) (leaves : ∀ {σ : Type} (callback : σ → Option σ) (rand : Nat → Nat) (t : σ),
      s.bar.leave callback rand cid t = b.tryWakeNext callback rand t) :
    Yields quantum (s.barLeave draws cid) fun next => Kept s next ∧ Inv quantum (next.setCall gid call) := by
  unfold Scheduler.barLeave
  rw [leaves]
  have inv' : Inv quantum { s with bar := b, calls := Function.update s.calls gid call } := inv
  apply (inv'.tryWake draws).map
  rintro ⟨bar, s', events⟩ ⟨kept, woken⟩
  refine ⟨⟨kept.calls, kept.gidMap, kept.threads⟩, ?_⟩
  rw [← kept.calls] at woken
  exact woken

end Zsim.Scheduler
