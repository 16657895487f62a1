import Zsim.Scheduler.Callback

/-!
# Where the threads stand

`Inv` is what holds between two critical sections.  It says what a thread's place in its call
has to do with its state and with the state that the barrier keeps for its context: in
particular, a victim of `schedTick` has its turn in the barrier, and hands its context over,
before the next phase ends.
-/

set_option autoImplicit false

namespace Zsim.Scheduler

/-- `finish` has taken the thread out of `gidMap`. -/
def Call.Finishing : Call → Prop
  | .finishLeave _ | .finishCheck | .finishEnd => True
  | _ => False

/-- A thread at a place in its call. -/
def Stands (bar : Barrier) : Call → ThreadInfo → Prop
  | .outside, th => th.state ≠ .queued ∧ th.handoffThread = none ∧
      (th.state = .running → bar.stateOf th.cid = .running)
  | .barJoin cid _, th => th.state = .running ∧ th.cid = cid ∧ bar.Due cid ∧
      th.handoffThread = none ∧ th.markedForSleep = false
  | .barSync cid, th => th.state = .running ∧ th.cid = cid ∧ bar.Here cid ∧
      (th.handoffThread ≠ none → bar.Due cid) ∧ th.markedForSleep = false
  | .handoff, th => th.state = .running ∧ bar.stateOf th.cid = .running ∧ th.handoffThread ≠ none ∧
      th.markedForSleep = false
  | .waitForContext _, th => th.handoffThread = none ∧ (th.state = .queued ∧ th.futexWord = 1 ∨
      th.state = .running ∧ th.futexWord = 0 ∧ th.needsJoin = false ∧ bar.stateOf th.cid = .running)
  | .finishLeave _, th => th.state = .running ∧ bar.stateOf th.cid = .running ∧
      th.handoffThread = none
  | .finishCheck, th => th.state ≠ .running ∧ th.state ≠ .queued
  | .finishEnd, th => th.state ≠ .running ∧ th.state ≠ .queued

structure ThreadOk (bar : Barrier) (curPhase : Nat) (call : Call) (th : ThreadInfo) : Prop where
  stands : Stands bar call th
  /-- the deadline of a thread that sleeps or is about to -/
  sleeps : th.state = .sleeping ∨ th.state = .running ∧ th.markedForSleep = true →
    th.futexWord = 1 ∧ curPhase < th.wakeupPhase
  awake : ∀ ofSync, call = .waitForContext ofSync → th.markedForSleep = false
  fake : th.fakeLeave = true → th.state = .running ∧ call = .outside

/-- The threads that `gidMap` and `fakeLeaves` list. -/
structure Books (s : Scheduler) : Prop where
  absent : ∀ g, s.threads g = none → s.calls g = .outside
  keysOnce : s.gidMap.Nodup
  keys : ∀ g, g ∈ s.gidMap ↔ (s.threads g).isSome = true ∧ ¬ (s.calls g).Finishing
  fakesOnce : s.fakeLeaves.Nodup
  fakes : ∀ g, g ∈ s.fakeLeaves ↔ ∃ th, s.threads g = some th ∧ th.fakeLeave = true

structure Inv (quantum : Nat) (s : Scheduler) : Prop where
  schedQuantum : s.schedQuantum = quantum
  core : Core none ∅ s
  bar : Barrier.Inv s.bar
  cores : s.numCores ≤ maxThreads
  here : ∀ c, s.bar.Here c → ∃ g, (s.contexts c).curThread = some g ∧ s.stateOf g = some .running
  threads : ∀ g th, s.threads g = some th → ThreadOk s.bar s.curPhase (s.calls g) th
  books : Books s

/-! ## Another barrier -/

/-- Who holds a context in one barrier and in the other. -/
def Carries (b b' : Barrier) (cid : Nat) : Prop :=
  (b.Here cid → b'.Here cid) ∧ (b.Due cid → b'.Due cid) ∧
    (b.stateOf cid = .running → b'.stateOf cid = .running)

theorem Stands.carry {b b' : Barrier} {call : Call} {th : ThreadInfo} (stands : Stands b call th)
    (carries : th.state = .running → Carries b b' th.cid) : Stands b' call th := by
  cases call with
  | outside => exact ⟨stands.1, stands.2.1, fun runs => (carries runs).2.2 (stands.2.2 runs)⟩
  | barJoin cid ofSync =>
      obtain ⟨runs, isCid, due, rest⟩ := stands
      exact ⟨runs, isCid, isCid ▸ (carries runs).2.1 (isCid ▸ due), rest⟩
  | barSync cid =>
      obtain ⟨runs, isCid, isHere, due, marked⟩ := stands
      exact ⟨runs, isCid, isCid ▸ (carries runs).1 (isCid ▸ isHere),
        fun handoff => isCid ▸ (carries runs).2.1 (isCid ▸ due handoff), marked⟩
  | handoff => exact ⟨stands.1, (carries stands.1).2.2 stands.2.1, stands.2.2⟩
  | waitForContext ofSync =>
      refine stands.imp_right (Or.imp_right fun waits => ?_)
      obtain ⟨runs, word, needsJoin, inBar⟩ := waits
      exact ⟨runs, word, needsJoin, (carries runs).2.2 inBar⟩
  | finishLeave suppressed => exact ⟨stands.1, (carries stands.1).2.2 stands.2.1, stands.2.2⟩
  | finishCheck => exact stands
  | finishEnd => exact stands

theorem ThreadOk.carry {b b' : Barrier} {curPhase : Nat} {call : Call} {th : ThreadInfo}
    (ok : ThreadOk b curPhase call th) (carries : th.state = .running → Carries b b' th.cid) :
    ThreadOk b' curPhase call th :=
  ⟨ok.stands.carry carries, ok.sleeps, ok.awake, ok.fake⟩

theorem Stands.isHere {b : Barrier} {call : Call} {th : ThreadInfo} (stands : Stands b call th)
    (runs : th.state = .running) : b.Here th.cid := by
  cases call with
  | outside => exact .inr (stands.2.2 runs)
  | barJoin cid ofSync => exact stands.2.1 ▸ stands.2.2.1.here
  | barSync cid => exact stands.2.1 ▸ stands.2.2.1
  | handoff => exact .inr stands.2.1
  | waitForContext ofSync =>
      rcases stands.2 with ⟨waits, -⟩ | ⟨-, -, -, inBar⟩
      · exact absurd (runs.symm.trans waits) (by simp)
      · exact .inr inBar
  | finishLeave suppressed => exact .inr stands.2.1
  | finishCheck => exact absurd runs stands.1
  | finishEnd => exact absurd runs stands.1

/-- Outside `bar.sync`, and with a handoff to make, a running thread has its turn. -/
theorem Stands.due {b : Barrier} {call : Call} {th : ThreadInfo} (stands : Stands b call th)
    (runs : th.state = .running) :
    b.Due th.cid ∨ call = .barSync th.cid ∧ th.handoffThread = none ∧ th.markedForSleep = false := by
  cases call with
  | outside => exact .inl (.inl (stands.2.2 runs))
  | barJoin cid ofSync => exact .inl (stands.2.1 ▸ stands.2.2.1)
  | barSync cid =>
      obtain ⟨-, isCid, -, due, marked⟩ := stands
      cases handoff : th.handoffThread with
      | none => exact .inr ⟨by rw [isCid], rfl, marked⟩
      | some dst => exact .inl (isCid ▸ due (by simp [handoff]))
  | handoff => exact .inl (.inl stands.2.1)
  | waitForContext ofSync =>
      rcases stands.2 with ⟨waits, -⟩ | ⟨-, -, -, inBar⟩
      · exact absurd (runs.symm.trans waits) (by simp)
      · exact .inl (.inl inBar)
  | finishLeave suppressed => exact .inl (.inl stands.2.1)
  | finishCheck => exact absurd runs stands.1
  | finishEnd => exact absurd runs stands.1

/-! ## Ending a phase -/

theorem ThreadOk.ticked {b b' : Barrier} {curPhase : Nat} {call : Call} {th th' : ThreadInfo}
    (ok : ThreadOk b curPhase call th) (ticked : Ticked th th')
    (noneDue : ¬ b.Due th.cid) (fresh : b.Here th.cid → b'.Due th.cid)
    (sleepers : th'.state = .sleeping → th'.futexWord = 1 ∧ curPhase + 1 < th'.wakeupPhase) :
    ThreadOk b' (curPhase + 1) call th' := by
  -- a running thread waits in `bar.sync`, unmarked
  have inSync : th.state = .running →
      call = .barSync th.cid ∧ th.handoffThread = none ∧ th.markedForSleep = false := fun runs =>
    (ok.stands.due runs).resolve_left noneDue
  rcases ticked with same | ⟨runs, dst, isChosen⟩ | ⟨isSleeping, isAwake⟩
  · subst same
    refine ⟨?_, ?_, ok.awake, ok.fake⟩
    · by_cases runs : th'.state = .running
      · obtain ⟨isSync, noHandoff, marked⟩ := inSync runs
        have due := fresh (ok.stands.isHere runs)
        rw [isSync]
        exact ⟨runs, rfl, due.here, fun _ => due, marked⟩
      · exact ok.stands.carry fun runs' => absurd runs' runs
    · rintro (isSleeping | ⟨runs, marked⟩)
      · exact sleepers isSleeping
      · exact absurd (marked.symm.trans (inSync runs).2.2) (by simp)
  · subst isChosen
    obtain ⟨isSync, noHandoff, marked⟩ := inSync runs
    have due := fresh (ok.stands.isHere runs)
    rw [isSync]
    refine ⟨⟨runs, rfl, due.here, fun _ => due, marked⟩, ?_, (fun _ contra => by cases contra), fun fake => ?_⟩
    · rintro (isSleeping | ⟨-, isMarked⟩)
      · exact absurd (runs.symm.trans isSleeping) (by simp)
      · exact absurd (isMarked.symm.trans marked) (by simp)
    · rw [(ok.fake fake).2] at isSync
      cases isSync
  · subst isAwake
    refine ⟨?_, ?_, ?_, fun fake => ?_⟩
    · have stands := ok.stands
      cases call with
      | outside => exact ⟨by simp [awakened], stands.2.1, by simp [awakened]⟩
      | finishCheck => exact ⟨by simp [awakened], by simp [awakened]⟩
      | finishEnd => exact ⟨by simp [awakened], by simp [awakened]⟩
      | waitForContext ofSync =>
          rcases stands.2 with ⟨waits, -⟩ | ⟨runs, -⟩
          · exact absurd (isSleeping.symm.trans waits) (by simp)
          · exact absurd (isSleeping.symm.trans runs) (by simp)
      | barJoin | barSync | handoff | finishLeave =>
          exact absurd (isSleeping.symm.trans stands.1) (by simp)
    · simp [awakened]
    · exact ok.awake
    · exact absurd (isSleeping.symm.trans (ok.fake fake).1) (by simp)

end Zsim.Scheduler
