import Zsim.Barrier.Runs
import Zsim.Scheduler.Finishing

/-!
# Finishing another thread

`processCleanup` calls `finish` for threads that have stopped anywhere, in the barrier, on a list
or in a handoff.  `Removable` says of a thread that it stands where `finish` can be applied to it
from outside.
-/

set_option autoImplicit false

namespace Zsim.Scheduler

/-- The next critical section of a `finish` that is under way. -/
def finishNext (s : Scheduler) (gid : Nat) (draws : Draws) : Option Scheduler :=
  match s.calls gid with
  | .finishLeave suppressed => s.finishLeave draws gid suppressed
  | .finishCheck => s.finishCheck gid
  | .finishEnd => s.finishEnd gid
  | _ => some s

/-- `finish` from its beginning to its end, by another thread.  It has five critical sections at
most: the first one, the suppressed `leave`, the check for RUNNING, the other `leave` and the end. -/
def finishFor (draws : Nat → Draws) (s : Scheduler) (gid : Nat) : Option Scheduler := do
  let first ← s.finish gid
  let second ← first.finishNext gid (draws 0)
  let third ← second.finishNext gid (draws 1)
  let fourth ← third.finishNext gid (draws 2)
  fourth.finishNext gid (draws 3)

def SlotCurrent (bar : Barrier) (cid : Nat) : Prop :=
  bar.lastIdxOf cid < bar.runListSize ∧ bar.runList (bar.lastIdxOf cid) = cid

/-- A thread that `finish` can be applied to from outside. -/
structure Removable (s : Scheduler) (gid : Nat) (th : ThreadInfo) : Prop where
  /-- it has not been chosen as the target of a handoff -/
  listed : th.state = .queued → gid ∈ s.queue .runQueue
  noHandoff : th.handoffThread = none
  unmarked : th.state = .running ∨ th.state = .sleeping → th.markedForSleep = false
  /-- a `leave` that the barrier sees as one of a waiting thread -/
  waiting : th.state = .running → s.bar.stateOf th.cid = .waiting →
    SlotCurrent s.bar th.cid ∧ ∀ g ∈ s.queue .runQueue, s.maskOf g th.cid = false

variable {quantum : Nat} {s next : Scheduler} {gid : Nat} {th : ThreadInfo}

/-! ## The other threads -/

theorem Follows.trans {a b c : ThreadInfo} (first : Follows a b) (second : Follows b c) : Follows a c :=
  ⟨fun isOut => first.isOut (second.isOut isOut),
    fun sleeps => first.sleeps (second.sleeps sleeps), fun runs => by
    obtain ⟨runs', word, needsJoin⟩ := first.runs runs
    obtain ⟨runs'', word', needsJoin'⟩ := second.runs runs'
    exact ⟨runs'', word'.trans word, needsJoin'.trans needsJoin⟩⟩

theorem rel_follows_trans {a b c : Option ThreadInfo} (first : Option.Rel Follows a b)
    (second : Option.Rel Follows b c) : Option.Rel Follows a c := by
  cases first with
  | none => exact second
  | some ab =>
      cases second with
      | some bc => exact .some (ab.trans bc)

structure Beside (gid : Nat) (s next : Scheduler) : Prop where
  calls : ∀ g, g ≠ gid → next.calls g = s.calls g
  threads : ∀ g, g ≠ gid → Option.Rel Follows (s.threads g) (next.threads g)

theorem Beside.trans {mid : Scheduler} (first : Beside gid s mid) (second : Beside gid mid next) :
    Beside gid s next :=
  ⟨fun g ne => (second.calls g ne).trans (first.calls g ne),
    fun g ne => rel_follows_trans (first.threads g ne) (second.threads g ne)⟩

theorem Gone.beside (gone : Gone gid s next) : Beside gid s next :=
  ⟨gone.calls, fun g ne => gone.threads g ne ▸ rel_follows (s.threads g)⟩

theorem LeftFinish.beside {suppressed : Bool} (left : LeftFinish gid th suppressed s next) : Beside gid s next :=
  ⟨fun g ne => (congrFun left.calls g).trans (Function.update_of_ne ne _ _), left.others⟩

structure Removed (gid : Nat) (s next : Scheduler) : Prop extends Beside gid s next where
  gone : next.threads gid = none
  gidMap : next.gidMap = s.gidMap.erase gid

/-! ## Leaving for another thread -/

theorem schedContext_none {cid : Nat} (unwanted : ∀ g ∈ s.queue .runQueue, s.maskOf g cid = false) :
    s.schedContext cid = some (s, none) := by
  have noneFound : (s.queue .runQueue).find? (fun g => s.maskOf g cid) = none :=
    List.find?_eq_none.mpr fun g waits => by simp [unwanted g waits]
  rw [schedContext, noneFound]

theorem barLeave_waiting {cid : Nat} (waits : s.bar.stateOf cid = .waiting) (draws : Draws) :
    s.barLeave draws cid = some (s.setBar (s.bar.departed cid)) := by
  rw [barLeave, Barrier.leave_of_waiting waits]
  rfl

def wentOut (s : Scheduler) (gid : Nat) (th : ThreadInfo) : Scheduler :=
  (s.setThread gid { th with state := .out }).setQueue .outQueue (s.queue .outQueue ++ [gid])

theorem threads_wentOut (g : Nat) :
    (s.wentOut gid th).threads g = if g = gid then some { th with state := .out } else s.threads g :=
  threads_setThread s gid g _

/-- `leave` of a thread whose context is WAITING in the barrier: nobody else is woken. -/
theorem Core.leave_waiting (core : Core none ∅ s) (isThread : s.threads gid = some th)
    (runs : th.state = .running) (noHandoff : th.handoffThread = none) (unmarked : th.markedForSleep = false)
    (waits : s.bar.stateOf th.cid = .waiting) (unwanted : ∀ g ∈ s.queue .runQueue, s.maskOf g th.cid = false)
    (draws : Draws) :
    s.leave draws gid th.cid = some ((s.wentOut gid th).setBar (s.bar.departed th.cid)) ∧
      Core none ∅ (s.wentOut gid th) := by
  have isCur := core.holds gid (.inl ((stateOf_eq isThread).trans (congrArg some runs)))
  rw [cidOf_eq isThread] at isCur
  obtain ⟨pushes, out⟩ := core.goOut isThread runs noHandoff unwanted
  refine ⟨?_, out⟩
  simp only [Scheduler.leave, Scheduler.leaveToOut, Option.bind_eq_bind]
  rw [isThread, Option.bind_some, if_pos ⟨isCur, runs⟩, if_neg (by simp [unmarked]),
    schedContext_none unwanted, Option.bind_some]
  dsimp only
  rw [pushes, Option.bind_some]
  exact barLeave_waiting (s := s.wentOut gid th) waits draws

section
variable (inv : Inv quantum s) (isThread : s.threads gid = some th) (runs : th.state = .running)
  (removable : Removable s gid th) {fakeLeaves : List Nat} (once : fakeLeaves.Nodup)
  (fakes : ∀ g, g ∈ fakeLeaves ↔ g ∈ s.fakeLeaves ∧ g ≠ gid) (suppressed : Bool) (draws : Draws)
include inv isThread runs removable once fakes

theorem Inv.finishWaiting (waits : s.bar.stateOf th.cid = .waiting) :
    ∃ next, (s.finishing gid th fakeLeaves suppressed).finishLeave draws gid suppressed = some next ∧
      LeftFinish gid { th with fakeLeave := false } suppressed (s.finishing gid th fakeLeaves suppressed) next ∧
      Inv quantum next := by
  obtain ⟨current, unwanted⟩ := removable.waiting runs waits
  let first := s.finishing gid th fakeLeaves suppressed
  let left : ThreadInfo := { th with fakeLeave := false }
  let call : Call := if suppressed = true then .finishCheck else .finishEnd
  have isFirst : first.threads gid = some left := by
    change (s.setThread gid left).threads gid = _
    rw [threads_setThread, if_pos rfl]
  have core : Core none ∅ first :=
    (inv.core.modify isThread left rfl rfl rfl rfl (.inl rfl)).congr rfl rfl rfl rfl rfl rfl
  have unwanted' : ∀ g ∈ first.queue .runQueue, first.maskOf g th.cid = false := fun g waits =>
    (maskOf_same isThread g (by rfl) th.cid).trans (unwanted g waits)
  obtain ⟨leaves, out⟩ := core.leave_waiting isFirst runs removable.noHandoff (removable.unmarked (.inl runs))
    waits unwanted' draws
  have run : first.finishLeave draws gid suppressed =
      some (((first.wentOut gid left).setBar (s.bar.departed th.cid)).setCall gid call) := by
    simp only [Scheduler.finishLeave, Option.bind_eq_bind]
    rw [isFirst, Option.bind_some, leaves, Option.bind_some]
    rfl
  refine ⟨_, run, ⟨rfl, rfl, ⟨{ left with state := .out }, ?_, fun _ => by simp⟩, fun g ne => ?_⟩, ?_⟩
  · change (first.wentOut gid left).threads gid = _
    rw [threads_wentOut, if_pos rfl]
  · change Option.Rel Follows (first.threads g) ((first.wentOut gid left).threads g)
    rw [threads_wentOut, if_neg ne]
    exact rel_follows _
  · let mid : Scheduler :=
      { s.wentOut gid left with gidMap := s.gidMap.erase gid, fakeLeaves := fakeLeaves }
    have threads : ∀ g, mid.threads g = if g = gid then some { left with state := .out } else s.threads g :=
      threads_wentOut
    have same : ((first.wentOut gid left).setBar (s.bar.departed th.cid)).setCall gid call =
        (mid.setCall gid call).setBar (s.bar.departed th.cid) := by
      simp [first, mid, finishing, wentOut, setCall, setBar, setQueue, setThread]
    have isAway : call.Away := by
      dsimp only [call]
      split <;> trivial
    have isFinishing : call.Finishing := by
      dsimp only [call]
      split <;> trivial
    have ok : ThreadOk (s.bar.departed th.cid) s.curPhase call { left with state := .out } :=
      .away isAway removable.noHandoff (.inr (.inl rfl)) (fun contra => by cases contra) rfl
    rw [same]
    have core' : Core none ∅ mid := by
      refine out.congr rfl (funext fun g => ?_) rfl rfl rfl rfl
      rw [threads, threads_wentOut]
      change _ = if g = gid then _ else (s.setThread gid left).threads g
      rw [threads_setThread]
      split <;> rfl
    obtain ⟨others, carries, here⟩ := inv.without isThread runs threads (Barrier.without_departed s.bar th.cid)
    exact inv.rebook rfl rfl rfl rfl core' (inv.bar.leave_waiting waits current)
      others carries (by rw [threads, if_pos rfl]) ok here
      (inv.books.finishing rfl threads rfl once fakes rfl isFinishing)

/-- The `leave` of `finish`, wherever the thread was frozen. -/
theorem Inv.finishLeft :
    Yields quantum ((s.finishing gid th fakeLeaves suppressed).finishLeave draws gid suppressed) fun next =>
      LeftFinish gid { th with fakeLeave := false } suppressed (s.finishing gid th fakeLeaves suppressed) next ∧
        Inv quantum next := by
  rcases (inv.threads gid th isThread).stands.isHere runs with waits | inBar
  · exact .inr (inv.finishWaiting isThread runs removable once fakes suppressed draws waits)
  · have started := inv.startFinish isThread runs inBar removable.noHandoff once fakes suppressed
    have isFirst : (s.finishing gid th fakeLeaves suppressed).threads gid =
        some { th with fakeLeave := false } := by
      change (s.setThread gid _).threads gid = _
      rw [threads_setThread, if_pos rfl]
    have isCall : (s.finishing gid th fakeLeaves suppressed).calls gid = .finishLeave suppressed :=
      (calls_setCall _ gid _ gid).trans (if_pos rfl)
    exact started.finishLeave isFirst isCall draws

end

/-! ## finish -/

theorem beside_finishing (fakeLeaves : List Nat) (suppressed : Bool) :
    Beside gid s (s.finishing gid th fakeLeaves suppressed) := by
  refine ⟨fun g ne => Function.update_of_ne ne _ _, fun g ne => ?_⟩
  change Option.Rel Follows (s.threads g) ((s.setThread gid _).threads g)
  rw [threads_setThread, if_neg ne]
  exact rel_follows _

theorem finishNext_outside (outside : s.calls gid = .outside) (draws : Draws) :
    s.finishNext gid draws = some s := by
  rw [finishNext, outside]

/-- No assertion of `finish` fails, and the thread is gone. -/
theorem Inv.finishFor (inv : Inv quantum s) (isThread : s.threads gid = some th) (isKey : gid ∈ s.gidMap)
    (awake : th.state ≠ .sleeping) (removable : Removable s gid th) (draws : Nat → Draws) :
    Yields quantum (s.finishFor draws gid) fun next => Removed gid s next ∧ Inv quantum next := by
  simp only [Scheduler.finishFor, Option.bind_eq_bind]
  by_cases runs : th.state = .running
  · obtain ⟨fakeLeaves, suppressed, run, once, fakes⟩ := inv.finish_running isThread isKey runs
    have isCall : (s.finishing gid th fakeLeaves suppressed).calls gid = .finishLeave suppressed :=
      (calls_setCall _ gid _ gid).trans (if_pos rfl)
    rw [run, Option.bind_some, finishNext, isCall]
    dsimp only
    rcases inv.finishLeft isThread runs removable once fakes suppressed (draws 0)
      with ⟨zero, trap⟩ | ⟨left, leaves, isLeft, inv'⟩
    · exact .inl ⟨zero, by rw [trap]; rfl⟩
    · obtain ⟨th', isThread', awake'⟩ := isLeft.left
      have isCall' : left.calls gid = .finishCheck ∨ left.calls gid = .finishEnd := by
        rw [isLeft.calls, Function.update_self]
        cases suppressed
        · exact .inr rfl
        · exact .inl rfl
      obtain ⟨⟨next, ends, gone, inv''⟩, same⟩ :=
        inv'.finishLast isThread' isCall' (awake' (removable.unmarked (.inl runs)))
      have last : left.finishNext gid (draws 1) = some next := by
        rcases isCall' with isCheck | isEnd
        · rw [finishNext, isCheck, ← ends]
          exact same
        · rw [finishNext, isEnd, ← ends]
      rw [leaves, Option.bind_some, last, Option.bind_some, finishNext_outside gone.ended, Option.bind_some,
        finishNext_outside gone.ended]
      refine .inr ⟨next, rfl, ⟨?_, gone.gone, gone.gidMap.trans isLeft.gidMap⟩, inv''⟩
      exact ((beside_finishing fakeLeaves suppressed).trans isLeft.beside).trans gone.beside
  · obtain ⟨next, run, gone, inv'⟩ := inv.finish_idle isThread isKey runs awake removable.listed
    have isBeside := gone.beside
    rw [run, Option.bind_some, finishNext_outside gone.ended, Option.bind_some,
      finishNext_outside gone.ended, Option.bind_some, finishNext_outside gone.ended, Option.bind_some,
      finishNext_outside gone.ended]
    exact .inr ⟨next, rfl, ⟨⟨isBeside.calls, isBeside.threads⟩, gone.gone, gone.gidMap⟩, inv'⟩

end Zsim.Scheduler
