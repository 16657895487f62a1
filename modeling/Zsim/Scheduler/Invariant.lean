import Mathlib.Data.Set.Insert
import Zsim.Lib.Count
import Zsim.Scheduler.Model

/-!
# Threads, contexts and queues

`Core` is what the threads, the contexts and the lists satisfy in the middle of an operation:
at most one context is `hole`, IDLE but on no free list, and the threads of `loose` are on no
queue although their state would put them there.  Each elementary change is shown to keep it.
-/

set_option autoImplicit false

namespace Zsim.Scheduler

/-- The thread that a running thread has to hand its context to. -/
def handoffOf (s : Scheduler) (gid : Nat) : Option Nat := (s.threads gid).bind (·.handoffThread)

/-- The queue that the state of a thread puts it on. -/
def Belongs (s : Scheduler) (gid : Nat) : Queue → Prop
  | .runQueue => s.stateOf gid = some .queued ∧ ∀ v, s.handoffOf v ≠ some gid
  | .outQueue => s.stateOf gid = some .out
  | .sleepQueue => s.stateOf gid = some .sleeping

def Holding (s : Scheduler) (gid : Nat) : Prop :=
  s.stateOf gid = some .running ∨ s.stateOf gid = some .out

structure Core (hole : Option Nat) (loose : Set Nat) (s : Scheduler) : Prop where
  used : ∀ c, (s.contexts c).state = .used ↔ (s.contexts c).curThread ≠ none
  held : ∀ c g, (s.contexts c).curThread = some g → s.Holding g ∧ s.cidOf g = c
  holds : ∀ g, s.Holding g → (s.contexts (s.cidOf g)).curThread = some g
  freeOnce : s.freeList.Nodup
  free : ∀ c, c ∈ s.freeList ↔ c < s.numCores ∧ (s.contexts c).curThread = none ∧ hole ≠ some c
  isHole : ∀ c, hole = some c → c < s.numCores ∧ (s.contexts c).curThread = none
  once : ∀ q, (s.queue q).Nodup
  placed : ∀ q g, g ∈ s.queue q ↔ s.Belongs g q ∧ g ∉ loose
  sorted : (s.queue .sleepQueue).Pairwise fun a b => s.wakeupPhaseOf a ≤ s.wakeupPhaseOf b
  victim : ∀ v g, s.handoffOf v = some g → s.stateOf v = some .running ∧ s.stateOf g = some .queued
  target : ∀ v w g, s.handoffOf v = some g → s.handoffOf w = some g → v = w
  scheduled : s.scheduledThreads =
    countIn (Finset.range s.numCores) s.contexts fun ctx => ctx.state = .used
  conserved : ∀ g c, g ∈ s.queue .runQueue → c < s.numCores → s.maskOf g c = true → hole ≠ some c →
    ∃ h, (s.contexts c).curThread = some h ∧ s.stateOf h = some .running
  inRange : ∀ g th, s.threads g = some th → th.cid < s.numCores ∧ ∃ c, c < s.numCores ∧ th.mask c = true

/-! ## Reading through a write -/

section
variable (s : Scheduler) (gid u : Nat) (th : ThreadInfo)

@[simp] theorem threads_setThread :
    (s.setThread gid th).threads u = if u = gid then some th else s.threads u := by
  unfold setThread
  by_cases same : u = gid
  · simp [same]
  · simp [same]

@[simp] theorem stateOf_setThread :
    (s.setThread gid th).stateOf u = if u = gid then some th.state else s.stateOf u := by
  rw [stateOf, threads_setThread]
  split
  · rfl
  · rfl

@[simp] theorem cidOf_setThread :
    (s.setThread gid th).cidOf u = if u = gid then th.cid else s.cidOf u := by
  rw [cidOf, threads_setThread]
  split
  · rfl
  · rfl

@[simp] theorem wakeupPhaseOf_setThread :
    (s.setThread gid th).wakeupPhaseOf u = if u = gid then th.wakeupPhase else s.wakeupPhaseOf u := by
  rw [wakeupPhaseOf, threads_setThread]
  split
  · rfl
  · rfl

@[simp] theorem maskOf_setThread (c : Nat) :
    (s.setThread gid th).maskOf u c = if u = gid then th.mask c else s.maskOf u c := by
  rw [maskOf, threads_setThread]
  split
  · rfl
  · rfl

@[simp] theorem handoffOf_setThread :
    (s.setThread gid th).handoffOf u = if u = gid then th.handoffThread else s.handoffOf u := by
  rw [handoffOf, threads_setThread]
  split
  · rfl
  · rfl

@[simp] theorem contexts_setContext (cid c : Nat) (ctx : ContextInfo) :
    (s.setContext cid ctx).contexts c = if c = cid then ctx else s.contexts c := by
  unfold setContext
  by_cases same : c = cid
  · simp [same]
  · simp [same]

@[simp] theorem queue_setQueue (q r : Queue) (gids : List Nat) :
    (s.setQueue q gids).queue r = if r = q then gids else s.queue r := by
  unfold setQueue
  by_cases same : r = q
  · simp [same]
  · simp [same]

end

section
variable {s : Scheduler} {gid : Nat} {th : ThreadInfo} (isThread : s.threads gid = some th)
include isThread

theorem stateOf_eq : s.stateOf gid = some th.state := by rw [stateOf, isThread]; rfl
theorem cidOf_eq : s.cidOf gid = th.cid := by rw [cidOf, isThread]; rfl
theorem wakeupPhaseOf_eq : s.wakeupPhaseOf gid = th.wakeupPhase := by rw [wakeupPhaseOf, isThread]; rfl
theorem maskOf_eq (c : Nat) : s.maskOf gid c = th.mask c := by rw [maskOf, isThread]; rfl
theorem handoffOf_eq : s.handoffOf gid = th.handoffThread := by rw [handoffOf, isThread]; rfl

end

section
variable {s : Scheduler} {gid : Nat} {th : ThreadInfo} (isThread : s.threads gid = some th)
  {th' : ThreadInfo} (u : Nat)
include isThread

theorem stateOf_same (same : th'.state = th.state) : (s.setThread gid th').stateOf u = s.stateOf u := by
  rw [stateOf_setThread]
  split
  · rename_i here
    rw [here, stateOf_eq isThread, same]
  · rfl

theorem cidOf_same (same : th'.cid = th.cid) : (s.setThread gid th').cidOf u = s.cidOf u := by
  rw [cidOf_setThread]
  split
  · rename_i here
    rw [here, cidOf_eq isThread, same]
  · rfl

theorem wakeupPhaseOf_same (same : th'.wakeupPhase = th.wakeupPhase) :
    (s.setThread gid th').wakeupPhaseOf u = s.wakeupPhaseOf u := by
  rw [wakeupPhaseOf_setThread]
  split
  · rename_i here
    rw [here, wakeupPhaseOf_eq isThread, same]
  · rfl

theorem maskOf_same (same : th'.mask = th.mask) (c : Nat) :
    (s.setThread gid th').maskOf u c = s.maskOf u c := by
  rw [maskOf_setThread]
  split
  · rename_i here
    rw [here, maskOf_eq isThread, same]
  · rfl

theorem handoffOf_same (same : th'.handoffThread = th.handoffThread) :
    (s.setThread gid th').handoffOf u = s.handoffOf u := by
  rw [handoffOf_setThread]
  split
  · rename_i here
    rw [here, handoffOf_eq isThread, same]
  · rfl

end

theorem Core.congr {hole : Option Nat} {loose : Set Nat} {s s' : Scheduler} (core : Core hole loose s)
    (numCores : s'.numCores = s.numCores) (threads : s'.threads = s.threads)
    (contexts : s'.contexts = s.contexts) (freeList : s'.freeList = s.freeList)
    (queue : s'.queue = s.queue) (scheduled : s'.scheduledThreads = s.scheduledThreads) :
    Core hole loose s' := by
  obtain ⟨_, _, _, _, _, _, _, _, _, _, _, _⟩ := s'
  cases numCores
  cases threads
  cases contexts
  cases freeList
  cases queue
  cases scheduled
  exact ⟨core.used, core.held, core.holds, core.freeOnce, core.free, core.isHole, core.once,
    core.placed, core.sorted, core.victim, core.target, core.scheduled, core.conserved, core.inRange⟩

end Zsim.Scheduler
