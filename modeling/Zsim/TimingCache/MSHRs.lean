import Mathlib.Data.List.Count
import Mathlib.Data.List.Nodup
import Zsim.Timing.Model
import Zsim.TimingCache.TagPort

/-!
# The MSHRs of a timing cache

The events of timing_cache.cpp that compete for the MSHRs, without the statistics.  A hit or a
miss that finds all MSHRs busy is held in `pendingQueue`, which the next release requeues as a whole.
`none` is a failed assertion.
-/

set_option autoImplicit false

namespace Zsim.TimingCache

open Zsim.Timing (EventState)

/-- The events of the hits and those of the misses. -/
inductive EventId
  | hit (n : Nat)
  | missStart (m : Nat)
  | missResponse (m : Nat)
  | missWriteback (m : Nat)
  deriving DecidableEq

/-- What is called of an event. -/
inductive EventCall
  | run | hold | requeue | done
  deriving DecidableEq

structure MSHRs where
  port : TagPort
  activeMisses : Nat
  pendingQueue : List EventId
  state : EventId → EventState
  /-- the argument of the last `requeue` or `done` -/
  cycle : EventId → Nat
  /-- the calls so far, the last one first -/
  calls : List (EventCall × EventId)

namespace MSHRs

def init : MSHRs := ⟨.init, 0, [], fun _ => .none, fun _ => 0, []⟩

def set (s : MSHRs) (ev : EventId) (call : EventCall) (state : EventState) (cycle : Nat) : MSHRs :=
  { s with
    state := Function.update s.state ev state
    cycle := Function.update s.cycle ev cycle
    calls := (call, ev) :: s.calls }

/-- The beginning of `run`. -/
def run (s : MSHRs) (ev : EventId) : Option MSHRs :=
  if s.state ev = .none ∨ s.state ev = .queued then some (s.set ev .run .running (s.cycle ev)) else none

def hold (s : MSHRs) (ev : EventId) : Option MSHRs :=
  if s.state ev = .running then some (s.set ev .hold .held (s.cycle ev)) else none

def requeue (s : MSHRs) (ev : EventId) (nextCycle : Nat) : Option MSHRs :=
  if s.state ev = .running ∨ s.state ev = .held then some (s.set ev .requeue .queued nextCycle) else none

def done (s : MSHRs) (ev : EventId) (doneCycle : Nat) : Option MSHRs :=
  if s.state ev = .running then some (s.set ev .done .done doneCycle) else none

variable (numMSHRs : Nat)

def simulateHit (s : MSHRs) (ev : EventId) (cycle : Nat) : Option MSHRs :=
  if s.activeMisses < numMSHRs then do
    let granted ← s.port.highPrioAccess cycle
    { s with port := granted.2 }.done ev granted.1
  else do
    let s ← s.hold ev
    some { s with pendingQueue := s.pendingQueue ++ [ev] }

def simulateMissStart (s : MSHRs) (ev : EventId) (cycle : Nat) : Option MSHRs :=
  if s.activeMisses < numMSHRs then do
    let granted ← s.port.highPrioAccess cycle
    { s with activeMisses := s.activeMisses + 1, port := granted.2 }.done ev granted.1
  else do
    let s ← s.hold ev
    some { s with pendingQueue := s.pendingQueue ++ [ev] }

def simulateMissResponse (s : MSHRs) (ev : EventId) (cycle : Nat) : Option MSHRs := s.done ev cycle

/-- A granted writeback. -/
def releaseMSHR (s : MSHRs) (ev : EventId) (cycle : Nat) : Option MSHRs :=
  if s.activeMisses = 0 then none
  else do
    let s ← s.pendingQueue.foldlM (fun s qev => s.requeue qev (u64 (cycle + 1)))
      { s with activeMisses := s.activeMisses - 1 }
    { s with pendingQueue := [] }.done ev cycle

def simulateMissWriteback (s : MSHRs) (ev : EventId) (cycle : Nat) : Option MSHRs :=
  let granted := s.port.tryLowPrioAccess cycle
  let s := { s with port := granted.2 }
  if granted.1 ≠ 0 then s.releaseMSHR ev cycle else s.requeue ev (u64 (cycle + 1))

def simulate (s : MSHRs) (ev : EventId) (cycle : Nat) : Option MSHRs := do
  let s ← s.run ev
  match ev with
  | .hit _ => s.simulateHit numMSHRs ev cycle
  | .missStart _ => s.simulateMissStart numMSHRs ev cycle
  | .missResponse _ => s.simulateMissResponse ev cycle
  | .missWriteback _ => s.simulateMissWriteback ev cycle

end MSHRs

/-- An event is dequeued at a cycle. -/
structure Dequeue where
  ev : EventId
  cycle : Nat

namespace MSHRs

/-- The start of a miss is done before its other events are dequeued. -/
def ready (s : MSHRs) : EventId → Prop
  | .hit _ | .missStart _ => True
  | .missResponse m | .missWriteback m => s.state (.missStart m) = .done

def legal (s : MSHRs) (i : Dequeue) : Prop :=
  s.state i.ev = .queued ∨ s.state i.ev = .none ∧ s.ready i.ev

def machine (numMSHRs : Nat) : Machine MSHRs Dequeue := ⟨legal, fun s i => s.simulate numMSHRs i.ev i.cycle⟩

instance decidableReady (s : MSHRs) : ∀ ev, Decidable (s.ready ev)
  | .hit _ | .missStart _ => .isTrue trivial
  | .missResponse _ | .missWriteback _ => inferInstanceAs (Decidable (_ = _))

instance decidableLegal (numMSHRs : Nat) (s : MSHRs) (i : Dequeue) :
    Decidable ((machine numMSHRs).legal s i) :=
  inferInstanceAs (Decidable (_ ∨ _ ∧ s.ready i.ev))

/-- The hits and the misses wait for an MSHR. -/
def waits : EventId → Prop
  | .hit _ | .missStart _ => True
  | .missResponse _ | .missWriteback _ => False

/-- Every run of an event but the first one is due to a requeue of its own, and each run ends in one
way. -/
structure Once (s : MSHRs) (ev : EventId) : Prop where
  runs : s.calls.count (.run, ev) = s.calls.count (.requeue, ev) +
    (if s.state ev = .running ∨ s.state ev = .held ∨ s.state ev = .done then 1 else 0)
  dones : s.calls.count (.done, ev) = if s.state ev = .done then 1 else 0
  holds : waits ev → s.calls.count (.hold, ev) =
    s.calls.count (.requeue, ev) + if s.state ev = .held then 1 else 0

/-- The events, with one that is being simulated and a queue of those that are held. -/
structure Events (own : Option EventId) (queue : List EventId) (s : MSHRs) : Prop where
  running : ∀ ev, s.state ev = .running ↔ own = some ev
  nodup : queue.Nodup
  held : ∀ ev, ev ∈ queue ↔ s.state ev = .held
  waiting : ∀ ev ∈ queue, waits ev
  once : ∀ ev, s.Once ev
  order : ∀ ev, s.state ev ≠ .none → s.ready ev

@[simp] theorem set_state_self (s : MSHRs) (ev : EventId) (call : EventCall) (state : EventState)
    (cycle : Nat) : (s.set ev call state cycle).state ev = state := Function.update_self ..

theorem set_state_of_ne (s : MSHRs) {ev other : EventId} (ne : other ≠ ev) (call : EventCall)
    (state : EventState) (cycle : Nat) : (s.set ev call state cycle).state other = s.state other :=
  Function.update_of_ne ne ..

section Calls

variable {s : MSHRs} {ev : EventId}

theorem Once.init (ev : EventId) : init.Once ev := ⟨rfl, rfl, fun _ => rfl⟩

theorem count_set_of_ne {other : EventId} (ne : other ≠ ev) (call call' : EventCall) (state : EventState)
    (cycle : Nat) : (s.set ev call state cycle).calls.count (call', other) = s.calls.count (call', other) :=
  List.count_cons_of_ne fun same => ne (Prod.mk.inj same).2.symm

theorem count_set (call call' : EventCall) (state : EventState) (cycle : Nat) :
    (s.set ev call state cycle).calls.count (call', ev) =
      s.calls.count (call', ev) + if call = call' then 1 else 0 := by
  simp only [set, List.count_cons, beq_iff_eq, Prod.mk.injEq, and_true]

theorem Once.other {other : EventId} (once : s.Once other) (ne : other ≠ ev) (call : EventCall)
    (state : EventState) (cycle : Nat) : (s.set ev call state cycle).Once other where
  runs := by
    rw [count_set_of_ne ne, count_set_of_ne ne, set_state_of_ne s ne]
    exact once.runs
  dones := by
    rw [count_set_of_ne ne, set_state_of_ne s ne]
    exact once.dones
  holds := by
    rw [count_set_of_ne ne, count_set_of_ne ne, set_state_of_ne s ne]
    exact once.holds

theorem Once.run (once : s.Once ev) (idle : s.state ev = .none ∨ s.state ev = .queued) (cycle : Nat) :
    (s.set ev .run .running cycle).Once ev := by
  have runs := once.runs
  have dones := once.dones
  have holds := once.holds
  refine ⟨?_, ?_, fun isWaiting => ?_⟩
  · rcases idle with idle | idle <;> simp_all [count_set]
  · rcases idle with idle | idle <;> simp_all [count_set]
  · rcases idle with idle | idle <;> simp_all [count_set]

theorem Once.hold (once : s.Once ev) (running : s.state ev = .running) (cycle : Nat) :
    (s.set ev .hold .held cycle).Once ev := by
  have runs := once.runs
  have dones := once.dones
  have holds := once.holds
  refine ⟨?_, ?_, fun isWaiting => ?_⟩ <;> simp_all [count_set]

theorem Once.requeue (once : s.Once ev)
    (busy : s.state ev = .held ∨ s.state ev = .running ∧ ¬ waits ev) (cycle : Nat) :
    (s.set ev .requeue .queued cycle).Once ev := by
  have runs := once.runs
  have dones := once.dones
  have holds := once.holds
  refine ⟨?_, ?_, fun isWaiting => ?_⟩
  · rcases busy with busy | ⟨busy, -⟩ <;> simp_all [count_set]
  · rcases busy with busy | ⟨busy, -⟩ <;> simp_all [count_set]
  · rcases busy with busy | ⟨busy, notWaiting⟩
    · simp_all [count_set]
    · exact absurd isWaiting notWaiting

theorem Once.done (once : s.Once ev) (running : s.state ev = .running) (cycle : Nat) :
    (s.set ev .done .done cycle).Once ev := by
  have runs := once.runs
  have dones := once.dones
  have holds := once.holds
  refine ⟨?_, ?_, fun isWaiting => ?_⟩ <;> simp_all [count_set]

end Calls

section Events

variable {s : MSHRs} {own : Option EventId} {queue : List EventId} {ev : EventId}

theorem ready_set {other : EventId} (ready : s.ready other) (notDone : s.state ev ≠ .done) (call : EventCall)
    (state : EventState) (cycle : Nat) : (s.set ev call state cycle).ready other := by
  have stays : ∀ m, s.state (.missStart m) = .done →
      (s.set ev call state cycle).state (.missStart m) = .done := by
    intro m isDone
    rw [← isDone]
    refine set_state_of_ne s (fun same => notDone ?_) call state cycle
    rw [← same]
    exact isDone
  cases other with
  | hit | missStart => trivial
  | missResponse m | missWriteback m => exact stays m ready

theorem Events.set (events : Events own queue s) (notDone : s.state ev ≠ .done) (ready : s.ready ev)
    {call : EventCall} {state : EventState} {cycle : Nat} (once : (s.set ev call state cycle).Once ev)
    {own' : Option EventId} {queue' : List EventId} (running : state = .running ↔ own' = some ev)
    (owns : ∀ other, other ≠ ev → (own = some other ↔ own' = some other)) (nodup : queue'.Nodup)
    (held : ev ∈ queue' ↔ state = .held) (rest : ∀ other, other ≠ ev → (other ∈ queue' ↔ other ∈ queue))
    (waiting : ev ∈ queue' → waits ev) : Events own' queue' (s.set ev call state cycle) where
  running := fun other => by
    by_cases same : other = ev
    · rw [same, set_state_self]
      exact running
    · rw [set_state_of_ne s same, events.running]
      exact owns other same
  nodup := nodup
  held := fun other => by
    by_cases same : other = ev
    · rw [same, set_state_self]
      exact held
    · rw [set_state_of_ne s same, ← events.held]
      exact rest other same
  waiting := fun other member => by
    by_cases same : other = ev
    · rw [same] at member ⊢
      exact waiting member
    · exact events.waiting other ((rest other same).mp member)
  once := fun other => by
    by_cases same : other = ev
    · rw [same]
      exact once
    · exact (events.once other).other same call state cycle
  order := fun other notNone => by
    by_cases same : other = ev
    · rw [same]
      exact ready_set ready notDone call state cycle
    · rw [set_state_of_ne s same] at notNone
      exact ready_set (events.order other notNone) notDone call state cycle

theorem legal.ready {i : Dequeue} (legal : s.legal i) (events : Events own queue s) : s.ready i.ev := by
  rcases legal with queued | ⟨-, ready⟩
  · exact events.order i.ev (by rw [queued]; decide)
  · exact ready

theorem Events.run (events : Events none queue s) {i : Dequeue} (legal : s.legal i) :
    s.run i.ev = some (s.set i.ev .run .running (s.cycle i.ev)) ∧
      Events (some i.ev) queue (s.set i.ev .run .running (s.cycle i.ev)) := by
  have idle : s.state i.ev = .none ∨ s.state i.ev = .queued := legal.symm.imp_left And.left
  refine ⟨if_pos idle, ?_⟩
  have notHeld : i.ev ∉ queue := by
    rw [events.held]
    rcases idle with idle | idle <;> simp [idle]
  refine events.set ?_ (legal.ready events) ((events.once i.ev).run idle _) (by simp) ?_ events.nodup
    (by simp [notHeld]) (fun _ _ => Iff.rfl) (fun member => absurd member notHeld)
  · rcases idle with idle | idle <;> simp [idle]
  · intro other ne
    simp [ne.symm]

theorem Events.own_state (events : Events (some ev) queue s) : s.state ev = .running :=
  (events.running ev).mpr rfl

theorem Events.own_ready (events : Events (some ev) queue s) : s.ready ev :=
  events.order ev (by rw [events.own_state]; decide)

theorem Events.own_notHeld (events : Events (some ev) queue s) : ev ∉ queue := by
  rw [events.held, events.own_state]
  decide

theorem Events.hold (events : Events (some ev) queue s) (isWaiting : waits ev) (cycle : Nat) :
    Events none (queue ++ [ev]) (s.set ev .hold .held cycle) := by
  refine events.set (by rw [events.own_state]; decide) events.own_ready
    ((events.once ev).hold events.own_state _) (by simp) (fun other ne => by simp [ne.symm]) ?_ (by simp)
    (fun other ne => by simp [ne]) fun _ => isWaiting
  rw [List.nodup_append]
  refine ⟨events.nodup, List.nodup_singleton ev, fun a member b isEv same => ?_⟩
  rw [List.mem_singleton.mp isEv] at same
  exact events.own_notHeld (same ▸ member)

theorem Events.done (events : Events (some ev) queue s) (cycle : Nat) :
    Events none queue (s.set ev .done .done cycle) :=
  events.set (by rw [events.own_state]; decide) events.own_ready
    ((events.once ev).done events.own_state _) (by simp) (fun other ne => by simp [ne.symm]) events.nodup
    (by simp [events.own_notHeld]) (fun _ _ => Iff.rfl) fun member => absurd member events.own_notHeld

theorem Events.requeueOwn (events : Events (some ev) queue s) (notWaiting : ¬ waits ev) (cycle : Nat) :
    Events none queue (s.set ev .requeue .queued cycle) :=
  events.set (by rw [events.own_state]; decide) events.own_ready
    ((events.once ev).requeue (.inr ⟨events.own_state, notWaiting⟩) _) (by simp)
    (fun other ne => by simp [ne.symm]) events.nodup (by simp [events.own_notHeld]) (fun _ _ => Iff.rfl)
    fun member => absurd member events.own_notHeld

theorem Events.requeueHeld (events : Events own (ev :: queue) s) (cycle : Nat) :
    Events own queue (s.set ev .requeue .queued cycle) := by
  have isHeld : s.state ev = .held := (events.held ev).mp List.mem_cons_self
  obtain ⟨notRest, nodup⟩ := List.nodup_cons.mp events.nodup
  have notOwn : own ≠ some ev := fun isOwn => by
    rw [(events.running ev).mpr isOwn] at isHeld
    cases isHeld
  exact events.set (by rw [isHeld]; decide) (events.order ev (by rw [isHeld]; decide))
    ((events.once ev).requeue (.inl isHeld) _) (by simp [notOwn]) (fun _ _ => Iff.rfl) nodup
    (by simp [notRest]) (fun other ne => by simp [ne]) fun member => absurd member notRest

end Events

/-- What `requeue` has done when it was called of each event of a list. -/
structure Flushed (queue : List EventId) (cycle : Nat) (s s' : MSHRs) : Prop where
  port : s'.port = s.port
  activeMisses : s'.activeMisses = s.activeMisses
  pendingQueue : s'.pendingQueue = s.pendingQueue
  queued : ∀ ev ∈ queue, s'.state ev = .queued ∧ s'.cycle ev = cycle
  others : ∀ ev, ev ∉ queue → s'.state ev = s.state ev ∧ s'.cycle ev = s.cycle ev
  requeues : ∀ ev, s'.calls.count (.requeue, ev) = s.calls.count (.requeue, ev) + queue.count ev

theorem Events.flush {own : Option EventId} (cycle : Nat) {queue : List EventId} {s : MSHRs}
    (events : Events own queue s) :
    ∃ s', queue.foldlM (fun s qev => s.requeue qev cycle) s = some s' ∧ Events own [] s' ∧
      Flushed queue cycle s s' := by
  induction queue generalizing s with
  | nil =>
      exact ⟨s, rfl, events, rfl, rfl, rfl, fun ev member => absurd member List.not_mem_nil,
        fun _ _ => ⟨rfl, rfl⟩, fun _ => rfl⟩
  | cons ev rest ih =>
      have isHeld : s.state ev = .held := (events.held ev).mp List.mem_cons_self
      have notRest := (List.nodup_cons.mp events.nodup).1
      obtain ⟨s', run, events', flushed⟩ := ih (events.requeueHeld cycle)
      refine ⟨s', ?_, events', flushed.port, flushed.activeMisses, flushed.pendingQueue, ?_, ?_, ?_⟩
      · rw [List.foldlM_cons]
        have requeues : s.requeue ev cycle = some (s.set ev .requeue .queued cycle) := if_pos (.inr isHeld)
        rw [requeues]
        exact run
      · intro other member
        rcases List.mem_cons.mp member with rfl | member
        · obtain ⟨state, isCycle⟩ := flushed.others other notRest
          rw [state, isCycle]
          exact ⟨Function.update_self .., Function.update_self ..⟩
        · exact flushed.queued other member
      · intro other notMember
        rw [List.mem_cons, not_or] at notMember
        obtain ⟨state, isCycle⟩ := flushed.others other notMember.2
        rw [state, isCycle]
        exact ⟨Function.update_of_ne notMember.1 .., Function.update_of_ne notMember.1 ..⟩
      · intro other
        rw [flushed.requeues, List.count_cons]
        by_cases same : other = ev
        · rw [same, count_set]
          simp
          omega
        · rw [count_set_of_ne same]
          simp [Ne.symm same]

/-! ## Misses in flight -/

/-- The miss has started, and its writeback is not done. -/
def InFlight (s : MSHRs) (m : Nat) : Prop :=
  s.state (.missStart m) = .done ∧ s.state (.missWriteback m) ≠ .done

def Active (s : MSHRs) (activeMisses : Nat) : Prop :=
  ∃ misses : List Nat, misses.Nodup ∧ misses.length = activeMisses ∧ ∀ m, m ∈ misses ↔ s.InFlight m

section Active

variable {s s' : MSHRs} {activeMisses : Nat}

theorem Active.congr (active : s.Active activeMisses) (same : ∀ m, s'.InFlight m ↔ s.InFlight m) :
    s'.Active activeMisses := by
  obtain ⟨misses, nodup, length, isMiss⟩ := active
  exact ⟨misses, nodup, length, fun m => (isMiss m).trans (same m).symm⟩

theorem Active.start (active : s.Active activeMisses) {m : Nat} (notStarted : ¬ s.InFlight m)
    (starts : s'.InFlight m) (others : ∀ m', m' ≠ m → (s'.InFlight m' ↔ s.InFlight m')) :
    s'.Active (activeMisses + 1) := by
  obtain ⟨misses, nodup, length, isMiss⟩ := active
  refine ⟨m :: misses, List.nodup_cons.mpr ⟨fun member => notStarted ((isMiss m).mp member), nodup⟩,
    congrArg (· + 1) length, fun m' => ?_⟩
  by_cases same : m' = m
  · rw [same]
    exact iff_of_true List.mem_cons_self starts
  · rw [List.mem_cons, or_iff_right same, isMiss]
    exact (others m' same).symm

theorem Active.finish (active : s.Active activeMisses) {m : Nat} (inFlight : s.InFlight m)
    (ends : ¬ s'.InFlight m) (others : ∀ m', m' ≠ m → (s'.InFlight m' ↔ s.InFlight m')) :
    activeMisses ≠ 0 ∧ s'.Active (activeMisses - 1) := by
  obtain ⟨misses, nodup, length, isMiss⟩ := active
  have member := (isMiss m).mpr inFlight
  refine ⟨?_, misses.erase m, nodup.erase m, ?_, fun m' => ?_⟩
  · rw [← length]
    exact Nat.ne_of_gt (List.length_pos_of_mem member)
  · rw [List.length_erase_of_mem member, length]
  · rw [nodup.mem_erase_iff, isMiss]
    by_cases same : m' = m
    · rw [same]
      exact iff_of_false (fun both => both.1 rfl) ends
    · rw [others m' same]
      exact and_iff_right same

theorem inFlight_congr (dones : ∀ ev, s'.state ev = .done ↔ s.state ev = .done) (m : Nat) :
    s'.InFlight m ↔ s.InFlight m :=
  and_congr (dones _) (not_congr (dones _))

theorem inFlight_set {ev : EventId} {m : Nat} (notStart : ev ≠ .missStart m)
    (notWriteback : ev ≠ .missWriteback m) (call : EventCall) (state : EventState) (cycle : Nat) :
    (s.set ev call state cycle).InFlight m ↔ s.InFlight m := by
  rw [InFlight, set_state_of_ne s notStart.symm, set_state_of_ne s notWriteback.symm]
  exact Iff.rfl

theorem done_set {ev : EventId} {call : EventCall} {state : EventState} (before : s.state ev ≠ .done)
    (after : state ≠ .done) (cycle : Nat) (other : EventId) :
    (s.set ev call state cycle).state other = .done ↔ s.state other = .done := by
  by_cases same : other = ev
  · rw [same, set_state_self]
    exact iff_of_false after before
  · rw [set_state_of_ne s same]

end Active

structure Accounted (numMSHRs : Nat) (s : MSHRs) : Prop where
  active : s.Active s.activeMisses
  bounded : s.activeMisses ≤ numMSHRs
  busy : s.pendingQueue ≠ [] → s.activeMisses = numMSHRs

structure Inv (numMSHRs : Nat) (s : MSHRs) : Prop extends Accounted numMSHRs s where
  events : Events none s.pendingQueue s

/-- A release requeues everything that is held, once, and nothing else does. -/
def Requeues (cycle : Nat) (s s' : MSHRs) : Prop :=
  if s'.activeMisses < s.activeMisses then
    s'.pendingQueue = [] ∧ ∀ ev, s.state ev = .held → s'.state ev = .queued ∧
      s'.cycle ev = u64 (cycle + 1) ∧
      s'.calls.count (.requeue, ev) = s.calls.count (.requeue, ev) + 1
  else
    ∀ ev, s.state ev = .held → s'.state ev = .held ∧
      s'.calls.count (.requeue, ev) = s.calls.count (.requeue, ev)

/-! ## One event -/

section Steps

variable {numMSHRs : Nat} {s : MSHRs} {i : Dequeue}

theorem Events.congr {s s' : MSHRs} {own : Option EventId} {queue : List EventId}
    (events : Events own queue s) (state : s'.state = s.state) (calls : s'.calls = s.calls) :
    Events own queue s' := by
  obtain ⟨port, activeMisses, pendingQueue, state', cycle, calls'⟩ := s'
  cases state
  cases calls
  exact ⟨events.running, events.nodup, events.held, events.waiting,
    fun ev => ⟨(events.once ev).runs, (events.once ev).dones, (events.once ev).holds⟩,
    fun ev notNone => by cases ev <;> exact events.order _ notNone⟩

theorem legal.notHeld (legal : s.legal i) : s.state i.ev ≠ .held := by
  rcases legal with queued | ⟨none, -⟩
  · rw [queued]
    decide
  · rw [none]
    decide

theorem legal.notDone (legal : s.legal i) : s.state i.ev ≠ .done := by
  rcases legal with queued | ⟨none, -⟩
  · rw [queued]
    decide
  · rw [none]
    decide

/-- The event has run, and a second call has settled it. -/
def settled (s : MSHRs) (ev : EventId) (call : EventCall) (state : EventState) (cycle : Nat) : MSHRs :=
  (s.set ev .run .running (s.cycle ev)).set ev call state cycle

theorem Requeues.settled {s s' : MSHRs} (notHeld : s.state i.ev ≠ .held)
    (le : s.activeMisses ≤ s'.activeMisses) (call : EventCall) (state : EventState) (cycle : Nat)
    (isState : s'.state = (s.settled i.ev call state cycle).state)
    (isCalls : s'.calls = (s.settled i.ev call state cycle).calls) : Requeues i.cycle s s' := by
  unfold Requeues
  rw [if_neg (Nat.not_lt.mpr le), isState, isCalls]
  intro other isHeld
  have ne : other ≠ i.ev := by
    rintro rfl
    exact notHeld isHeld
  rw [MSHRs.settled, set_state_of_ne _ ne, set_state_of_ne _ ne, count_set_of_ne ne, count_set_of_ne ne]
  exact ⟨isHeld, rfl⟩

theorem settled_done (legal : s.legal i) {call : EventCall} {state : EventState} (notDone : state ≠ .done)
    (cycle : Nat) (ev : EventId) :
    (s.settled i.ev call state cycle).state ev = .done ↔ s.state ev = .done := by
  have running : (s.set i.ev .run .running (s.cycle i.ev)).state i.ev ≠ .done := by
    rw [set_state_self]
    decide
  exact (done_set running notDone cycle ev).trans (done_set legal.notDone (by decide) _ ev)

theorem hold_spec (inv : Inv numMSHRs s) (legal : s.legal i) (isWaiting : waits i.ev)
    (full : ¬ s.activeMisses < numMSHRs) :
    ∃ s', (do
        let s ← (s.set i.ev .run .running (s.cycle i.ev)).hold i.ev
        some { s with pendingQueue := s.pendingQueue ++ [i.ev] }) = some s' ∧
      Inv numMSHRs s' ∧ Requeues i.cycle s s' := by
  obtain ⟨-, running⟩ := inv.events.run legal
  have hold : (s.set i.ev .run .running (s.cycle i.ev)).hold i.ev =
      some (s.settled i.ev .hold .held ((s.set i.ev .run .running (s.cycle i.ev)).cycle i.ev)) :=
    if_pos running.own_state
  refine ⟨{ s.settled i.ev .hold .held ((s.set i.ev .run .running (s.cycle i.ev)).cycle i.ev) with
    pendingQueue := s.pendingQueue ++ [i.ev] }, ?_, ⟨⟨?_, inv.bounded, fun _ => ?_⟩, ?_⟩, ?_⟩
  · rw [hold]
    rfl
  · have sameDone : ∀ ev, (s.settled i.ev .hold .held (s.cycle i.ev)).state ev = .done ↔ s.state ev = .done :=
      settled_done legal (by decide) _
    exact inv.active.congr (inFlight_congr sameDone)
  · exact Nat.le_antisymm inv.bounded (Nat.le_of_not_lt full)
  · exact (running.hold isWaiting (Function.update s.cycle i.ev (s.cycle i.ev) i.ev)).congr rfl rfl
  · exact Requeues.settled legal.notHeld (Nat.le_refl _) .hold .held
      (Function.update s.cycle i.ev (s.cycle i.ev) i.ev) rfl rfl

theorem serve_spec (inv : Inv numMSHRs s) (legal : s.legal i) (port : TagPort) (doneCycle : Nat)
    {activeMisses : Nat} (active : (s.settled i.ev .done .done doneCycle).Active activeMisses)
    (le : s.activeMisses ≤ activeMisses) (bounded : activeMisses ≤ numMSHRs)
    (busy : s.pendingQueue ≠ [] → activeMisses = numMSHRs) :
    ∃ s', ({ s.set i.ev .run .running (s.cycle i.ev) with
        activeMisses := activeMisses, port := port } : MSHRs).done i.ev doneCycle = some s' ∧
      Inv numMSHRs s' ∧ Requeues i.cycle s s' := by
  obtain ⟨-, running⟩ := inv.events.run legal
  refine ⟨{ s.settled i.ev .done .done doneCycle with activeMisses := activeMisses, port := port },
    if_pos running.own_state, ⟨⟨active, bounded, busy⟩, (running.done doneCycle).congr rfl rfl⟩, ?_⟩
  exact Requeues.settled legal.notHeld le .done .done doneCycle rfl rfl

theorem inFlight_settled {ev : EventId} {m : Nat} (notStart : ev ≠ .missStart m)
    (notWriteback : ev ≠ .missWriteback m) (call : EventCall) (state : EventState) (cycle : Nat) :
    (s.settled ev call state cycle).InFlight m ↔ s.InFlight m :=
  (inFlight_set notStart notWriteback call state cycle).trans (inFlight_set notStart notWriteback _ _ _)

theorem started_inFlight (inv : Inv numMSHRs s) {m : Nat} (notDone : s.state (.missStart m) ≠ .done)
    (cycle : Nat) : ¬ s.InFlight m ∧ (s.settled (.missStart m) .done .done cycle).InFlight m := by
  refine ⟨fun inFlight => notDone inFlight.1, set_state_self .., fun isDone => notDone ?_⟩
  rw [settled, set_state_of_ne _ (by simp), set_state_of_ne _ (by simp)] at isDone
  exact inv.events.order (.missWriteback m) (by rw [isDone]; decide)

/-- The state in which the held events are requeued. -/
def begun (s : MSHRs) (ev : EventId) (port : TagPort) (activeMisses : Nat) : MSHRs :=
  { s.set ev .run .running (s.cycle ev) with port := port, activeMisses := activeMisses }

theorem begun_state {ev other : EventId} (ne : other ≠ ev) (port : TagPort) (activeMisses : Nat) :
    (s.begun ev port activeMisses).state other = s.state other :=
  set_state_of_ne s ne .run .running (s.cycle ev)

theorem begun_calls {ev other : EventId} (ne : other ≠ ev) (port : TagPort) (activeMisses : Nat)
    (call : EventCall) :
    (s.begun ev port activeMisses).calls.count (call, other) = s.calls.count (call, other) :=
  count_set_of_ne ne .run call .running (s.cycle ev)

/-- The end of a release. -/
def cleared (s : MSHRs) (ev : EventId) (cycle : Nat) : MSHRs :=
  ({ s with pendingQueue := [] } : MSHRs).set ev .done .done cycle

theorem release_spec (inv : Inv numMSHRs s) {m cycle : Nat} (legal : s.legal ⟨.missWriteback m, cycle⟩)
    (port : TagPort) (nextCycle : Nat) :
    s.activeMisses ≠ 0 ∧ ∃ flushed, s.pendingQueue.foldlM (fun s qev => s.requeue qev nextCycle)
        (s.begun (.missWriteback m) port (s.activeMisses - 1)) = some flushed ∧
      flushed.state (.missWriteback m) = .running ∧
      Inv numMSHRs (flushed.cleared (.missWriteback m) cycle) ∧
      flushed.activeMisses = s.activeMisses - 1 ∧
      ∀ ev, s.state ev = .held → (flushed.cleared (.missWriteback m) cycle).state ev = .queued ∧
        (flushed.cleared (.missWriteback m) cycle).cycle ev = nextCycle ∧
        (flushed.cleared (.missWriteback m) cycle).calls.count (.requeue, ev) =
          s.calls.count (.requeue, ev) + 1 := by
  obtain ⟨-, running⟩ := inv.events.run legal
  have begunEvents : Events (some (.missWriteback m)) s.pendingQueue
      (s.begun (.missWriteback m) port (s.activeMisses - 1)) := running.congr rfl rfl
  obtain ⟨flushed, flushes, events, spec⟩ := begunEvents.flush nextCycle
  have isActive : flushed.activeMisses = s.activeMisses - 1 := spec.activeMisses
  have noneHeld : Events (some (.missWriteback m)) [] ({ flushed with pendingQueue := [] } : MSHRs) :=
    events.congr rfl rfl
  have dones : ∀ ev, ev ≠ .missWriteback m →
      ((flushed.cleared (.missWriteback m) cycle).state ev = .done ↔ s.state ev = .done) := by
    intro ev ne
    rw [cleared, set_state_of_ne _ ne]
    change flushed.state ev = .done ↔ s.state ev = .done
    by_cases member : ev ∈ s.pendingQueue
    · rw [(spec.queued ev member).1, (inv.events.held ev).mp member]
      decide
    · rw [(spec.others ev member).1]
      rw [begun_state ne]
  have inFlight : s.InFlight m := ⟨legal.ready inv.events, legal.notDone⟩
  have ends : ¬ (flushed.cleared (.missWriteback m) cycle).InFlight m :=
    fun stays => stays.2 (set_state_self ..)
  obtain ⟨notZero, active⟩ := inv.active.finish inFlight ends
    fun m' ne => and_congr (dones _ (by simp)) (not_congr (dones _ (by simpa using ne)))
  refine ⟨notZero, flushed, flushes, events.own_state, ⟨⟨?_, ?_, fun notEmpty => absurd rfl notEmpty⟩,
    noneHeld.done cycle⟩, isActive, fun ev isHeld => ?_⟩
  · rw [← isActive] at active
    exact active
  · change flushed.activeMisses ≤ numMSHRs
    rw [isActive]
    exact Nat.le_trans (Nat.sub_le _ _) inv.bounded
  · have member := (inv.events.held ev).mpr isHeld
    have ne : ev ≠ .missWriteback m := by
      rintro rfl
      exact inv.events.waiting _ member
    obtain ⟨state, isCycle⟩ := spec.queued ev member
    refine ⟨?_, ?_, ?_⟩
    · rw [cleared, set_state_of_ne _ ne]
      exact state
    · exact (Function.update_of_ne ne ..).trans isCycle
    · rw [cleared, count_set_of_ne ne]
      change flushed.calls.count _ = _
      rw [spec.requeues, List.count_eq_one_of_mem inv.events.nodup member]
      rw [begun_calls ne]

theorem releaseMSHR_eq {ev : EventId} {cycle nextCycle : Nat} (isNext : u64 (cycle + 1) = nextCycle)
    {start flushed : MSHRs} {queue : List EventId} (isQueue : s.pendingQueue = queue)
    (isStart : { s with activeMisses := s.activeMisses - 1 } = start) (notZero : s.activeMisses ≠ 0)
    (flushes : queue.foldlM (fun s qev => s.requeue qev nextCycle) start = some flushed)
    (isRunning : flushed.state ev = .running) :
    s.releaseMSHR ev cycle = some (flushed.cleared ev cycle) := by
  unfold releaseMSHR
  rw [if_neg notZero, isNext, isStart, isQueue, flushes]
  exact if_pos isRunning

theorem simulateMissWriteback_granted {ev : EventId} {cycle : Nat} {granted : Nat × TagPort}
    (access : s.port.tryLowPrioAccess cycle = granted) (isGranted : granted.1 ≠ 0) :
    s.simulateMissWriteback ev cycle = ({ s with port := granted.2 } : MSHRs).releaseMSHR ev cycle := by
  unfold simulateMissWriteback
  rw [access]
  exact if_pos isGranted

theorem simulateMissWriteback_denied {ev : EventId} {cycle nextCycle : Nat} {granted : Nat × TagPort}
    (access : s.port.tryLowPrioAccess cycle = granted) (isNext : u64 (cycle + 1) = nextCycle)
    (isDenied : ¬ granted.1 ≠ 0) (isRunning : s.state ev = .running) :
    s.simulateMissWriteback ev cycle =
      some (({ s with port := granted.2 } : MSHRs).set ev .requeue .queued nextCycle) := by
  unfold simulateMissWriteback
  rw [access, isNext]
  exact (if_neg isDenied).trans (if_pos (.inl isRunning))

theorem writeback_spec (inv : Inv numMSHRs s) {m cycle : Nat}
    (legal : s.legal ⟨.missWriteback m, cycle⟩) :
    ∃ s', (s.set (.missWriteback m) .run .running (s.cycle (.missWriteback m))).simulateMissWriteback
        (.missWriteback m) cycle = some s' ∧ Inv numMSHRs s' ∧ Requeues cycle s s' := by
  obtain ⟨-, running⟩ := inv.events.run legal
  obtain ⟨nextCycle, isNext⟩ : ∃ nextCycle, u64 (cycle + 1) = nextCycle := ⟨_, rfl⟩
  obtain ⟨granted, access⟩ : ∃ granted, s.port.tryLowPrioAccess cycle = granted := ⟨_, rfl⟩
  by_cases isGranted : granted.1 ≠ 0
  · obtain ⟨notZero, flushed, flushes, isRunning, inv', isActive, requeued⟩ :=
      release_spec inv legal granted.2 nextCycle
    refine ⟨flushed.cleared (.missWriteback m) cycle, ?_, inv', ?_⟩
    · have access' : (s.set (.missWriteback m) .run .running (s.cycle (.missWriteback m))).port.tryLowPrioAccess
          cycle = granted := access
      rw [simulateMissWriteback_granted access' isGranted]
      exact releaseMSHR_eq isNext rfl rfl notZero flushes isRunning
    · have less : (flushed.cleared (.missWriteback m) cycle).activeMisses < s.activeMisses := by
        change flushed.activeMisses < _
        omega
      unfold Requeues
      rw [if_pos less, isNext]
      exact ⟨rfl, requeued⟩
  · have access' : (s.set (.missWriteback m) .run .running (s.cycle (.missWriteback m))).port.tryLowPrioAccess
        cycle = granted := access
    refine ⟨_, simulateMissWriteback_denied access' isNext isGranted running.own_state,
      ⟨⟨?_, inv.bounded, inv.busy⟩, ?_⟩, ?_⟩
    · have sameDone : ∀ ev, (s.settled (.missWriteback m) .requeue .queued nextCycle).state ev =
          .done ↔ s.state ev = .done := settled_done legal (by decide) _
      exact inv.active.congr (inFlight_congr sameDone)
    · exact (running.requeueOwn id nextCycle).congr rfl rfl
    · exact Requeues.settled legal.notHeld (Nat.le_refl _) .requeue .queued nextCycle rfl rfl

theorem hit_spec (inv : Inv numMSHRs s) {n cycle : Nat} (legal : s.legal ⟨.hit n, cycle⟩) :
    (s.set (.hit n) .run .running (s.cycle (.hit n))).simulateHit numMSHRs (.hit n) cycle = none ∧
        s.port.highPrioAccess cycle = none ∨
      ∃ s', (s.set (.hit n) .run .running (s.cycle (.hit n))).simulateHit numMSHRs (.hit n) cycle =
        some s' ∧ Inv numMSHRs s' ∧ Requeues cycle s s' := by
  have port : (s.set (.hit n) .run .running (s.cycle (.hit n))).port = s.port := rfl
  have sameActive : (s.set (.hit n) .run .running (s.cycle (.hit n))).activeMisses = s.activeMisses := rfl
  unfold simulateHit
  rw [port, sameActive]
  by_cases free : s.activeMisses < numMSHRs
  · rw [if_pos free]
    cases s.port.highPrioAccess cycle with
    | none => exact .inl ⟨rfl, rfl⟩
    | some granted =>
        have same : ∀ m, (s.settled (.hit n) .done .done granted.1).InFlight m ↔ s.InFlight m :=
          fun m => inFlight_settled (by simp) (by simp) ..
        obtain ⟨s', serves, spec⟩ := serve_spec inv legal granted.2 granted.1 (inv.active.congr same)
          (Nat.le_refl _) inv.bounded inv.busy
        exact .inr ⟨s', serves, spec⟩
  · rw [if_neg free]
    exact .inr (hold_spec inv legal trivial free)

theorem missStart_spec (inv : Inv numMSHRs s) {m cycle : Nat} (legal : s.legal ⟨.missStart m, cycle⟩) :
    (s.set (.missStart m) .run .running (s.cycle (.missStart m))).simulateMissStart numMSHRs (.missStart m)
        cycle = none ∧ s.port.highPrioAccess cycle = none ∨
      ∃ s', (s.set (.missStart m) .run .running (s.cycle (.missStart m))).simulateMissStart numMSHRs
        (.missStart m) cycle = some s' ∧ Inv numMSHRs s' ∧ Requeues cycle s s' := by
  have port : (s.set (.missStart m) .run .running (s.cycle (.missStart m))).port = s.port := rfl
  have sameActive : (s.set (.missStart m) .run .running (s.cycle (.missStart m))).activeMisses =
    s.activeMisses := rfl
  unfold simulateMissStart
  rw [port, sameActive]
  by_cases free : s.activeMisses < numMSHRs
  · rw [if_pos free]
    cases s.port.highPrioAccess cycle with
    | none => exact .inl ⟨rfl, rfl⟩
    | some granted =>
        obtain ⟨before, after⟩ := started_inFlight inv legal.notDone granted.1
        have active := inv.active.start before after fun m' ne =>
          inFlight_settled (by simpa using ne.symm) (by simp) .done .done granted.1
        obtain ⟨s', serves, spec⟩ := serve_spec inv legal granted.2 granted.1 active (Nat.le_succ _) free
          fun notEmpty => absurd (inv.busy notEmpty) (Nat.ne_of_lt free)
        exact .inr ⟨s', serves, spec⟩
  · rw [if_neg free]
    exact .inr (hold_spec inv legal trivial free)

/-- An event that is dequeued keeps the invariant, unless it fails the assertion of the port. -/
theorem simulate_spec (inv : Inv numMSHRs s) (legal : s.legal i) :
    s.simulate numMSHRs i.ev i.cycle = none ∧ s.port.highPrioAccess i.cycle = none ∨
      ∃ s', s.simulate numMSHRs i.ev i.cycle = some s' ∧ Inv numMSHRs s' ∧ Requeues i.cycle s s' := by
  obtain ⟨ev, cycle⟩ := i
  have runs : s.run ev = some (s.set ev .run .running (s.cycle ev)) := (inv.events.run legal).1
  unfold simulate
  rw [runs]
  simp only [Option.bind_eq_bind, Option.bind_some]
  cases ev with
  | hit n => exact hit_spec inv legal
  | missStart m => exact missStart_spec inv legal
  | missResponse m =>
      have same : ∀ m', (s.settled (.missResponse m) .done .done cycle).InFlight m' ↔ s.InFlight m' :=
        fun m' => inFlight_settled (by simp) (by simp) ..
      obtain ⟨s', serves, spec⟩ := serve_spec inv legal s.port cycle (inv.active.congr same)
        (Nat.le_refl _) inv.bounded inv.busy
      exact .inr ⟨s', serves, spec⟩
  | missWriteback m => exact .inr (writeback_spec inv legal)

end Steps

/-! ## Runs -/

theorem Inv.init (numMSHRs : Nat) : Inv numMSHRs init where
  active := ⟨[], .nil, rfl, fun _ => iff_of_false List.not_mem_nil fun inFlight => nomatch inFlight.1⟩
  bounded := Nat.zero_le _
  busy := fun notEmpty => absurd rfl notEmpty
  events :=
    { running := fun _ => iff_of_false nofun nofun
      nodup := .nil
      held := fun _ => iff_of_false List.not_mem_nil nofun
      waiting := fun _ member => absurd member List.not_mem_nil
      once := Once.init
      order := fun _ notNone => absurd rfl notNone }

/-- Each state of a run: the misses in flight are counted, nothing that is held is lost, and no event
runs but for its first time or for a requeue. -/
structure Conserved (numMSHRs : Nat) (s : MSHRs) : Prop extends Accounted numMSHRs s where
  nodup : s.pendingQueue.Nodup
  held : ∀ ev, ev ∈ s.pendingQueue ↔ s.state ev = .held
  waiting : ∀ ev ∈ s.pendingQueue, waits ev
  settled : ∀ ev, s.state ev ≠ .running
  once : ∀ ev, s.Once ev

theorem Inv.conserved {numMSHRs : Nat} {s : MSHRs} (inv : Inv numMSHRs s) : Conserved numMSHRs s where
  toAccounted := inv.toAccounted
  nodup := inv.events.nodup
  held := inv.events.held
  waiting := inv.events.waiting
  settled := fun ev running => nomatch (inv.events.running ev).mp running
  once := inv.events.once

/-- For every number of MSHRs and every order of the events: only the tag port can fail an
assertion, every release requeues what is held exactly once, and every state is accounted for. -/
theorem mshrs_accounted (numMSHRs : Nat) (inputs : List Dequeue)
    (legal : (machine numMSHRs).LegalRun inputs init) :
    (machine numMSHRs).Along (fun s i =>
        ((machine numMSHRs).step s i = none → s.port.highPrioAccess i.cycle = none) ∧
          ∀ s', (machine numMSHRs).step s i = some s' → Requeues i.cycle s s') inputs init ∧
      (machine numMSHRs).Throughout (Conserved numMSHRs) inputs init := by
  have keeps : ∀ s i next, Inv numMSHRs s → (machine numMSHRs).legal s i →
      (machine numMSHRs).step s i = some next → Inv numMSHRs next := by
    intro s i next inv legal step
    rcases simulate_spec inv legal with ⟨fails, -⟩ | ⟨s', steps, inv', -⟩
    · cases fails.symm.trans step
    · cases Option.some.inj (step.symm.trans steps)
      exact inv'
  constructor
  · have always : (machine numMSHRs).Along (fun _ _ => True) inputs init :=
      Machine.along_of_forall (fun _ _ _ => trivial) _
    refine legal.along (fun s i next inv _ => keeps s i next inv) (fun s i inv _ legal => ?_)
      (Inv.init numMSHRs) always
    rcases simulate_spec inv legal with ⟨fails, port⟩ | ⟨s', steps, -, requeues⟩
    · exact ⟨fun _ => port, fun next step => nomatch fails.symm.trans step⟩
    · refine ⟨fun fails => (nomatch fails.symm.trans steps), fun next step => ?_⟩
      cases Option.some.inj (step.symm.trans steps)
      exact requeues
  · rintro first rest mid rfl run
    exact (Machine.exec_keeps keeps (Inv.init numMSHRs) legal.of_append run).conserved

/-- One MSHR: a miss and a hit are held, requeued by the release, and the hit is held again. -/
def oneMSHR : List Dequeue :=
  [⟨.missStart 0, 10⟩, ⟨.missStart 1, 11⟩, ⟨.hit 0, 12⟩, ⟨.missResponse 0, 20⟩, ⟨.missWriteback 0, 22⟩,
    ⟨.missStart 1, 23⟩, ⟨.hit 0, 23⟩, ⟨.missResponse 1, 30⟩, ⟨.missWriteback 1, 32⟩, ⟨.hit 0, 33⟩]

theorem mshrs_accounted_one :
    (machine 1).Along (fun s i =>
        ((machine 1).step s i = none → s.port.highPrioAccess i.cycle = none) ∧
          ∀ s', (machine 1).step s i = some s' → Requeues i.cycle s s') oneMSHR init ∧
      (machine 1).Throughout (Conserved 1) oneMSHR init :=
  mshrs_accounted 1 oneMSHR (by decide +kernel)

end MSHRs

end Zsim.TimingCache
