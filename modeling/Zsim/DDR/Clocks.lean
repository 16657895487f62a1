import Zsim.DDR.Runs
import Zsim.Lib.Word

/-!
# System and memory cycles

The translations of ddr_mem.h with the arithmetic of `uint64_t`, for any two frequencies that the
constructor accepts, and what the controller relies on: a tick finds the memory cycle it was
queued for.
-/

set_option autoImplicit false

namespace Zsim.DDR

structure Frequencies where
  sysFreqKHz : Nat
  memFreqKHz : Nat
  pos : 0 < memFreqKHz
  /-- the constructor panics otherwise -/
  slower : memFreqKHz < sysFreqKHz / 2

namespace Frequencies

variable (f : Frequencies)

def sysToMemCycle (sysCycle : Nat) : Nat := u64 (u64 (sysCycle * f.memFreqKHz) / f.sysFreqKHz + 1)

def memToSysCycle (memCycle : Nat) : Nat := u64 (u64 (memCycle + 1) * f.sysFreqKHz) / f.memFreqKHz

def matchingMemToSysCycle (memCycle : Nat) : Nat :=
  u64 (u64Sub (u64 (2 * memCycle)) 1 * f.sysFreqKHz) / f.memFreqKHz / 2

variable {f}

theorem sys_pos : 2 < f.sysFreqKHz := by
  have pos := f.pos
  have slower := f.slower
  omega

theorem sysToMemCycle_eq {sysCycle : Nat} (fits : sysCycle * f.memFreqKHz < 2 ^ 64) :
    f.sysToMemCycle sysCycle = sysCycle * f.memFreqKHz / f.sysFreqKHz + 1 := by
  have sysPos := f.sys_pos
  have smaller := Nat.div_le_div_left (c := 2) sysPos.le (by decide) (a := sysCycle * f.memFreqKHz)
  rw [sysToMemCycle, u64_of_lt fits, u64_of_lt (by omega)]

theorem memToSysCycle_eq {memCycle : Nat} (fits : (memCycle + 1) * f.sysFreqKHz < 2 ^ 64) :
    f.memToSysCycle memCycle = (memCycle + 1) * f.sysFreqKHz / f.memFreqKHz := by
  have le := Nat.le_mul_of_pos_right (memCycle + 1) (Nat.zero_lt_of_lt f.sys_pos)
  rw [memToSysCycle, u64_of_lt (Nat.lt_of_le_of_lt le fits), u64_of_lt fits]

theorem matchingMemToSysCycle_eq {memCycle : Nat} (pos : 1 ≤ memCycle)
    (fits : (2 * memCycle - 1) * f.sysFreqKHz < 2 ^ 64) :
    f.matchingMemToSysCycle memCycle = (2 * memCycle - 1) * f.sysFreqKHz / f.memFreqKHz / 2 := by
  have small : (2 * memCycle - 1) * 2 ≤ (2 * memCycle - 1) * f.sysFreqKHz :=
    Nat.mul_le_mul_left _ f.sys_pos.le
  have word : 2 * memCycle < 2 ^ 64 := by omega
  rw [matchingMemToSysCycle, u64_of_lt word, u64Sub_of_le word (by omega), u64_of_lt fits]

theorem matching_mul_le (f : Frequencies) (memCycle : Nat) :
    (2 * memCycle - 1) * f.sysFreqKHz / f.memFreqKHz / 2 * f.memFreqKHz ≤
      (2 * memCycle - 1) * f.sysFreqKHz :=
  Nat.le_trans (Nat.mul_le_mul_right _ (Nat.div_le_self _ 2)) (Nat.div_mul_le_self _ _)

theorem sysToMem_matching {memCycle : Nat} (pos : 1 ≤ memCycle)
    (fits : (2 * memCycle - 1) * f.sysFreqKHz < 2 ^ 64) :
    f.sysToMemCycle (f.matchingMemToSysCycle memCycle) = memCycle := by
  have slower := f.slower
  have back := Nat.lt_of_le_of_lt (f.matching_mul_le memCycle) fits
  rw [matchingMemToSysCycle_eq pos fits, sysToMemCycle_eq back]
  exact Config.matching_cancels f.pos (by omega) pos

theorem sysToMem_mono {a b : Nat} (le : a ≤ b) (fits : b * f.memFreqKHz < 2 ^ 64) :
    f.sysToMemCycle a ≤ f.sysToMemCycle b := by
  have products := Nat.mul_le_mul_right f.memFreqKHz le
  rw [sysToMemCycle_eq fits, sysToMemCycle_eq (Nat.lt_of_le_of_lt products fits)]
  exact Nat.succ_le_succ (Nat.div_le_div_right products)

theorem memToSys_mono {a b : Nat} (le : a ≤ b) (fits : (b + 1) * f.sysFreqKHz < 2 ^ 64) :
    f.memToSysCycle a ≤ f.memToSysCycle b := by
  have products := Nat.mul_le_mul_right f.sysFreqKHz (Nat.succ_le_succ le)
  rw [memToSysCycle_eq fits, memToSysCycle_eq (Nat.lt_of_le_of_lt products fits)]
  exact Nat.div_le_div_right products

theorem matching_mono {a b : Nat} (pos : 1 ≤ a) (le : a ≤ b)
    (fits : (2 * b - 1) * f.sysFreqKHz < 2 ^ 64) :
    f.matchingMemToSysCycle a ≤ f.matchingMemToSysCycle b := by
  have factors : 2 * a - 1 ≤ 2 * b - 1 := by omega
  have products := Nat.mul_le_mul_right f.sysFreqKHz factors
  rw [matchingMemToSysCycle_eq (Nat.le_trans pos le) fits,
    matchingMemToSysCycle_eq pos (Nat.lt_of_le_of_lt products fits)]
  exact Nat.div_le_div_right (Nat.div_le_div_right products)

end Frequencies

def Config.frequencies (c : Config) : Frequencies where
  sysFreqKHz := c.sysFreqKHz
  memFreqKHz := c.timing.memFreqKHz
  pos := c.timing_ok.2.2
  slower := c.slower

theorem Config.frequencies_sysToMemCycle (c : Config) {sysCycle : Nat}
    (fits : sysCycle * c.timing.memFreqKHz < 2 ^ 64) :
    c.frequencies.sysToMemCycle sysCycle = c.sysToMemCycle sysCycle :=
  Frequencies.sysToMemCycle_eq (f := c.frequencies) fits

/-! ## The cycles of the events -/

/-- Whatever is queued on the way from `d` to `d'` is queued at or after `sysCycle`. -/
def Scheduling.QueuedFrom (sysCycle : Nat) (d d' : Scheduling) : Prop :=
  ∀ e, (d'.events e).state = .queued → d'.events e = d.events e ∨ sysCycle ≤ (d'.events e).cycle

namespace Scheduling.QueuedFrom

variable {sysCycle : Nat} {d d' d'' : Scheduling}

theorem of_events (same : d'.events = d.events) : QueuedFrom sysCycle d d' :=
  fun e _ => .inl (congrFun same e)

theorem trans (first : QueuedFrom sysCycle d d') (second : QueuedFrom sysCycle d' d'') :
    QueuedFrom sysCycle d d'' := by
  intro e queued
  rcases second e queued with same | inTime
  · rw [same] at queued ⊢
    exact first e queued
  · exact .inr inTime

theorem set (sysCycle : Nat) (d : Scheduling) (e : Nat) (event : SchedEvent)
    (inTime : event.state = .queued → sysCycle ≤ event.cycle) : QueuedFrom sysCycle d (d.set e event) := by
  intro other queued
  by_cases same : other = e
  · subst same
    rw [Scheduling.set_events_self] at queued ⊢
    exact .inr (inTime queued)
  · exact .inl (Scheduling.set_events_of_ne event same)

theorem annulNext (annuls : d.annulNext = some d') : QueuedFrom sysCycle d d' := by
  unfold Scheduling.annulNext at annuls
  split at annuls
  · unfold annul at annuls
    split at annuls
    · cases annuls
      exact set _ d _ _ fun queued => SchedState.noConfusion queued
    · cases annuls
  · cases annuls
    exact of_events rfl

theorem take (d : Scheduling) : QueuedFrom sysCycle d d.take.2 := by
  unfold Scheduling.take
  split
  · exact of_events rfl
  · exact (set _ d d.allocated _ fun queued => SchedState.noConfusion queued).trans (of_events rfl)

theorem schedule {minSchedCycle enqSysCycle : Nat} (le : sysCycle ≤ enqSysCycle)
    (schedules : d.schedule minSchedCycle enqSysCycle = some d') : QueuedFrom sysCycle d d' := by
  obtain ⟨d₁, annuls, schedules⟩ := Option.bind_eq_some_iff.mp schedules
  obtain ⟨d₂, enqueues, isLast⟩ := Option.bind_eq_some_iff.mp schedules
  cases Option.some.inj isLast
  obtain ⟨-, isSet⟩ := Option.ite_none_right_eq_some.mp enqueues
  cases Option.some.inj isSet
  have queued := set sysCycle d₁.take.2 d₁.take.1 ⟨.queued, enqSysCycle⟩ fun _ => le
  exact (((annulNext annuls).trans (take d₁)).trans queued).trans (of_events rfl)

end Scheduling.QueuedFrom

namespace DDRMemory

variable {c : Config} {s s' : DDRMemory}

theorem respond_scheduling {ev doneCycle : Nat} (responds : s.respond ev doneCycle = some s') :
    s'.scheduling = s.scheduling := by
  obtain ⟨-, isNext⟩ := Option.ite_none_right_eq_some.mp responds
  cases Option.some.inj isNext
  rfl

theorem queue_scheduling {req req' : Request} {memCycle : Nat}
    (queues : s.queue c req memCycle = some (req', s')) : s'.scheduling = s.scheduling := by
  unfold queue at queues
  dsimp only at queues
  split at queues
  · cases queues
  obtain ⟨⟨sent, mid⟩, responds, isNext⟩ := Option.bind_eq_some_iff.mp queues
  cases Option.some.inj isNext
  rw [setQueue_scheduling]
  change mid.scheduling = s.scheduling
  unfold respondWrite at responds
  split at responds
  · obtain ⟨ev, -, responds⟩ := Option.bind_eq_some_iff.mp responds
    obtain ⟨other, responds, isNext⟩ := Option.bind_eq_some_iff.mp responds
    cases Option.some.inj isNext
    exact respond_scheduling responds
  · cases Option.some.inj responds
    rfl

theorem scheduleFor_queuedFrom {req : Request} {memCycle sysCycle : Nat}
    (schedules : s.scheduleFor c req memCycle sysCycle = some s') :
    Scheduling.QueuedFrom sysCycle s.scheduling s'.scheduling := by
  unfold scheduleFor at schedules
  extract_lets next minQueued minSchedCycle enqSysCycle at schedules
  split at schedules
  · obtain ⟨d, isScheduled, isNext⟩ := Option.bind_eq_some_iff.mp schedules
    cases Option.some.inj isNext
    exact .schedule (Nat.le_max_right _ _) isScheduled
  · cases Option.some.inj schedules
    exact .of_events rfl

theorem enqueue_queuedFrom {ev lineAddr : Nat} {isWrite : Bool} {sysCycle : Nat}
    (enqueues : s.enqueue c ev lineAddr isWrite sysCycle = some s') :
    Scheduling.QueuedFrom sysCycle s.scheduling s'.scheduling := by
  obtain ⟨loc, -, enqueues⟩ := Option.bind_eq_some_iff.mp enqueues
  extract_lets req overflow mid at enqueues
  split at enqueues
  · cases Option.some.inj enqueues
    exact .of_events rfl
  obtain ⟨⟨req', queued⟩, queues, enqueues⟩ := Option.bind_eq_some_iff.mp enqueues
  have same : queued.scheduling = mid.scheduling := queue_scheduling queues
  change Scheduling.QueuedFrom sysCycle mid.scheduling s'.scheduling
  rw [← same]
  dsimp only at enqueues
  split at enqueues
  · exact scheduleFor_queuedFrom enqueues
  · cases Option.some.inj enqueues
    exact .of_events rfl

theorem tick_notBefore {sysCycle nextCycle : Nat} (ticks : s.tick c sysCycle = some (nextCycle, s')) :
    nextCycle = 0 ∨ sysCycle ≤ nextCycle := by
  obtain ⟨-, ticks⟩ := Option.ite_none_right_eq_some.mp ticks
  obtain ⟨⟨minSchedCycle, scheduled⟩, -, ticks⟩ := Option.bind_eq_some_iff.mp ticks
  obtain ⟨-, ticks⟩ := Option.ite_none_right_eq_some.mp ticks
  obtain ⟨⟨next, drained⟩, -, ticks⟩ := Option.bind_eq_some_iff.mp ticks
  cases next with
  | none =>
      cases Option.some.inj ticks
      exact .inl rfl
  | some cycle =>
      cases Option.some.inj ticks
      exact .inr (Nat.le_max_right _ _)

/-- What a run of the controller's events is asked to show of one input, for the wrapped
translation of the cycle: the tick is in its cycle, and nothing is queued in the past. -/
def InTime (c : Config) (s : DDRMemory) : Input → Prop
  | .enqueue ev lineAddr isWrite sysCycle => ∀ s', s.enqueue c ev lineAddr isWrite sysCycle = some s' →
      Scheduling.QueuedFrom sysCycle s.scheduling s'.scheduling
  | .simulate e =>
      let event := s.scheduling.events e
      (event.state = .queued → event.cycle * c.timing.memFreqKHz < 2 ^ 64 →
        s.scheduling.nextSchedCycle = some (c.frequencies.sysToMemCycle event.cycle)) ∧
      ∀ s', s.simulate c e = some s' → Scheduling.QueuedFrom event.cycle s.scheduling s'.scheduling
  | .refresh _ | .trySchedule _ => True

theorem recycle_queuedFrom {e sysCycle : Nat} (recycles : s.recycle e = some s') :
    Scheduling.QueuedFrom sysCycle s.scheduling s'.scheduling := by
  obtain ⟨d, isFree, isNext⟩ := Option.bind_eq_some_iff.mp recycles
  cases Option.some.inj isNext
  obtain ⟨-, isNext⟩ := Option.ite_none_right_eq_some.mp isFree
  cases Option.some.inj isNext
  exact .of_events rfl

theorem simulate_queuedFrom (inv : Inv c s) {e : Nat} (runs : s.simulate c e = some s') :
    Scheduling.QueuedFrom (s.scheduling.events e).cycle s.scheduling s'.scheduling := by
  have recycled : ∀ mid : DDRMemory, Scheduling.QueuedFrom (s.scheduling.events e).cycle s.scheduling
      mid.scheduling → (mid.setEvent e { s.scheduling.events e with state := .idle }).recycle e = some s' →
      Scheduling.QueuedFrom (s.scheduling.events e).cycle s.scheduling s'.scheduling := by
    intro mid before recycles
    have idle := Scheduling.QueuedFrom.set (s.scheduling.events e).cycle mid.scheduling e
      { s.scheduling.events e with state := .idle } fun queued => SchedState.noConfusion queued
    exact (before.trans idle).trans (recycle_queuedFrom recycles)
  unfold simulate at runs
  dsimp only at runs
  split at runs
  case h_1 queued =>
    obtain ⟨⟨nextCycle, mid⟩, ticks, runs⟩ := Option.bind_eq_some_iff.mp runs
    dsimp only at runs
    have isNext := inv.scheduling.next_of_queued queued
    obtain ⟨nextCycle', mid', ticks', -, -, result⟩ := tick_spec
      (s := s.setEvent e { s.scheduling.events e with state := .running })
      (Timely.withScheduling inv.timely _) (inv.requests.withScheduling _)
      (inv.scheduling.next e isNext).2.2
    cases Option.some.inj (ticks.symm.trans ticks')
    have events : mid.scheduling.events =
        (s.scheduling.set e { s.scheduling.events e with state := .running }).events := by
      rcases result with ⟨-, -, same⟩ | ⟨-, same⟩ <;> rw [same] <;> rfl
    have begun := Scheduling.QueuedFrom.set (s.scheduling.events e).cycle s.scheduling e
      { s.scheduling.events e with state := .running } fun queued => SchedState.noConfusion queued
    have running := begun.trans (.of_events events)
    split at runs
    case isTrue notZero =>
      cases Option.some.inj runs
      exact running.trans (.set _ mid.scheduling e _ fun _ => (tick_notBefore ticks).resolve_left notZero)
    case isFalse => exact recycled mid running runs
  case h_2 annulled => exact recycled s (.of_events rfl) runs
  case h_3 => cases runs

theorem inTime (inv : Inv c s) (i : Input) : InTime c s i := by
  cases i with
  | enqueue ev lineAddr isWrite sysCycle => exact fun s' enqueues => enqueue_queuedFrom enqueues
  | simulate e =>
      refine ⟨fun queued fits => ?_, fun s' runs => simulate_queuedFrom inv runs⟩
      have isNext := inv.scheduling.next_of_queued queued
      rw [(inv.scheduling.next e isNext).2.2]
      exact congrArg some (c.frequencies_sysToMemCycle fits).symm
  | refresh => trivial
  | trySchedule => trivial

end DDRMemory

/-- The translations cancel and are monotone as long as their products fit, and in every run of
a controller no check fails: each tick is in the cycle it was queued for, and every event is
queued at or after the cycle in which this is done. -/
theorem cycles_match :
    (∀ (f : Frequencies) (memCycle : Nat), 1 ≤ memCycle →
      (2 * memCycle - 1) * f.sysFreqKHz < 2 ^ 64 →
        f.sysToMemCycle (f.matchingMemToSysCycle memCycle) = memCycle) ∧
    (∀ (f : Frequencies) (a b : Nat), a ≤ b →
      (b * f.memFreqKHz < 2 ^ 64 → f.sysToMemCycle a ≤ f.sysToMemCycle b) ∧
      ((b + 1) * f.sysFreqKHz < 2 ^ 64 → f.memToSysCycle a ≤ f.memToSysCycle b) ∧
      (1 ≤ a → (2 * b - 1) * f.sysFreqKHz < 2 ^ 64 →
        f.matchingMemToSysCycle a ≤ f.matchingMemToSysCycle b)) ∧
    ∀ (c : Config) (lastCmdWasWrite : Bool) (inputs : List DDRMemory.Input),
      (machine c).LegalRun inputs (.init c lastCmdWasWrite) →
        ((machine c).exec inputs (.init c lastCmdWasWrite)).isSome = true ∧
          (machine c).Along (DDRMemory.InTime c) inputs (.init c lastCmdWasWrite) := by
  refine ⟨fun f memCycle pos fits => f.sysToMem_matching pos fits, fun f a b le =>
    ⟨f.sysToMem_mono le, f.memToSys_mono le, fun pos fits => f.matching_mono pos le fits⟩,
    fun c lastCmdWasWrite inputs legal => ?_⟩
  obtain ⟨final, run, -⟩ := DDRMemory.step_preserves.exec (DDRMemory.Inv.init lastCmdWasWrite) legal
  refine ⟨by rw [run]; rfl, ?_⟩
  have always : (machine c).Along (fun _ _ => True) inputs (.init c lastCmdWasWrite) :=
    Machine.along_of_forall (fun _ _ _ => trivial) _
  exact legal.along (fun _ _ _ inv _ legal step => DDRMemory.step_preserves.keeps inv legal step)
    (fun _ i inv _ _ => DDRMemory.inTime inv i) (DDRMemory.Inv.init lastCmdWasWrite) always

theorem cycles_match_five :
    (let f : Frequencies := ⟨2000000, 666666, by decide, by decide⟩
     f.sysToMemCycle (f.matchingMemToSysCycle 35) = 35 ∧ f.sysToMemCycle 100 ≤ f.sysToMemCycle 103 ∧
       f.memToSysCycle 34 ≤ f.memToSysCycle 35 ∧
       f.matchingMemToSysCycle 34 ≤ f.matchingMemToSysCycle 35) ∧
    ((machine (twoBanks 2)).exec fiveRequests (.init (twoBanks 2) true)).isSome = true ∧
      (machine (twoBanks 2)).Along (DDRMemory.InTime (twoBanks 2)) fiveRequests
        (.init (twoBanks 2) true) := by
  obtain ⟨cancels, mono, runs⟩ := cycles_match
  refine ⟨⟨cancels _ 35 (by decide) (by decide), (mono _ 100 103 (by decide)).1 (by decide),
    (mono _ 34 35 (by decide)).2.1 (by decide),
    (mono _ 34 35 (by decide)).2.2 (by decide) (by decide)⟩, runs (twoBanks 2) true fiveRequests ?_⟩
  decide +kernel

end Zsim.DDR
