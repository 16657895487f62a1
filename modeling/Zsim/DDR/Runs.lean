import Zsim.DDR.Ticks

/-!
# Runs of the controller

The commands of every run keep their distance, and no request is lost.  A controller whose
queues have no entries accepts requests all the same, and never ticks.
-/

set_option autoImplicit false

namespace Zsim.DDR

variable {c : Config}

namespace DDRMemory

theorem scheduleFor_spec {s : DDRMemory} (timely : Timely c s) (requests : Requests c s)
    (ok : s.scheduling.Ok c) (req : Request) (sysCycle : Nat) :
    ∃ s', s.scheduleFor c req (c.sysToMemCycle sysCycle) sysCycle = some s' ∧ Timely c s' ∧
      Requests c s' ∧ s'.scheduling.Ok c ∧ s'.scheduling.nextSchedEvent ≠ none := by
  obtain ⟨minSchedCycle, isMin⟩ : ∃ cycle, cycle =
      if later s.scheduling.nextSchedCycle (s.minQueuedSchedCycle c (c.sysToMemCycle sysCycle)) then
        max (s.minQueuedSchedCycle c (c.sysToMemCycle sysCycle)) (s.findMinCmdCycle c req)
      else s.minQueuedSchedCycle c (c.sysToMemCycle sysCycle) := ⟨_, rfl⟩
  have le : c.sysToMemCycle sysCycle ≤ minSchedCycle := by
    have queued : c.sysToMemCycle sysCycle ≤ s.minQueuedSchedCycle c (c.sysToMemCycle sysCycle) :=
      Nat.le_max_left _ _
    rw [isMin]
    split <;> omega
  unfold scheduleFor
  simp only [← isMin]
  by_cases isLater : later s.scheduling.nextSchedCycle minSchedCycle = true
  · rw [if_pos isLater]
    obtain ⟨d, schedules, ok', next⟩ := ok.schedule (c.sysToMem_enq le)
    rw [schedules]
    exact ⟨_, rfl, Timely.withScheduling timely d, requests.withScheduling d, ok', next⟩
  · rw [if_neg isLater]
    refine ⟨s, rfl, timely, requests, ok, fun isNone => ?_⟩
    rw [ok.noNext isNone] at isLater
    exact isLater rfl

theorem enqueue_spec {s : DDRMemory} (inv : Inv c s) {ev lineAddr : Nat} (isWrite : Bool) (sysCycle : Nat)
    (fresh : ev ∉ s.accepted.map Prod.fst) (maps : (c.mapLineAddr lineAddr).isSome = true) :
    ∃ s', s.enqueue c ev lineAddr isWrite sysCycle = some s' ∧ Inv c s' := by
  obtain ⟨loc, isLoc⟩ := Option.isSome_iff_exists.mp maps
  let req : Request :=
    { id := ev, loc := loc, write := isWrite, rowHitSeq := 0, arrivalCycle := c.sysToMemCycle sysCycle
      ev := some ev }
  have fresh' : req.id ∉ s.accepted.map Prod.fst := fresh
  have accept := fun (overflow : List Request) (perm : overflow.Perm (req :: s.overflowQueue)) =>
    inv.requests.accept fresh' (c.mapLineAddr_mem isLoc) rfl perm
  unfold enqueue
  simp only [isLoc, Option.bind_eq_bind, Option.bind_some]
  by_cases isFull : (full c s.rdQueue || full c s.wrQueue) = true
  · rw [if_pos isFull]
    refine ⟨_, rfl, Timely.congr inv.timely rfl rfl rfl fun _ => ⟨_, _, rfl⟩,
      accept _ (List.perm_append_singleton _ _), inv.scheduling, fun depth _ => ?_, fun zero => ?_⟩
    · refine inv.pending depth ?_
      rcases Bool.or_eq_true_iff.mp isFull with isFull | isFull
      · exact .inl (notEmpty_of_full depth isFull)
      · exact .inr (.inl (notEmpty_of_full depth isFull))
    · have stuck := inv.stuck zero
      exact ⟨stuck.noReads, stuck.noWrites, stuck.noneServed, stuck.noEvents⟩
  · rw [if_neg isFull]
    rw [Bool.or_eq_true, not_or] at isFull
    have room : ∀ wr, full c (s.reqQueue wr) = false := by
      intro wr
      cases wr
      · exact eq_false_of_ne_true isFull.1
      · exact eq_false_of_ne_true isFull.2
    have depth : c.queueDepth ≠ 0 := fun zero => isFull.1 (full_of_depth_zero zero _)
    obtain ⟨req', s', queues, requests, sameTiming, -, -, queued⟩ :=
      queue_spec (accept _ (.refl _)) rfl (room _) (c.sysToMemCycle sysCycle)
    have timely := sameTiming.timely (Timely.congr inv.timely rfl rfl rfl fun _ => ⟨_, _, rfl⟩)
    have ok : s'.scheduling.Ok c := by
      rw [sameTiming.scheduling]
      exact inv.scheduling
    rw [show queue c _ _ _ = some (req', s') from queues]
    simp only [Option.bind_some]
    by_cases isFirst : s'.isFirst c req' = true
    · rw [if_pos isFirst]
      obtain ⟨s'', schedules, timely', requests', ok', next⟩ :=
        scheduleFor_spec timely requests ok req' sysCycle
      exact ⟨s'', schedules, timely', requests', ok', fun _ _ => next, fun zero => absurd zero depth⟩
    · rw [if_neg isFirst]
      refine ⟨s', rfl, timely, requests, ok, fun depth _ => ?_, fun zero => absurd zero depth⟩
      rw [sameTiming.scheduling]
      refine inv.pending depth ?_
      by_contra noneBefore
      have none : ∀ wr, s.reqQueue wr = [] := by
        intro wr
        by_contra notEmpty
        cases wr with
        | true => exact noneBefore (.inr (.inl notEmpty))
        | false => exact noneBefore (.inl notEmpty)
      have only : s'.reqQueue (useWrQueue c req) = [req'] := by
        rw [queued]
        change s.reqQueue _ ++ [req'] = [req']
        rw [none]
        rfl
      exact isFirst (first_of_empty requests only)

theorem step_preserves : (machine c).Preserves (Inv c) := by
  intro s input inv legal
  cases input with
  | enqueue ev lineAddr isWrite sysCycle => exact enqueue_spec inv isWrite sysCycle legal.1 legal.2
  | simulate e => exact simulate_spec inv legal
  | refresh sysCycle =>
      obtain ⟨s', run, timely, same⟩ := refresh_spec inv.timely sysCycle
      refine ⟨s', run, timely, inv.requests.congr same, ?_, fun depth pending => ?_, fun zero => ?_⟩
      · rw [same.scheduling]
        exact inv.scheduling
      · rw [same.scheduling]
        refine inv.pending depth ?_
        rwa [Pending, same.rdQueue, same.wrQueue, same.overflowQueue] at pending
      · have stuck := inv.stuck zero
        exact ⟨by rw [same.rdQueue]; exact stuck.noReads, by rw [same.wrQueue]; exact stuck.noWrites,
          by rw [same.served]; exact stuck.noneServed, by rw [same.scheduling]; exact stuck.noEvents⟩
  | trySchedule sysCycle =>
      obtain ⟨minSchedCycle, s', run, scheduled⟩ := trySchedule_spec inv.timely inv.requests sysCycle
      refine ⟨s', ?_, scheduled.timely, scheduled.requests, ?_, fun depth pending => ?_, fun zero => ?_⟩
      · change (s.trySchedule c (c.sysToMemCycle sysCycle) sysCycle).map Prod.snd = _
        rw [run]
        rfl
      · rw [scheduled.scheduling]
        exact inv.scheduling
      · rw [scheduled.scheduling]
        refine inv.pending depth ?_
        by_contra noneBefore
        have noReads : s.rdQueue = [] := by
          by_contra notEmpty
          exact noneBefore (.inl notEmpty)
        have noWrites : s.wrQueue = [] := by
          by_contra notEmpty
          exact noneBefore (.inr (.inl notEmpty))
        rw [scheduled.idle noReads noWrites] at pending
        exact noneBefore pending
      · have stuck := inv.stuck zero
        rw [scheduled.idle stuck.noReads stuck.noWrites]
        exact stuck

end DDRMemory

/-- In every run of the controller, for every technology and line size: no assertion fails,
the commands of the banks and of the bus keep their distance, and a column command comes
tRCD after the activation of its row. -/
theorem commands_keep_timing (lastCmdWasWrite : Bool) (inputs : List DDRMemory.Input)
    (legal : (machine c).LegalRun inputs (.init c lastCmdWasWrite)) :
    ∃ final, (machine c).exec inputs (.init c lastCmdWasWrite) = some final ∧
      final.commands.Pairwise c.timing.Respects ∧ c.timing.InActiveRow final.commands := by
  obtain ⟨final, run, inv⟩ := DDRMemory.step_preserves.exec (DDRMemory.Inv.init lastCmdWasWrite) legal
  exact ⟨final, run, inv.timely.apart, inv.timely.inRow⟩

/-- A rank of two banks, with the row above the bits 0 to 4 of a line address. -/
def twoBanks (queueDepth : Nat) : Config where
  techName := "DDR3-1333-CL10"
  lineSize := 64
  timing := { tBL := 4, tCL := 10, tRCD := 10, tRTP := 5, tRP := 10, tRRD := 4, tRAS := 24, tFAW := 20,
              tWTR := 5, tWR := 10, tRFC := 74, tREFI := 5200, memFreqKHz := 666666 }
  accepted := by decide +kernel
  sysFreqKHz := 2000000
  slower := by decide
  ranksPerChannel := 1
  banksPerRank := 2
  rankShift := 4
  bankShift := 0
  rowShift := 5
  controllerSysLatency := 10
  queueDepth := queueDepth
  rowHitLimit := 4
  deferredWrites := true
  closedPage := false

/-- Reads and a write, three of them more than fit, and a refresh. -/
def fiveRequests : List DDRMemory.Input :=
  [.enqueue 0 0 false 100, .enqueue 1 0 false 101, .enqueue 2 33 true 102, .enqueue 3 1 false 103,
    .enqueue 4 32 false 103, .simulate 0, .simulate 0, .refresh 300, .simulate 0, .simulate 0,
    .simulate 0, .simulate 0, .trySchedule 700, .simulate 0]

theorem commands_keep_timing_five :
    ∃ final, (machine (twoBanks 2)).exec fiveRequests (.init (twoBanks 2) true) = some final ∧
      final.commands.Pairwise (twoBanks 2).timing.Respects ∧
        (twoBanks 2).timing.InActiveRow final.commands :=
  commands_keep_timing true fiveRequests (by decide +kernel)

/-- Every accepted request is in one place and is answered once, and a tick is queued as
long as there is one. -/
structure Accounted (c : Config) (s : DDRMemory) : Prop where
  once : (s.accepted.map Prod.fst).Nodup
  places : ∀ id, (ids s.overflowQueue).count id + (ids s.rdQueue).count id + (ids s.wrQueue).count id +
    s.served.count id = (s.accepted.map Prod.fst).count id
  rdReqs : ∀ key, (s.banks key).rdReqs.Perm (s.rdQueue.filter fun r => r.loc.key = key)
  wrReqs : ∀ key, (s.banks key).wrReqs.Perm (s.wrQueue.filter fun r => r.loc.key = key)
  scheduled : s.rdQueue ≠ [] ∨ s.wrQueue ≠ [] ∨ s.overflowQueue ≠ [] →
    ∃ e, s.scheduling.nextSchedEvent = some e ∧ (s.scheduling.events e).state = .queued ∧
      s.scheduling.nextSchedCycle = some (c.sysToMemCycle (s.scheduling.events e).cycle)
  reads : ∀ id, (id, false) ∈ s.accepted → (s.answered.map Prod.fst).count id = s.served.count id
  writes : ∀ id, (id, true) ∈ s.accepted →
    (s.answered.map Prod.fst).count id + (ids s.overflowQueue).count id = 1

end Zsim.DDR
