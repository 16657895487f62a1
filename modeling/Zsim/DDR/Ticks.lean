import Zsim.DDR.Serving

/-!
# The scheduled event

At most one SchedEvent is queued for the controller, at `nextSchedCycle`; the others are
annulled or in the free list.  As long as there is a request there is such an event.
-/

set_option autoImplicit false

namespace Zsim.DDR

variable {c : Config}

/-! ## The events -/

namespace Scheduling

/-- Every event but the controller's own is annulled or free. -/
structure Others (d : Scheduling) (own : Option Nat) : Prop where
  others : ∀ e < d.allocated, some e ≠ own →
    (d.events e).state = .idle ∧ e ∈ d.eventFreelist ∨
      (d.events e).state = .annulled ∧ e ∉ d.eventFreelist
  free : ∀ e ∈ d.eventFreelist, e < d.allocated ∧ some e ≠ own
  nodup : d.eventFreelist.Nodup
  unallocated : ∀ e, d.allocated ≤ e → (d.events e).state = .idle

structure Ok (c : Config) (d : Scheduling) : Prop extends d.Others d.nextSchedEvent where
  next : ∀ e, d.nextSchedEvent = some e → e < d.allocated ∧ (d.events e).state = .queued ∧
    d.nextSchedCycle = some (c.sysToMemCycle (d.events e).cycle)
  noNext : d.nextSchedEvent = none → d.nextSchedCycle = none

theorem Ok.init : Scheduling.init.Ok c where
  others := fun _ lt => absurd lt (Nat.not_lt_zero _)
  free := fun _ member => absurd member List.not_mem_nil
  nodup := .nil
  unallocated := fun _ _ => rfl
  next := fun _ isNext => nomatch isNext
  noNext := fun _ => rfl

theorem Ok.lt_allocated {d : Scheduling} (ok : d.Ok c) {e : Nat} (notIdle : (d.events e).state ≠ .idle) :
    e < d.allocated := by
  by_contra notAllocated
  exact notIdle (ok.unallocated e (Nat.le_of_not_lt notAllocated))

theorem Ok.next_of_queued {d : Scheduling} (ok : d.Ok c) {e : Nat}
    (queued : (d.events e).state = .queued) : d.nextSchedEvent = some e := by
  by_contra notNext
  have lt := ok.lt_allocated (by rw [queued]; decide)
  rcases ok.others e lt (Ne.symm notNext) with ⟨idle, -⟩ | ⟨annulled, -⟩
  · rw [idle] at queued
    cases queued
  · rw [annulled] at queued
    cases queued

@[simp] theorem set_events_self (d : Scheduling) (e : Nat) (event : SchedEvent) :
    (d.set e event).events e = event := Function.update_self ..

theorem set_events_of_ne {d : Scheduling} {e other : Nat} (event : SchedEvent) (ne : other ≠ e) :
    (d.set e event).events other = d.events other := Function.update_of_ne ne ..

theorem Others.congr {d d' : Scheduling} {own : Option Nat} (others : d.Others own)
    (events : d'.events = d.events) (allocated : d'.allocated = d.allocated)
    (eventFreelist : d'.eventFreelist = d.eventFreelist) : d'.Others own where
  others := by
    rw [events, allocated, eventFreelist]
    exact others.others
  free := by
    rw [allocated, eventFreelist]
    exact others.free
  nodup := by
    rw [eventFreelist]
    exact others.nodup
  unallocated := by
    rw [events, allocated]
    exact others.unallocated

theorem Others.set {d : Scheduling} {e : Nat} (others : d.Others (some e)) (lt : e < d.allocated)
    (event : SchedEvent) : (d.set e event).Others (some e) where
  others := fun other lt ne => by
    rw [set_events_of_ne event fun same => ne (congrArg some same)]
    exact others.others other lt ne
  free := others.free
  nodup := others.nodup
  unallocated := fun other le => by
    rw [set_events_of_ne event (Nat.ne_of_gt (Nat.lt_of_lt_of_le lt le))]
    exact others.unallocated other le

theorem Ok.annulNext {d : Scheduling} (ok : d.Ok c) : ∃ d', d.annulNext = some d' ∧ d'.Others none := by
  unfold Scheduling.annulNext
  cases isNext : d.nextSchedEvent with
  | none =>
      have others := ok.toOthers
      rw [isNext] at others
      exact ⟨d, rfl, others⟩
  | some e =>
      have others := ok.toOthers
      rw [isNext] at others
      obtain ⟨lt, queued, -⟩ := ok.next e isNext
      refine ⟨_, if_pos queued, ?_⟩
      have set := others.set lt { d.events e with state := .annulled }
      refine ⟨fun other lt' _ => ?_, fun other member => ⟨(set.free other member).1, (by simp)⟩, set.nodup,
        set.unallocated⟩
      by_cases same : other = e
      · subst same
        rw [set_events_self]
        exact .inr ⟨rfl, fun member => (others.free other member).2 rfl⟩
      · exact set.others other lt' fun isE => same (Option.some.inj isE)

theorem Others.take {d : Scheduling} (others : d.Others none) :
    d.take.2.Others (some d.take.1) ∧ d.take.1 < d.take.2.allocated ∧
      (d.take.2.events d.take.1).state = .idle := by
  unfold Scheduling.take
  cases free : d.eventFreelist with
  | nil =>
      dsimp only
      refine ⟨⟨fun other lt ne => ?_, fun other member => ?_, ?_, fun other le => ?_⟩,
        Nat.lt_succ_self _, ?_⟩
      · have ne' : other ≠ d.allocated := fun same => ne (congrArg some same)
        change other < d.allocated + 1 at lt
        have lt' : other < d.allocated := by omega
        change ((d.set _ _).events other).state = _ ∧ _ ∨ ((d.set _ _).events other).state = _ ∧ _
        rw [set_events_of_ne _ ne']
        exact others.others other lt' (by simp)
      · change other ∈ d.eventFreelist at member
        rw [free] at member
        cases member
      · exact others.nodup
      · change d.allocated + 1 ≤ other at le
        change ((d.set _ _).events other).state = _
        rw [set_events_of_ne _ (Nat.ne_of_gt le)]
        exact others.unallocated other (Nat.le_of_succ_le le)
      · rw [set_events_self]
  | cons e rest =>
      dsimp only
      have nodup := others.nodup
      rw [free, List.nodup_cons] at nodup
      have isFree : e ∈ d.eventFreelist := by rw [free]; exact List.mem_cons_self
      have inRest : ∀ other, other ≠ e → (other ∈ d.eventFreelist ↔ other ∈ rest) := by
        intro other ne
        rw [free, List.mem_cons]
        exact or_iff_right ne
      refine ⟨⟨fun other lt ne => ?_, fun other member => ⟨?_, ?_⟩, nodup.2, others.unallocated⟩,
        (others.free e isFree).1, ?_⟩
      · have ne' : other ≠ e := fun same => ne (congrArg some same)
        rw [← inRest other ne']
        exact others.others other lt (by simp)
      · exact (others.free other (by rw [free]; exact List.mem_cons_of_mem _ member)).1
      · intro same
        cases same
        exact nodup.1 member
      · exact ((others.others e (others.free e isFree).1 (by simp)).resolve_right
          fun annulled => annulled.2 isFree).1

theorem Ok.schedule {d : Scheduling} (ok : d.Ok c) {minSchedCycle enqSysCycle : Nat}
    (matching : c.sysToMemCycle enqSysCycle = minSchedCycle) :
    ∃ d', d.schedule minSchedCycle enqSysCycle = some d' ∧ d'.Ok c ∧ d'.nextSchedEvent ≠ none := by
  obtain ⟨d₁, annuls, others⟩ := ok.annulNext
  obtain ⟨others, lt, idle⟩ := others.take
  have set := others.set lt ⟨.queued, enqSysCycle⟩
  refine ⟨{ d₁.take.2.set d₁.take.1 ⟨.queued, enqSysCycle⟩ with
    nextSchedEvent := some d₁.take.1, nextSchedCycle := some minSchedCycle }, ?_, ⟨⟨set.others, set.free,
      set.nodup, set.unallocated⟩, fun e isNext => ?_, (by simp)⟩, (by simp)⟩
  · unfold Scheduling.schedule
    rw [annuls]
    simp only [Option.bind_eq_bind, Option.bind_some, Scheduling.enqueue, if_pos idle]
  · cases isNext
    refine ⟨lt, ?_⟩
    change ((d₁.take.2.set _ _).events _).state = _ ∧ some minSchedCycle = some (c.sysToMemCycle
      ((d₁.take.2.set _ _).events _).cycle)
    rw [set_events_self]
    exact ⟨rfl, congrArg some matching.symm⟩

theorem Others.recycle {d : Scheduling} {e : Nat} (others : d.Others (some e)) (lt : e < d.allocated)
    (idle : (d.events e).state = .idle) :
    ({ d with eventFreelist := e :: d.eventFreelist } : Scheduling).Others none where
  others := fun other lt' _ => by
    by_cases same : other = e
    · subst same
      exact .inl ⟨idle, List.mem_cons_self⟩
    · have notOwn : some other ≠ some e := fun isE => same (Option.some.inj isE)
      exact (others.others other lt' notOwn).imp (And.imp_right (List.mem_cons_of_mem e))
        (And.imp_right fun notFree member => notFree (List.mem_of_ne_of_mem same member))
  free := fun other member => by
    rcases List.mem_cons.mp member with rfl | old
    · exact ⟨lt, (by simp)⟩
    · exact ⟨(others.free other old).1, (by simp)⟩
  nodup := List.nodup_cons.mpr ⟨fun member => (others.free e member).2 rfl, others.nodup⟩
  unallocated := others.unallocated

theorem Ok.runAnnulled {d : Scheduling} (ok : d.Ok c) {e : Nat} (annulled : (d.events e).state = .annulled)
    (event : SchedEvent) (idle : event.state = .idle) :
    ∃ d', (d.set e event).recycle e = some d' ∧ d'.Ok c ∧ d'.nextSchedEvent = d.nextSchedEvent := by
  have lt : e < d.allocated := by
    by_contra notAllocated
    rw [ok.unallocated e (Nat.le_of_not_lt notAllocated)] at annulled
    cases annulled
  have notNext : some e ≠ d.nextSchedEvent := by
    intro isNext
    rw [(ok.next e isNext.symm).2.1] at annulled
    cases annulled
  have notFree : e ∉ d.eventFreelist := by
    rcases ok.others e lt notNext with ⟨idle, -⟩ | ⟨-, notFree⟩
    · rw [idle] at annulled
      cases annulled
    · exact notFree
  refine ⟨_, if_pos ⟨notNext, notFree⟩, ⟨⟨fun other lt' ne => ?_, fun other member => ?_, ?_,
    fun other le => ?_⟩, fun other isNext => ?_, ok.noNext⟩, rfl⟩
  · by_cases same : other = e
    · subst same
      refine .inl ⟨?_, List.mem_cons_self⟩
      change ((d.set _ _).events _).state = _
      rw [set_events_self]
      exact idle
    · change ((d.set _ _).events _).state = _ ∧ _ ∨ ((d.set _ _).events _).state = _ ∧ _
      rw [set_events_of_ne _ same]
      exact (ok.others other lt' ne).imp (And.imp_right (List.mem_cons_of_mem e))
        (And.imp_right fun notFree member => notFree (List.mem_of_ne_of_mem same member))
  · rcases List.mem_cons.mp member with rfl | old
    · exact ⟨lt, notNext⟩
    · exact ok.free other old
  · exact List.nodup_cons.mpr ⟨notFree, ok.nodup⟩
  · change ((d.set _ _).events _).state = _
    rw [set_events_of_ne _ (Nat.ne_of_gt (Nat.lt_of_lt_of_le lt le))]
    exact ok.unallocated other le
  · have ne : other ≠ e := by
      rintro rfl
      exact notNext isNext.symm
    change _ ∧ ((d.set _ _).events _).state = _ ∧ _ = some (c.sysToMemCycle ((d.set _ _).events _).cycle)
    rw [set_events_of_ne _ ne]
    exact ok.next other isNext

end Scheduling

namespace DDRMemory

open Scheduling (set_events_self set_events_of_ne)

/-! ## The controller -/

theorem Requests.withScheduling {s : DDRMemory} (requests : Requests c s) (d : Scheduling) :
    Requests c { s with scheduling := d } := by
  refine ⟨fun wr r member => ?_, fun r member => ?_, requests.lists, requests.counts, requests.nodup,
    requests.known, requests.reads, requests.writes⟩
  · have before := requests.queued wr r member
    exact ⟨before.queue, before.located, before.accepted, before.ev⟩
  · have before := requests.waits r member
    exact ⟨before.located, before.accepted, before.ev⟩

theorem Timely.withScheduling {s : DDRMemory} (timely : Timely c s) (d : Scheduling) :
    Timely c { s with scheduling := d } :=
  Timely.congr timely rfl rfl rfl fun _ => ⟨_, _, rfl⟩

def Pending (s : DDRMemory) : Prop := s.rdQueue ≠ [] ∨ s.wrQueue ≠ [] ∨ s.overflowQueue ≠ []

/-- A controller without queues holds on to what it accepts. -/
structure Stuck (s : DDRMemory) : Prop where
  noReads : s.rdQueue = []
  noWrites : s.wrQueue = []
  noneServed : s.served = []
  noEvents : s.scheduling.allocated = 0

structure Inv (c : Config) (s : DDRMemory) : Prop where
  timely : Timely c s
  requests : Requests c s
  scheduling : s.scheduling.Ok c
  pending : 0 < c.queueDepth → s.Pending → s.scheduling.nextSchedEvent ≠ none
  stuck : c.queueDepth = 0 → s.Stuck

theorem Inv.init (lastCmdWasWrite : Bool) : Inv c (init c lastCmdWasWrite) where
  timely := Timely.init lastCmdWasWrite
  requests := Requests.init lastCmdWasWrite
  scheduling := .init
  pending := fun _ pending => by
    rcases pending with notEmpty | notEmpty | notEmpty <;> exact absurd rfl notEmpty
  stuck := fun _ => ⟨rfl, rfl, rfl, rfl⟩

theorem full_of_depth_zero (zero : c.queueDepth = 0) (q : List Request) : full c q = true := by
  unfold full
  rw [zero]
  exact decide_eq_true (Nat.zero_le _)

theorem notEmpty_of_full {q : List Request} (depth : 0 < c.queueDepth) (isFull : full c q = true) :
    q ≠ [] := by
  rintro rfl
  have le : c.queueDepth ≤ 0 := of_decide_eq_true isFull
  omega

theorem first_of_empty {s : DDRMemory} (requests : Requests c s) {wr : Bool} {req : Request}
    (only : s.reqQueue wr = [req]) : s.isFirst c req = true := by
  have notEmpty : s.reqQueue wr ≠ [] := by
    rw [only]
    exact List.cons_ne_nil _ _
  obtain ⟨r, member, isFirst⟩ := requests.exists_first notEmpty
  rw [only, List.mem_singleton] at member
  rwa [member] at isFirst

/-- What `drainOverflow` makes of the cycle; it is not `-1ul`. -/
theorem lowered_spec {memCycle minQueued : Nat} (le : memCycle ≤ minQueued) (bound : Nat)
    {minSchedCycle : Option Nat} (notPast : ∀ cycle ∈ minSchedCycle, memCycle ≤ cycle)
    {next : Option Nat} (isNext : (if later (if later minSchedCycle minQueued then
      some (max minQueued bound) else minSchedCycle) minQueued then some minQueued else
      if later minSchedCycle minQueued then some (max minQueued bound) else minSchedCycle) = next) :
    (∀ cycle ∈ next, memCycle ≤ cycle) ∧ next ≠ none := by
  by_cases isLater : later minSchedCycle minQueued = true
  · rw [if_pos isLater] at isNext
    split at isNext
    · subst isNext
      exact ⟨fun cycle isCycle => by cases isCycle; exact le, (by simp)⟩
    · subst isNext
      refine ⟨fun cycle isCycle => ?_, (by simp)⟩
      cases isCycle
      exact Nat.le_trans le (Nat.le_max_left _ _)
  · rw [if_neg isLater, if_neg isLater] at isNext
    subst isNext
    refine ⟨notPast, ?_⟩
    rintro rfl
    exact isLater rfl

theorem drainOverflow_spec {s : DDRMemory} (timely : Timely c s) (requests : Requests c s) {memCycle : Nat}
    {minSchedCycle : Option Nat} (notPast : ∀ cycle ∈ minSchedCycle, memCycle ≤ cycle)
    (empty : minSchedCycle = none → s.rdQueue = [] ∧ s.wrQueue = []) :
    ∃ next s', s.drainOverflow c memCycle minSchedCycle = some (next, s') ∧ Timely c s' ∧
      Requests c s' ∧ s'.scheduling = s.scheduling ∧ (∀ cycle ∈ next, memCycle ≤ cycle) ∧
      (0 < c.queueDepth → next = none → ¬ s'.Pending) := by
  unfold drainOverflow
  cases overflow : s.overflowQueue with
  | nil =>
      refine ⟨_, _, rfl, timely, requests, rfl, notPast, fun _ isNone pending => ?_⟩
      obtain ⟨noReads, noWrites⟩ := empty isNone
      rcases pending with notEmpty | notEmpty | notEmpty
      · exact notEmpty noReads
      · exact notEmpty noWrites
      · exact notEmpty overflow
  | cons ovfReq rest =>
      dsimp only
      by_cases isFull : (full c s.rdQueue || full c s.wrQueue) = true
      · rw [if_pos isFull]
        refine ⟨_, _, rfl, timely, requests, rfl, notPast, fun depth isNone _ => ?_⟩
        obtain ⟨noReads, noWrites⟩ := empty isNone
        rcases Bool.or_eq_true_iff.mp isFull with isFull | isFull
        · exact notEmpty_of_full depth isFull noReads
        · exact notEmpty_of_full depth isFull noWrites
      · rw [if_neg isFull]
        have room : ∀ wr, full c (s.reqQueue wr) = false := by
          rw [Bool.or_eq_true, not_or] at isFull
          intro wr
          cases wr
          · exact eq_false_of_ne_true isFull.1
          · exact eq_false_of_ne_true isFull.2
        obtain ⟨req, s', queues, requests', sameTiming, -, -, queued⟩ :=
          queue_spec requests overflow (room _) memCycle
        have timely' := sameTiming.timely timely
        simp only [queues, Option.bind_eq_bind, Option.bind_some]
        have atLeast : memCycle ≤ s'.minQueuedSchedCycle c memCycle := Nat.le_max_left _ _
        by_cases isFirst : s'.isFirst c req = true
        · rw [if_pos isFirst]
          obtain ⟨notPast', notNone⟩ := lowered_spec atLeast (s'.findMinCmdCycle c req) notPast rfl
          exact ⟨_, _, rfl, timely', requests', sameTiming.scheduling, notPast',
            fun _ isNone => absurd isNone notNone⟩
        · rw [if_neg isFirst]
          refine ⟨_, _, rfl, timely', requests', sameTiming.scheduling, notPast, fun _ isNone => ?_⟩
          obtain ⟨noReads, noWrites⟩ := empty isNone
          have none : s.reqQueue (useWrQueue c ovfReq) = [] := by
            cases useWrQueue c ovfReq
            · exact noReads
            · exact noWrites
          rw [none] at queued
          exact absurd (first_of_empty requests' queued) isFirst

theorem tick_spec {s : DDRMemory} (timely : Timely c s) (requests : Requests c s) {sysCycle : Nat}
    (isNext : s.scheduling.nextSchedCycle = some (c.sysToMemCycle sysCycle)) :
    ∃ nextCycle s', s.tick c sysCycle = some (nextCycle, s') ∧ Timely c s' ∧ Requests c s' ∧
      (nextCycle = 0 ∧ (0 < c.queueDepth → ¬ s'.Pending) ∧
          s'.scheduling = { s.scheduling with nextSchedCycle := none, nextSchedEvent := none } ∨
        nextCycle ≠ 0 ∧ s'.scheduling =
          { s.scheduling with nextSchedCycle := some (c.sysToMemCycle nextCycle) }) := by
  obtain ⟨minSchedCycle, s₁, schedules, scheduled⟩ := trySchedule_spec timely requests sysCycle
  obtain ⟨next, s₂, drains, timely', requests', same, notPast, drained⟩ :=
    drainOverflow_spec scheduled.timely scheduled.requests scheduled.notPast scheduled.empty
  have same' : s₂.scheduling = s.scheduling := same.trans scheduled.scheduling
  unfold tick
  simp only [isNext, if_pos, schedules, Option.bind_eq_bind, Option.bind_some, if_pos scheduled.notPast,
    drains]
  cases next with
  | none =>
      refine ⟨_, _, rfl, Timely.withScheduling timely' _, requests'.withScheduling _, .inl ⟨rfl, ?_, ?_⟩⟩
      · exact fun depth => drained depth rfl
      · rw [same']
  | some cycle =>
      have le := notPast cycle rfl
      refine ⟨_, _, rfl, Timely.withScheduling timely' _, requests'.withScheduling _, .inr ⟨?_, ?_⟩⟩
      · have pos := c.matching_pos (Nat.lt_of_lt_of_le (Nat.succ_pos _) le)
        omega
      · rw [c.sysToMem_enq le, same']

theorem simulate_spec {s : DDRMemory} (inv : Inv c s) {e : Nat}
    (runs : (s.scheduling.events e).state = .queued ∨ (s.scheduling.events e).state = .annulled) :
    ∃ s', s.simulate c e = some s' ∧ Inv c s' := by
  have lt : e < s.scheduling.allocated :=
    inv.scheduling.lt_allocated (by rcases runs with runs | runs <;> (rw [runs]; decide))
  have depth : 0 < c.queueDepth := by
    by_contra zero
    rw [(inv.stuck (Nat.eq_zero_of_not_pos zero)).noEvents] at lt
    exact Nat.not_lt_zero _ lt
  have notStuck : c.queueDepth = 0 → ∀ s' : DDRMemory, s'.Stuck := fun zero => by omega
  rcases runs with queued | annulled
  · have isNext := inv.scheduling.next_of_queued queued
    have others := inv.scheduling.toOthers
    rw [isNext] at others
    have running := others.set lt { s.scheduling.events e with state := .running }
    obtain ⟨nextCycle, s', ticks, timely', requests', result⟩ := tick_spec
      (s := s.setEvent e { s.scheduling.events e with state := .running })
      (Timely.withScheduling inv.timely _) (inv.requests.withScheduling _)
      (inv.scheduling.next e isNext).2.2
    unfold simulate
    simp only [queued, ticks, Option.bind_eq_bind, Option.bind_some]
    rcases result with ⟨isZero, noneLeft, same⟩ | ⟨notZero, same⟩
    · rw [if_neg (not_not.mpr isZero)]
      have idle := running.set lt { s.scheduling.events e with state := .idle }
      have free := idle.recycle lt (by rw [set_events_self])
      have notFree : e ∉ s.scheduling.eventFreelist := fun member => (others.free e member).2 rfl
      refine ⟨{ s' with scheduling :=
        { (s.scheduling.set e { s.scheduling.events e with state := .running }).set e
            { s.scheduling.events e with state := .idle } with
          eventFreelist := e :: s.scheduling.eventFreelist
          nextSchedCycle := none
          nextSchedEvent := none } }, ?_, Timely.withScheduling timely' _, requests'.withScheduling _,
        ⟨free.congr rfl rfl rfl, (fun _ isNext => nomatch isNext), fun _ => rfl⟩,
        fun depth pending => absurd pending (noneLeft depth), fun zero => notStuck zero _⟩
      unfold recycle setEvent Scheduling.recycle
      simp only [same]
      rw [if_pos ⟨(by rintro ⟨⟩), notFree⟩]
      rfl
    · rw [if_pos notZero]
      have again := running.set lt ⟨.queued, nextCycle⟩
      have scheduling : (s'.setEvent e ⟨.queued, nextCycle⟩).scheduling =
          { (s.scheduling.set e { s.scheduling.events e with state := .running }).set e
              ⟨.queued, nextCycle⟩ with nextSchedCycle := some (c.sysToMemCycle nextCycle) } := by
        unfold setEvent
        rw [same]
        rfl
      refine ⟨_, rfl, Timely.withScheduling timely' _, requests'.withScheduling _, ?_, fun _ _ => ?_,
        fun zero => notStuck zero _⟩
      · rw [scheduling]
        refine ⟨?_, fun e' isNext' => ?_, fun isNone => ?_⟩
        · change Scheduling.Others _ s.scheduling.nextSchedEvent
          rw [isNext]
          exact again.congr rfl rfl rfl
        · cases Option.some.inj (isNext.symm.trans isNext')
          refine ⟨lt, ?_⟩
          change ((Scheduling.set _ _ _).events e).state = _ ∧
            some _ = some (c.sysToMemCycle ((Scheduling.set _ _ _).events e).cycle)
          rw [set_events_self]
          exact ⟨rfl, rfl⟩
        · exact nomatch isNext.symm.trans isNone
      · rw [scheduling]
        change s.scheduling.nextSchedEvent ≠ none
        rw [isNext]
        simp
  · obtain ⟨d, recycles, ok, sameNext⟩ := inv.scheduling.runAnnulled annulled
      { s.scheduling.events e with state := .idle } rfl
    refine ⟨{ s with scheduling := d }, ?_, Timely.withScheduling inv.timely d,
      inv.requests.withScheduling d, ok,
      fun depth pending => ?_, fun zero => notStuck zero _⟩
    · unfold simulate
      simp only [annulled]
      unfold recycle setEvent
      rw [recycles]
      rfl
    · rw [sameNext]
      exact inv.pending depth pending

end DDRMemory

end Zsim.DDR
