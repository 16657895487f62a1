import Zsim.DDR.Queues

/-!
# Serving a request

`trySchedule` serves a request that is first in its bank, or says when the first of them may
be served.
-/

set_option autoImplicit false

namespace Zsim.DDR.DDRMemory

variable {c : Config}

/-! ## Leaving the queue -/

theorem Requests.perm_eraseP {s : DDRMemory} (requests : Requests c s) {wr : Bool} {r : Request}
    (member : r ∈ s.reqQueue wr) :
    (s.reqQueue wr).Perm (r :: (s.reqQueue wr).eraseP fun x => x.id = r.id) := by
  obtain ⟨found, front, behind, -, sameId, split, erased⟩ :=
    List.exists_of_eraseP (p := fun x => decide (x.id = r.id)) member (by simp)
  have isFound : found = r := by
    have inQueue : found ∈ s.reqQueue wr := by
      rw [split]
      exact List.mem_append_right _ List.mem_cons_self
    exact requests.eq_of_id inQueue member (by simpa using sameId)
  subst isFound
  rw [erased, split]
  exact List.perm_middle

/-- A request without `prev` is the head of its list. -/
theorem Requests.isFirst_iff {s : DDRMemory} (requests : Requests c s) {wr : Bool} {r : Request}
    (member : r ∈ s.reqQueue wr) :
    s.isFirst c r = true ↔ ∃ rest, (s.bank r).reqs wr = r :: rest := by
  have queue := (requests.queued wr r member).queue
  unfold isFirst
  rw [queue, decide_eq_true_iff]
  constructor
  · intro same
    cases list : (s.bank r).reqs wr with
    | nil =>
        rw [list] at same
        cases same
    | cons first rest =>
        rw [list] at same
        have inList : first ∈ (s.banks r.loc.key).reqs wr := by
          change first ∈ (s.bank r).reqs wr
          rw [list]
          exact List.mem_cons_self
        have inQueue := List.mem_of_mem_filter ((requests.lists wr r.loc.key).mem_iff.mp inList)
        have isR : first = r := requests.eq_of_id inQueue member (Option.some.inj same)
        exact ⟨rest, by rw [isR]⟩
  · rintro ⟨rest, list⟩
    rw [list]
    rfl

theorem Requests.exists_first {s : DDRMemory} (requests : Requests c s) {wr : Bool}
    (notEmpty : s.reqQueue wr ≠ []) : ∃ r ∈ s.reqQueue wr, s.isFirst c r = true := by
  obtain ⟨r, member⟩ := List.exists_mem_of_ne_nil _ notEmpty
  have perm := requests.lists wr r.loc.key
  have inList : r ∈ (s.banks r.loc.key).reqs wr :=
    perm.mem_iff.mpr (List.mem_filter.mpr ⟨member, by simp⟩)
  cases list : (s.banks r.loc.key).reqs wr with
  | nil =>
      rw [list] at inList
      cases inList
  | cons first rest =>
      have inFilter := perm.mem_iff.mp (list ▸ List.mem_cons_self : first ∈ (s.banks r.loc.key).reqs wr)
      obtain ⟨inQueue, sameBank⟩ := List.mem_filter.mp inFilter
      refine ⟨first, inQueue, (requests.isFirst_iff inQueue).mpr ⟨rest, ?_⟩⟩
      rw [bank, of_decide_eq_true sameBank, list]

/-- The state after the answer to a read. -/
def afterRead (s : DDRMemory) (r : Request) (doneCycle : Nat) : DDRMemory :=
  { s with
    held := if r.write then s.held else s.held.erase r.id
    answered := if r.write then s.answered else (r.id, doneCycle) :: s.answered }

theorem respondRead_spec {s : DDRMemory} (requests : Requests c s) {wr : Bool} {r : Request}
    (member : r ∈ s.reqQueue wr) {sysCycle : Nat} (onTime : sysCycle ≤ c.memToSysCycle s.minRespCycle) :
    ∃ doneCycle, s.respondRead c r sysCycle = some (s.afterRead r doneCycle) := by
  have queued := requests.queued wr r member
  unfold respondRead
  rw [queued.ev]
  cases isWrite : r.write with
  | true => exact ⟨0, by simp [afterRead, isWrite]⟩
  | false =>
      have isHeld : r.id ∈ s.held := by
        have counts := requests.counts r.id
        rw [requests.count_accepted queued.accepted] at counts
        have here := ids_count_le member
        have before := (requests.reads r.id (isWrite ▸ queued.accepted)).2
        rw [← List.count_pos_iff]
        cases wr <;> omega
      refine ⟨c.memToSysCycle s.minRespCycle + c.controllerSysLatency - c.preDelay - c.postDelayRd, ?_⟩
      simp only [Bool.false_eq_true, if_false]
      rw [if_pos ⟨trivial, Nat.le_trans onTime (Nat.le_add_right _ _)⟩, respond, if_pos isHeld]
      simp [afterRead, isWrite]

theorem dequeue_reqQueue (s : DDRMemory) (wr : Bool) (r : Request) (wr' : Bool) :
    (s.dequeue wr r).reqQueue wr' =
      if wr' = wr then (s.reqQueue wr).eraseP fun x => x.id = r.id else s.reqQueue wr' :=
  reqQueue_setQueue s wr _ wr'

theorem dequeue_sameTiming (s : DDRMemory) (wr : Bool) (r : Request) : SameTiming s (s.dequeue wr r) where
  minRespCycle := setQueue_minRespCycle ..
  lastCmdWasWrite := setQueue_lastCmdWasWrite ..
  commands := setQueue_commands ..
  scheduling := setQueue_scheduling ..
  accepted := setQueue_accepted ..
  banks key := by
    have banks := setQueue_banks s wr ((s.reqQueue wr).eraseP fun x => x.id = r.id)
    unfold dequeue
    dsimp only
    unfold setBank
    rw [banks]
    exact setBank_setReqs s r wr _ key

theorem afterRead_counts {s : DDRMemory} {r : Request} (doneCycle : Nat) {id : Nat}
    (other : r.write = true ∨ r.id ≠ id) :
    (s.afterRead r doneCycle).answeredIds.count id = s.answeredIds.count id ∧
      (s.afterRead r doneCycle).held.count id = s.held.count id := by
  cases isWrite : r.write with
  | true => simp [afterRead, answeredIds, isWrite]
  | false =>
      have ne : r.id ≠ id := other.resolve_left (by simp [isWrite])
      simp [afterRead, answeredIds, isWrite, List.count_cons_of_ne ne,
        List.count_erase_of_ne (Ne.symm ne)]

theorem Requests.serve {s : DDRMemory} (requests : Requests c s) {wr : Bool} {r : Request}
    (member : r ∈ s.reqQueue wr) (isFirst : s.isFirst c r = true) (doneCycle : Nat) :
    Requests c ((s.afterRead r doneCycle).dequeue wr r) := by
  have queued := requests.queued wr r member
  have perm := requests.perm_eraseP member
  have queues := (s.afterRead r doneCycle).dequeue_reqQueue wr r
  have accepted : ((s.afterRead r doneCycle).dequeue wr r).accepted = s.accepted :=
    (dequeue_sameTiming _ wr r).accepted
  have overflow : ((s.afterRead r doneCycle).dequeue wr r).overflowQueue = s.overflowQueue :=
    setQueue_overflowQueue ..
  have served : ((s.afterRead r doneCycle).dequeue wr r).served = r.id :: s.served :=
    congrArg (r.id :: ·) (setQueue_served ..)
  have answered : ((s.afterRead r doneCycle).dequeue wr r).answeredIds =
      (s.afterRead r doneCycle).answeredIds := congrArg (List.map Prod.fst) (setQueue_answered ..)
  have held : ((s.afterRead r doneCycle).dequeue wr r).held = (s.afterRead r doneCycle).held :=
    setQueue_held ..
  have banks : ((s.afterRead r doneCycle).dequeue wr r).banks =
      (s.setBank r ((s.bank r).setReqs wr ((s.bank r).reqs wr).tail)).banks := by
    have same := setQueue_banks (s.afterRead r doneCycle) wr
      (((s.afterRead r doneCycle).reqQueue wr).eraseP fun x => x.id = r.id)
    unfold dequeue
    dsimp only
    unfold setBank
    rw [same]
    rfl
  have notServed : s.served.count r.id = 0 := by
    have counts := requests.counts r.id
    rw [requests.count_accepted queued.accepted] at counts
    have here := ids_count_le member
    cases wr <;> omega
  constructor
  · intro wr' x member'
    have inQueue : x ∈ s.reqQueue wr' := by
      rw [queues] at member'
      split at member'
      case isTrue same => exact same ▸ List.mem_of_mem_eraseP member'
      case isFalse => exact member'
    have before := requests.queued wr' x inQueue
    exact ⟨before.queue, before.located, by rw [accepted]; exact before.accepted, before.ev⟩
  · intro x member'
    rw [overflow] at member'
    have before := requests.waits x member'
    exact ⟨before.located, by rw [accepted]; exact before.accepted, before.ev⟩
  · obtain ⟨here, elsewhere⟩ := setBank_setReqs_reqs s r wr ((s.bank r).reqs wr).tail
    obtain ⟨rest, list⟩ := (requests.isFirst_iff member).mp isFirst
    refine @lists_lose s _ wr r requests.lists ?_ ?_ ?_ ?_
    · rw [queues, if_pos rfl]
      exact perm
    · intro wr' other
      rw [queues, if_neg other]
      rfl
    · rw [banks, here]
      change (s.bank r).reqs wr = _
      rw [list, List.tail_cons]
    · intro wr' key other
      rw [banks, elsewhere wr' key other]
  · intro id
    have before := requests.counts id
    have gone : (ids (s.reqQueue wr)).count id =
        (ids ((s.reqQueue wr).eraseP fun x => x.id = r.id)).count id + if r.id == id then 1 else 0 := by
      rw [ids, (perm.map Request.id).count_eq id, List.map_cons, List.count_cons]
      rfl
    rw [overflow, served, accepted, queues, queues, List.count_cons]
    change _ = (s.accepted.map Prod.fst).count id
    cases wr with
    | true =>
        rw [if_neg (by simp), if_pos rfl]
        change _ + (ids (s.reqQueue false)).count id +
          (ids ((s.reqQueue true).eraseP fun x => x.id = r.id)).count id + _ = _
        omega
    | false =>
        rw [if_pos rfl, if_neg (by simp)]
        change _ + (ids ((s.reqQueue false).eraseP fun x => x.id = r.id)).count id +
          (ids (s.reqQueue true)).count id + _ = _
        omega
  · rw [accepted]
    exact requests.nodup
  · intro id notAccepted
    rw [accepted] at notAccepted
    have ne : r.id ≠ id := by
      rintro rfl
      exact notAccepted (List.mem_map_of_mem (f := Prod.fst) queued.accepted)
    obtain ⟨sameAnswered, sameHeld⟩ := afterRead_counts (s := s) doneCycle (.inr ne)
    rw [answered, held, sameAnswered, sameHeld]
    exact requests.known id notAccepted
  · intro id isRead
    rw [accepted] at isRead
    rw [answered, held, served]
    have before := requests.reads id isRead
    by_cases same : r.id = id
    · subst same
      have isRead' : r.write = false := requests.unique queued.accepted isRead
      have nowAnswered : (s.afterRead r doneCycle).answeredIds = r.id :: s.answeredIds := by
        simp [afterRead, answeredIds, isRead']
      have notHeld : (s.afterRead r doneCycle).held = s.held.erase r.id := by simp [afterRead, isRead']
      rw [nowAnswered, notHeld, List.count_cons_self, List.count_cons_self, List.count_erase_self]
      omega
    · obtain ⟨sameAnswered, sameHeld⟩ := afterRead_counts (s := s) doneCycle (.inr same)
      rw [sameAnswered, sameHeld, List.count_cons_of_ne same]
      exact before
  · intro id isWrite
    rw [accepted] at isWrite
    have other : r.write = true ∨ r.id ≠ id := by
      by_cases same : r.id = id
      · subst same
        exact .inl (requests.unique queued.accepted isWrite)
      · exact .inr same
    obtain ⟨sameAnswered, sameHeld⟩ := afterRead_counts (s := s) doneCycle other
    rw [answered, held, overflow, sameAnswered, sameHeld]
    exact requests.writes id isWrite

/-! ## `trySchedule` -/

theorem findReady_some {s : DDRMemory} {curCycle : Nat} {l : List Request} {r : Request}
    {start minSchedCycle : Option Nat} (found : s.findReady c curCycle l start = (some r, minSchedCycle)) :
    r ∈ l ∧ s.isFirst c r = true ∧ s.findMinCmdCycle c r ≤ curCycle := by
  induction l generalizing start with
  | nil => cases found
  | cons x rest ih =>
      rw [findReady] at found
      by_cases isFirst : s.isFirst c x = true
      · rw [if_pos isFirst] at found
        dsimp only at found
        by_cases ready : s.findMinCmdCycle c x ≤ curCycle
        · rw [if_pos ready] at found
          cases found
          exact ⟨List.mem_cons_self, isFirst, ready⟩
        · rw [if_neg ready] at found
          exact (ih found).imp_left (List.mem_cons_of_mem x)
      · rw [if_neg isFirst] at found
        exact (ih found).imp_left (List.mem_cons_of_mem x)

theorem findReady_none {s : DDRMemory} {curCycle : Nat} {l : List Request}
    {start minSchedCycle : Option Nat} (found : s.findReady c curCycle l start = (none, minSchedCycle))
    (after : ∀ cycle ∈ start, curCycle < cycle) :
    (∀ cycle ∈ minSchedCycle, curCycle < cycle) ∧
      (minSchedCycle = none → start = none ∧ ∀ r ∈ l, s.isFirst c r = false) := by
  induction l generalizing start with
  | nil =>
      cases found
      exact ⟨after, fun isNone => ⟨isNone, fun _ member => absurd member List.not_mem_nil⟩⟩
  | cons x rest ih =>
      rw [findReady] at found
      by_cases isFirst : s.isFirst c x = true
      · rw [if_pos isFirst] at found
        dsimp only at found
        by_cases ready : s.findMinCmdCycle c x ≤ curCycle
        · rw [if_pos ready] at found
          cases found
        · rw [if_neg ready] at found
          have after' : ∀ cycle ∈ some (minCycle start (s.findMinCmdCycle c x)), curCycle < cycle := by
            intro cycle isMin
            cases isMin
            cases start with
            | none => exact Nat.lt_of_not_le ready
            | some first => exact Nat.lt_min.mpr ⟨after first rfl, Nat.lt_of_not_le ready⟩
          exact ⟨(ih found after').1, fun isNone => nomatch ((ih found after').2 isNone).1⟩
      · rw [if_neg isFirst] at found
        refine ⟨(ih found after).1, fun isNone => ?_⟩
        obtain ⟨noStart, others⟩ := (ih found after).2 isNone
        refine ⟨noStart, fun r member => ?_⟩
        rcases List.mem_cons.mp member with rfl | later
        · exact eq_false_of_ne_true isFirst
        · exact others r later

/-- What `trySchedule` returns and leaves. -/
structure Scheduled (c : Config) (s : DDRMemory) (curCycle : Nat) (minSchedCycle : Option Nat)
    (s' : DDRMemory) : Prop where
  timely : Timely c s'
  requests : Requests c s'
  scheduling : s'.scheduling = s.scheduling
  accepted : s'.accepted = s.accepted
  notPast : ∀ cycle ∈ minSchedCycle, curCycle ≤ cycle
  empty : minSchedCycle = none → s'.rdQueue = [] ∧ s'.wrQueue = []
  idle : s.rdQueue = [] → s.wrQueue = [] → s' = s

theorem serve_spec {s : DDRMemory} (timely : Timely c s) (requests : Requests c s) {wr : Bool}
    {r : Request} (member : r ∈ s.reqQueue wr) (isFirst : s.isFirst c r = true) {sysCycle : Nat}
    (ready : s.findMinCmdCycle c r ≤ c.sysToMemCycle sysCycle) :
    ∃ minSchedCycle s', s.serve c (c.sysToMemCycle sysCycle) sysCycle wr r = some (minSchedCycle, s') ∧
      Scheduled c s (c.sysToMemCycle sysCycle) minSchedCycle s' := by
  obtain ⟨curCycle, isCur⟩ : ∃ cycle, cycle = c.sysToMemCycle sysCycle := ⟨_, rfl⟩
  rw [← isCur] at ready ⊢
  obtain ⟨opened, bound, opens, isOpened⟩ := openRow_spec timely (requests.queued wr r member).located
  obtain ⟨minCmdCycle, isMin⟩ : ∃ cycle, cycle = max (if s.lastCmdWasWrite && !r.write then
    max (max curCycle (s.minRespCycle - c.timing.tCL)) (s.minRespCycle + c.timing.tWTR) else
    max curCycle (s.minRespCycle - c.timing.tCL)) bound := ⟨_, rfl⟩
  have afterCur : curCycle ≤ minCmdCycle := by
    rw [isMin]
    split <;> omega
  have turned : s.lastCmdWasWrite = true → r.write = false →
      s.minRespCycle + c.timing.tWTR ≤ minCmdCycle := by
    intro wasWrite isRead
    rw [isMin, wasWrite, isRead]
    simp only [Bool.not_false, Bool.and_true, if_true]
    omega
  obtain ⟨issued, issues, timely', same, resp⟩ :=
    issue_spec isOpened (Nat.le_trans ready afterCur) turned
  have requests' := requests.congr same
  have member' : r ∈ issued.reqQueue wr := by rwa [SameRequests.reqQueue same]
  have isFirst' : issued.isFirst c r = true := by
    rw [DDRMemory.isFirst, DDRMemory.bank, same.lists]
    exact isFirst
  have onTime : sysCycle ≤ c.memToSysCycle issued.minRespCycle := by
    refine Nat.le_trans (c.le_memToSys sysCycle) (c.memToSys_mono ?_)
    rw [← isCur]
    omega
  obtain ⟨doneCycle, responds⟩ := respondRead_spec requests' member' onTime
  have sameTiming := dequeue_sameTiming (issued.afterRead r doneCycle) wr r
  have run : s.serve c curCycle sysCycle wr r =
      some (if ((issued.afterRead r doneCycle).dequeue wr r).rdQueue = [] ∧
          ((issued.afterRead r doneCycle).dequeue wr r).wrQueue = [] then none
        else some (((issued.afterRead r doneCycle).dequeue wr r).minRespCycle - c.timing.tCL),
        (issued.afterRead r doneCycle).dequeue wr r) := by
    unfold serve
    simp only [opens, Option.bind_eq_bind, Option.bind_some, ← isMin, issues, responds]
  refine ⟨_, _, run, sameTiming.timely (Timely.congr timely' rfl rfl rfl fun key => ⟨_, _, rfl⟩),
    requests'.serve member' isFirst' doneCycle, sameTiming.scheduling.trans same.scheduling,
    sameTiming.accepted.trans same.accepted, ?_, ?_, fun noReads noWrites => ?_⟩
  · intro cycle isNext
    split at isNext
    · cases isNext
    · cases isNext
      have resp' : ((issued.afterRead r doneCycle).dequeue wr r).minRespCycle = issued.minRespCycle :=
        sameTiming.minRespCycle
      omega
  · intro isNone
    by_contra notEmpty
    rw [if_neg notEmpty] at isNone
    cases isNone
  · have none : s.reqQueue wr = [] := by
      cases wr
      · exact noReads
      · exact noWrites
    rw [none] at member
    cases member

theorem trySchedule_spec {s : DDRMemory} (timely : Timely c s) (requests : Requests c s) (sysCycle : Nat) :
    ∃ minSchedCycle s', s.trySchedule c (c.sysToMemCycle sysCycle) sysCycle = some (minSchedCycle, s') ∧
      Scheduled c s (c.sysToMemCycle sysCycle) minSchedCycle s' := by
  have stays : ∀ minSchedCycle : Option Nat, minSchedCycle ≠ none →
      (∀ cycle ∈ minSchedCycle, c.sysToMemCycle sysCycle ≤ cycle) →
      Scheduled c s (c.sysToMemCycle sysCycle) minSchedCycle s := fun _ notNone notPast =>
    ⟨timely, requests, rfl, rfl, notPast, fun isNone => absurd isNone notNone, fun _ _ => rfl⟩
  unfold trySchedule
  by_cases empty : s.rdQueue = [] ∧ s.wrQueue = []
  · rw [if_pos empty]
    exact ⟨_, _, rfl, timely, requests, rfl, rfl, (by simp), fun _ => empty, fun _ _ => rfl⟩
  · rw [if_neg empty]
    by_cases ahead : c.sysToMemCycle sysCycle + c.timing.tCL < s.minRespCycle
    · rw [if_pos ahead]
      refine ⟨_, _, rfl, stays _ (by simp) fun cycle isNext => ?_⟩
      cases isNext
      omega
    · rw [if_neg ahead]
      dsimp only
      generalize isWrite : decide (s.rdQueue = [] ∨ 3 * c.queueDepth / 4 < s.wrQueue.length ∨
        s.lastCmdWasWrite = true ∧ c.queueDepth / 4 < s.wrQueue.length) = wr
      have notEmpty : s.reqQueue wr ≠ [] := by
        cases wr with
        | true =>
            intro noWrites
            have noWrites : s.wrQueue = [] := noWrites
            rcases of_decide_eq_true isWrite with noReads | many | ⟨-, many⟩
            · exact empty ⟨noReads, noWrites⟩
            · rw [noWrites] at many
              exact Nat.not_lt_zero _ many
            · rw [noWrites] at many
              exact Nat.not_lt_zero _ many
        | false => exact fun noReads => of_decide_eq_false isWrite (.inl noReads)
      rw [if_neg notEmpty]
      cases found : s.findReady c (c.sysToMemCycle sysCycle) (s.reqQueue wr) none with
      | mk ready minSchedCycle =>
          cases ready with
          | some r =>
              obtain ⟨member, isFirst, ready⟩ := findReady_some found
              exact serve_spec timely requests member isFirst ready
          | none =>
              obtain ⟨after, noFirst⟩ := findReady_none found (by simp)
              refine ⟨_, _, rfl, stays _ ?_ fun cycle isNext => Nat.le_of_lt (after cycle isNext)⟩
              intro isNone
              obtain ⟨r, member, isFirst⟩ := requests.exists_first notEmpty
              rw [(noFirst isNone).2 r member] at isFirst
              cases isFirst

end Zsim.DDR.DDRMemory
