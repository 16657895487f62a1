import Zsim.DDR.Requests

/-!
# Moving requests

`enqueue` accepts a request, `queue` takes it to its queue and its bank, and `trySchedule`
takes it out of both.
-/

set_option autoImplicit false

namespace Zsim.DDR.DDRMemory

variable {c : Config}

/-! ## Accepting -/

/-- A new request waits, as if it came from the overflow queue. -/
theorem Requests.accept {s : DDRMemory} (requests : Requests c s) {req : Request}
    (fresh : req.id ∉ s.accepted.map Prod.fst) (located : req.loc.key ∈ c.banks)
    (isEvent : req.ev = some req.id) {overflow : List Request} (perm : overflow.Perm (req :: s.overflowQueue)) :
    Requests c { s with
      held := req.id :: s.held
      accepted := (req.id, req.write) :: s.accepted
      overflowQueue := overflow } := by
  have overflowCount : ∀ id, (ids overflow).count id =
      (ids s.overflowQueue).count id + if req.id = id then 1 else 0 := fun id => by
    rw [ids, (perm.map Request.id).count_eq id, List.map_cons, List.count_cons]
    simp only [beq_iff_eq]
    rfl
  obtain ⟨noAnswer, notHeld⟩ := requests.known req.id fresh
  have old : ∀ id w, (id, w) ∈ (req.id, req.write) :: s.accepted →
      id = req.id ∧ w = req.write ∨ id ≠ req.id ∧ (id, w) ∈ s.accepted := by
    intro id w member
    rcases List.mem_cons.mp member with new | old
    · cases new
      exact .inl ⟨rfl, rfl⟩
    · refine .inr ⟨?_, old⟩
      rintro rfl
      exact fresh (List.mem_map_of_mem (f := Prod.fst) old)
  constructor
  · intro wr r member
    have before := requests.queued wr r member
    exact ⟨before.queue, before.located, List.mem_cons_of_mem _ before.accepted, before.ev⟩
  · intro r member
    rcases List.mem_cons.mp (perm.mem_iff.mp member) with rfl | old
    · exact ⟨located, List.mem_cons_self, isEvent⟩
    · have before := requests.waits r old
      exact ⟨before.located, List.mem_cons_of_mem _ before.accepted, before.ev⟩
  · exact requests.lists
  · intro id
    have before := requests.counts id
    change (ids overflow).count id + (ids (s.reqQueue false)).count id +
      (ids (s.reqQueue true)).count id + s.served.count id =
        (req.id :: s.accepted.map Prod.fst).count id
    rw [overflowCount, List.count_cons]
    simp only [beq_iff_eq]
    omega
  · exact List.nodup_cons.mpr ⟨fresh, requests.nodup⟩
  · intro id notAccepted
    obtain ⟨ne, before⟩ := not_or.mp fun member => notAccepted (List.mem_cons.mpr member)
    change s.answeredIds.count id = 0 ∧ (req.id :: s.held).count id = 0
    rw [List.count_cons_of_ne (Ne.symm ne)]
    exact requests.known id before
  · intro id member
    change s.answeredIds.count id = s.served.count id ∧ (req.id :: s.held).count id + s.served.count id = 1
    rcases old id false member with ⟨rfl, -⟩ | ⟨ne, before⟩
    · have counts := requests.counts req.id
      rw [List.count_eq_zero.mpr fresh] at counts
      rw [List.count_cons_self]
      omega
    · rw [List.count_cons_of_ne (Ne.symm ne)]
      exact requests.reads id before
  · intro id member
    change s.answeredIds.count id + (ids overflow).count id = 1 ∧
      (req.id :: s.held).count id = (ids overflow).count id
    rw [overflowCount]
    rcases old id true member with ⟨rfl, -⟩ | ⟨ne, before⟩
    · have counts := requests.counts req.id
      rw [List.count_eq_zero.mpr fresh] at counts
      rw [List.count_cons_self, if_pos rfl]
      omega
    · rw [List.count_cons_of_ne (Ne.symm ne), if_neg (Ne.symm ne)]
      exact requests.writes id before

/-! ## Queueing -/

theorem lastOfRow_spec {row : Nat} {q : List Request} :
    ∀ {front m behind}, lastOfRow row q = some (front, m, behind) → q = front ++ m :: behind := by
  induction q with
  | nil => exact fun found => nomatch found
  | cons r rest ih =>
      intro front m behind found
      rw [lastOfRow] at found
      split at found
      case h_1 front' m' behind' later =>
        cases found
        exact congrArg (r :: ·) (ih later)
      case h_2 =>
        split at found
        case isTrue =>
          cases found
          rfl
        case isFalse => cases found

theorem insert_spec (b : Bank) (q : List Request) (req : Request) :
    ∃ seq q', insert c b q req = ({ req with rowHitSeq := seq }, q') ∧
      q'.Perm ({ req with rowHitSeq := seq } :: q) := by
  unfold insert
  cases found : lastOfRow req.loc.row q with
  | some x =>
      obtain ⟨front, m, behind⟩ := x
      dsimp only
      by_cases few : m.rowHitSeq < c.rowHitLimit
      · rw [if_pos few]
        refine ⟨_, _, rfl, ?_⟩
        rw [lastOfRow_spec found]
        have middle (x : Request) : (front ++ [m] ++ x :: behind).Perm (x :: (front ++ [m] ++ behind)) :=
          List.perm_middle
        simpa using middle { req with rowHitSeq := m.rowHitSeq + 1 }
      · rw [if_neg few]
        exact ⟨_, _, rfl, List.perm_append_singleton _ _⟩
  | none =>
      dsimp only
      split
      · exact ⟨_, _, rfl, .refl _⟩
      · exact ⟨_, _, rfl, List.perm_append_singleton _ _⟩

/-- What a request that moves between the queues leaves as it is. -/
structure SameTiming (s s' : DDRMemory) : Prop where
  minRespCycle : s'.minRespCycle = s.minRespCycle
  lastCmdWasWrite : s'.lastCmdWasWrite = s.lastCmdWasWrite
  commands : s'.commands = s.commands
  scheduling : s'.scheduling = s.scheduling
  accepted : s'.accepted = s.accepted
  banks : ∀ key, ∃ rd wr, s'.banks key = { s.banks key with rdReqs := rd, wrReqs := wr }

theorem SameTiming.timely {s s' : DDRMemory} (same : SameTiming s s') (timely : Timely c s) :
    Timely c s' :=
  Timely.congr timely same.commands same.minRespCycle same.lastCmdWasWrite same.banks

theorem setBank_setReqs (s : DDRMemory) (r : Request) (wr : Bool) (q : List Request) (key : Nat × Nat) :
    ∃ rd wr', (s.setBank r ((s.bank r).setReqs wr q)).banks key =
      { s.banks key with rdReqs := rd, wrReqs := wr' } := by
  by_cases here : key = r.loc.key
  · subst here
    rw [setBank_banks_self]
    cases wr
    · exact ⟨q, (s.bank r).wrReqs, rfl⟩
    · exact ⟨(s.bank r).rdReqs, q, rfl⟩
  · rw [setBank_banks_of_ne _ here]
    exact ⟨_, _, rfl⟩

theorem setBank_setReqs_reqs (s : DDRMemory) (r : Request) (wr : Bool) (q : List Request) :
    ((s.setBank r ((s.bank r).setReqs wr q)).banks r.loc.key).reqs wr = q ∧
      ∀ wr' key, ¬ (wr' = wr ∧ key = r.loc.key) →
        ((s.setBank r ((s.bank r).setReqs wr q)).banks key).reqs wr' = (s.banks key).reqs wr' := by
  constructor
  · rw [setBank_banks_self, reqs_setReqs, if_pos rfl]
  · intro wr' key other
    by_cases here : key = r.loc.key
    · subst here
      rw [setBank_banks_self, reqs_setReqs, if_neg fun same => other ⟨same, rfl⟩]
      rfl
    · rw [setBank_banks_of_ne _ here]

/-- The events that are held, and those that have been answered, after a request is queued. -/
def afterWrite (s : DDRMemory) (req : Request) (doneCycle : Nat) : DDRMemory :=
  { s with
    held := if req.write then s.held.erase req.id else s.held
    answered := if req.write then (req.id, doneCycle) :: s.answered else s.answered }

theorem respondWrite_spec {s : DDRMemory} {req : Request} (memCycle : Nat) (isEvent : req.ev = some req.id)
    (isHeld : req.id ∈ s.held) :
    ∃ doneCycle, s.respondWrite c req memCycle =
      some ({ req with ev := if req.write then none else some req.id }, s.afterWrite req doneCycle) := by
  obtain ⟨id, loc, write, rowHitSeq, arrivalCycle, ev⟩ := req
  change ev = some id at isEvent
  subst isEvent
  unfold respondWrite
  cases write with
  | true =>
      simp only [if_true, Option.bind_eq_bind, Option.bind_some, respond, if_pos isHeld]
      exact ⟨_, rfl⟩
  | false => exact ⟨0, rfl⟩

theorem Requests.afterWrite {s : DDRMemory} (requests : Requests c s) {req : Request}
    {rest : List Request} (isFirst : s.overflowQueue = req :: rest) (doneCycle : Nat) :
    (∀ id, id ∉ s.accepted.map Prod.fst →
      (s.afterWrite req doneCycle).answeredIds.count id = 0 ∧
        (s.afterWrite req doneCycle).held.count id = 0) ∧
    (∀ id, (id, false) ∈ s.accepted →
      (s.afterWrite req doneCycle).answeredIds.count id = s.served.count id ∧
        (s.afterWrite req doneCycle).held.count id + s.served.count id = 1) ∧
    ∀ id, (id, true) ∈ s.accepted →
      (s.afterWrite req doneCycle).answeredIds.count id + (ids rest).count id = 1 ∧
        (s.afterWrite req doneCycle).held.count id = (ids rest).count id := by
  have waits := requests.waits req (by rw [isFirst]; exact List.mem_cons_self)
  have restCount : ∀ id, (ids s.overflowQueue).count id =
      (ids rest).count id + if req.id = id then 1 else 0 := fun id => by
    rw [isFirst, ids, List.map_cons, List.count_cons]
    simp only [beq_iff_eq]
    rfl
  cases isWrite : req.write with
  | true =>
      have answered : ∀ id, (s.afterWrite req doneCycle).answeredIds.count id =
          s.answeredIds.count id + if req.id = id then 1 else 0 := by
        intro id
        have isAnswered : (s.afterWrite req doneCycle).answered = (req.id, doneCycle) :: s.answered :=
          if_pos isWrite
        rw [answeredIds, isAnswered, List.map_cons, List.count_cons]
        simp only [beq_iff_eq]
        rfl
      have held : ∀ id, (s.afterWrite req doneCycle).held.count id =
          s.held.count id - if req.id = id then 1 else 0 := by
        intro id
        have isHeld : (s.afterWrite req doneCycle).held = s.held.erase req.id := if_pos isWrite
        rw [isHeld, List.count_erase]
        simp only [beq_iff_eq]
      have accepted : (req.id, true) ∈ s.accepted := isWrite ▸ waits.accepted
      refine ⟨fun id notAccepted => ?_, fun id isRead => ?_, fun id isWrite' => ?_⟩
      · have ne : req.id ≠ id := by
          rintro rfl
          exact notAccepted (List.mem_map_of_mem (f := Prod.fst) accepted)
        rw [answered, held, if_neg ne]
        exact requests.known id notAccepted
      · have ne : req.id ≠ id := by
          rintro rfl
          exact absurd (requests.unique accepted isRead) (by simp)
        rw [answered, held, if_neg ne]
        exact requests.reads id isRead
      · have before := requests.writes id isWrite'
        have count := restCount id
        rw [answered, held]
        by_cases same : req.id = id
        · rw [if_pos same] at count ⊢
          omega
        · rw [if_neg same] at count ⊢
          omega
  | false =>
      have same : s.afterWrite req doneCycle = s := by
        simp [DDRMemory.afterWrite, isWrite]
      rw [same]
      refine ⟨requests.known, requests.reads, fun id isWrite' => ?_⟩
      have ne : req.id ≠ id := by
        rintro rfl
        have accepted : (req.id, false) ∈ s.accepted := isWrite ▸ waits.accepted
        exact absurd (requests.unique accepted isWrite') (by simp)
      have before := requests.writes id isWrite'
      rwa [restCount id, if_neg ne] at before

/-- The state in which `req` has left the overflow queue for `q`, as `req'`. -/
def moved (s : DDRMemory) (req req' : Request) (rest : List Request) (doneCycle : Nat) (wr : Bool)
    (q : List Request) : DDRMemory :=
  (({ s with overflowQueue := rest }.afterWrite req doneCycle).setBank req'
    ((s.bank req').setReqs wr q)).setQueue wr (s.reqQueue wr ++ [req'])

section
variable (s : DDRMemory) (req req' : Request) (rest : List Request) (doneCycle : Nat) (wr : Bool)
  (q : List Request)

theorem moved_reqQueue (wr' : Bool) : (s.moved req req' rest doneCycle wr q).reqQueue wr' =
    if wr' = wr then s.reqQueue wr ++ [req'] else s.reqQueue wr' := reqQueue_setQueue _ _ _ wr'

theorem moved_banks : (s.moved req req' rest doneCycle wr q).banks =
    (s.setBank req' ((s.bank req').setReqs wr q)).banks := setQueue_banks ..

theorem moved_sameTiming : SameTiming s (s.moved req req' rest doneCycle wr q) where
  minRespCycle := setQueue_minRespCycle ..
  lastCmdWasWrite := setQueue_lastCmdWasWrite ..
  commands := setQueue_commands ..
  scheduling := setQueue_scheduling ..
  accepted := setQueue_accepted ..
  banks key := by
    rw [moved_banks]
    exact setBank_setReqs s req' wr q key

end

theorem Requests.moved {s : DDRMemory} (requests : Requests c s) {req : Request} (req' : Request)
    {rest : List Request} (isFirst : s.overflowQueue = req :: rest) (doneCycle : Nat)
    (id : req'.id = req.id) (loc : req'.loc = req.loc) (write : req'.write = req.write)
    (ev : req'.ev = if req.write then none else some req.id) {q : List Request}
    (perm : q.Perm (req' :: (s.bank req').reqs (useWrQueue c req))) :
    Requests c (s.moved req req' rest doneCycle (useWrQueue c req) q) := by
  have waits := requests.waits req (by rw [isFirst]; exact List.mem_cons_self)
  have queues := s.moved_reqQueue req req' rest doneCycle (useWrQueue c req) q
  have same := s.moved_sameTiming req req' rest doneCycle (useWrQueue c req) q
  have overflow : (s.moved req req' rest doneCycle (useWrQueue c req) q).overflowQueue = rest :=
    setQueue_overflowQueue ..
  have served : (s.moved req req' rest doneCycle (useWrQueue c req) q).served = s.served :=
    setQueue_served ..
  have answered : (s.moved req req' rest doneCycle (useWrQueue c req) q).answeredIds =
      (s.afterWrite req doneCycle).answeredIds := congrArg (List.map Prod.fst) (setQueue_answered ..)
  have held : (s.moved req req' rest doneCycle (useWrQueue c req) q).held =
      (s.afterWrite req doneCycle).held := setQueue_held ..
  obtain ⟨known, reads, writes⟩ := requests.afterWrite isFirst doneCycle
  constructor
  · intro wr r member
    have old : r ∈ s.reqQueue wr →
        (s.moved req req' rest doneCycle (useWrQueue c req) q).Queued c wr r := fun member =>
      have before := requests.queued wr r member
      ⟨before.queue, before.located, by rw [same.accepted]; exact before.accepted, before.ev⟩
    rw [queues] at member
    split at member
    case isFalse => exact old member
    case isTrue sameQueue =>
      subst sameQueue
      rcases List.mem_append.mp member with before | new
      · exact old before
      · cases List.mem_singleton.mp new
        refine ⟨by rw [useWrQueue, write]; rfl, by rw [loc]; exact waits.located, ?_,
          by rw [ev, write, id]⟩
        rw [same.accepted, id, write]
        exact waits.accepted
  · intro r member
    rw [overflow] at member
    have before := requests.waits r (by rw [isFirst]; exact List.mem_cons_of_mem _ member)
    exact ⟨before.located, by rw [same.accepted]; exact before.accepted, before.ev⟩
  · obtain ⟨here, elsewhere⟩ := setBank_setReqs_reqs s req' (useWrQueue c req) q
    refine @lists_gain s _ (useWrQueue c req) req' requests.lists ?_ ?_ ?_ ?_
    · rw [queues, if_pos rfl]
      exact List.perm_append_singleton _ _
    · intro wr' other
      rw [queues, if_neg other]
    · rw [moved_banks, here]
      exact perm
    · intro wr' key other
      rw [moved_banks, elsewhere wr' key other]
  · intro id'
    have before := requests.counts id'
    rw [isFirst, ids, List.map_cons, List.count_cons] at before
    rw [overflow, served, same.accepted, queues, queues]
    have appended : (ids (s.reqQueue (useWrQueue c req) ++ [req'])).count id' =
        (ids (s.reqQueue (useWrQueue c req))).count id' + if req.id == id' then 1 else 0 := by
      rw [ids, List.map_append, List.count_append, List.map_singleton, id, List.count_singleton]
      rfl
    change (ids rest).count id' + _ + _ + _ + _ = _ at before
    cases isWrQueue : useWrQueue c req with
    | true =>
        rw [isWrQueue] at appended
        rw [if_neg (by simp), if_pos rfl, appended]
        omega
    | false =>
        rw [isWrQueue] at appended
        rw [if_pos rfl, if_neg (by simp), appended]
        omega
  · rw [same.accepted]
    exact requests.nodup
  · rw [same.accepted, answered, held]
    exact known
  · rw [same.accepted, answered, held, served]
    exact reads
  · rw [same.accepted, answered, held, overflow]
    exact writes

/-- The first request of the overflow queue is queued. -/
theorem queue_spec {s : DDRMemory} (requests : Requests c s) {req : Request} {rest : List Request}
    (isFirst : s.overflowQueue = req :: rest)
    (room : full c (s.reqQueue (useWrQueue c req)) = false) (memCycle : Nat) :
    ∃ req' s', { s with overflowQueue := rest }.queue c req memCycle = some (req', s') ∧
      Requests c s' ∧ SameTiming s s' ∧ s'.overflowQueue = rest ∧ req'.loc = req.loc ∧
      s'.reqQueue (useWrQueue c req) = s.reqQueue (useWrQueue c req) ++ [req'] := by
  have waits := requests.waits req (by rw [isFirst]; exact List.mem_cons_self)
  have isHeld : req.id ∈ s.held := by
    rw [← List.count_pos_iff]
    have counts := requests.counts req.id
    rw [requests.count_accepted waits.accepted, isFirst, ids, List.map_cons, List.count_cons_self] at counts
    cases isWrite : req.write with
    | true =>
        have before := (requests.writes req.id (isWrite ▸ waits.accepted)).2
        rw [isFirst, ids, List.map_cons, List.count_cons_self] at before
        omega
    | false =>
        have before := (requests.reads req.id (isWrite ▸ waits.accepted)).2
        omega
  have responds : ∃ doneCycle, { s with overflowQueue := rest }.respondWrite c req memCycle = _ :=
    respondWrite_spec memCycle waits.ev isHeld
  obtain ⟨doneCycle, responds⟩ := responds
  obtain ⟨seq, q, inserts, perm⟩ := insert_spec (c := c) (s.bank req)
    ((s.bank req).reqs (useWrQueue c req))
    { req with ev := if req.write then none else some req.id, arrivalCycle := memCycle }
  have room' : ¬ full c (DDRMemory.reqQueue { s with overflowQueue := rest } (useWrQueue c req)) = true :=
    ne_true_of_eq_false room
  let req' : Request :=
    { req with
      ev := if req.write then none else some req.id
      arrivalCycle := memCycle
      rowHitSeq := seq }
  refine ⟨req', s.moved req req' rest doneCycle (useWrQueue c req) q, ?_,
    requests.moved req' isFirst doneCycle rfl rfl rfl rfl perm, moved_sameTiming .., setQueue_overflowQueue ..,
    rfl, ?_⟩
  · unfold queue
    dsimp only
    rw [if_neg room', responds]
    exact congrArg (fun p : Request × List Request => some (p.1,
      (({ s with overflowQueue := rest }.afterWrite req doneCycle).setBank p.1
        ((s.bank req).setReqs (useWrQueue c req) p.2)).setQueue (useWrQueue c req)
          (s.reqQueue (useWrQueue c req) ++ [p.1]))) inserts
  · rw [moved_reqQueue, if_pos rfl]

end Zsim.DDR.DDRMemory
