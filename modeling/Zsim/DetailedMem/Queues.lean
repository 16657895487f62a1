import Zsim.DetailedMem.Scheduler

/-!
# The books of the scheduler

No read is lost or answered twice, no line is queued for writing twice, and the write
queue holds exactly the lines whose last write has not been issued.  The bound on the two
write queues is kept by the writes that meet it, and by no others.
-/

set_option autoImplicit false

namespace Zsim.DetailedMem

/-! ## What a tick takes -/

namespace MemScheduler

theorem findBestRequest_spec (rowHit : Nat → Bool) {queue : List Nat} (some_ : queue ≠ []) :
    ∃ idx < queue.length, findBestRequest rowHit queue = some idx := by
  rw [findBestRequest, if_neg some_]
  cases found : queue.findIdx? rowHit with
  | none => exact ⟨0, List.length_pos_of_ne_nil some_, rfl⟩
  | some idx =>
      obtain ⟨lt, -⟩ := List.findIdx?_eq_some_iff_getElem.mp found
      exact ⟨idx, lt, rfl⟩

variable {c : SchedulerConfig} {s : MemScheduler} {rowHit : Nat → Bool}

theorem getRead_none (empty : s.rdQueue = []) : s.getRead rowHit = none := by
  simp [getRead, findBestRequest, empty]

theorem getRead_some (rowHit : Nat → Bool) (waiting : s.rdQueue ≠ []) :
    ∃ ev addr rest, s.getRead rowHit = some ({ s with rdQueue := rest }, .read ev addr) ∧
      ((ev, addr) :: rest).Perm s.rdQueue := by
  have waiting' : s.rdQueue.map Prod.snd ≠ [] := fun empty => waiting (List.map_eq_nil_iff.mp empty)
  obtain ⟨idx, lt, found⟩ := findBestRequest_spec rowHit waiting'
  rw [List.length_map] at lt
  refine ⟨s.rdQueue[idx].1, s.rdQueue[idx].2, s.rdQueue.eraseIdx idx, ?_,
    List.getElem_cons_eraseIdx_perm lt⟩
  simp [getRead, found, List.getElem?_eq_getElem lt]

theorem getWrite_none (empty : s.wrQueue = []) : s.getWrite rowHit = none := by
  simp [getWrite, findBestRequest, empty]

theorem getWrite_some (rowHit : Nat → Bool) (waiting : s.wrQueue ≠ []) :
    ∃ addr rest, s.getWrite rowHit =
      some ({ s with wrQueue := rest, wrDoneQueue := s.wrDoneQueue ++ [addr] }, .write addr) ∧
      (addr :: rest).Perm s.wrQueue := by
  obtain ⟨idx, lt, found⟩ := findBestRequest_spec rowHit waiting
  refine ⟨s.wrQueue[idx], s.wrQueue.eraseIdx idx, ?_, List.getElem_cons_eraseIdx_perm lt⟩
  simp [getWrite, found, List.getElem?_eq_getElem lt]

theorem checkPriority_eq (c : SchedulerConfig) (s : MemScheduler) :
    s.checkPriority c =
      { s with prioritizedAccessType := (s.checkPriority c).prioritizedAccessType } := by
  unfold checkPriority
  split
  · rfl
  · split <;> rfl

/-- What a tick takes: a read, a write, or nothing. -/
inductive Got (c : SchedulerConfig) (s : MemScheduler) : MemScheduler → Option Request → Prop
  | read {type : MemAccessType} {ev addr : Nat} {rest : List (Nat × Nat)}
      (prio : c.wrQueueHighWatermark ≠ 0)
      (taken : ((ev, addr) :: rest).Perm s.rdQueue) :
      Got c s { s with prioritizedAccessType := type, rdQueue := rest } (some (.read ev addr))
  | write {type : MemAccessType} {addr : Nat} {rest : List Nat}
      (taken : (addr :: rest).Perm s.wrQueue) :
      Got c s { s with prioritizedAccessType := type, wrQueue := rest,
                       wrDoneQueue := s.wrDoneQueue ++ [addr] } (some (.write addr))
  | nothing {type : MemAccessType} (writes : s.wrQueue = [])
      (reads : c.wrQueueHighWatermark ≠ 0 → s.rdQueue = []) :
      Got c s { s with prioritizedAccessType := type } none

/-- With a watermark of 0 writes always have priority, and without writes reads have it
otherwise. -/
theorem checkPriority_read (read : (s.checkPriority c).prioritizedAccessType = .read) :
    c.wrQueueHighWatermark ≠ 0 := by
  intro zero
  simp [checkPriority, zero] at read

theorem checkPriority_write (write : (s.checkPriority c).prioritizedAccessType ≠ .read)
    (empty : s.wrQueue = []) : c.wrQueueHighWatermark = 0 := by
  by_contra pos
  have high : ¬ c.wrQueueHighWatermark ≤ 0 := by omega
  simp [checkPriority, empty, high] at write

theorem got_write (type : MemAccessType)
    (reads : s.wrQueue = [] → c.wrQueueHighWatermark ≠ 0 → s.rdQueue = []) {t : MemScheduler}
    (same : t = { s with prioritizedAccessType := type }) :
    Got c s (t.answer (t.getWrite rowHit)).1 (t.answer (t.getWrite rowHit)).2 := by
  subst same
  by_cases empty : s.wrQueue = []
  · rw [getWrite_none (s := { s with prioritizedAccessType := type }) empty]
    exact .nothing empty (reads empty)
  · obtain ⟨addr, rest, run, taken⟩ := getWrite_some rowHit
      (s := { s with prioritizedAccessType := type }) empty
    rw [run]
    exact .write taken

theorem getEvent_spec (c : SchedulerConfig) (s : MemScheduler) (rowHit : Nat → Bool) :
    Got c s (s.getEvent c rowHit).1 (s.getEvent c rowHit).2 := by
  have read := checkPriority_read (c := c) (s := s)
  have write := checkPriority_write (c := c) (s := s)
  have same := checkPriority_eq c s
  rw [getEvent]
  generalize s.checkPriority c = t at *
  have rdQueue : t.rdQueue = s.rdQueue := by rw [same]
  by_cases prio : t.prioritizedAccessType = .read
  · simp only [prio, if_true]
    by_cases waiting : s.rdQueue = []
    · rw [getRead_none (rdQueue.trans waiting), Option.none_or]
      exact got_write _ (fun _ _ => waiting) same
    · obtain ⟨ev, addr, rest, run, taken⟩ := getRead_some (s := t) rowHit
        (by rwa [rdQueue])
      rw [rdQueue] at taken
      rw [run, Option.some_or, same]
      exact .read (read prio) taken
  · simp only [prio, if_false, Option.none_or]
    exact got_write _ (fun empty pos => absurd (write prio empty) pos) same

/-- What a request does: its line is found in one of the write queues or in neither. -/
inductive Checked (c : SchedulerConfig) (s : MemScheduler) (ev addr : Nat) :
    MemAccessType → MemScheduler → Bool → Prop
  | readHit {done : List Nat} (hit : addr ∈ s.wrQueue ∨ addr ∈ s.wrDoneQueue)
      (same : done.Perm s.wrDoneQueue) :
      Checked c s ev addr .read { s with wrDoneQueue := done } true
  | readMiss (new : addr ∉ s.wrQueue) (notDone : addr ∉ s.wrDoneQueue) :
      Checked c s ev addr .read { s with rdQueue := s.rdQueue ++ [(ev, addr)] } false
  | writeHit {queue : List Nat} (hit : addr ∈ s.wrQueue) (same : queue.Perm s.wrQueue) :
      Checked c s ev addr .write { s with wrQueue := queue } true
  | writeDone {done : List Nat} (new : addr ∉ s.wrQueue) (same : (addr :: done).Perm s.wrDoneQueue) :
      Checked c s ev addr .write
        { s with wrQueue := s.wrQueue ++ [addr], wrDoneQueue := done } true
  | writeMiss {done : List Nat} (new : addr ∉ s.wrQueue) (notDone : addr ∉ s.wrDoneQueue)
      (kept : done.Sublist s.wrDoneQueue)
      (count : s.wrQueue.length + s.wrDoneQueue.length ≤ c.wrQueueSize →
        (s.wrQueue.length + 1 + done.length ≤ c.wrQueueSize ↔
          s.wrQueue.length + s.wrDoneQueue.length < c.wrQueueSize)) :
      Checked c s ev addr .write
        { s with wrQueue := s.wrQueue ++ [addr], wrDoneQueue := done } false

theorem perm_erase_concat {addr : Nat} {queue : List Nat} (member : addr ∈ queue) :
    (queue.erase addr ++ [addr]).Perm queue :=
  (List.perm_append_singleton addr _).trans (List.perm_cons_erase member).symm

theorem checkSetEvent_spec (c : SchedulerConfig) (s : MemScheduler) (type : MemAccessType)
    (ev addr : Nat) :
    Checked c s ev addr type (s.checkSetEvent c type ev addr).1
      (s.checkSetEvent c type ev addr).2 := by
  unfold checkSetEvent
  by_cases queued : addr ∈ s.wrQueue
  · rw [if_pos queued]
    cases type with
    | read => exact .readHit (Or.inl queued) (List.Perm.refl _)
    | write => exact .writeHit queued (perm_erase_concat queued)
  · rw [if_neg queued]
    by_cases done : addr ∈ s.wrDoneQueue
    · rw [if_pos done]
      cases type with
      | read => exact .readHit (Or.inr done) (perm_erase_concat done)
      | write => exact .writeDone queued (List.perm_cons_erase done).symm
    · rw [if_neg done]
      cases type with
      | read => exact .readMiss queued done
      | write =>
          simp only [List.length_append, List.length_singleton]
          split
          · next full =>
            apply Checked.writeMiss queued done (List.tail_sublist _)
            rw [List.length_tail]
            omega
          · next room =>
            apply Checked.writeMiss queued done (List.Sublist.refl _)
            omega

end MemScheduler

/-! ## The books -/

namespace MemController

/-- The reads that have been answered. -/
def answered (log : List Event) : List Nat :=
  log.filterMap fun event => match event with
    | .done ev => some ev
    | _ => none

/-- A write to the line came after the last one that was issued; the latest event is first. -/
def Unissued (addr : Nat) : List Event → Prop
  | [] => False
  | .enqueued a :: rest => a = addr ∨ Unissued addr rest
  | .issued a :: rest => a ≠ addr ∧ Unissued addr rest
  | .done _ :: rest => Unissued addr rest

def readOf : Op → List Nat
  | .enqueue .read ev _ => [ev]
  | .enqueue .write _ _ => []
  | .tick _ => []

structure Inv (s : MemController) (reads : List Nat) : Prop where
  account : (answered s.log ++ s.sched.rdQueue.map Prod.fst).Perm reads
  nodup : (s.sched.wrQueue ++ s.sched.wrDoneQueue).Nodup
  unissued : ∀ addr, Unissued addr s.log ↔ addr ∈ s.sched.wrQueue

theorem Inv.start : Inv init [] where
  account := List.Perm.refl _
  nodup := List.nodup_nil
  unissued addr := by simp [init, Unissued, MemScheduler.init]

variable {c : SchedulerConfig} {s : MemController} {reads : List Nat}

theorem Inv.enqueue (inv : Inv s reads) (type : MemAccessType) (ev addr : Nat) :
    Inv (s.enqueue c type ev addr) (reads ++ readOf (.enqueue type ev addr)) := by
  have spec := MemScheduler.checkSetEvent_spec c s.sched type ev addr
  unfold MemController.enqueue
  generalize s.sched.checkSetEvent c type ev addr = result at *
  obtain ⟨sched, hit⟩ := result
  cases spec with
  | readHit hit same =>
      refine ⟨?_, ?_, inv.unissued⟩
      · exact (inv.account.cons ev).trans (List.perm_append_singleton ev reads).symm
      · exact (same.append_left _).nodup_iff.mpr inv.nodup
  | readMiss new notDone =>
      refine ⟨?_, inv.nodup, inv.unissued⟩
      have more := inv.account.append_right [ev]
      rw [List.append_assoc] at more
      simpa [readOf] using more
  | writeHit hit same =>
      refine ⟨?_, ?_, ?_⟩
      · rw [readOf, List.append_nil]
        exact inv.account
      · exact (same.append_right _).nodup_iff.mpr inv.nodup
      · intro a
        rw [Unissued, same.mem_iff, inv.unissued]
        constructor
        · rintro (rfl | member)
          · exact hit
          · exact member
        · exact Or.inr
  | writeDone new same =>
      refine ⟨?_, ?_, ?_⟩
      · rw [readOf, List.append_nil]
        exact inv.account
      · simp only [List.append_assoc, List.singleton_append]
        exact (same.append_left _).nodup_iff.mpr inv.nodup
      · intro a
        rw [Unissued, inv.unissued, List.mem_append, List.mem_singleton, or_comm]
        exact or_congr_right eq_comm
  | writeMiss new notDone kept count =>
      refine ⟨?_, ?_, ?_⟩
      · rw [readOf, List.append_nil]
        exact inv.account
      · simp only [List.append_assoc, List.singleton_append]
        apply List.nodup_middle.mpr
        apply List.nodup_cons.mpr
        constructor
        · intro member
          rcases List.mem_append.mp member with queued | done
          · exact new queued
          · exact notDone (kept.subset done)
        · exact inv.nodup.sublist (kept.append_left _)
      · intro a
        rw [Unissued, inv.unissued, List.mem_append, List.mem_singleton, or_comm]
        exact or_congr_right eq_comm

theorem Inv.tickScheduler (inv : Inv s reads) (rowHit : Nat → Bool) :
    Inv (s.tickScheduler c rowHit) reads := by
  have spec := MemScheduler.getEvent_spec c s.sched rowHit
  unfold MemController.tickScheduler
  generalize s.sched.getEvent c rowHit = result at *
  obtain ⟨sched, request⟩ := result
  cases spec with
  | read prio taken =>
      refine ⟨?_, inv.nodup, inv.unissued⟩
      have moved := (taken.map Prod.fst).append_left (answered s.log)
      rw [List.map_cons] at moved
      exact (List.perm_middle.symm.trans moved).trans inv.account
  | write taken =>
      have nodup := (taken.append_right s.sched.wrDoneQueue).nodup_iff.mpr inv.nodup
      refine ⟨inv.account, ?_, ?_⟩
      · rw [← List.append_assoc]
        exact (List.perm_append_singleton _ _).nodup_iff.mpr nodup
      · intro a
        have queued := taken.mem_iff (a := a)
        rw [Unissued, inv.unissued, ← queued, List.mem_cons]
        constructor
        · rintro ⟨apart, same | member⟩
          · exact absurd same.symm apart
          · exact member
        · intro member
          refine ⟨?_, Or.inr member⟩
          rintro rfl
          exact (List.nodup_cons.mp nodup).1 (List.mem_append_left _ member)
  | nothing => exact ⟨inv.account, inv.nodup, inv.unissued⟩

theorem Inv.step (inv : Inv s reads) (op : Op) : Inv (s.step c op) (reads ++ readOf op) := by
  cases op with
  | enqueue type ev addr => exact inv.enqueue type ev addr
  | tick rowHit =>
      rw [readOf, List.append_nil]
      exact inv.tickScheduler rowHit

theorem run_spec (c : SchedulerConfig) (ops : List Op) (s : MemController) (reads : List Nat)
    (inv : Inv s reads) :
    ∃ final, (machine c).exec ops s = some final ∧ Inv final (reads ++ ops.flatMap readOf) := by
  induction ops generalizing s reads with
  | nil => exact ⟨s, rfl, by rwa [List.flatMap_nil, List.append_nil]⟩
  | cons op rest ih =>
      obtain ⟨final, run, after⟩ := ih (s.step c op) (reads ++ readOf op) (inv.step op)
      refine ⟨final, by rw [Machine.exec_cons]; exact run, ?_⟩
      rwa [List.flatMap_cons, ← List.append_assoc]

/-! ## The bound -/

def Bounded (c : SchedulerConfig) (s : MemController) : Prop :=
  s.sched.wrQueue.length + s.sched.wrDoneQueue.length ≤ c.schedulerQueueCount

/-- A write to a line in neither queue finds them below the bound. -/
def Room (c : SchedulerConfig) (s : MemController) : Op → Prop
  | .enqueue .write _ addr => addr ∉ s.sched.wrQueue → addr ∉ s.sched.wrDoneQueue →
    s.sched.wrQueue.length + s.sched.wrDoneQueue.length < c.schedulerQueueCount
  | .enqueue .read _ _ => True
  | .tick _ => True

theorem enqueue_bounded (bounded : Bounded c s) (type : MemAccessType) (ev addr : Nat) :
    Bounded c (s.enqueue c type ev addr) ↔ Room c s (.enqueue type ev addr) := by
  have spec := MemScheduler.checkSetEvent_spec c s.sched type ev addr
  unfold MemController.enqueue
  generalize s.sched.checkSetEvent c type ev addr = result at *
  obtain ⟨sched, hit⟩ := result
  cases spec with
  | readHit hit same =>
      have size := same.length_eq
      simp only [Bounded, Room, if_true, iff_true] at bounded ⊢
      omega
  | readMiss new notDone => simpa [Bounded, Room] using bounded
  | writeHit hit same =>
      have size := same.length_eq
      simp only [Bounded, Room, hit, not_true_eq_false, false_imp_iff, iff_true] at bounded ⊢
      omega
  | writeDone new same =>
      have size := same.length_eq
      have done : addr ∈ s.sched.wrDoneQueue := same.subset List.mem_cons_self
      simp only [Bounded, Room, done, not_true_eq_false, false_imp_iff, implies_true, iff_true,
        List.length_append, List.length_cons, List.length_nil] at bounded size ⊢
      omega
  | writeMiss new notDone kept count =>
      simp only [Bounded, Room, new, notDone, not_false_eq_true, true_imp_iff, List.length_append,
        List.length_cons, List.length_nil] at bounded ⊢
      exact count bounded

theorem tick_bounded (bounded : Bounded c s) (rowHit : Nat → Bool) :
    Bounded c (s.tickScheduler c rowHit) := by
  have spec := MemScheduler.getEvent_spec c s.sched rowHit
  unfold MemController.tickScheduler
  generalize s.sched.getEvent c rowHit = result at *
  obtain ⟨sched, request⟩ := result
  cases spec with
  | read prio taken => exact bounded
  | write taken =>
      have size := taken.length_eq
      simp only [Bounded, List.length_append, List.length_cons, List.length_nil] at bounded size ⊢
      omega
  | nothing => exact bounded

theorem bounded_iff (c : SchedulerConfig) (ops : List Op) :
    (machine c).Throughout (Bounded c) ops init ↔ (machine c).Along (Room c) ops init := by
  obtain ⟨final, run, -⟩ := run_spec c ops init [] Inv.start
  have keeps : ∀ s op next, True → (machine c).legal s op → (machine c).step s op = some next →
      True := fun _ _ _ _ _ _ => trivial
  apply Machine.LegalRun.throughout_iff keeps _ trivial _ _ run
  · intro s op next _ bounded _ step
    cases Option.some.inj step
    cases op with
    | enqueue type ev addr => exact enqueue_bounded bounded type ev addr
    | tick rowHit => exact ⟨fun _ => trivial, fun _ => tick_bounded bounded rowHit⟩
  · exact Nat.zero_le _
  · exact Machine.along_of_forall (fun _ _ _ => trivial) init

/-! ## The answers to reads -/

/-- A read is answered at once if its line is in a write queue, and waits otherwise. -/
theorem read_answered (c : SchedulerConfig) (s : MemController) (ev addr : Nat) :
    (addr ∈ s.sched.wrQueue ∨ addr ∈ s.sched.wrDoneQueue →
      (s.enqueue c .read ev addr).log = .done ev :: s.log ∧
        (s.enqueue c .read ev addr).sched.rdQueue = s.sched.rdQueue) ∧
    (addr ∉ s.sched.wrQueue → addr ∉ s.sched.wrDoneQueue →
      (s.enqueue c .read ev addr).log = s.log ∧
        (s.enqueue c .read ev addr).sched.rdQueue = s.sched.rdQueue ++ [(ev, addr)]) := by
  have spec := MemScheduler.checkSetEvent_spec c s.sched .read ev addr
  unfold MemController.enqueue
  generalize s.sched.checkSetEvent c .read ev addr = result at *
  obtain ⟨sched, hit⟩ := result
  cases spec with
  | readHit hit same =>
      refine ⟨fun _ => ⟨rfl, rfl⟩, fun new notDone => ?_⟩
      rcases hit with queued | done
      · exact absurd queued new
      · exact absurd done notDone
  | readMiss new notDone =>
      refine ⟨fun hit => ?_, fun _ _ => ⟨rfl, rfl⟩⟩
      rcases hit with queued | done
      · exact absurd queued new
      · exact absurd done notDone

def ticks (c : SchedulerConfig) (s : MemController) (rowHits : List (Nat → Bool)) : MemController :=
  rowHits.foldl (fun s rowHit => s.tickScheduler c rowHit) s

/-- Ticks answer every waiting read, one for each entry of the two queues. -/
def Drains (c : SchedulerConfig) (s : MemController) : Prop :=
  ∀ rowHits, s.sched.rdQueue.length + s.sched.wrQueue.length ≤ rowHits.length →
    (s.ticks c rowHits).sched.rdQueue = []

theorem tick_progress (high : c.wrQueueHighWatermark ≠ 0) (s : MemController)
    (rowHit : Nat → Bool) :
    (s.tickScheduler c rowHit).sched.rdQueue.length +
        (s.tickScheduler c rowHit).sched.wrQueue.length =
      s.sched.rdQueue.length + s.sched.wrQueue.length - 1 := by
  have spec := MemScheduler.getEvent_spec c s.sched rowHit
  unfold MemController.tickScheduler
  generalize s.sched.getEvent c rowHit = result at *
  obtain ⟨sched, request⟩ := result
  cases spec with
  | read prio taken =>
      have size := taken.length_eq
      simp only [List.length_cons] at size ⊢
      omega
  | write taken =>
      have size := taken.length_eq
      simp only [List.length_cons] at size ⊢
      omega
  | nothing writes reads => simp [writes, reads high]

theorem ticks_drain (high : c.wrQueueHighWatermark ≠ 0) (s : MemController) : Drains c s := by
  intro rowHits
  induction rowHits generalizing s with
  | nil =>
      intro enough
      have empty : s.sched.rdQueue.length = 0 := by
        rw [List.length_nil] at enough
        omega
      exact List.eq_nil_of_length_eq_zero empty
  | cons rowHit rest ih =>
      intro enough
      apply ih
      rw [tick_progress high]
      rw [List.length_cons] at enough
      omega

/-- With a watermark of 0 no read is ever taken. -/
theorem tick_stuck (high : c.wrQueueHighWatermark = 0) (s : MemController) (rowHit : Nat → Bool) :
    (s.tickScheduler c rowHit).sched.rdQueue = s.sched.rdQueue := by
  have spec := MemScheduler.getEvent_spec c s.sched rowHit
  unfold MemController.tickScheduler
  generalize s.sched.getEvent c rowHit = result at *
  obtain ⟨sched, request⟩ := result
  cases spec with
  | read prio taken => exact absurd high prio
  | write taken => rfl
  | nothing => rfl

theorem ticks_stuck (high : c.wrQueueHighWatermark = 0) (s : MemController)
    (rowHits : List (Nat → Bool)) : (s.ticks c rowHits).sched.rdQueue = s.sched.rdQueue := by
  induction rowHits generalizing s with
  | nil => rfl
  | cons rowHit rest ih => exact (ih _).trans (tick_stuck high s rowHit)

theorem drains_iff (c : SchedulerConfig) (s : MemController) :
    Drains c s ↔ c.wrQueueHighWatermark ≠ 0 ∨ s.sched.rdQueue = [] := by
  constructor
  · intro drains
    by_cases high : c.wrQueueHighWatermark = 0
    · right
      have answered := drains (List.replicate _ fun _ => false) (Nat.le_of_eq List.length_replicate.symm)
      rwa [ticks_stuck high] at answered
    · exact Or.inl high
  · rintro (high | none)
    · exact ticks_drain high s
    · intro rowHits enough
      by_cases high : c.wrQueueHighWatermark = 0
      · rwa [ticks_stuck high]
      · exact ticks_drain high s rowHits enough

/-- Every run keeps the books: a read is answered or waits, each once, no line is twice in
the write queues, and what waits to be written is in the first.  Waiting reads are
answered unless the watermark is 0, and the bound holds as long as writes find room. -/
theorem scheduler_books (c : SchedulerConfig) (ops : List Op) :
    ∃ s, (machine c).exec ops init = some s ∧
      (answered s.log ++ s.sched.rdQueue.map Prod.fst).Perm (ops.flatMap readOf) ∧
      (∀ ev addr,
        (addr ∈ s.sched.wrQueue ∨ addr ∈ s.sched.wrDoneQueue →
          (s.enqueue c .read ev addr).log = .done ev :: s.log ∧
            (s.enqueue c .read ev addr).sched.rdQueue = s.sched.rdQueue) ∧
        (addr ∉ s.sched.wrQueue → addr ∉ s.sched.wrDoneQueue →
          (s.enqueue c .read ev addr).log = s.log ∧
            (s.enqueue c .read ev addr).sched.rdQueue = s.sched.rdQueue ++ [(ev, addr)])) ∧
      (s.sched.wrQueue ++ s.sched.wrDoneQueue).Nodup ∧
      (∀ addr, Unissued addr s.log ↔ addr ∈ s.sched.wrQueue) ∧
      (Drains c s ↔ c.wrQueueHighWatermark ≠ 0 ∨ s.sched.rdQueue = []) ∧
      ((machine c).Throughout (Bounded c) ops init ↔ (machine c).Along (Room c) ops init) := by
  obtain ⟨s, run, inv⟩ := run_spec c ops init [] Inv.start
  rw [List.nil_append] at inv
  exact ⟨s, run, inv.account, read_answered c s, inv.nodup, inv.unissued, drains_iff c s,
    bounded_iff c ops⟩

def oneEntry : SchedulerConfig := ⟨1, Nat.one_pos⟩

def twoEntries : SchedulerConfig := ⟨2, Nat.two_pos⟩

/-- Three writes pass a bound of two entries, and with one entry a read is never answered. -/
theorem bound_passed :
    (∃ s, (machine twoEntries).exec
        [.enqueue .write 0 1, .enqueue .write 1 2, .enqueue .write 2 3] init = some s ∧
      s.sched.wrQueue = [1, 2, 3] ∧ ¬ Bounded twoEntries s) ∧
    ∃ s, (machine oneEntry).exec [.enqueue .read 0 1] init = some s ∧
      ∀ rowHits, (s.ticks oneEntry rowHits).sched.rdQueue = [(0, 1)] := by
  constructor
  · refine ⟨_, rfl, rfl, ?_⟩
    rw [Bounded]
    decide
  · exact ⟨_, rfl, ticks_stuck rfl _⟩

end MemController

end Zsim.DetailedMem
