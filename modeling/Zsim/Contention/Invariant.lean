import Zsim.Contention.Model
import Zsim.PrioQueue.Operations

/-!
# The invariant of the contention simulation

Each domain belongs to one thread.  A domain whose thread is done with it has nothing
left below the limit; the other domains of the thread are in one of its queues, or it
runs an event of them.
-/

set_option autoImplicit false

namespace Zsim.PrioQueue

variable {T : Type} [DecidableEq T] {B : Nat}

theorem blockEnqueue_curBlock {pq next : PrioQueue T} {i pos : Nat} {obj : T}
    (run : pq.blockEnqueue i obj pos = some next) : next.curBlock = pq.curBlock := by
  unfold blockEnqueue at run
  dsimp only at run
  split at run
  · cases Option.some.inj run
    rfl
  · cases run

theorem enqueue_curBlock {pq next : PrioQueue T} {obj : T} {cycle : Nat}
    (run : pq.enqueue B obj cycle = some next) : next.curBlock = pq.curBlock := by
  unfold enqueue at run
  dsimp only at run
  split at run
  · split at run
    · obtain ⟨mid, linked, run⟩ := Option.bind_eq_some_iff.mp run
      cases Option.some.inj run
      exact (blockEnqueue_curBlock linked : mid.curBlock = pq.curBlock)
    · cases Option.some.inj run
      rfl
  · cases run

theorem blockDequeue_curBlock {pq next : PrioQueue T} {i pos : Nat} {obj : T}
    (run : pq.blockDequeue i = some (next, obj, pos)) : next.curBlock = pq.curBlock ∧ pos < 64 := by
  unfold blockDequeue at run
  dsimp only at run
  split at run
  case isTrue nonzero =>
    split at run
    · cases run
    · cases Option.some.inj run
      exact ⟨rfl, BitVec.ctz_lt_iff_ne_zero.mpr nonzero⟩
  case isFalse => cases run

theorem dequeue_curBlock {pq next : PrioQueue T} {fuel cycle : Nat} {obj : T}
    (run : pq.dequeue B fuel = .ok (next, obj, cycle)) (bound : next.curBlock < 2 ^ 58) :
    next.curBlock * 64 ≤ cycle := by
  unfold dequeue at run
  split at run
  case isFalse => cases run
  case isTrue =>
    split at run
    · cases run
    · split at run
      · cases run
      · rename_i pq' _ _ _ _ _ deq
        obtain ⟨same, offset⟩ := blockDequeue_curBlock deq
        cases run
        dsimp only at bound same ⊢
        rw [same] at bound ⊢
        rw [u64_of_lt (n := pq'.curBlock * 64) (by omega), u64_of_lt (by omega)]
        omega

end Zsim.PrioQueue

namespace Zsim.Contention

variable {T : Type} [DecidableEq T]

theorem pqBlocks_count : PrioQueue.BlockCount pqBlocks := ⟨by decide, by decide, by decide⟩

theorem pqFuel_enough : 2 ^ 58 ≤ pqFuel := Nat.le_refl _

/-! ## A domain -/

structure DomainInv (limit : Nat) (d : Domain T) : Prop where
  queue : ∃ near, PrioQueue.Inv pqBlocks d.pq near d.trace.queued
  block : d.pq.curBlock * 64 ≤ d.curCycle
  blockLimit : d.pq.curBlock * 64 ≤ limit
  ahead : ∀ e ∈ d.trace.queued, d.curCycle ≤ e.1
  /-- no event is lost, and none is executed that was not enqueued -/
  conserved : (d.trace.before ++ d.trace.enqueued).Perm (d.trace.executed ++ d.trace.queued)
  ordered : d.trace.executed.Pairwise fun later earlier => earlier.1 ≤ later.1
  reached : ∀ e ∈ d.trace.executed, e.1 ≤ d.curCycle
  due : ∀ e ∈ d.trace.executed, e.1 ≤ limit

omit [DecidableEq T] in
theorem DomainInv.init : DomainInv 0 (Domain.init : Domain T) where
  queue := ⟨_, PrioQueue.Inv.init pqBlocks_count fun _ => none⟩
  block := Nat.le_refl 0
  blockLimit := Nat.le_refl 0
  ahead _ member := absurd member List.not_mem_nil
  conserved := .refl _
  ordered := .nil
  reached _ member := absurd member List.not_mem_nil
  due _ member := absurd member List.not_mem_nil

omit [DecidableEq T] in
theorem DomainInv.phase {limit next : Nat} {d : Domain T} (inv : DomainInv limit d)
    (le : limit ≤ next) :
    DomainInv next
      { d with trace := { d.trace with before := d.trace.queued, enqueued := [], executed := [] } } where
  queue := inv.queue
  block := inv.block
  blockLimit := Nat.le_trans inv.blockLimit le
  ahead := inv.ahead
  conserved := by
    rw [List.append_nil]
    exact .refl _
  ordered := .nil
  reached _ member := absurd member List.not_mem_nil
  due _ member := absurd member List.not_mem_nil

omit [DecidableEq T] in
theorem DomainInv.publish {limit value : Nat} {d : Domain T} (inv : DomainInv limit d)
    (block : d.pq.curBlock * 64 ≤ value) (ahead : ∀ e ∈ d.trace.queued, value ≤ e.1)
    (reached : ∀ e ∈ d.trace.executed, e.1 ≤ value) : DomainInv limit (d.publish value) where
  queue := inv.queue
  block := block
  blockLimit := inv.blockLimit
  ahead := ahead
  conserved := inv.conserved
  ordered := inv.ordered
  reached := reached
  due := inv.due

theorem DomainInv.firstCycle {limit : Nat} {d : Domain T} (inv : DomainInv limit d) :
    (d.firstCycle = none ∧ d.trace.queued = []) ∨
      ∃ first ev, d.firstCycle = some first ∧ (first, ev) ∈ d.trace.queued ∧
        ∀ e ∈ d.trace.queued, first ≤ e.1 := by
  obtain ⟨near, queue⟩ := inv.queue
  unfold Domain.firstCycle PrioQueue.size
  cases isQueued : d.trace.queued with
  | nil =>
      left
      rw [queue.size, isQueued]
      exact ⟨rfl, rfl⟩
  | cons head rest =>
      right
      have some' : d.trace.queued ≠ [] := by simp [isQueued]
      obtain ⟨next, -, ev, first, -, -, member, least⟩ :=
        queue.dequeue pqBlocks_count some' pqFuel_enough
      have populated : d.pq.elems ≠ 0 := by
        rw [queue.size, isQueued]
        exact Nat.succ_ne_zero _
      rw [if_pos populated, ← isQueued]
      exact ⟨first, ev, queue.firstCycle pqBlocks_count member least, member, least⟩

omit [DecidableEq T] in
theorem advance_curCycle (cycle : Nat) (d : Domain T) : (d.advance cycle).curCycle = cycle := by
  unfold Domain.advance
  split
  · rfl
  · omega

omit [DecidableEq T] in
theorem advance_trace (cycle : Nat) (d : Domain T) : (d.advance cycle).trace =
    { d.trace with
      history := (if cycle ≠ d.curCycle then [.published cycle] else []) ++ d.trace.history } := by
  unfold Domain.advance
  split <;> rfl

omit [DecidableEq T] in
theorem DomainInv.advance {limit value : Nat} {d : Domain T} (inv : DomainInv limit d)
    (block : d.pq.curBlock * 64 ≤ value) (ahead : ∀ e ∈ d.trace.queued, value ≤ e.1)
    (reached : ∀ e ∈ d.trace.executed, e.1 ≤ value) : DomainInv limit (d.advance value) := by
  unfold Domain.advance
  split
  · exact inv.publish block ahead reached
  · exact inv

/-- The clock has come to show the value; what is new in the history has it too. -/
def Shows (value : Nat) (d d' : Domain T) : Prop :=
  ∃ new, d'.trace.history = new ++ d.trace.history ∧ (∀ x ∈ new, x.cycle = value) ∧
    (new = [] → d.curCycle = value)

/-- What an event leaves behind when it is taken out of the queue. -/
structure Started (d d' : Domain T) (first : Nat) : Prop where
  curCycle : d'.curCycle = first
  executed : ∃ ev, (first, ev) ∈ d.trace.queued ∧
    d'.trace.executed = (first, ev) :: d.trace.executed
  queued : ∀ e ∈ d'.trace.queued, e ∈ d.trace.queued
  before : d'.trace.before = d.trace.before
  enqueued : d'.trace.enqueued = d.trace.enqueued
  history : Shows first d d'

theorem DomainInv.start {limit first : Nat} {d : Domain T} (inv : DomainInv limit d)
    (isFirst : d.firstCycle = some first) (le : first ≤ limit) :
    ∃ d', d.start = some d' ∧ DomainInv limit d' ∧ Started d d' first ∧
      d.curCycle ≤ first := by
  obtain ⟨near, queue⟩ := inv.queue
  rcases inv.firstCycle with ⟨none, -⟩ | ⟨first', ev', isFirst', member', least'⟩
  · rw [isFirst] at none
    cases none
  cases Option.some.inj (isFirst.symm.trans isFirst')
  obtain ⟨next, near', ev, cycle, run, queue', member, least⟩ :=
    queue.dequeue pqBlocks_count (List.ne_nil_of_mem member') pqFuel_enough
  have same : cycle = first := Nat.le_antisymm (least _ member') (least' _ member)
  subst same
  have reached : d.curCycle ≤ cycle := inv.ahead _ member
  have block := PrioQueue.dequeue_curBlock run (by have := queue'.current; omega)
  have trace := advance_trace cycle d
  refine ⟨(d.advance cycle).execute next ev cycle, ?_, ?_, ?_, reached⟩
  · unfold Domain.start
    rw [run]
  · refine ⟨⟨near', ?_⟩, ?_, Nat.le_trans block le, ?_, ?_, ?_, ?_, ?_⟩
    · simpa only [Domain.execute, trace] using queue'
    · simpa only [Domain.execute, advance_curCycle] using block
    · simp only [Domain.execute, trace, advance_curCycle]
      exact fun e remains => least e (List.mem_of_mem_erase remains)
    · simp only [Domain.execute, trace]
      refine inv.conserved.trans ?_
      refine ((List.perm_cons_erase member).append_left d.trace.executed).trans ?_
      exact List.perm_middle
    · simp only [Domain.execute, trace]
      refine List.pairwise_cons.mpr ⟨fun e before => ?_, inv.ordered⟩
      exact Nat.le_trans (inv.reached e before) reached
    · simp only [Domain.execute, trace, advance_curCycle]
      intro e isExecuted
      rcases List.mem_cons.mp isExecuted with rfl | before
      · exact Nat.le_refl _
      · exact Nat.le_trans (inv.reached e before) reached
    · simp only [Domain.execute, trace]
      intro e isExecuted
      rcases List.mem_cons.mp isExecuted with rfl | before
      · exact le
      · exact inv.due e before
  · refine ⟨advance_curCycle cycle d, ⟨ev, member, ?_⟩, ?_, ?_, ?_,
      .executed ev cycle :: (if cycle ≠ d.curCycle then [.published cycle] else []), ?_, ?_,
      fun none => nomatch none⟩
    · simp only [Domain.execute, trace]
    · simp only [Domain.execute, trace]
      exact fun e remains => List.mem_of_mem_erase remains
    · simp only [Domain.execute, trace]
    · simp only [Domain.execute, trace]
    · simp only [Domain.execute, trace, List.cons_append]
    · intro x isNew
      rcases List.mem_cons.mp isNew with rfl | isStore
      · rfl
      · split at isStore
        · cases List.mem_singleton.mp isStore
          rfl
        · cases isStore

def InRange (cycle : Nat) : Prop := cycle / 64 + pqBlocks / 2 < 2 ^ 58

/-- An enqueued event changes the queue only. -/
structure Added (d d' : Domain T) (cycle : Nat) (ev : T) : Prop where
  curCycle : d'.curCycle = d.curCycle
  queued : d'.trace.queued = (cycle, ev) :: d.trace.queued
  executed : d'.trace.executed = d.trace.executed
  before : d'.trace.before = d.trace.before
  enqueued : d'.trace.enqueued = (cycle, ev) :: d.trace.enqueued
  history : d'.trace.history = d.trace.history

theorem DomainInv.enqueue {limit cycle : Nat} {ev : T} {d d' : Domain T} (inv : DomainInv limit d)
    (notBehind : d.curCycle ≤ cycle) (range : InRange cycle) (unlinked : d.pq.next ev = none)
    (outside : ev ∉ d.trace.queued.map Prod.snd) (run : d.enqueue ev cycle = some d') :
    DomainInv limit d' ∧ Added d d' cycle ev := by
  obtain ⟨near, queue⟩ := inv.queue
  have block := inv.block
  obtain ⟨pq, near', enqueue, queue'⟩ :=
    queue.enqueue pqBlocks_count (by omega) range unlinked outside
  rw [Domain.enqueue, enqueue] at run
  cases Option.some.inj run
  have current := PrioQueue.enqueue_curBlock enqueue
  refine ⟨⟨⟨near', queue'⟩, ?_, ?_, fun e member => ?_, ?_, inv.ordered, inv.reached, inv.due⟩,
    ⟨rfl, rfl, rfl, rfl, rfl, rfl⟩⟩
  · dsimp only
    rw [current]
    exact block
  · dsimp only
    rw [current]
    exact inv.blockLimit
  · rcases List.mem_cons.mp member with rfl | before
    · exact notBehind
    · exact inv.ahead e before
  · dsimp only
    exact List.perm_middle.trans ((inv.conserved.cons _).trans List.perm_middle.symm)

structure Settled (limit : Nat) (d : Domain T) : Prop where
  remaining : ∀ e ∈ d.trace.queued, limit ≤ e.1
  curCycle : d.curCycle = limit

omit [DecidableEq T] in
theorem DomainInv.finish {limit : Nat} {d : Domain T} (inv : DomainInv limit d)
    (remaining : ∀ e ∈ d.trace.queued, limit ≤ e.1) :
    DomainInv limit (d.publish limit) ∧ Settled limit (d.publish limit) :=
  ⟨inv.publish inv.blockLimit remaining inv.due, remaining, rfl⟩

theorem DomainInv.newCycle {limit : Nat} {d : Domain T} (inv : DomainInv limit d)
    (within : d.curCycle ≤ limit) :
    d.curCycle ≤ d.newCycle limit ∧ ∀ e ∈ d.trace.queued, d.newCycle limit ≤ e.1 := by
  unfold Domain.newCycle
  rcases inv.firstCycle with ⟨none, empty⟩ | ⟨first, ev, isFirst, member, least⟩
  · rw [none, empty]
    exact ⟨within, fun _ member => absurd member List.not_mem_nil⟩
  · rw [isFirst]
    exact ⟨inv.ahead _ member, least⟩

/-! ## Who owns a domain -/

namespace Config

variable {c : Config}

def Owns (c : Config) (thid i : Nat) : Prop := c.firstDomain thid ≤ i ∧ i < c.supDomain thid

theorem firstDomain_eq (c : Config) (thid : Nat) :
    c.firstDomain thid = thid * (c.numDomains / c.numSimThreads) := by
  unfold firstDomain
  exact Nat.mul_div_assoc thid (Nat.dvd_of_mod_eq_zero c.multiple)

theorem supDomain_eq (c : Config) (thid : Nat) :
    c.supDomain thid = thid * (c.numDomains / c.numSimThreads) + c.numDomains / c.numSimThreads := by
  have sup : c.supDomain thid = c.firstDomain (thid + 1) := rfl
  rw [sup, firstDomain_eq, Nat.succ_mul]

theorem owns_iff {thid i : Nat} (some' : 0 < c.numDomains / c.numSimThreads) :
    c.Owns thid i ↔ i / (c.numDomains / c.numSimThreads) = thid := by
  rw [Owns, firstDomain_eq, supDomain_eq, Nat.div_eq_iff some', Nat.mul_comm]
  constructor <;> rintro ⟨low, high⟩ <;> exact ⟨by omega, by omega⟩

theorem Owns.pos {thid i : Nat} (owns : c.Owns thid i) : 0 < c.numDomains / c.numSimThreads := by
  obtain ⟨low, high⟩ := owns
  rw [firstDomain_eq] at low
  rw [supDomain_eq] at high
  omega

theorem Owns.unique {thid thid' i : Nat} (owns : c.Owns thid i) (owns' : c.Owns thid' i) :
    thid = thid' :=
  ((owns_iff owns.pos).mp owns).symm.trans ((owns_iff owns.pos).mp owns')

theorem Owns.bound {thid i : Nat} (owns : c.Owns thid i) (isThread : thid < c.numSimThreads) :
    i < c.numDomains := by
  have high := owns.2
  have le : c.supDomain thid ≤ c.numDomains := by
    have exact' := Nat.div_mul_cancel (Nat.dvd_of_mod_eq_zero c.multiple)
    rw [supDomain_eq, ← Nat.succ_mul, ← exact', Nat.mul_comm (c.numDomains / c.numSimThreads),
      Nat.mul_div_cancel_left _ c.threadsPos]
    exact Nat.mul_le_mul_right _ isThread
  omega

theorem exists_owner {i : Nat} (bound : i < c.numDomains) :
    ∃ thid < c.numSimThreads, c.Owns thid i := by
  have exact' := Nat.div_mul_cancel (Nat.dvd_of_mod_eq_zero c.multiple)
  have some' : 0 < c.numDomains / c.numSimThreads := by
    apply Nat.pos_of_ne_zero
    intro zero
    rw [zero, Nat.zero_mul] at exact'
    omega
  refine ⟨i / (c.numDomains / c.numSimThreads), ?_, (owns_iff some').mpr rfl⟩
  apply Nat.div_lt_of_lt_mul
  rwa [exact']

end Config

/-! ## The threads -/

variable (c : Config)

def Queues.all (q : Queues) : List Nat := q.domPq ++ (q.stalledQueue ++ q.nextStalledQueue)

/-- The domains that a thread still has to come back to, the running one first. -/
structure QueuesOk (domains : Nat → Domain T) (limit thid : Nat) (q : Queues)
    (running : Option Nat) : Prop where
  nodup : (running.toList ++ q.all).Nodup
  own : ∀ i ∈ running.toList ++ q.all, c.Owns thid i
  count : (running.toList ++ q.all).length + q.numFinished = c.thDomains thid
  settled : ∀ i, c.Owns thid i → i ∉ running.toList ++ q.all → Settled limit (domains i)

def ThreadOk (domains : Nat → Domain T) (limit thid : Nat) : Option Thread → Prop
  | none => ∀ i, c.Owns thid i → Settled limit (domains i)
  | some ⟨.single, running⟩ =>
    c.thDomains thid = 1 ∧ ∀ i, running = some i → i = c.firstDomain thid ∧
      (domains i).curCycle < limit
  | some ⟨.several q, running⟩ =>
    QueuesOk c domains limit thid q running ∧
      ∀ i, running = some i → (domains i).curCycle ≤ limit

structure SimInv (s : ContentionSim T) : Prop where
  domains : ∀ i < c.numDomains, DomainInv s.limit (s.domains i)
  lastLimit : s.lastLimit ≤ s.limit
  /-- between two phases -/
  bound : s.inCSim = false → s.lastLimit = s.limit ∧
    ∀ i < c.numDomains, (s.domains i).curCycle = s.limit
  threads : ∀ thid < c.numSimThreads, ThreadOk c s.domains s.limit thid (s.threads thid)
  others : ∀ thid, c.numSimThreads ≤ thid → s.threads thid = none
  idle : s.inCSim = false → ∀ thid, s.threads thid = none

end Zsim.Contention
