import Zsim.DDR.Runs

/-!
# The distance of activations in a rank

A bank keeps tRRD from its own last activation.  Nothing keeps it from those of the other banks of
its rank, so two activations are close together whenever a bank gets ready at the wrong time.
-/

set_option autoImplicit false

namespace Zsim.DDR

/-- The banks and cycles of the activations, newest first. -/
def activations : List Command → List ((Nat × Nat) × Nat)
  | [] => []
  | .act bank _ cycle :: earlier => (bank, cycle) :: activations earlier
  | .column _ _ _ _ :: earlier | .refresh _ _ :: earlier => activations earlier

/-- Two activations of a rank are at least tRRD apart. -/
def Timing.Apart (t : Timing) (first second : (Nat × Nat) × Nat) : Prop :=
  first.1.1 = second.1.1 → first.2 + t.tRRD ≤ second.2 ∨ second.2 + t.tRRD ≤ first.2

variable {c : Config}

namespace DDRMemory

def Spaced (c : Config) (s : DDRMemory) : Prop := (activations s.commands).Pairwise c.timing.Apart

/-- The request whose row `trySchedule` opens: the first that is ready, if its row is not open. -/
def nextActivation (c : Config) (s : DDRMemory) (curCycle : Nat) : Option Request :=
  if s.rdQueue = [] ∧ s.wrQueue = [] then none
  else if curCycle + c.timing.tCL < s.minRespCycle then none
  else
    let prioWrites := 3 * c.queueDepth / 4 < s.wrQueue.length ∨
      s.lastCmdWasWrite = true ∧ c.queueDepth / 4 < s.wrQueue.length
    let isWriteQueue : Bool := s.rdQueue = [] ∨ prioWrites
    (s.findReady c curCycle (s.reqQueue isWriteQueue) none).1.filter fun r => !(s.bank r).rowHit r

def activation (c : Config) (s : DDRMemory) : Input → Option Request
  | .trySchedule sysCycle => s.nextActivation c (c.sysToMemCycle sysCycle)
  | .simulate e =>
    if (s.scheduling.events e).state = .queued then
      s.nextActivation c (c.sysToMemCycle (s.scheduling.events e).cycle)
    else none
  | .enqueue _ _ _ _ | .refresh _ => none

/-- What an activation waits for: its arrival, the precharge and the last activation of its bank, and
the window of its rank. -/
def actBounds (c : Config) (s : DDRMemory) (r : Request) : List Nat :=
  let b := s.bank r
  [r.arrivalCycle, (if b.isOpen then max r.arrivalCycle b.minPreCycle else b.minPreCycle) + c.timing.tRP,
    b.lastActCycle + c.timing.tRRD, (s.rankActWindows r.loc.rank).minActCycle + c.timing.tFAW]

/-- One of the bounds is tRRD behind the other activation, or all of them are as far before it. -/
def ClearOf (c : Config) (s : DDRMemory) (r : Request) (cycle : Nat) : Prop :=
  (∃ bound ∈ s.actBounds c r, cycle + c.timing.tRRD ≤ bound) ∨
    ∀ bound ∈ s.actBounds c r, bound + c.timing.tRRD ≤ cycle

/-- The row that is opened, if any, is clear of the activations of the other banks of its rank. -/
def Clear (c : Config) (s : DDRMemory) (input : Input) : Prop :=
  ∀ r, s.activation c input = some r → ∀ act ∈ activations s.commands,
    act.1.1 = r.loc.rank → act.1 ≠ r.loc.key → s.ClearOf c r act.2

theorem clearOf_iff (s : DDRMemory) (r : Request) (cycle : Nat) : s.ClearOf c r cycle ↔
    cycle + c.timing.tRRD ≤ s.actCycle c r ∨ s.actCycle c r + c.timing.tRRD ≤ cycle := by
  unfold ClearOf actBounds actCycle
  simp only [List.mem_cons, List.not_mem_nil, or_false, exists_eq_or_imp, exists_eq_left,
    forall_eq_or_imp, forall_eq]
  omega

/-- The row that is opened, if any, is for a request that arrived tRRD after the activations of the
other banks of its rank. -/
def ArrivesLate (c : Config) (s : DDRMemory) (input : Input) : Prop :=
  ∀ r ∈ s.activation c input, ∀ act ∈ activations s.commands,
    act.1.1 = r.loc.rank → act.1 ≠ r.loc.key → act.2 + c.timing.tRRD ≤ r.arrivalCycle

instance (c : Config) (s : DDRMemory) (input : Input) : Decidable (ArrivesLate c s input) :=
  inferInstanceAs (Decidable (∀ r ∈ s.activation c input, _))

theorem ArrivesLate.clear {s : DDRMemory} {input : Input} (late : s.ArrivesLate c input) : s.Clear c input :=
  fun r opened act member sameRank other =>
    .inl ⟨r.arrivalCycle, List.mem_cons_self, late r opened act member sameRank other⟩

/-! ## What leaves the activations as they are -/

structure SameActs (s s' : DDRMemory) : Prop where
  acts : activations s'.commands = activations s.commands
  lastActs : ∀ key, (s'.banks key).lastActCycle = (s.banks key).lastActCycle

theorem SameActs.refl (s : DDRMemory) : SameActs s s := ⟨rfl, fun _ => rfl⟩

theorem SameActs.trans {a b d : DDRMemory} (first : SameActs a b) (second : SameActs b d) : SameActs a d :=
  ⟨second.acts.trans first.acts, fun key => (second.lastActs key).trans (first.lastActs key)⟩

theorem SameTiming.sameActs {s s' : DDRMemory} (same : SameTiming s s') : SameActs s s' where
  acts := congrArg activations same.commands
  lastActs key := by
    obtain ⟨rd, wr, isBank⟩ := same.banks key
    rw [isBank]

theorem sameActs_of_eq {s s' : DDRMemory} (commands : s'.commands = s.commands) (banks : s'.banks = s.banks) :
    SameActs s s' := ⟨congrArg activations commands, fun key => by rw [banks]⟩

theorem sameActs_setBank (s : DDRMemory) (r : Request) {b : Bank}
    (same : b.lastActCycle = (s.bank r).lastActCycle) : SameActs s (s.setBank r b) where
  acts := rfl
  lastActs key := by
    by_cases here : key = r.loc.key
    · rw [here, setBank_banks_self]
      exact same
    · rw [setBank_banks_of_ne b here]

theorem setReqs_lastActCycle (b : Bank) (wr : Bool) (q : List Request) :
    (b.setReqs wr q).lastActCycle = b.lastActCycle := by
  cases wr <;> rfl

theorem sameActs_setQueue (s : DDRMemory) (wr : Bool) (q : List Request) : SameActs s (s.setQueue wr q) := by
  cases wr <;> exact sameActs_of_eq rfl rfl

section
variable {s s' : DDRMemory}

theorem respond_sameActs {ev doneCycle : Nat} (run : s.respond ev doneCycle = some s') : SameActs s s' := by
  unfold respond at run
  split at run
  · cases run
    exact sameActs_of_eq rfl rfl
  · cases run

theorem respondWrite_sameActs {req req' : Request} {memCycle : Nat}
    (run : s.respondWrite c req memCycle = some (req', s')) : SameActs s s' := by
  unfold respondWrite at run
  split at run
  · obtain ⟨ev, -, run⟩ := Option.bind_eq_some_iff.mp run
    obtain ⟨answered, responds, isNext⟩ := Option.bind_eq_some_iff.mp run
    cases isNext
    exact respond_sameActs responds
  · cases run
    exact .refl s

theorem queue_sameActs {req req' : Request} {memCycle : Nat}
    (run : s.queue c req memCycle = some (req', s')) : SameActs s s' := by
  unfold queue at run
  dsimp only at run
  split at run
  · cases run
  · obtain ⟨⟨written, answered⟩, writes, isNext⟩ := Option.bind_eq_some_iff.mp run
    obtain ⟨seq, q, inserted, -⟩ := insert_spec (c := c)
      (answered.bank { written with arrivalCycle := memCycle })
      ((answered.bank { written with arrivalCycle := memCycle }).reqs (useWrQueue c req))
      { written with arrivalCycle := memCycle }
    rw [inserted] at isNext
    cases isNext
    exact ((respondWrite_sameActs writes).trans
      (sameActs_setBank answered _ (setReqs_lastActCycle _ _ _))).trans (sameActs_setQueue _ _ _)

theorem scheduleFor_sameActs {req : Request} {memCycle sysCycle : Nat}
    (run : s.scheduleFor c req memCycle sysCycle = some s') : SameActs s s' := by
  have ends : ∀ minSchedCycle, (if later s.scheduling.nextSchedCycle minSchedCycle then do
      let scheduling ← s.scheduling.schedule minSchedCycle
        (max (c.matchingMemToSysCycle minSchedCycle) sysCycle)
      some { s with scheduling := scheduling }
    else some s) = some s' → SameActs s s' := by
    intro minSchedCycle run
    split at run
    · obtain ⟨scheduling, -, isNext⟩ := Option.bind_eq_some_iff.mp run
      cases isNext
      exact sameActs_of_eq rfl rfl
    · cases run
      exact .refl s
  exact ends _ run

theorem enqueue_sameActs {ev lineAddr sysCycle : Nat} {isWrite : Bool}
    (run : s.enqueue c ev lineAddr isWrite sysCycle = some s') : SameActs s s' := by
  unfold enqueue at run
  obtain ⟨loc, -, run⟩ := Option.bind_eq_some_iff.mp run
  dsimp only at run
  split at run
  · cases run
    exact sameActs_of_eq rfl rfl
  · obtain ⟨⟨req, queued⟩, queues, run⟩ := Option.bind_eq_some_iff.mp run
    have accepted : SameActs s queued := ⟨(queue_sameActs queues).acts, (queue_sameActs queues).lastActs⟩
    dsimp only at run
    split at run
    · exact accepted.trans (scheduleFor_sameActs run)
    · cases run
      exact accepted

theorem drainOverflow_sameActs {memCycle : Nat} {minSchedCycle next : Option Nat}
    (run : s.drainOverflow c memCycle minSchedCycle = some (next, s')) : SameActs s s' := by
  unfold drainOverflow at run
  split at run
  · cases run
    exact .refl s
  · split at run
    · cases run
      exact .refl s
    · obtain ⟨⟨req, queued⟩, queues, run⟩ := Option.bind_eq_some_iff.mp run
      have moved : SameActs s queued := ⟨(queue_sameActs queues).acts, (queue_sameActs queues).lastActs⟩
      dsimp only at run
      split at run
      · cases run
        exact moved
      · cases run
        exact moved

theorem refresh_sameActs {sysCycle : Nat} (run : s.refresh c sysCycle = some s') : SameActs s s' := by
  unfold refresh at run
  dsimp only at run
  split at run
  · cases run
    refine ⟨rfl, fun key => ?_⟩
    dsimp only
    split
    · rfl
    · rfl
  · cases run

theorem recycle_sameActs {e : Nat} (run : s.recycle e = some s') : SameActs s s' := by
  obtain ⟨scheduling, -, isNext⟩ := Option.bind_eq_some_iff.mp
    (show (s.scheduling.recycle e).bind _ = some s' from run)
  cases isNext
  exact sameActs_of_eq rfl rfl

theorem issue_sameActs {r : Request} {minCmdCycle : Nat} (run : s.issue c r minCmdCycle = some s') :
    SameActs s s' := by
  unfold issue at run
  dsimp only at run
  split at run
  · cases run
    refine ⟨rfl, fun key => ?_⟩
    by_cases here : key = r.loc.key
    · subst here
      dsimp only
      rw [setBank_banks_self]
      rfl
    · dsimp only
      rw [setBank_banks_of_ne _ here]
  · cases run

theorem respondRead_sameActs {r : Request} {sysCycle : Nat} (run : s.respondRead c r sysCycle = some s') :
    SameActs s s' := by
  unfold respondRead at run
  split at run
  · dsimp only at run
    split at run
    · exact respond_sameActs run
    · cases run
  · cases run
    exact .refl s

/-! ## What records an activation -/

structure Activated (c : Config) (s : DDRMemory) (r : Request) (s' : DDRMemory) : Prop where
  acts : activations s'.commands = (r.loc.key, s.actCycle c r) :: activations s.commands
  lastActs : ∀ key, (s'.banks key).lastActCycle =
    if key = r.loc.key then s.actCycle c r else (s.banks key).lastActCycle

theorem Activated.trans {s'' : DDRMemory} {r : Request} (activated : Activated c s r s')
    (same : SameActs s' s'') : Activated c s r s'' :=
  ⟨same.acts.trans activated.acts, fun key => (same.lastActs key).trans (activated.lastActs key)⟩

theorem openRow_activated {r : Request} {bound : Nat} (closed : (s.bank r).rowHit r = false)
    (run : s.openRow c r = some (s', bound)) : Activated c s r s' := by
  unfold openRow at run
  simp only [closed, Bool.false_eq_true, if_false] at run
  obtain ⟨window, -, isNext⟩ := Option.bind_eq_some_iff.mp run
  cases isNext
  refine ⟨rfl, fun key => ?_⟩
  by_cases here : key = r.loc.key
  · rw [if_pos here, here]
    dsimp only
    rw [setBank_banks_self]
  · rw [if_neg here]
    dsimp only
    rw [setBank_banks_of_ne _ here]

theorem openRow_hit {r : Request} {bound : Nat} (hit : (s.bank r).rowHit r = true)
    (run : s.openRow c r = some (s', bound)) : s' = s := by
  unfold openRow at run
  simp only [hit, if_true] at run
  cases run
  rfl

/-- What a step records, if `served` is the request whose row it opens. -/
def Records (c : Config) (s s' : DDRMemory) : Option Request → Prop
  | some r => Activated c s r s'
  | none => SameActs s s'

theorem Records.trans {s'' : DDRMemory} {opened : Option Request} (records : Records c s s' opened)
    (same : SameActs s' s'') : Records c s s'' opened := by
  cases opened with
  | none => exact SameActs.trans records same
  | some r => exact Activated.trans records same

theorem serve_records {curCycle sysCycle : Nat} {isWriteQueue : Bool} {r : Request} {next : Option Nat}
    (run : s.serve c curCycle sysCycle isWriteQueue r = some (next, s')) :
    Records c s s' ((some r).filter fun r => !(s.bank r).rowHit r) := by
  unfold serve at run
  dsimp only at run
  obtain ⟨⟨opened, bound⟩, opens, run⟩ := Option.bind_eq_some_iff.mp run
  obtain ⟨issued, issues, run⟩ := Option.bind_eq_some_iff.mp run
  obtain ⟨answered, answers, isNext⟩ := Option.bind_eq_some_iff.mp run
  cases isNext
  have after : SameActs opened (answered.dequeue isWriteQueue r) :=
    ((issue_sameActs issues).trans (respondRead_sameActs answers)).trans
      (dequeue_sameTiming answered isWriteQueue r).sameActs
  cases hit : (s.bank r).rowHit r with
  | true =>
      have isNone : ((some r).filter fun r => !(s.bank r).rowHit r) = none := by simp [hit]
      rw [openRow_hit hit opens] at after
      rw [isNone]
      exact after
  | false =>
      have isSome : ((some r).filter fun r => !(s.bank r).rowHit r) = some r := by simp [hit]
      rw [isSome]
      exact (openRow_activated hit opens).trans after

theorem trySchedule_records {curCycle sysCycle : Nat} {next : Option Nat}
    (run : s.trySchedule c curCycle sysCycle = some (next, s')) :
    Records c s s' (s.nextActivation c curCycle) := by
  unfold trySchedule at run
  unfold nextActivation
  by_cases empty : s.rdQueue = [] ∧ s.wrQueue = []
  · rw [if_pos empty] at run ⊢
    cases run
    exact .refl s
  · rw [if_neg empty] at run ⊢
    by_cases ahead : curCycle + c.timing.tCL < s.minRespCycle
    · rw [if_pos ahead] at run ⊢
      cases run
      exact .refl s
    · rw [if_neg ahead] at run ⊢
      dsimp only at run ⊢
      split at run
      · cases run
      · split at run
        case h_1 minSchedCycle found =>
          cases run
          rw [found]
          exact .refl s
        case h_2 r minSchedCycle found =>
          rw [found]
          exact serve_records run

theorem tick_records {sysCycle nextCycle : Nat} (run : s.tick c sysCycle = some (nextCycle, s')) :
    Records c s s' (s.nextActivation c (c.sysToMemCycle sysCycle)) := by
  unfold tick at run
  dsimp only at run
  split at run
  · obtain ⟨⟨minSchedCycle, scheduled⟩, schedules, run⟩ := Option.bind_eq_some_iff.mp run
    have records := trySchedule_records schedules
    dsimp only at run
    split at run
    · obtain ⟨⟨next, drained⟩, drains, run⟩ := Option.bind_eq_some_iff.mp run
      refine (records.trans (drainOverflow_sameActs drains)).trans ?_
      dsimp only at run
      split at run
      · cases run
        exact sameActs_of_eq rfl rfl
      · cases run
        exact sameActs_of_eq rfl rfl
    · cases run
  · cases run

/-- The search does not depend on the events. -/
theorem findReady_setEvent (s : DDRMemory) (e : Nat) (event : SchedEvent) (curCycle : Nat)
    (queue : List Request) (minSchedCycle : Option Nat) :
    (s.setEvent e event).findReady c curCycle queue minSchedCycle =
      s.findReady c curCycle queue minSchedCycle := by
  induction queue generalizing minSchedCycle with
  | nil => rfl
  | cons r rest ih =>
      have isFirst : (s.setEvent e event).isFirst c r = s.isFirst c r := rfl
      have cycle : (s.setEvent e event).findMinCmdCycle c r = s.findMinCmdCycle c r := rfl
      rw [findReady, findReady, isFirst, cycle]
      dsimp only
      rw [ih, ih]

theorem nextActivation_setEvent (s : DDRMemory) (e : Nat) (event : SchedEvent) (curCycle : Nat) :
    (s.setEvent e event).nextActivation c curCycle = s.nextActivation c curCycle := by
  unfold nextActivation
  simp only [findReady_setEvent]
  rfl

theorem sameActs_setEvent (s : DDRMemory) (e : Nat) (event : SchedEvent) : SameActs s (s.setEvent e event) :=
  sameActs_of_eq rfl rfl

theorem Records.of_setEvent {e : Nat} {event : SchedEvent} {opened : Option Request}
    (records : Records c (s.setEvent e event) s' opened) : Records c s s' opened := by
  cases opened with
  | none => exact SameActs.trans (sameActs_setEvent s e event) records
  | some r => exact ⟨records.acts, records.lastActs⟩

theorem simulate_records {e : Nat} (run : s.simulate c e = some s') :
    Records c s s' (s.activation c (.simulate e)) := by
  unfold simulate at run
  unfold activation
  dsimp only at run ⊢
  split at run
  case h_1 queued =>
    rw [if_pos queued]
    obtain ⟨⟨nextCycle, ticked⟩, ticks, run⟩ := Option.bind_eq_some_iff.mp run
    have records := (tick_records ticks).of_setEvent
    rw [nextActivation_setEvent] at records
    refine records.trans ?_
    dsimp only at run
    split at run
    · cases run
      exact sameActs_setEvent ticked e _
    · exact (sameActs_setEvent ticked e _).trans (recycle_sameActs run)
  case h_2 annulled =>
    rw [if_neg (by rw [annulled]; decide)]
    exact (sameActs_setEvent s e _).trans (recycle_sameActs run)
  case h_3 => cases run

theorem step_records {input : Input} (run : s.step c input = some s') :
    Records c s s' (s.activation c input) := by
  cases input with
  | enqueue ev lineAddr isWrite sysCycle => exact enqueue_sameActs run
  | simulate e => exact simulate_records run
  | refresh sysCycle => exact refresh_sameActs run
  | trySchedule sysCycle =>
      obtain ⟨⟨next, scheduled⟩, schedules, isNext⟩ := Option.map_eq_some_iff.mp
        (show (s.trySchedule c (c.sysToMemCycle sysCycle) sysCycle).map Prod.snd = some s' from run)
      cases isNext
      exact trySchedule_records schedules

/-! ## Runs -/

/-- A bank knows the last of its activations. -/
def LastActs (s : DDRMemory) : Prop :=
  ∀ act ∈ activations s.commands, act.2 ≤ (s.banks act.1).lastActCycle

theorem le_actCycle_lastAct (s : DDRMemory) (r : Request) :
    (s.bank r).lastActCycle + c.timing.tRRD ≤ s.actCycle c r := by
  unfold actCycle
  dsimp only
  omega

theorem LastActs.step (last : s.LastActs) {input : Input} (run : s.step c input = some s') :
    s'.LastActs := by
  have records := step_records run
  intro act member
  cases opened : s.activation c input with
  | none =>
      rw [opened] at records
      have same : SameActs s s' := records
      rw [same.acts] at member
      rw [same.lastActs]
      exact last act member
  | some r =>
      rw [opened] at records
      have activated : Activated c s r s' := records
      rw [activated.acts] at member
      rw [activated.lastActs]
      have later := s.le_actCycle_lastAct (c := c) r
      rcases List.mem_cons.mp member with rfl | old
      · rw [if_pos rfl]
      · have before := last act old
        split
        case isTrue here =>
          rw [here] at before
          change act.2 ≤ (s.bank r).lastActCycle at before
          omega
        case isFalse => exact before

theorem Spaced.step_iff (spaced : s.Spaced c) (last : s.LastActs) {input : Input}
    (run : s.step c input = some s') : s'.Spaced c ↔ s.Clear c input := by
  have records := step_records run
  unfold Spaced Clear
  cases opened : s.activation c input with
  | none =>
      rw [opened] at records
      have same : SameActs s s' := records
      rw [same.acts]
      exact ⟨fun _ r isSome => (by cases isSome), fun _ => spaced⟩
  | some r =>
      rw [opened] at records
      have activated : Activated c s r s' := records
      rw [activated.acts, List.pairwise_cons]
      constructor
      · rintro ⟨apart, -⟩ r' isSome act member sameRank -
        cases Option.some.inj isSome
        exact (s.clearOf_iff r act.2).mpr ((apart act member sameRank.symm).symm)
      · intro clear
        refine ⟨fun act member sameRank => ?_, spaced⟩
        by_cases sameBank : act.1 = r.loc.key
        · have before := last act member
          have later := s.le_actCycle_lastAct (c := c) r
          rw [sameBank] at before
          change act.2 ≤ (s.bank r).lastActCycle at before
          exact .inr (by dsimp only; omega)
        · exact ((s.clearOf_iff r act.2).mp (clear r rfl act member sameRank.symm sameBank)).symm

end

end DDRMemory

/-- In every run of the controller the activations of each rank are tRRD apart in all states exactly
if every row that is opened is clear of the activations of the other banks.  So it is if every
request whose row is opened arrives tRRD after them. -/
theorem activations_spaced_iff (lastCmdWasWrite : Bool) (inputs : List DDRMemory.Input)
    (legal : (machine c).LegalRun inputs (.init c lastCmdWasWrite)) :
    ((machine c).Throughout (DDRMemory.Spaced c) inputs (.init c lastCmdWasWrite) ↔
      (machine c).Along (DDRMemory.Clear c) inputs (.init c lastCmdWasWrite)) ∧
    ((machine c).Along (DDRMemory.ArrivesLate c) inputs (.init c lastCmdWasWrite) →
      (machine c).Throughout (DDRMemory.Spaced c) inputs (.init c lastCmdWasWrite)) := by
  obtain ⟨final, run, -⟩ := DDRMemory.step_preserves.exec (DDRMemory.Inv.init lastCmdWasWrite) legal
  have keeps : ∀ s input next, DDRMemory.LastActs s → (machine c).legal s input →
      (machine c).step s input = some next → DDRMemory.LastActs next :=
    fun s input next last _ step => last.step step
  have start : DDRMemory.LastActs (.init c lastCmdWasWrite) := by
    intro act member
    cases member
  have iff : (machine c).Throughout (DDRMemory.Spaced c) inputs (.init c lastCmdWasWrite) ↔
      (machine c).Along (DDRMemory.Clear c) inputs (.init c lastCmdWasWrite) :=
    legal.throughout_iff keeps (fun s input next last spaced _ step => spaced.step_iff last step) start .nil run
  exact ⟨iff, fun late => iff.mpr (late.imp fun s input late => late.clear)⟩

/-- The second read arrives when the first one's row is open. -/
theorem activations_spaced_iff_inTurn :
    (machine (twoBanks 4)).Throughout (DDRMemory.Spaced (twoBanks 4))
      [.enqueue 0 0 false 100, .simulate 0, .enqueue 1 1 false 200, .simulate 0] (.init (twoBanks 4) true) :=
  (activations_spaced_iff true _ (by decide +kernel)).2 (by decide +kernel)

/-- Two reads that arrive together activate the two banks of the rank in the same cycle. -/
theorem activations_together :
    ¬ ∀ (c : Config) (lastCmdWasWrite : Bool) (inputs : List DDRMemory.Input) (final : DDRMemory),
      (machine c).LegalRun inputs (.init c lastCmdWasWrite) →
      (machine c).exec inputs (.init c lastCmdWasWrite) = some final → final.Spaced c := by
  intro claim
  have together : ((machine (twoBanks 4)).exec
      [.enqueue 0 0 false 100, .enqueue 1 1 false 100, .simulate 0, .simulate 0]
      (.init (twoBanks 4) false)).map (fun s => activations s.commands) =
        some [((0, 1), 34), ((0, 0), 34)] := by
    decide +kernel
  obtain ⟨final, run, acts⟩ := Option.map_eq_some_iff.mp together
  have spaced := claim (twoBanks 4) false _ final (by decide +kernel) run
  rw [DDRMemory.Spaced, acts] at spaced
  have apart := (List.pairwise_cons.mp spaced).1 ((0, 0), 34) List.mem_cons_self rfl
  revert apart
  decide

end Zsim.DDR
