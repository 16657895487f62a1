import Zsim.Barrier.Operations

/-!
# Runs of the barrier

The calls of any number of threads, in any order the scheduler lock allows.  A
call to `join`, `leave` or `sync` is one critical section; `resume` is the point
at which a blocked thread finds its futex word changed and goes on.  The history
lists, newest first, the calls together with the wakeups and the phase ends they
cause.
-/

set_option autoImplicit false

namespace Zsim.Barrier

inductive Op where
  | join (tid : Nat) (rand : Nat → Nat)
  | leave (tid : Nat) (rand : Nat → Nat)
  | sync (tid : Nat) (rand : Nat → Nat)
  | resume (tid : Nat)

inductive Entry where
  | joined (tid : Nat)
  | left (tid : Nat)
  | synced (tid : Nat)
  | wake (tid : Nat)
  | phaseEnd (bar : Barrier)

def Event.entry : Event → Entry
  | .wake tid => .wake tid
  | .phaseEnd bar => .phaseEnd bar

structure Run where
  bar : Barrier
  history : List Entry

def Run.start (parallelThreads : Nat) (lastIdx : Nat → Nat) : Run :=
  ⟨init parallelThreads lastIdx, []⟩

/-- The run after a call has returned. -/
def Run.after (run : Run) (call : Entry) : Barrier × Unit × List Event → Run
  | (bar, _, events) => ⟨bar, (events.map Event.entry).reverse ++ call :: run.history⟩

/-- What the callers promise: the states that the assertions of the source name,
and a thread id that indexes `threadList`.  A thread resumes from the futex wait
of `join` or `sync` once its word is not 1. -/
def legal (run : Run) : Op → Prop
  | .join tid _ =>
      tid < maxThreads ∧ (run.bar.stateOf tid = .offline ∨ run.bar.stateOf tid = .left)
  | .leave tid _ => run.bar.stateOf tid = .running ∨ run.bar.stateOf tid = .waiting
  | .sync tid _ => run.bar.stateOf tid = .running
  | .resume tid => (run.bar.stateOf tid = .running ∨ run.bar.stateOf tid = .waiting) ∧
      run.bar.futexWordOf tid ≠ 1

def step (run : Run) : Op → Option Run
  | .join tid rand => (run.bar.join some rand tid ()).map (run.after (.joined tid))
  | .leave tid rand => (run.bar.leave some rand tid ()).map (run.after (.left tid))
  | .sync tid rand => (run.bar.sync some rand tid ()).map (run.after (.synced tid))
  | .resume tid => (run.bar.resume tid).map fun bar => { run with bar := bar }

def machine : Machine Run Op := ⟨legal, step⟩

instance (run : Run) (op : Op) : Decidable (machine.legal run op) := by
  cases op <;> unfold machine legal <;> infer_instance

/-! ## One call, without its wakeups -/

theorem join_offline {b : Barrier} {tid : Nat} (gone : b.stateOf tid = .offline) {σ : Type}
    (callback : σ → Option σ) (rand : Nat → Nat) (s : σ) :
    b.join callback rand tid s = ((b.append tid).setWaiting tid).tryWakeNext callback rand s := by
  simp [join, gone]

theorem join_left {b : Barrier} (inv : Inv b) {tid : Nat} (gone : b.stateOf tid = .left) {σ : Type}
    (callback : σ → Option σ) (rand : Nat → Nat) (s : σ) :
    b.join callback rand tid s = ((b.rejoined tid).setWaiting tid).tryWakeNext callback rand s := by
  simp [join, gone, rejoin_eq (inv.indexed tid (.inl gone)).2]

theorem leave_of_running {b : Barrier} {tid : Nat} (runs : b.stateOf tid = .running) {σ : Type}
    (callback : σ → Option σ) (rand : Nat → Nat) (s : σ) :
    b.leave callback rand tid s =
      { b.departed tid with
        runningThreads := b.runningThreads - 1 }.tryWakeNext callback rand s := by
  simp only [leave, runs]
  rfl

theorem leave_of_waiting {b : Barrier} {tid : Nat} (waits : b.stateOf tid = .waiting) {σ : Type}
    (callback : σ → Option σ) (rand : Nat → Nat) (s : σ) :
    b.leave callback rand tid s = some (b.departed tid, s, []) := by
  simp only [leave, waits]
  rfl

theorem sync_of_running {b : Barrier} {tid : Nat} (runs : b.stateOf tid = .running) {σ : Type}
    (callback : σ → Option σ) (rand : Nat → Nat) (s : σ) :
    b.sync callback rand tid s =
      { b.setWaiting tid with
        runningThreads := b.runningThreads - 1 }.tryWakeNext callback rand s := by
  simp only [sync, runs]

/-! ## The invariant over runs -/

/-- `lastIdx` of a thread that leaves is the slot of that thread. -/
def LeavesIndexed (run : Run) : Op → Prop
  | .leave tid _ => run.bar.stateOf tid = .waiting →
      run.bar.lastIdxOf tid < run.bar.runListSize ∧
        run.bar.runList (run.bar.lastIdxOf tid) = tid
  | _ => True

instance (run : Run) (op : Op) : Decidable (LeavesIndexed run op) := by
  cases op <;> unfold LeavesIndexed <;> infer_instance

/-- A call whose barrier satisfies `Inv` before its wakeups satisfies it after them. -/
theorem after_tryWakeNext {b : Barrier} (inv : Inv b) (rand : Nat → Nat) (run : Run) (call : Entry) :
    ∃ next, (b.tryWakeNext some rand ()).map (run.after call) = some next ∧ Inv next.bar := by
  obtain ⟨ended, final, events, -, finalInv, eq⟩ := tryWakeNext_outcome rand inv
  refine ⟨run.after call (final, (), events), ?_, finalInv⟩
  rw [eq]
  cases ended <;> rfl

theorem preserves_inv :
    (machine.restrict LeavesIndexed).Preserves fun run => Inv run.bar := by
  intro run op inv ⟨legal, indexed⟩
  cases op with
  | join tid rand =>
      show ∃ next, (run.bar.join some rand tid ()).map _ = some next ∧ Inv (Run.bar next)
      rcases legal.2 with gone | gone
      · rw [join_offline gone]
        exact after_tryWakeNext (inv.append legal.1 gone) rand run _
      · rw [join_left inv gone]
        exact after_tryWakeNext (inv.rejoined gone) rand run _
  | leave tid rand =>
      show ∃ next, (run.bar.leave some rand tid ()).map _ = some next ∧ Inv (Run.bar next)
      rcases legal with runs | waits
      · rw [leave_of_running runs]
        exact after_tryWakeNext (inv.leave_running runs) rand run _
      · rw [leave_of_waiting waits]
        exact ⟨_, rfl, inv.leave_waiting waits (indexed waits)⟩
  | sync tid rand =>
      show ∃ next, (run.bar.sync some rand tid ()).map _ = some next ∧ Inv (Run.bar next)
      rw [sync_of_running legal]
      exact after_tryWakeNext (inv.sync_running legal) rand run _
  | resume tid =>
      -- a WAITING thread still has 1 in its futex word, so this one was woken
      have woken : run.bar.stateOf tid = .running := by
        rcases legal.1 with runs | waits
        · exact runs
        · exact absurd (inv.blocked tid waits) legal.2
      refine ⟨run, ?_, inv⟩
      show (run.bar.resume tid).map _ = some run
      rw [resume, if_pos woken]
      rfl

/-- The representation invariant in the terms of the fields. -/
structure RepInv (b : Barrier) : Prop where
  distinct : ∀ i j, i < b.runListSize → j < b.runListSize → b.runList i = b.runList j → i = j
  listed : ∀ t, (∃ i, i < b.runListSize ∧ b.runList i = t) ↔ b.stateOf t ≠ .offline
  inBounds : (∀ t, b.stateOf t ≠ .offline → t < maxThreads) ∧ b.runListSize ≤ maxThreads
  indexed : ∀ t, b.stateOf t = .left ∨ b.stateOf t = .running →
    b.lastIdxOf t < b.runListSize ∧ b.runList (b.lastIdxOf t) = t
  running : b.runningThreads = b.countOf .running ∧ b.runningThreads ≤ b.parallelThreads
  left : b.leftThreads = b.countOf .left
  cursor : b.curThreadIdx ≤ b.runListSize

theorem ListInv.size_le {b : Barrier} (inv : ListInv b) : b.runListSize ≤ maxThreads := by
  have inside : ∀ i ∈ Finset.range b.runListSize, b.runList i ∈ Finset.range maxThreads :=
    fun i hi => Finset.mem_range.mpr (inv.bounded _ (inv.listed i (Finset.mem_range.mp hi)))
  have := Finset.card_le_card_of_injOn b.runList inside fun i hi j hj same =>
    inv.distinct i j (Finset.mem_range.mp hi) (Finset.mem_range.mp hj) same
  simpa using this

theorem Inv.repInv {b : Barrier} (inv : Inv b) : RepInv b where
  distinct := inv.distinct
  listed t := ⟨fun ⟨i, hi, here⟩ => here ▸ inv.listed i hi, inv.present t⟩
  inBounds := ⟨inv.bounded, inv.toListInv.size_le⟩
  indexed := inv.indexed
  running := ⟨inv.running, inv.limited⟩
  left := inv.left
  cursor := inv.cursor

/-- A thread that leaves while WAITING must find its slot in `lastIdx`, or it
stands in the LEFT state with a stale one. -/
theorem leavesIndexed_of_repInv {run next : Run} {op : Op} (stepped : step run op = some next)
    (rep : RepInv next.bar) : LeavesIndexed run op := by
  cases op with
  | leave tid rand =>
      intro waits
      change (run.bar.leave some rand tid ()).map _ = some next at stepped
      rw [leave_of_waiting waits] at stepped
      cases Option.some.inj stepped
      have gone : (run.bar.departed tid).stateOf tid = .left := by simp
      obtain ⟨bound, here⟩ := rep.indexed tid (.inl gone)
      change (run.bar.setState tid .left).lastIdxOf tid < run.bar.runListSize at bound
      change run.bar.runList ((run.bar.setState tid .left).lastIdxOf tid) = tid at here
      rw [lastIdxOf_setState] at bound here
      exact ⟨bound, here⟩
  | _ => trivial

/-- In a legal run the representation invariant holds at every point, and no
assertion fails on the way, exactly if no thread leaves while WAITING with a
`lastIdx` that is not its own slot. -/
theorem repInv_throughout_iff {parallelThreads : Nat} (positive : 0 < parallelThreads)
    (lastIdx : Nat → Nat) (ops : List Op)
    (legal : machine.LegalRun ops (Run.start parallelThreads lastIdx)) :
    (∀ done later, ops = done ++ later →
      ∃ run, machine.exec done (Run.start parallelThreads lastIdx) = some run ∧ RepInv run.bar) ↔
      machine.Along LeavesIndexed ops (Run.start parallelThreads lastIdx) := by
  constructor
  · intro throughout
    suffices steps : ∀ (later done : List Op) (run : Run), ops = done ++ later →
        machine.exec done (Run.start parallelThreads lastIdx) = some run →
        machine.Along LeavesIndexed later run from steps ops [] _ rfl rfl
    intro later
    induction later with
    | nil => intros; trivial
    | cons op rest ih =>
        intro done run split reached
        have split' : ops = (done ++ [op]) ++ rest := by simp [split]
        obtain ⟨after, execAfter, rep⟩ := throughout (done ++ [op]) rest split'
        have stepped : machine.step run op = some after := by
          rw [Machine.exec_concat, reached] at execAfter
          exact execAfter
        refine ⟨leavesIndexed_of_repInv stepped rep, ?_⟩
        intro next steppedNext
        cases Option.some.inj (stepped.symm.trans steppedNext)
        exact ih (done ++ [op]) after split' execAfter
  · intro indexed done later split
    subst split
    have restricted := Machine.LegalRun.restrict legal.of_append indexed.of_append
    obtain ⟨run, reached, inv⟩ := preserves_inv.exec_restrict (Inv.init positive lastIdx) restricted
    exact ⟨run, reached, inv.repInv⟩

/-- A second thread joins a full barrier, leaves before it was ever woken and
joins again: the assertion on its slot fails. -/
theorem repInv_fails_on_stale_index :
    ¬ ∀ (parallelThreads : Nat) (lastIdx : Nat → Nat), 0 < parallelThreads → ∀ ops : List Op,
      machine.LegalRun ops (Run.start parallelThreads lastIdx) →
      ∃ run, machine.exec ops (Run.start parallelThreads lastIdx) = some run ∧ RepInv run.bar := by
  intro claim
  let zero : Nat → Nat := fun _ => 0
  let ops : List Op := [.join 0 zero, .join 1 zero, .leave 1 zero, .join 1 zero]
  obtain ⟨run, reached, -⟩ := claim 1 zero Nat.one_pos ops (by decide)
  have panics : (machine.exec ops (Run.start 1 zero)).isNone = true := by decide
  rw [reached] at panics
  cases panics

/-- Two threads take turns and one of them leaves in the WAITING state after a
wakeup: the run keeps the invariant. -/
theorem repInv_throughout_turns :
    ∃ run, machine.exec
      [.join 0 fun _ => 0, .join 1 fun _ => 0, .sync 0 fun _ => 0, .leave 0 fun _ => 0,
        .join 0 fun _ => 0] (Run.start 1 fun _ => 0) = some run ∧ RepInv run.bar :=
  (repInv_throughout_iff Nat.one_pos (fun _ => 0)
    [.join 0 fun _ => 0, .join 1 fun _ => 0, .sync 0 fun _ => 0, .leave 0 fun _ => 0,
      .join 0 fun _ => 0] (by decide)).mpr (by decide) _ [] (by simp)

end Zsim.Barrier
