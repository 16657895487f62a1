import Zsim.Lib.Count
import Zsim.Lib.Machine
import Zsim.Scheduler.Model

/-!
# Counts of each process

`ProcessStats` of process_stats.cpp: the cycles and the instructions of the cores, charged to the
processes that run on them.  A process is known by its group.  A core is read when a thread leaves
it, and all cores that run something are at the first question after the end of a phase.  Counts of
64 bits are natural numbers; a function returns `none` where an assertion fails or a table is
indexed out of bounds.
-/

set_option autoImplicit false

namespace Zsim.PerProcess

open Finset

/-- What a core counts: its unhalted cycles and its instructions. -/
inductive Measure where
  | cycles
  | instrs
  deriving DecidableEq, Repr

structure Config where
  lineSize : Nat
  numCores : Nat
  /-- `getGroupIdx` of each process of `procArray` -/
  groupIdx : Nat → Nat

/-- What is read of `zinfo`. -/
structure GlobSimInfo where
  cores : Measure → Nat → Nat
  /-- `getScheduledPid`, `none` for -1 -/
  scheduledPid : Nat → Option Nat
  numPhases : Nat

structure ProcessStats where
  /-- `processCycles` and `processInstrs` -/
  process : Measure → Nat → Nat
  /-- `lastCoreCycles` and `lastCoreInstrs` -/
  lastCore : Measure → Nat → Nat
  lastUpdatePhase : Nat

def add (table : Nat → Nat) (i n : Nat) : Nat → Nat := Function.update table i (table i + n)

namespace ProcessStats

variable (cfg : Config) (z : GlobSimInfo)

def updateCore (s : ProcessStats) (cid p : Nat) : Option ProcessStats :=
  let p := cfg.groupIdx p
  if s.lastCore .cycles cid ≤ z.cores .cycles cid ∧ s.lastCore .instrs cid ≤ z.cores .instrs cid ∧
      p < cfg.lineSize then
    some { s with
      process := fun m => add (s.process m) p (z.cores m cid - s.lastCore m cid)
      lastCore := fun m => Function.update (s.lastCore m) cid (z.cores m cid) }
  else none

/-- The body of the loop in `update`. -/
def updateScheduled (s : ProcessStats) (cid : Nat) : Option ProcessStats :=
  match z.scheduledPid cid with
  | none => some s
  | some p => if p < cfg.lineSize then s.updateCore cfg z cid p else none

def update (s : ProcessStats) : Option ProcessStats :=
  if s.lastUpdatePhase < z.numPhases then do
    let s ← (List.range cfg.numCores).foldlM (updateScheduled cfg z) s
    some { s with lastUpdatePhase := z.numPhases }
  else none

def getProcess (m : Measure) (s : ProcessStats) (p : Nat) : Option (Nat × ProcessStats) := do
  let s ← if s.lastUpdatePhase ≠ z.numPhases then s.update cfg z else some s
  if p < cfg.lineSize then some (s.process m p, s) else none

def getProcessCycles : ProcessStats → Nat → Option (Nat × ProcessStats) := getProcess cfg z .cycles

def getProcessInstrs : ProcessStats → Nat → Option (Nat × ProcessStats) := getProcess cfg z .instrs

def notifyDeschedule (s : ProcessStats) (cid outgoingPid : Nat) : Option ProcessStats :=
  if cid < cfg.numCores ∧ outgoingPid < cfg.lineSize then s.updateCore cfg z cid outgoingPid
  else none

end ProcessStats

/-! ## The simulator around the counts -/

/-- `charged` and `owed` say where what the cores count belongs, and no step reads them: what a
core counts is its process's, and what it counts while it is idle is the next process's on it. -/
structure Sim where
  zinfo : GlobSimInfo
  stats : ProcessStats
  charged : Measure → Nat → Nat
  owed : Measure → Nat → Nat

inductive Op where
  | count (cid : Nat) (n : Measure → Nat)
  | schedule (cid p : Nat)
  | deschedule (cid : Nat)
  | endPhase
  | get (m : Measure) (p : Nat)

/-- What core `cid` has counted for group `g` and was not read for yet. -/
def due (cfg : Config) (pid : Nat → Option Nat) (core last : Nat → Nat) (g cid : Nat) : Nat :=
  if (pid cid).map cfg.groupIdx = some g then core cid - last cid else 0

namespace Sim

def start : Sim where
  zinfo := { cores := fun _ _ => 0, scheduledPid := fun _ => none, numPhases := 0 }
  stats := { process := fun _ _ => 0, lastCore := fun _ _ => 0, lastUpdatePhase := 0 }
  charged := fun _ _ => 0
  owed := fun _ _ => 0

variable (cfg : Config)

def step (s : Sim) : Op → Option Sim
  | .count cid n =>
      let zinfo := { s.zinfo with cores := fun m => add (s.zinfo.cores m) cid (n m) }
      match s.zinfo.scheduledPid cid with
      | none => some { s with zinfo, owed := fun m => add (s.owed m) cid (n m) }
      | some p =>
          some { s with zinfo, charged := fun m => add (s.charged m) (cfg.groupIdx p) (n m) }
  | .schedule cid p =>
      some { s with
        zinfo := { s.zinfo with
          scheduledPid := Function.update s.zinfo.scheduledPid cid (some p) }
        charged := fun m => add (s.charged m) (cfg.groupIdx p) (s.owed m cid)
        owed := fun m => Function.update (s.owed m) cid 0 }
  | .deschedule cid => do
      let p ← s.zinfo.scheduledPid cid
      let stats ← s.stats.notifyDeschedule cfg s.zinfo cid p
      some { s with
        stats
        zinfo := { s.zinfo with scheduledPid := Function.update s.zinfo.scheduledPid cid none } }
  | .endPhase => some { s with zinfo := { s.zinfo with numPhases := s.zinfo.numPhases + 1 } }
  | .get m p => do
      let (_, stats) ← s.stats.getProcess cfg s.zinfo m p
      some { s with stats }

/-- What a core counts never falls.  The scheduler gives an idle core to a process of `procArray`,
and takes it from the one that has it. -/
def legal (s : Sim) : Op → Prop
  | .count cid _ => cid < cfg.numCores
  | .schedule cid p => cid < cfg.numCores ∧ s.zinfo.scheduledPid cid = none ∧
      p < cfg.lineSize ∧ cfg.groupIdx p < cfg.lineSize
  | .deschedule cid => (s.zinfo.scheduledPid cid).isSome
  | .endPhase => True
  | .get _ p => p < cfg.lineSize

instance (s : Sim) (op : Op) : Decidable (s.legal cfg op) :=
  match op with
  | .count cid _ => inferInstanceAs (Decidable (cid < cfg.numCores))
  | .schedule cid p => inferInstanceAs (Decidable (cid < cfg.numCores ∧
      s.zinfo.scheduledPid cid = none ∧ p < cfg.lineSize ∧ cfg.groupIdx p < cfg.lineSize))
  | .deschedule cid => inferInstanceAs (Decidable ((s.zinfo.scheduledPid cid).isSome = true))
  | .endPhase => .isTrue trivial
  | .get _ p => inferInstanceAs (Decidable (p < cfg.lineSize))

structure Right (s : Sim) : Prop where
  behind : ∀ m cid, s.stats.lastCore m cid ≤ s.zinfo.cores m cid
  idle : ∀ m cid, s.zinfo.scheduledPid cid = none →
    s.zinfo.cores m cid = s.stats.lastCore m cid + s.owed m cid
  busy : ∀ cid p, s.zinfo.scheduledPid cid = some p →
    cid < cfg.numCores ∧ p < cfg.lineSize ∧ cfg.groupIdx p < cfg.lineSize
  settled : ∀ m cid p, s.zinfo.scheduledPid cid = some p → s.owed m cid = 0
  phase : s.stats.lastUpdatePhase ≤ s.zinfo.numPhases
  balance : ∀ m g, s.stats.process m g + ∑ cid ∈ range cfg.numCores,
    due cfg s.zinfo.scheduledPid (s.zinfo.cores m) (s.stats.lastCore m) g cid = s.charged m g
  shared : ∀ m, ∑ g ∈ range cfg.lineSize, s.stats.process m g =
    ∑ cid ∈ range cfg.numCores, s.stats.lastCore m cid
  counted : ∀ m,
    ∑ g ∈ range cfg.lineSize, s.charged m g + ∑ cid ∈ range cfg.numCores, s.owed m cid =
      ∑ cid ∈ range cfg.numCores, s.zinfo.cores m cid

end Sim

def machine (cfg : Config) : Machine Sim Op where
  legal := Sim.legal cfg
  step := Sim.step cfg

instance (cfg : Config) (s : Sim) (op : Op) : Decidable ((machine cfg).legal s op) :=
  inferInstanceAs (Decidable (s.legal cfg op))

/-! ## Adding to a table -/

theorem add_apply (f : Nat → Nat) (i k j : Nat) : add f i k j = f j + if j = i then k else 0 := by
  unfold add
  by_cases same : j = i
  · subst same
    rw [Function.update_self, if_pos rfl]
  · rw [Function.update_of_ne same, if_neg same, Nat.add_zero]

theorem sum_add {n i : Nat} (bound : i < n) (f : Nat → Nat) (k : Nat) :
    ∑ j ∈ range n, add f i k j = ∑ j ∈ range n, f j + k := by
  have changed := sum_change bound (f := f) (g := add f i k) fun j other =>
    Function.update_of_ne other _ _
  have here : add f i k i = f i + k := Function.update_self i _ f
  omega

theorem sum_clear {n i : Nat} (bound : i < n) (f : Nat → Nat) :
    ∑ j ∈ range n, Function.update f i 0 j + f i = ∑ j ∈ range n, f j := by
  have changed := sum_change bound (f := f) (g := Function.update f i 0) fun j other =>
    Function.update_of_ne other _ _
  have here : Function.update f i 0 i = 0 := Function.update_self i _ f
  omega

/-! ## What is due -/

theorem ne_of_idle {pid : Nat → Option Nat} {c cid p : Nat} (isIdle : pid c = none)
    (scheduled : pid cid = some p) : c ≠ cid := by
  rintro rfl
  cases scheduled.symm.trans isIdle

section
variable {cfg : Config} {pid : Nat → Option Nat} {core last : Nat → Nat} {cid p : Nat}

theorem due_idle (isIdle : pid cid = none) (g : Nat) : due cfg pid core last g cid = 0 := by
  simp only [due, isIdle, Option.map_none, reduceCtorEq, if_false]

theorem due_busy (scheduled : pid cid = some p) (g : Nat) :
    due cfg pid core last g cid = if g = cfg.groupIdx p then core cid - last cid else 0 := by
  simp only [due, scheduled, Option.map_some, Option.some.injEq, eq_comm]

theorem due_of_read (isRead : last cid = core cid) (g : Nat) : due cfg pid core last g cid = 0 := by
  simp only [due, isRead, Nat.sub_self, ite_self]

variable (pid core last)

theorem sum_due_read (bound : cid < cfg.numCores) (g : Nat) :
    ∑ c ∈ range cfg.numCores, due cfg pid core (Function.update last cid (core cid)) g c +
        due cfg pid core last g cid =
      ∑ c ∈ range cfg.numCores, due cfg pid core last g c := by
  have changed := sum_change bound (f := due cfg pid core last g)
    (g := due cfg pid core (Function.update last cid (core cid)) g) fun c other => by
      simp only [due, Function.update_of_ne other]
  rw [due_of_read (Function.update_self cid _ last)] at changed
  exact changed

theorem sum_due_count (bound : cid < cfg.numCores) (behind : last cid ≤ core cid) (n g : Nat) :
    ∑ c ∈ range cfg.numCores, due cfg pid (add core cid n) last g c =
      ∑ c ∈ range cfg.numCores, due cfg pid core last g c +
        if (pid cid).map cfg.groupIdx = some g then n else 0 := by
  have changed := sum_change bound (f := due cfg pid core last g)
    (g := due cfg pid (add core cid n) last g) fun c other => by
      simp only [due, add, Function.update_of_ne other]
  have here : due cfg pid (add core cid n) last g cid =
      due cfg pid core last g cid + if (pid cid).map cfg.groupIdx = some g then n else 0 := by
    unfold due add
    rw [Function.update_self]
    split
    · omega
    · rfl
  omega

theorem sum_due_schedule (bound : cid < cfg.numCores) (isIdle : pid cid = none) (g : Nat) :
    ∑ c ∈ range cfg.numCores, due cfg (Function.update pid cid (some p)) core last g c =
      ∑ c ∈ range cfg.numCores, due cfg pid core last g c +
        if g = cfg.groupIdx p then core cid - last cid else 0 := by
  have changed := sum_change bound (f := due cfg pid core last g)
    (g := due cfg (Function.update pid cid (some p)) core last g) fun c other => by
      simp only [due, Function.update_of_ne other]
  rw [due_idle isIdle, due_busy (Function.update_self cid _ pid)] at changed
  exact changed

theorem sum_due_deschedule (bound : cid < cfg.numCores) (isRead : last cid = core cid) (g : Nat) :
    ∑ c ∈ range cfg.numCores, due cfg (Function.update pid cid none) core last g c =
      ∑ c ∈ range cfg.numCores, due cfg pid core last g c := by
  have changed := sum_change bound (f := due cfg pid core last g)
    (g := due cfg (Function.update pid cid none) core last g) fun c other => by
      simp only [due, Function.update_of_ne other]
  rw [due_of_read isRead, due_of_read isRead] at changed
  exact changed

end

/-! ## Reading the cores -/

theorem ProcessStats.updateCore_spec (cfg : Config) (z : GlobSimInfo) (s : ProcessStats) {cid p : Nat}
    (behind : ∀ m, s.lastCore m cid ≤ z.cores m cid) (inLine : cfg.groupIdx p < cfg.lineSize) :
    ∃ next, s.updateCore cfg z cid p = some next ∧
      (∀ m, next.process m =
        add (s.process m) (cfg.groupIdx p) (z.cores m cid - s.lastCore m cid)) ∧
      (∀ m, next.lastCore m = Function.update (s.lastCore m) cid (z.cores m cid)) ∧
      next.lastUpdatePhase = s.lastUpdatePhase :=
  ⟨_, if_pos ⟨behind _, behind _, inLine⟩, fun _ => rfl, fun _ => rfl, rfl⟩

namespace Sim

variable {cfg : Config} {s : Sim} {cid p : Nat}

theorem Right.updateCore (right : Right cfg s) (scheduled : s.zinfo.scheduledPid cid = some p) :
    ∃ next, s.stats.updateCore cfg s.zinfo cid p = some next ∧ Right cfg { s with stats := next } ∧
      (∀ m, next.lastCore m = Function.update (s.stats.lastCore m) cid (s.zinfo.cores m cid)) ∧
      next.lastUpdatePhase = s.stats.lastUpdatePhase := by
  obtain ⟨inCores, -, inLine⟩ := right.busy cid p scheduled
  obtain ⟨next, step, process, lastCore, phase⟩ := ProcessStats.updateCore_spec cfg s.zinfo s.stats
    (fun m => right.behind m cid) inLine
  refine ⟨next, step, ?_, lastCore, phase⟩
  constructor
  case behind =>
    intro m c
    rw [lastCore]
    by_cases same : c = cid
    · subst same
      exact (Function.update_self c _ _).le
    · exact (Function.update_of_ne same _ _).le.trans (right.behind m c)
  case idle =>
    intro m c isIdle
    have other : c ≠ cid := ne_of_idle isIdle scheduled
    rw [lastCore, Function.update_of_ne other]
    exact right.idle m c isIdle
  case busy => exact right.busy
  case settled => exact right.settled
  case phase => exact phase.le.trans right.phase
  case balance =>
    intro m g
    have read := sum_due_read s.zinfo.scheduledPid (s.zinfo.cores m) (s.stats.lastCore m) inCores g
    have given := add_apply (s.stats.process m) (cfg.groupIdx p)
      (s.zinfo.cores m cid - s.stats.lastCore m cid) g
    rw [← due_busy scheduled, ← process] at given
    rw [← lastCore] at read
    have balance := right.balance m g
    show next.process m g + ∑ c ∈ range cfg.numCores,
      due cfg s.zinfo.scheduledPid (s.zinfo.cores m) (next.lastCore m) g c = s.charged m g
    omega
  case shared =>
    intro m
    have read := sum_change inCores (f := s.stats.lastCore m)
      (g := Function.update (s.stats.lastCore m) cid (s.zinfo.cores m cid))
      fun c other => Function.update_of_ne other _ _
    rw [Function.update_self, ← lastCore] at read
    have given := sum_add inLine (s.stats.process m) (s.zinfo.cores m cid - s.stats.lastCore m cid)
    rw [← process] at given
    have behind := right.behind m cid
    have shared := right.shared m
    show ∑ g ∈ range cfg.lineSize, next.process m g = ∑ c ∈ range cfg.numCores, next.lastCore m c
    omega
  case counted => exact right.counted

theorem Right.updateScheduled (right : Right cfg s) (cid : Nat) :
    ∃ next, s.stats.updateScheduled cfg s.zinfo cid = some next ∧
      Right cfg { s with stats := next } ∧
      (∀ m c, c = cid ∧ s.zinfo.scheduledPid c ≠ none ∨ s.stats.lastCore m c = s.zinfo.cores m c →
        next.lastCore m c = s.zinfo.cores m c) ∧
      next.lastUpdatePhase = s.stats.lastUpdatePhase := by
  unfold ProcessStats.updateScheduled
  cases scheduled : s.zinfo.scheduledPid cid with
  | none =>
      refine ⟨s.stats, rfl, right, ?_, rfl⟩
      rintro m c (⟨rfl, isBusy⟩ | read)
      · exact absurd scheduled isBusy
      · exact read
  | some p =>
      obtain ⟨next, step, rightNext, read, phase⟩ := right.updateCore scheduled
      refine ⟨next, (if_pos (right.busy cid p scheduled).2.1).trans step, rightNext, ?_, phase⟩
      intro m c before
      rw [read]
      by_cases same : c = cid
      · subst same
        exact Function.update_self c _ _
      · rw [Function.update_of_ne same]
        exact before.resolve_left fun both => same both.1

theorem Right.updateAll (cids : List Nat) : ∀ {s : Sim}, Right cfg s →
    ∃ next, cids.foldlM (ProcessStats.updateScheduled cfg s.zinfo) s.stats = some next ∧
      Right cfg { s with stats := next } ∧
      (∀ m c, c ∈ cids ∧ s.zinfo.scheduledPid c ≠ none ∨ s.stats.lastCore m c = s.zinfo.cores m c →
        next.lastCore m c = s.zinfo.cores m c) ∧
      next.lastUpdatePhase = s.stats.lastUpdatePhase := by
  induction cids with
  | nil =>
      intro s right
      exact ⟨s.stats, rfl, right, fun m c before => before.resolve_left (List.not_mem_nil ·.1), rfl⟩
  | cons cid rest ih =>
      intro s right
      obtain ⟨mid, step, rightMid, readMid, phaseMid⟩ := right.updateScheduled cid
      obtain ⟨next, later, rightNext, read, phase⟩ := ih rightMid
      refine ⟨next, ?_, rightNext, ?_, phase.trans phaseMid⟩
      · rw [List.foldlM_cons, step]
        exact later
      · rintro m c (⟨member, isBusy⟩ | before)
        · obtain here | there := List.mem_cons.mp member
          · exact read m c (.inr (readMid m c (.inl ⟨here, isBusy⟩)))
          · exact read m c (.inl ⟨there, isBusy⟩)
        · exact read m c (.inr (readMid m c (.inr before)))

theorem Right.update (right : Right cfg s) (stale : s.stats.lastUpdatePhase ≠ s.zinfo.numPhases) :
    ∃ next, s.stats.update cfg s.zinfo = some next ∧ Right cfg { s with stats := next } ∧
      ∀ m g, next.process m g = s.charged m g := by
  obtain ⟨mid, loop, rightMid, read, -⟩ := right.updateAll (List.range cfg.numCores)
  have earlier : s.stats.lastUpdatePhase < s.zinfo.numPhases :=
    Nat.lt_of_le_of_ne right.phase stale
  refine ⟨{ mid with lastUpdatePhase := s.zinfo.numPhases }, ?_, ?_, ?_⟩
  · rw [ProcessStats.update, if_pos earlier, loop]
    rfl
  · exact { rightMid with phase := Nat.le_refl _ }
  · intro m g
    have none : ∑ cid ∈ range cfg.numCores,
        due cfg s.zinfo.scheduledPid (s.zinfo.cores m) (mid.lastCore m) g cid = 0 := by
      apply sum_eq_zero
      intro cid member
      cases scheduled : s.zinfo.scheduledPid cid with
      | none => exact due_idle scheduled g
      | some p =>
          have isRead : mid.lastCore m cid = s.zinfo.cores m cid := by
            apply read m cid
            refine .inl ⟨List.mem_range.mpr (mem_range.mp member), ?_⟩
            rw [scheduled]
            exact Option.some_ne_none p
          exact due_of_read isRead g
    have balance := rightMid.balance m g
    rw [none] at balance
    exact balance

theorem Right.getProcess (right : Right cfg s) (m : Measure) {g : Nat} (bound : g < cfg.lineSize) :
    ∃ next, s.stats.getProcess cfg s.zinfo m g = some (next.process m g, next) ∧
      Right cfg { s with stats := next } ∧
      (s.stats.lastUpdatePhase ≠ s.zinfo.numPhases → next.process m g = s.charged m g) := by
  unfold ProcessStats.getProcess
  by_cases fresh : s.stats.lastUpdatePhase = s.zinfo.numPhases
  · rw [if_neg (not_not.mpr fresh)]
    exact ⟨s.stats, if_pos bound, right, fun stale => absurd fresh stale⟩
  · obtain ⟨next, step, rightNext, all⟩ := right.update fresh
    rw [if_pos fresh, step]
    exact ⟨next, if_pos bound, rightNext, fun _ => all m g⟩

/-! ## Steps -/

/-- The state after a thread has left a core. -/
def vacated (s : Sim) (cid : Nat) (stats : ProcessStats) : Sim :=
  { s with
    stats
    zinfo := { s.zinfo with scheduledPid := Function.update s.zinfo.scheduledPid cid none } }

theorem Right.deschedule (right : Right cfg s) (scheduled : s.zinfo.scheduledPid cid = some p) :
    ∃ stats, s.stats.notifyDeschedule cfg s.zinfo cid p = some stats ∧
      step cfg s (.deschedule cid) = some (s.vacated cid stats) ∧ Right cfg (s.vacated cid stats) := by
  obtain ⟨inCores, inLine, -⟩ := right.busy cid p scheduled
  obtain ⟨stats, read, rightMid, lastCore, -⟩ := right.updateCore scheduled
  have notified : s.stats.notifyDeschedule cfg s.zinfo cid p = some stats :=
    (if_pos ⟨inCores, inLine⟩).trans read
  have stepped : step cfg s (.deschedule cid) = some (s.vacated cid stats) := by
    simp only [step, scheduled, notified, Option.bind_eq_bind, Option.bind_some, vacated]
  refine ⟨stats, notified, stepped, ?_⟩
  have isRead (m : Measure) : stats.lastCore m cid = s.zinfo.cores m cid := by
    rw [lastCore, Function.update_self]
  have cleared : Function.update s.zinfo.scheduledPid cid none cid = none :=
    Function.update_self cid _ _
  have others : ∀ c, c ≠ cid →
      Function.update s.zinfo.scheduledPid cid none c = s.zinfo.scheduledPid c :=
    fun c other => Function.update_of_ne other _ _
  constructor
  case behind => exact rightMid.behind
  case idle =>
    intro m c isIdle
    by_cases same : c = cid
    · subst same
      have settled : s.owed m c = 0 := right.settled m c p scheduled
      have isRead := isRead m
      show s.zinfo.cores m c = stats.lastCore m c + s.owed m c
      omega
    · exact rightMid.idle m c ((others c same).symm.trans isIdle)
  case busy =>
    intro c q isBusy
    by_cases same : c = cid
    · subst same
      cases cleared.symm.trans isBusy
    · exact right.busy c q ((others c same).symm.trans isBusy)
  case settled =>
    intro m c q isBusy
    by_cases same : c = cid
    · subst same
      cases cleared.symm.trans isBusy
    · exact right.settled m c q ((others c same).symm.trans isBusy)
  case phase => exact rightMid.phase
  case balance =>
    intro m g
    have stays := sum_due_deschedule s.zinfo.scheduledPid _ _ inCores (isRead m) g
    exact (congrArg (stats.process m g + ·) stays).trans (rightMid.balance m g)
  case shared => exact rightMid.shared
  case counted => exact right.counted

theorem Right.count (right : Right cfg s) (bound : cid < cfg.numCores) (n : Measure → Nat) :
    ∃ next, step cfg s (.count cid n) = some next ∧ Right cfg next := by
  have counts (m : Measure) := sum_add bound (s.zinfo.cores m) (n m)
  have grown (m : Measure) (c : Nat) := add_apply (s.zinfo.cores m) cid (n m) c
  have behind : ∀ m c, s.stats.lastCore m c ≤ add (s.zinfo.cores m) cid (n m) c :=
    fun m c => (right.behind m c).trans (by rw [grown]; exact Nat.le_add_right _ _)
  cases scheduled : s.zinfo.scheduledPid cid with
  | none =>
      refine ⟨_, by simp only [step, scheduled]; rfl, ?_⟩
      constructor
      case behind => exact behind
      case idle =>
        intro m c isIdle
        have idle := right.idle m c isIdle
        have owed := add_apply (s.owed m) cid (n m) c
        have grown := grown m c
        show add (s.zinfo.cores m) cid (n m) c = s.stats.lastCore m c + add (s.owed m) cid (n m) c
        omega
      case busy => exact right.busy
      case settled =>
        intro m c q isBusy
        have other : c ≠ cid := (ne_of_idle scheduled isBusy).symm
        exact (Function.update_of_ne other _ _).trans (right.settled m c q isBusy)
      case phase => exact right.phase
      case balance =>
        intro m g
        have stays := sum_due_count s.zinfo.scheduledPid _ _ bound (right.behind m cid) (n m) g
        simp only [scheduled, Option.map_none, reduceCtorEq, if_false, Nat.add_zero] at stays
        rw [← right.balance m g]
        exact congrArg (s.stats.process m g + ·) stays
      case shared => exact right.shared
      case counted =>
        intro m
        have owed := sum_add bound (s.owed m) (n m)
        have counted := right.counted m
        have counts := counts m
        show ∑ g ∈ range cfg.lineSize, s.charged m g +
            ∑ c ∈ range cfg.numCores, add (s.owed m) cid (n m) c =
          ∑ c ∈ range cfg.numCores, add (s.zinfo.cores m) cid (n m) c
        omega
  | some p =>
      obtain ⟨-, -, inLine⟩ := right.busy cid p scheduled
      refine ⟨_, by simp only [step, scheduled]; rfl, ?_⟩
      constructor
      case behind => exact behind
      case idle =>
        intro m c isIdle
        have other : c ≠ cid := ne_of_idle isIdle scheduled
        exact (Function.update_of_ne other _ _).trans (right.idle m c isIdle)
      case busy => exact right.busy
      case settled => exact right.settled
      case phase => exact right.phase
      case balance =>
        intro m g
        have grows := sum_due_count s.zinfo.scheduledPid _ _ bound (right.behind m cid) (n m) g
        have charged := add_apply (s.charged m) (cfg.groupIdx p) (n m) g
        have own : (some p).map cfg.groupIdx = some g ↔ g = cfg.groupIdx p := by
          rw [Option.map_some, Option.some.injEq, eq_comm]
        rw [scheduled, if_congr own rfl rfl] at grows
        have balance := right.balance m g
        show s.stats.process m g + ∑ c ∈ range cfg.numCores,
          due cfg s.zinfo.scheduledPid (add (s.zinfo.cores m) cid (n m)) (s.stats.lastCore m) g c =
            add (s.charged m) (cfg.groupIdx p) (n m) g
        omega
      case shared => exact right.shared
      case counted =>
        intro m
        have charged := sum_add inLine (s.charged m) (n m)
        have counted := right.counted m
        have counts := counts m
        show ∑ g ∈ range cfg.lineSize, add (s.charged m) (cfg.groupIdx p) (n m) g +
            ∑ c ∈ range cfg.numCores, s.owed m c =
          ∑ c ∈ range cfg.numCores, add (s.zinfo.cores m) cid (n m) c
        omega

theorem Right.schedule (right : Right cfg s) (bound : cid < cfg.numCores)
    (isIdle : s.zinfo.scheduledPid cid = none) (inLine : p < cfg.lineSize)
    (group : cfg.groupIdx p < cfg.lineSize) :
    ∃ next, step cfg s (.schedule cid p) = some next ∧ Right cfg next := by
  have scheduled : Function.update s.zinfo.scheduledPid cid (some p) cid = some p :=
    Function.update_self cid _ _
  have others : ∀ c, c ≠ cid →
      Function.update s.zinfo.scheduledPid cid (some p) c = s.zinfo.scheduledPid c :=
    fun c other => Function.update_of_ne other _ _
  refine ⟨_, rfl, ?_⟩
  constructor
  case behind => exact right.behind
  case idle =>
    intro m c stays
    have other : c ≠ cid := ne_of_idle stays scheduled
    rw [right.idle m c ((others c other).symm.trans stays)]
    exact congrArg (s.stats.lastCore m c + ·) (Function.update_of_ne other _ _).symm
  case busy =>
    intro c q isBusy
    by_cases same : c = cid
    · subst same
      cases Option.some.inj (scheduled.symm.trans isBusy)
      exact ⟨bound, inLine, group⟩
    · exact right.busy c q ((others c same).symm.trans isBusy)
  case settled =>
    intro m c q isBusy
    by_cases same : c = cid
    · subst same
      exact Function.update_self c _ _
    · exact (Function.update_of_ne same _ _).trans
        (right.settled m c q ((others c same).symm.trans isBusy))
  case phase => exact right.phase
  case balance =>
    intro m g
    have grows := sum_due_schedule (p := p) _ (s.zinfo.cores m) (s.stats.lastCore m) bound isIdle g
    have charged := add_apply (s.charged m) (cfg.groupIdx p) (s.owed m cid) g
    have owed : s.zinfo.cores m cid - s.stats.lastCore m cid = s.owed m cid := by
      rw [right.idle m cid isIdle, Nat.add_sub_cancel_left]
    rw [owed] at grows
    have balance := right.balance m g
    show s.stats.process m g + ∑ c ∈ range cfg.numCores,
      due cfg (Function.update s.zinfo.scheduledPid cid (some p)) (s.zinfo.cores m)
        (s.stats.lastCore m) g c = add (s.charged m) (cfg.groupIdx p) (s.owed m cid) g
    omega
  case shared => exact right.shared
  case counted =>
    intro m
    have charged := sum_add group (s.charged m) (s.owed m cid)
    have owed := sum_clear bound (s.owed m)
    have counted := right.counted m
    show ∑ g ∈ range cfg.lineSize, add (s.charged m) (cfg.groupIdx p) (s.owed m cid) g +
        ∑ c ∈ range cfg.numCores, Function.update (s.owed m) cid 0 c =
      ∑ c ∈ range cfg.numCores, s.zinfo.cores m c
    omega

theorem Right.start (cfg : Config) : Right cfg start where
  behind _ _ := Nat.le_refl _
  idle _ _ _ := rfl
  busy _ _ scheduled := by cases scheduled
  settled _ _ _ scheduled := by cases scheduled
  phase := Nat.le_refl _
  balance m g := by
    rw [sum_eq_zero fun cid _ => due_idle rfl g]
    rfl
  shared m := by
    simp only [Sim.start, sum_const_zero]
  counted m := by
    simp only [Sim.start, sum_const_zero, Nat.add_zero]

end Sim

theorem machine_preserves (cfg : Config) : (machine cfg).Preserves (Sim.Right cfg) := by
  intro s op right legal
  cases op with
  | count cid n => exact right.count legal n
  | schedule cid p => exact right.schedule legal.1 legal.2.1 legal.2.2.1 legal.2.2.2
  | deschedule cid =>
      obtain ⟨p, scheduled⟩ := Option.isSome_iff_exists.mp legal
      obtain ⟨stats, -, step, rightNext⟩ := right.deschedule scheduled
      exact ⟨_, step, rightNext⟩
  | endPhase =>
      exact ⟨_, rfl, { right with phase := right.phase.trans (Nat.le_succ _) }⟩
  | get m p =>
      obtain ⟨stats, got, rightNext, -⟩ := right.getProcess m legal
      refine ⟨_, ?_, rightNext⟩
      show (s.stats.getProcess cfg s.zinfo m p).bind (fun r => some { s with stats := r.2 }) = _
      rw [got]
      rfl

/-! ## The calls of the scheduler

`schedule` and `deschedule` of the scheduler are the steps of the same names: they take and leave
contexts as is required of them, and `deschedule` names the process that is on the context. -/

def getPid (gid : Nat) : Nat := gid >>> 16

/-- The process that a context is used by. -/
def pidOn (ctx : Scheduler.ContextInfo) : Option Nat :=
  if ctx.state = .used then ctx.curThread.map getPid else none

def getScheduledPid (s : Scheduler) (cid : Nat) : Option Nat := pidOn (s.contexts cid)

section
variable {cfg : Config} {s s' : Scheduler} {gid cid : Nat} {targetState : Scheduler.ThreadState}

theorem getScheduledPid_setContext (s : Scheduler) (cid : Nat) (ctx : Scheduler.ContextInfo) :
    getScheduledPid (s.setContext cid ctx) = Function.update (getScheduledPid s) cid (pidOn ctx) := by
  funext c
  exact Function.apply_update (fun _ => pidOn) s.contexts cid ctx c

theorem getScheduledPid_schedule (run : s.schedule gid cid = some s') :
    getScheduledPid s cid = none ∧
      getScheduledPid s' = Function.update (getScheduledPid s) cid (some (getPid gid)) := by
  unfold Scheduler.schedule at run
  obtain ⟨th, -, run⟩ := Option.bind_eq_some_iff.mp run
  obtain ⟨⟨-, isIdle, -⟩, run⟩ := Option.ite_none_right_eq_some.mp run
  constructor
  · rw [getScheduledPid, pidOn, isIdle]
    rfl
  · cases run
    exact getScheduledPid_setContext (s.setThread gid { th with state := .running, cid := cid }) cid
      ⟨.used, some gid⟩

theorem getScheduledPid_deschedule (run : s.deschedule gid cid targetState = some s') :
    getScheduledPid s cid = some (getPid gid) ∧
      getScheduledPid s' = Function.update (getScheduledPid s) cid none := by
  unfold Scheduler.deschedule at run
  obtain ⟨th, -, run⟩ := Option.bind_eq_some_iff.mp run
  obtain ⟨⟨-, isUsed, -, isCur⟩, run⟩ := Option.ite_none_right_eq_some.mp run
  constructor
  · rw [getScheduledPid, pidOn, isUsed, isCur]
    rfl
  · cases run
    exact getScheduledPid_setContext (s.setThread gid { th with state := targetState }) cid ⟨.idle, none⟩

theorem Sim.Right.scheduler_schedule {t : Sim} (right : t.Right cfg)
    (same : t.zinfo.scheduledPid = getScheduledPid s) (run : s.schedule gid cid = some s')
    (inCores : cid < cfg.numCores) (inLine : getPid gid < cfg.lineSize)
    (group : cfg.groupIdx (getPid gid) < cfg.lineSize) :
    ∃ next, (machine cfg).step t (.schedule cid (getPid gid)) = some next ∧ next.Right cfg ∧
      next.zinfo.scheduledPid = getScheduledPid s' := by
  obtain ⟨isIdle, after⟩ := getScheduledPid_schedule run
  rw [← same] at isIdle after
  obtain ⟨next, step, rightNext⟩ := right.schedule inCores isIdle inLine group
  refine ⟨next, step, rightNext, ?_⟩
  cases Option.some.inj step
  exact after.symm

theorem Sim.Right.scheduler_deschedule {t : Sim} (right : t.Right cfg)
    (same : t.zinfo.scheduledPid = getScheduledPid s)
    (run : s.deschedule gid cid targetState = some s') :
    ∃ stats next, t.stats.notifyDeschedule cfg t.zinfo cid (getPid gid) = some stats ∧
      (machine cfg).step t (.deschedule cid) = some next ∧ next.stats = stats ∧ next.Right cfg ∧
      next.zinfo.scheduledPid = getScheduledPid s' := by
  obtain ⟨scheduled, after⟩ := getScheduledPid_deschedule run
  rw [← same] at scheduled after
  obtain ⟨stats, notified, step, rightNext⟩ := right.deschedule scheduled
  exact ⟨stats, t.vacated cid stats, notified, step, rfl, rightNext, after.symm⟩

end

/-! ## Runs -/

/-- However threads come and go, no assertion fails, what was read of the cores is split among the
groups, and what the cores count is charged to a group or owed by an idle core.  The answer to a
question lacks what is due to the group afterwards, and in a new phase that is nothing. -/
theorem process_counts_exact (cfg : Config) (ops : List Op)
    (legal : (machine cfg).LegalRun ops Sim.start) :
    ∃ final, (machine cfg).exec ops Sim.start = some final ∧
      (∀ m, ∑ g ∈ range cfg.lineSize, final.stats.process m g =
        ∑ cid ∈ range cfg.numCores, final.stats.lastCore m cid) ∧
      (∀ m,
        ∑ g ∈ range cfg.lineSize, final.charged m g + ∑ cid ∈ range cfg.numCores, final.owed m cid =
          ∑ cid ∈ range cfg.numCores, final.zinfo.cores m cid) ∧
      ∀ m g, g < cfg.lineSize → ∃ value stats,
        final.stats.getProcess cfg final.zinfo m g = some (value, stats) ∧
          value + ∑ cid ∈ range cfg.numCores,
            due cfg final.zinfo.scheduledPid (final.zinfo.cores m) (stats.lastCore m) g cid =
              final.charged m g ∧
          (final.stats.lastUpdatePhase ≠ final.zinfo.numPhases → value = final.charged m g) := by
  obtain ⟨final, run, right⟩ := (machine_preserves cfg).exec (Sim.Right.start cfg) legal
  refine ⟨final, run, right.shared, right.counted, ?_⟩
  intro m g bound
  obtain ⟨stats, got, rightNext, all⟩ := right.getProcess m bound
  exact ⟨stats.process m g, stats, got, rightNext.balance m g, all⟩

/-- Two processes of one group, one after the other on a core that counts between them too. -/
theorem process_counts_exact_shared :
    let cfg : Config := { lineSize := 4, numCores := 2, groupIdx := fun p => p / 2 }
    let ops : List Op :=
      [.schedule 0 2, .count 0 fun _ => 5, .deschedule 0, .count 0 fun _ => 1, .schedule 0 3,
        .endPhase, .get .instrs 1]
    ∃ final, (machine cfg).exec ops Sim.start = some final ∧
      (∀ m, ∑ g ∈ range 4, final.stats.process m g = ∑ cid ∈ range 2, final.stats.lastCore m cid) ∧
      (∀ m, ∑ g ∈ range 4, final.charged m g + ∑ cid ∈ range 2, final.owed m cid =
        ∑ cid ∈ range 2, final.zinfo.cores m cid) ∧
      ∀ m g, g < 4 → ∃ value stats,
        final.stats.getProcess cfg final.zinfo m g = some (value, stats) ∧
          value + ∑ cid ∈ range 2,
            due cfg final.zinfo.scheduledPid (final.zinfo.cores m) (stats.lastCore m) g cid =
              final.charged m g ∧
          (final.stats.lastUpdatePhase ≠ final.zinfo.numPhases → value = final.charged m g) :=
  process_counts_exact { lineSize := 4, numCores := 2, groupIdx := fun p => p / 2 } _ (by decide)

end Zsim.PerProcess
