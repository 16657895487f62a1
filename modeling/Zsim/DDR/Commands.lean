import Mathlib.Data.List.Pairwise
import Zsim.DDR.Model

/-!
# The order and the distance of the commands

What the banks and the bus remember of the commands issued so far, and that it is enough to
keep the next ones apart.
-/

set_option autoImplicit false

namespace Zsim.DDR

/-- What a command owes to an earlier one. -/
def Timing.Respects (t : Timing) : (later earlier : Command) → Prop
  | .act bank _ cycle, .act bank' _ cycle' => bank = bank' → cycle' + t.tRAS + t.tRP ≤ cycle
  | .column _ _ write cycle, .column _ _ write' cycle' =>
    cycle' + t.tCL + t.tBL ≤ cycle + t.tCL ∧
      (write' = true → write = false → cycle' + t.tCL + t.tBL + t.tWTR ≤ cycle)
  | .act _ _ cycle, .refresh _ done => done ≤ cycle
  | .refresh start _, .act _ _ cycle => cycle ≤ start
  | _, _ => True

/-- The row that is active in a bank, and since when. -/
def activeRow (bank : Nat × Nat) : List Command → Option (Nat × Nat)
  | [] => none
  | .act bank' row cycle :: earlier =>
    if bank' = bank then some (row, cycle) else activeRow bank earlier
  | .column _ _ _ _ :: earlier => activeRow bank earlier
  | .refresh _ _ :: _ => none

/-- Every column command is for the active row, tRCD after its activation. -/
def Timing.InActiveRow (t : Timing) : List Command → Prop
  | [] => True
  | .column bank row _ cycle :: earlier =>
    (∃ actCycle, activeRow bank earlier = some (row, actCycle) ∧ actCycle + t.tRCD ≤ cycle) ∧
      t.InActiveRow earlier
  | _ :: earlier => t.InActiveRow earlier

structure BankOk (t : Timing) (commands : List Command) (key : Nat × Nat) (b : Bank) : Prop where
  acts : ∀ row cycle, .act key row cycle ∈ commands → cycle + t.tRAS ≤ b.minPreCycle
  refreshed : ∀ start done, .refresh start done ∈ commands → done ≤ b.minPreCycle + t.tRP
  lastCmd : b.lastCmdCycle ≤ b.minPreCycle
  active : b.isOpen = true → activeRow key commands = some (b.openRow, b.lastActCycle) ∧
    b.lastActCycle + t.tRCD ≤ b.lastCmdCycle

/-- The commands are right, and the bus knows when the last data ends. -/
structure BusOk (t : Timing) (s : DDRMemory) : Prop where
  apart : s.commands.Pairwise t.Respects
  inRow : t.InActiveRow s.commands
  resp : t.tCL + t.tBL + 1 ≤ s.minRespCycle
  data : ∀ bank row write cycle, .column bank row write cycle ∈ s.commands →
    cycle + t.tCL + t.tBL ≤ s.minRespCycle
  turned : s.lastCmdWasWrite = false → ∀ bank row cycle, .column bank row true cycle ∈ s.commands →
    cycle + t.tCL + t.tBL + t.tWTR + (t.tCL + t.tBL) ≤ s.minRespCycle

structure Timely (c : Config) (s : DDRMemory) : Prop extends BusOk c.timing s where
  located : ∀ bank row cycle, .act bank row cycle ∈ s.commands → bank ∈ c.banks
  banks : ∀ key ∈ c.banks, BankOk c.timing s.commands key (s.banks key)

/-- Nothing but timing changes. -/
structure SameRequests (s s' : DDRMemory) : Prop where
  rdQueue : s'.rdQueue = s.rdQueue
  wrQueue : s'.wrQueue = s.wrQueue
  overflowQueue : s'.overflowQueue = s.overflowQueue
  scheduling : s'.scheduling = s.scheduling
  accepted : s'.accepted = s.accepted
  held : s'.held = s.held
  answered : s'.answered = s.answered
  served : s'.served = s.served
  lists : ∀ key wr, (s'.banks key).reqs wr = (s.banks key).reqs wr

theorem SameRequests.trans {a b c : DDRMemory} (first : SameRequests a b) (second : SameRequests b c) :
    SameRequests a c :=
  ⟨second.rdQueue.trans first.rdQueue, second.wrQueue.trans first.wrQueue,
    second.overflowQueue.trans first.overflowQueue, second.scheduling.trans first.scheduling,
    second.accepted.trans first.accepted, second.held.trans first.held,
    second.answered.trans first.answered, second.served.trans first.served,
    fun key wr => (second.lists key wr).trans (first.lists key wr)⟩

theorem SameRequests.refl (s : DDRMemory) : SameRequests s s :=
  ⟨rfl, rfl, rfl, rfl, rfl, rfl, rfl, rfl, fun _ _ => rfl⟩

namespace DDRMemory

variable {c : Config}

theorem Timely.init (lastCmdWasWrite : Bool) : Timely c (init c lastCmdWasWrite) where
  apart := .nil
  inRow := trivial
  resp := Nat.le_refl _
  data := fun _ _ _ _ member => absurd member List.not_mem_nil
  turned := fun _ _ _ _ member => absurd member List.not_mem_nil
  located := fun _ _ _ member => absurd member List.not_mem_nil
  banks := fun _ _ =>
    ⟨fun _ _ member => absurd member List.not_mem_nil, fun _ _ member => absurd member List.not_mem_nil,
      Nat.le_refl _, fun isOpen => by cases isOpen⟩

theorem Timely.congr {s s' : DDRMemory} (timely : Timely c s) (commands : s'.commands = s.commands)
    (minRespCycle : s'.minRespCycle = s.minRespCycle)
    (lastCmdWasWrite : s'.lastCmdWasWrite = s.lastCmdWasWrite)
    (banks : ∀ key, ∃ rd wr, s'.banks key = { s.banks key with rdReqs := rd, wrReqs := wr }) :
    Timely c s' := by
  refine ⟨⟨?_, ?_, ?_, ?_, ?_⟩, ?_, fun key member => ?_⟩
  · rw [commands]
    exact timely.apart
  · rw [commands]
    exact timely.inRow
  · rw [minRespCycle]
    exact timely.resp
  · rw [commands, minRespCycle]
    exact timely.data
  · rw [commands, minRespCycle, lastCmdWasWrite]
    exact timely.turned
  · rw [commands]
    exact timely.located
  · obtain ⟨rd, wr, isBank⟩ := banks key
    have ok := timely.banks key member
    rw [commands, isBank]
    exact ⟨ok.acts, ok.refreshed, ok.lastCmd, ok.active⟩

/-! ## Opening the row -/

/-- The row of the request is open, and its command may be issued at these cycles. -/
structure RowOpen (t : Timing) (commands : List Command) (r : Request) (minCmdCycle : Nat) (b : Bank) :
    Prop where
  isOpen : b.isOpen = true
  openRow : b.openRow = r.loc.row
  active : activeRow r.loc.key commands = some (r.loc.row, b.lastActCycle)
  acts : ∀ row cycle, .act r.loc.key row cycle ∈ commands →
    cycle + t.tRAS ≤ max b.minPreCycle (b.lastActCycle + t.tRAS)
  refreshed : ∀ start done, .refresh start done ∈ commands → done ≤ b.minPreCycle + t.tRP
  lastCmd : b.lastCmdCycle ≤ b.minPreCycle
  ready : ∀ cycle, minCmdCycle ≤ cycle →
    b.lastActCycle + t.tRCD ≤ cycle ∧ b.lastCmdCycle < cycle

structure Opened (c : Config) (s : DDRMemory) (r : Request) (s' : DDRMemory) : Prop where
  same : SameRequests s s'
  minRespCycle : s'.minRespCycle = s.minRespCycle
  lastCmdWasWrite : s'.lastCmdWasWrite = s.lastCmdWasWrite
  bus : BusOk c.timing s'
  located : ∀ bank row cycle, .act bank row cycle ∈ s'.commands → bank ∈ c.banks
  others : ∀ key ∈ c.banks, key ≠ r.loc.key → BankOk c.timing s'.commands key (s'.banks key)
  bank : RowOpen c.timing s'.commands r (s.findMinCmdCycle c r) (s'.bank r)

@[simp] theorem setBank_banks_self (s : DDRMemory) (r : Request) (b : Bank) :
    (s.setBank r b).banks r.loc.key = b := Function.update_self ..

theorem setBank_banks_of_ne {s : DDRMemory} {r : Request} {key : Nat × Nat} (b : Bank)
    (ne : key ≠ r.loc.key) : (s.setBank r b).banks key = s.banks key := Function.update_of_ne ne ..

theorem setBank_reqs {s : DDRMemory} {r : Request} {b : Bank}
    (same : ∀ wr, b.reqs wr = (s.bank r).reqs wr) (key : Nat × Nat) (wr : Bool) :
    ((s.setBank r b).banks key).reqs wr = (s.banks key).reqs wr := by
  by_cases here : key = r.loc.key
  · rw [here, setBank_banks_self]
    exact same wr
  · rw [setBank_banks_of_ne b here]

theorem le_actCycle (s : DDRMemory) (r : Request) :
    (s.bank r).minPreCycle + c.timing.tRP ≤ s.actCycle c r ∧
      (s.rankActWindows r.loc.rank).minActCycle ≤ s.actCycle c r := by
  unfold actCycle
  dsimp only
  split <;> omega

theorem openRow_spec {s : DDRMemory} (timely : Timely c s) {r : Request} (located : r.loc.key ∈ c.banks) :
    ∃ s' bound, s.openRow c r = some (s', bound) ∧ Opened c s r s' := by
  have ok : BankOk c.timing s.commands r.loc.key (s.bank r) := timely.banks r.loc.key located
  obtain ⟨-, rpPos, -⟩ := c.timing_ok
  by_cases hit : (s.bank r).rowHit r = true
  · have opened : r.loc.row = (s.bank r).openRow ∧ (s.bank r).isOpen = true := of_decide_eq_true hit
    obtain ⟨active, since⟩ := ok.active opened.2
    have bank : RowOpen c.timing s.commands r (s.findMinCmdCycle c r) (s.bank r) := by
      refine ⟨opened.2, opened.1.symm, by rw [active, opened.1],
        fun row cycle member => Nat.le_trans (ok.acts row cycle member) (Nat.le_max_left _ _),
        ok.refreshed, ok.lastCmd, fun cycle le => ?_⟩
      rw [findMinCmdCycle, if_pos hit] at le
      omega
    exact ⟨s, 0, by unfold openRow; exact if_pos hit, .refl s, rfl, rfl, timely.toBusOk,
      timely.located, fun key member _ => timely.banks key member, bank⟩
  · obtain ⟨afterPre, afterWindow⟩ := s.le_actCycle (c := c) r
    have fits : (s.rankActWindows r.loc.rank).buf (s.rankActWindows r.loc.rank).idx ≤ s.actCycle c r :=
      afterWindow
    have others : ∀ key ∈ c.banks, key ≠ r.loc.key →
        BankOk c.timing (.act r.loc.key r.loc.row (s.actCycle c r) :: s.commands) key (s.banks key) := by
      intro key member ne
      have before := timely.banks key member
      refine ⟨fun row cycle isAct => ?_, fun start done isRefresh => ?_, before.lastCmd, fun isOpen => ?_⟩
      · rcases List.mem_cons.mp isAct with new | old
        · cases new
          exact absurd rfl ne
        · exact before.acts row cycle old
      · exact before.refreshed start done (by simpa using isRefresh)
      · rw [activeRow, if_neg (Ne.symm ne)]
        exact before.active isOpen
    have apart : ∀ earlier ∈ s.commands,
        c.timing.Respects (.act r.loc.key r.loc.row (s.actCycle c r)) earlier := by
      intro earlier member
      cases earlier with
      | act bank row cycle =>
          rintro rfl
          exact Nat.le_trans (Nat.add_le_add_right (ok.acts row cycle member) _) afterPre
      | column bank row write cycle => trivial
      | refresh start done => exact Nat.le_trans (ok.refreshed start done member) afterPre
    have bank : RowOpen c.timing (.act r.loc.key r.loc.row (s.actCycle c r) :: s.commands) r
        (s.findMinCmdCycle c r)
        { s.bank r with
          isOpen := true
          openRow := r.loc.row
          minPreCycle := if (s.bank r).isOpen then
            max r.arrivalCycle (s.bank r).minPreCycle + c.timing.tRAS else (s.bank r).minPreCycle
          lastActCycle := s.actCycle c r } := by
      have notSooner : (s.bank r).minPreCycle ≤ if (s.bank r).isOpen then
          max r.arrivalCycle (s.bank r).minPreCycle + c.timing.tRAS else (s.bank r).minPreCycle := by
        split <;> omega
      constructor
      case isOpen => rfl
      case openRow => rfl
      case active => exact if_pos rfl
      case acts =>
        intro row cycle member
        rcases List.mem_cons.mp member with new | old
        · cases new
          exact Nat.le_max_right _ _
        · exact Nat.le_trans (Nat.le_trans (ok.acts row cycle old) notSooner) (Nat.le_max_left _ _)
      case refreshed =>
        intro start done member
        have before := ok.refreshed start done (by simpa using member)
        exact Nat.le_trans before (Nat.add_le_add_right notSooner _)
      case lastCmd => exact Nat.le_trans ok.lastCmd notSooner
      case ready =>
        intro cycle le
        have before := ok.lastCmd
        rw [findMinCmdCycle, if_neg hit] at le
        dsimp only
        omega
    unfold openRow
    simp only [hit, Bool.false_eq_true, if_false]
    rw [ActWindow.addActivation, if_pos fits]
    refine ⟨_, _, rfl, ⟨rfl, rfl, rfl, rfl, rfl, rfl, rfl, rfl, setBank_reqs fun wr => by cases wr <;> rfl⟩,
      rfl, rfl, ⟨List.pairwise_cons.mpr ⟨apart, timely.apart⟩, timely.inRow, timely.resp,
        fun bank row write cycle member => timely.data bank row write cycle (by simpa using member),
        fun notWrite bank row cycle member =>
          timely.turned notWrite bank row cycle (by simpa using member)⟩, ?_, ?_, ?_⟩
    · intro bank row cycle member
      rcases List.mem_cons.mp member with new | old
      · cases new
        exact located
      · exact timely.located bank row cycle old
    · intro key member ne
      have unchanged := setBank_banks_of_ne (s := s) (r := r)
        { s.bank r with
          isOpen := true
          openRow := r.loc.row
          minPreCycle := if (s.bank r).isOpen then
            max r.arrivalCycle (s.bank r).minPreCycle + c.timing.tRAS else (s.bank r).minPreCycle
          lastActCycle := s.actCycle c r } ne
      change BankOk _ _ _ ((s.setBank r _).banks key)
      rw [unchanged]
      exact others key member ne
    · change RowOpen _ _ _ _ ((s.setBank r _).banks r.loc.key)
      rw [setBank_banks_self]
      exact bank

/-! ## The column command -/

/-- The command may be issued from `minCmdCycle` on, and not before the bus has turned. -/
theorem issue_spec {s s' : DDRMemory} {r : Request} (opened : Opened c s r s') {minCmdCycle : Nat}
    (ready : s.findMinCmdCycle c r ≤ minCmdCycle)
    (turned : s.lastCmdWasWrite = true → r.write = false →
      s.minRespCycle + c.timing.tWTR ≤ minCmdCycle) :
    ∃ s'', s'.issue c r minCmdCycle = some s'' ∧ Timely c s'' ∧ SameRequests s s'' ∧
      minCmdCycle + c.timing.tCL + c.timing.tBL ≤ s''.minRespCycle := by
  obtain ⟨cmdCycle, isCmd⟩ : ∃ cycle, cycle = max minCmdCycle (s'.minRespCycle - c.timing.tCL) := ⟨_, rfl⟩
  have bus := opened.bus
  have bank := opened.bank
  have resp := bus.resp
  obtain ⟨sinceAct, increases⟩ := bank.ready cmdCycle (by omega)
  have data : ∀ bank row write cycle, .column bank row write cycle ∈ s'.commands →
      cycle + c.timing.tCL + c.timing.tBL ≤ cmdCycle + c.timing.tCL := by
    intro bank row write cycle member
    have ends := bus.data bank row write cycle member
    omega
  have turnedAt : r.write = false → ∀ bank row cycle, .column bank row true cycle ∈ s'.commands →
      cycle + c.timing.tCL + c.timing.tBL + c.timing.tWTR ≤ cmdCycle := by
    intro isRead bank row cycle member
    cases wasWrite : s.lastCmdWasWrite with
    | true =>
        have ends := bus.data bank row true cycle member
        have late := turned wasWrite isRead
        rw [← opened.minRespCycle] at late
        omega
    | false =>
        have ends := bus.turned (opened.lastCmdWasWrite.trans wasWrite) bank row cycle member
        omega
  unfold issue
  simp only [← isCmd, if_pos increases]
  refine ⟨_, rfl, ⟨⟨List.pairwise_cons.mpr ⟨?_, bus.apart⟩, ⟨⟨_, bank.active, sinceAct⟩, bus.inRow⟩, ?_, ?_, ?_⟩,
    fun bank row cycle member => opened.located bank row cycle (by simpa using member), ?_⟩,
    opened.same.trans ⟨rfl, rfl, rfl, rfl, rfl, rfl, rfl, rfl,
      setBank_reqs fun wr => by cases wr <;> rfl⟩, ?_⟩
  · intro earlier member
    cases earlier with
    | act bank row cycle => trivial
    | refresh start done => trivial
    | column bank row write cycle =>
        refine ⟨data bank row write cycle member, fun wrote isRead => ?_⟩
        subst wrote
        exact turnedAt isRead bank row cycle member
  · dsimp only
    omega
  · intro bank row write cycle member
    dsimp only
    rcases List.mem_cons.mp member with new | old
    · cases new
      exact Nat.le_refl _
    · have ends := data bank row write cycle old
      omega
  · intro isRead bank row cycle member
    dsimp only
    rcases List.mem_cons.mp member with new | old
    · have isWrite := (Command.column.inj new).2.2.1
      exact absurd (isWrite.trans isRead) (by simp)
    · have ends := turnedAt isRead bank row cycle old
      omega
  · intro key member
    by_cases here : key = r.loc.key
    · subst here
      change BankOk _ _ _ ((s'.setBank r _).banks r.loc.key)
      rw [setBank_banks_self]
      constructor
      case acts =>
        intro row cycle isAct
        have before := bank.acts row cycle (by simpa using isAct)
        dsimp only
        omega
      case refreshed =>
        intro start done isRefresh
        have before := bank.refreshed start done (by simpa using isRefresh)
        dsimp only
        omega
      case lastCmd =>
        dsimp only
        split <;> omega
      case active =>
        intro stillOpen
        dsimp only
        rw [activeRow, bank.openRow]
        exact ⟨bank.active, sinceAct⟩
    · have before := opened.others key member here
      change BankOk _ _ _ ((s'.setBank r _).banks key)
      rw [setBank_banks_of_ne _ here]
      exact ⟨fun row cycle isAct => before.acts row cycle (by simpa using isAct),
        fun start done isRefresh => before.refreshed start done (by simpa using isRefresh),
        before.lastCmd, before.active⟩
  · dsimp only
    omega

/-! ## Refreshes -/

theorem le_foldl_max (f : Nat × Nat → Nat) (l : List (Nat × Nat)) (start : Nat) :
    start ≤ l.foldl (fun cycle key => max cycle (f key)) start ∧
      ∀ key ∈ l, f key ≤ l.foldl (fun cycle key => max cycle (f key)) start := by
  induction l generalizing start with
  | nil => exact ⟨Nat.le_refl _, fun _ member => absurd member List.not_mem_nil⟩
  | cons first rest ih =>
      obtain ⟨le, others⟩ := ih (max start (f first))
      refine ⟨Nat.le_trans (Nat.le_max_left _ _) le, fun key member => ?_⟩
      rcases List.mem_cons.mp member with rfl | later
      · exact Nat.le_trans (Nat.le_max_right _ _) le
      · exact others key later

theorem refresh_spec {s : DDRMemory} (timely : Timely c s) (sysCycle : Nat) :
    ∃ s', s.refresh c sysCycle = some s' ∧ Timely c s' ∧ SameRequests s s' := by
  obtain ⟨rfc, -, -⟩ := c.timing_ok
  obtain ⟨le, others⟩ := le_foldl_max
    (fun key => max (s.banks key).minPreCycle (s.banks key).lastCmdCycle) c.banks
    (c.sysToMemCycle sysCycle)
  obtain ⟨start, isStart⟩ : ∃ start, start = c.banks.foldl (fun cycle key =>
    max cycle (max (s.banks key).minPreCycle (s.banks key).lastCmdCycle)) (c.sysToMemCycle sysCycle) :=
    ⟨_, rfl⟩
  have notSooner : ∀ key ∈ c.banks,
      (s.banks key).minPreCycle ≤ start ∧ (s.banks key).lastCmdCycle ≤ start := by
    intro key member
    have le := others key member
    rw [← isStart] at le
    exact Nat.max_le.mp le
  unfold refresh
  simp only [← isStart]
  rw [if_pos ⟨by rw [isStart]; exact le, rfc⟩]
  refine ⟨_, rfl, ⟨⟨List.pairwise_cons.mpr ⟨?_, timely.apart⟩, timely.inRow, timely.resp,
    fun bank row write cycle member => timely.data bank row write cycle (by simpa using member),
    fun notWrite bank row cycle member => timely.turned notWrite bank row cycle (by simpa using member)⟩,
    fun bank row cycle member => timely.located bank row cycle (by simpa using member), ?_⟩,
    ⟨rfl, rfl, rfl, rfl, rfl, rfl, rfl, rfl, ?_⟩⟩
  · intro earlier member
    cases earlier with
    | act bank row cycle =>
        have located := timely.located bank row cycle member
        have before := (timely.banks bank located).acts row cycle member
        have bound := (notSooner bank located).1
        change cycle ≤ start
        omega
    | column bank row write cycle => trivial
    | refresh start' done => trivial
  · intro key member
    have before := timely.banks key member
    obtain ⟨pre, cmd⟩ := notSooner key member
    dsimp only
    rw [if_pos member]
    constructor
    case acts =>
      intro row cycle isAct
      have bound := before.acts row cycle (by simpa using isAct)
      dsimp only
      omega
    case refreshed =>
      intro start' done isRefresh
      dsimp only
      rcases List.mem_cons.mp isRefresh with new | old
      · cases new
        omega
      · have bound := before.refreshed start' done old
        omega
    case lastCmd =>
      dsimp only
      omega
    case active => exact fun isOpen => absurd isOpen (by simp)
  · intro key wr
    dsimp only
    split <;> cases wr <;> rfl

end DDRMemory

end Zsim.DDR
