import Zsim.DetailedMem.DataBus

/-!
# Activations of a rank

`CalcActConst` keeps the activations of a rank apart, but only for a bank whose last activation is
known: for others it returns before the constraints of the rank.
-/

set_option autoImplicit false

namespace Zsim.DetailedMem

/-- What `IssueActivate` is called with. -/
structure Activation where
  bank : Nat
  cycle : Nat
  deriving DecidableEq, Repr

/-- An activation is far enough from those before it, the latest of them first. -/
structure SpacedAfter (c : MemParam) (log : List Activation) (new : Activation) : Prop where
  rrd : ∀ a ∈ log, a.cycle + c.tRRD ≤ new.cycle
  rc : ∀ a ∈ log, a.bank = new.bank → a.cycle + c.tRC ≤ new.cycle
  faw : ∀ a ∈ log[3]?, a.cycle + c.tFAW ≤ new.cycle

instance (c : MemParam) (log : List Activation) (new : Activation) :
    Decidable (SpacedAfter c log new) :=
  decidable_of_iff ((∀ a ∈ log, a.cycle + c.tRRD ≤ new.cycle) ∧
      (∀ a ∈ log, a.bank = new.bank → a.cycle + c.tRC ≤ new.cycle) ∧
      ∀ a ∈ log[3]?, a.cycle + c.tFAW ≤ new.cycle)
    ⟨fun all => ⟨all.1, all.2.1, all.2.2⟩, fun spaced => ⟨spaced.rrd, spaced.rc, spaced.faw⟩⟩

/-- The activations of a rank, the latest first, are in order, any two are at least `tRRD` apart, two
of one bank `tRC`, and any five span `tFAW`. -/
structure Spaced (c : MemParam) (log : List Activation) : Prop where
  rrd : log.Pairwise fun later earlier => earlier.cycle + c.tRRD ≤ later.cycle
  rc : log.Pairwise fun later earlier => earlier.bank = later.bank →
    earlier.cycle + c.tRC ≤ later.cycle
  faw : ∀ i j later earlier, i + 4 ≤ j → log[i]? = some later → log[j]? = some earlier →
    earlier.cycle + c.tFAW ≤ later.cycle

namespace MemRank

variable (c : MemParam) (r : MemRank)

/-- The rank after its refreshes, and their number. -/
def refreshed (arrivalCycle : Nat) : Option (MemRank × Nat) := do
  let refreshNum ← r.updateRefreshNum c arrivalCycle
  let r ← r.updateLastRefreshCycle c refreshNum
  some (r, refreshNum)

/-- The activation that an access issues. -/
def activation (row bank : Nat) (type : MemAccessType) (arrivalCycle refreshNum : Nat) :
    Option Activation :=
  match r.openRow c row bank type arrivalCycle refreshNum with
  | some (opened, some issueCycle, _) => some ⟨bank, opened.calcActConst c bank issueCycle⟩
  | _ => none

/-- Where `CalcActConst` returns at once, the cycle it is given is far enough from the earlier
activations and from the last precharge. -/
def ActChecked (log : List Activation) (row bank : Nat) (type : MemAccessType)
    (arrivalCycle refreshNum : Nat) : Prop :=
  match r.openRow c row bank type arrivalCycle refreshNum with
  | some (opened, some issueCycle, _) =>
    opened.lastActCycle bank = 0 → SpacedAfter c log ⟨bank, issueCycle⟩ ∧
      opened.lastPreCycle bank ≤ issueCycle + c.tRAS
  | _ => True

/-- An access that continues the last one does not precharge before it does. -/
def PreChecked (row bank : Nat) (type : MemAccessType) (arrivalCycle refreshNum : Nat) : Prop :=
  match r.openRow c row bank type arrivalCycle refreshNum with
  | some (opened, none, true) =>
    opened.lastPreCycle bank ≤ max (opened.calcRdWrConst c type arrivalCycle + c.getPreDelay type)
      (opened.lastActCycle bank + c.tRAS)
  | _ => True

/-- The assertions of `SetFAWCycle`, `SetLastActCycle` and `SetLastPreCycle`, in the calls of one
access. -/
structure Asserts (row bank : Nat) (type : MemAccessType) (arrivalCycle refreshNum : Nat) :
    Prop where
  precharge : c.openRowBufPolicy = true →
    r.openRow c row bank type arrivalCycle refreshNum ≠ none
  activate : ∀ opened issueCycle continuous,
    r.openRow c row bank type arrivalCycle refreshNum = some (opened, some issueCycle, continuous) →
    opened.issueActivate bank (opened.calcActConst c bank issueCycle) ≠ none
  close : ∀ activated rdwrStart rdwrIssueCycle accessCycle accessed,
    r.calcRdWrStart c row bank type arrivalCycle refreshNum = some (activated, rdwrStart) →
    rdwrStart ≤ rdwrIssueCycle →
    activated.access accessCycle rdwrIssueCycle row bank type = some accessed →
    accessed.closeRow c bank type rdwrIssueCycle ≠ none

/-- What the rank knows of its activations. -/
structure ActInv (log : List Activation) : Prop where
  spaced : Spaced c log
  last : ∀ a ∈ log, a.bank < c.address.bankCount ∧ a.cycle ≤ r.lastActCycle a.bank
  index : r.tFAWIndex < 4
  ring : ∀ k, k < 4 →
    r.tFAWCycle ((r.tFAWIndex + 3 - k) % 4) = (log[k]?.map Activation.cycle).getD 0
  precharged : ∀ bank, r.bankinfo bank = true → r.lastPreCycle bank ≤ r.lastActCycle bank + c.tRAS

end MemRank

section Decide

variable (c : MemParam) (r : MemRank) (log : List Activation) (row bank : Nat)
  (type : MemAccessType) (arrivalCycle refreshNum : Nat)

instance : Decidable (r.ActChecked c log row bank type arrivalCycle refreshNum) :=
  match isOpened : r.openRow c row bank type arrivalCycle refreshNum with
  | some (opened, some issueCycle, _) =>
    decidable_of_iff (opened.lastActCycle bank = 0 → SpacedAfter c log ⟨bank, issueCycle⟩ ∧
      opened.lastPreCycle bank ≤ issueCycle + c.tRAS) (by rw [MemRank.ActChecked, isOpened])
  | some (_, none, _) => .isTrue (by rw [MemRank.ActChecked, isOpened]; trivial)
  | none => .isTrue (by rw [MemRank.ActChecked, isOpened]; trivial)

instance : Decidable (r.PreChecked c row bank type arrivalCycle refreshNum) :=
  match isOpened : r.openRow c row bank type arrivalCycle refreshNum with
  | some (opened, none, true) =>
    decidable_of_iff (opened.lastPreCycle bank ≤
      max (opened.calcRdWrConst c type arrivalCycle + c.getPreDelay type)
        (opened.lastActCycle bank + c.tRAS)) (by rw [MemRank.PreChecked, isOpened])
  | some (_, none, false) => .isTrue (by rw [MemRank.PreChecked, isOpened]; trivial)
  | some (_, some _, _) => .isTrue (by rw [MemRank.PreChecked, isOpened]; trivial)
  | none => .isTrue (by rw [MemRank.PreChecked, isOpened]; trivial)

end Decide

variable {c : MemParam} {log : List Activation}

/-! ## The log -/

theorem Spaced.le_third (spaced : Spaced c log) {j : Nat} {a : Activation} (late : 3 ≤ j)
    (isEntry : log[j]? = some a) : ∃ third, log[3]? = some third ∧ a.cycle ≤ third.cycle := by
  obtain ⟨bound, isEntry⟩ := List.getElem?_eq_some_iff.mp isEntry
  have small : 3 < log.length := by omega
  refine ⟨log[3], List.getElem?_eq_getElem small, ?_⟩
  rcases Nat.eq_or_lt_of_le late with rfl | later
  · exact Nat.le_of_eq (congrArg Activation.cycle isEntry.symm)
  · have apart := List.pairwise_iff_getElem.mp spaced.rrd 3 j small bound later
    rw [isEntry] at apart
    omega

theorem Spaced.cons (spaced : Spaced c log) {new : Activation} (after : SpacedAfter c log new) :
    Spaced c (new :: log) where
  rrd := List.pairwise_cons.mpr ⟨after.rrd, spaced.rrd⟩
  rc := List.pairwise_cons.mpr ⟨after.rc, spaced.rc⟩
  faw := by
    intro i j later earlier five isLater isEarlier
    obtain ⟨j, rfl⟩ := Nat.exists_eq_succ_of_ne_zero (by omega : j ≠ 0)
    rw [List.getElem?_cons_succ] at isEarlier
    cases i with
    | zero =>
        cases Option.some.inj isLater
        obtain ⟨third, isThird, le⟩ := spaced.le_third (by omega) isEarlier
        have apart := after.faw third isThird
        omega
    | succ i =>
        rw [List.getElem?_cons_succ] at isLater
        exact spaced.faw i j later earlier (by omega) isLater isEarlier

namespace MemRank

variable {r : MemRank}

/-! ## The constraints -/

theorem le_latestActCycle {bankCount bank : Nat} (bound : bank < bankCount) :
    r.lastActCycle bank ≤ r.latestActCycle bankCount := by
  have bounds : ∀ (banks : List Nat) (start : Nat),
      start ≤ banks.foldl (fun latest i => max latest (r.lastActCycle i)) start ∧
      ∀ i ∈ banks, r.lastActCycle i ≤
        banks.foldl (fun latest i => max latest (r.lastActCycle i)) start := by
    intro banks
    induction banks with
    | nil =>
        intro start
        exact ⟨Nat.le_refl _, fun i member => by cases member⟩
    | cons b rest ih =>
        intro start
        obtain ⟨grows, others⟩ := ih (max start (r.lastActCycle b))
        refine ⟨(Nat.le_max_left ..).trans grows, fun i member => ?_⟩
        rcases List.mem_cons.mp member with rfl | later
        · exact (Nat.le_max_right ..).trans grows
        · exact others i later
  exact (bounds (List.range bankCount) 0).2 bank (List.mem_range.mpr bound)

/-- What `CalcActConst` sees to for a bank that has been activated. -/
theorem calcActConst_ge {bank : Nat} (activated : r.lastActCycle bank ≠ 0) (issueCycle : Nat) :
    issueCycle ≤ r.calcActConst c bank issueCycle ∧
      r.lastActCycle bank + c.tRC ≤ r.calcActConst c bank issueCycle ∧
      r.lastPreCycle bank ≤ r.calcActConst c bank issueCycle ∧
      r.latestActCycle c.address.bankCount + c.tRRD ≤ r.calcActConst c bank issueCycle ∧
      r.tFAWCycle r.tFAWIndex + c.tFAW ≤ r.calcActConst c bank issueCycle := by
  unfold calcActConst
  rw [if_neg activated]
  dsimp only
  split
  · omega
  · omega

theorem lastActCycle_le_calcPreConst {bank issueCycle : Nat} {type : MemAccessType} :
    r.lastActCycle bank + c.tRAS ≤ r.calcPreConst c bank type issueCycle :=
  Nat.le_max_right ..

theorem ActInv.fourth (inv : ActInv c r log) :
    r.tFAWCycle r.tFAWIndex = (log[3]?.map Activation.cycle).getD 0 := by
  have index : (r.tFAWIndex + 3 - 3) % 4 = r.tFAWIndex := Nat.mod_eq_of_lt inv.index
  have entry := inv.ring 3 (by decide)
  rwa [index] at entry

theorem ActInv.spacedAfter (inv : ActInv c r log) {bank : Nat}
    (activated : r.lastActCycle bank ≠ 0) (issueCycle : Nat) :
    SpacedAfter c log ⟨bank, r.calcActConst c bank issueCycle⟩ := by
  obtain ⟨-, rc, -, rrd, faw⟩ := calcActConst_ge (c := c) activated issueCycle
  refine ⟨fun a member => ?_, fun a member same => ?_, fun a fourth => ?_⟩
  · obtain ⟨bound, known⟩ := inv.last a member
    have latest := le_latestActCycle (r := r) bound
    dsimp only
    omega
  · obtain ⟨-, known⟩ := inv.last a member
    have same : a.bank = bank := same
    rw [same] at known
    dsimp only
    omega
  · have fourth : log[3]? = some a := fourth
    rw [inv.fourth, fourth] at faw
    exact faw

/-! ## Commands -/

/-- Steps that do not activate keep the invariant if they close banks or leave them alone. -/
theorem ActInv.of_same {r' : MemRank} (inv : ActInv c r log)
    (acts : r'.lastActCycle = r.lastActCycle) (index : r'.tFAWIndex = r.tFAWIndex)
    (ring : r'.tFAWCycle = r.tFAWCycle)
    (banks : ∀ bank, r'.bankinfo bank = true →
      r.bankinfo bank = true ∧ r'.lastPreCycle bank = r.lastPreCycle bank) : ActInv c r' log where
  spaced := inv.spaced
  last := by
    rw [acts]
    exact inv.last
  index := by
    rw [index]
    exact inv.index
  ring := by
    rw [index, ring]
    exact inv.ring
  precharged := by
    intro bank isOpen
    obtain ⟨wasOpen, same⟩ := banks bank isOpen
    rw [same, acts]
    exact inv.precharged bank wasOpen

theorem ActInv.refreshed (inv : ActInv c r log) {arrivalCycle refreshNum : Nat} {r' : MemRank}
    (run : r.refreshed c arrivalCycle = some (r', refreshNum)) : ActInv c r' log := by
  obtain ⟨number, -, run⟩ := Option.bind_eq_some_iff.mp run
  obtain ⟨rank, update, run⟩ := Option.bind_eq_some_iff.mp run
  cases Option.some.inj run
  unfold updateLastRefreshCycle at update
  split at update
  · obtain ⟨-, update⟩ := Option.ite_none_right_eq_some.mp update
    cases Option.some.inj update
    exact inv.of_same rfl rfl rfl fun bank isOpen => by cases isOpen
  · cases Option.some.inj update
    exact inv

theorem calcIntraIssueCycle_rank (rowHit : Bool) (type : MemAccessType)
    (arrivalCycle refreshNum : Nat) :
    ∃ accessInRefresh, (r.calcIntraIssueCycle c rowHit type arrivalCycle refreshNum).1 =
      { r with accessInRefresh := accessInRefresh } := by
  refine ⟨(r.calcIntraIssueCycle c rowHit type arrivalCycle refreshNum).1.accessInRefresh, ?_⟩
  simp only [calcIntraIssueCycle, apply_ite Prod.fst, ite_self]

theorem ActInv.intra (inv : ActInv c r log) (rowHit : Bool) (type : MemAccessType)
    (arrivalCycle refreshNum : Nat) :
    ActInv c (r.calcIntraIssueCycle c rowHit type arrivalCycle refreshNum).1 log := by
  obtain ⟨accessInRefresh, isRank⟩ :=
    calcIntraIssueCycle_rank (c := c) (r := r) rowHit type arrivalCycle refreshNum
  rw [isRank]
  exact inv.of_same rfl rfl rfl fun bank isOpen => ⟨isOpen, rfl⟩

theorem ActInv.issuePrecharge (inv : ActInv c r log) {bank issuedCycle : Nat} {r' : MemRank}
    (run : r.issuePrecharge bank issuedCycle = some r') : ActInv c r' log := by
  obtain ⟨-, run⟩ := Option.ite_none_right_eq_some.mp run
  cases Option.some.inj run
  refine inv.of_same rfl rfl rfl fun other isOpen => ?_
  dsimp only at isOpen ⊢
  by_cases same : other = bank
  · rw [same, Function.update_self] at isOpen
    cases isOpen
  · rw [Function.update_of_ne same] at isOpen ⊢
    exact ⟨isOpen, rfl⟩

theorem ActInv.openRow (inv : ActInv c r log) {row bank arrivalCycle refreshNum : Nat}
    {type : MemAccessType} {opened : MemRank} {issueCycle : Option Nat} {continuous : Bool}
    (run : r.openRow c row bank type arrivalCycle refreshNum =
      some (opened, issueCycle, continuous)) : ActInv c opened log := by
  unfold MemRank.openRow at run
  dsimp only at run
  have intra := inv.intra (r.isRowBufferHit row bank) type arrivalCycle refreshNum
  split at run
  · split at run
    · cases Option.some.inj run
      exact inv
    · split at run
      · obtain ⟨precharged, precharge, run⟩ := Option.bind_eq_some_iff.mp run
        cases Option.some.inj run
        exact intra.issuePrecharge precharge
      · cases Option.some.inj run
        exact intra
  · split at run
    · cases run
    · split at run
      · cases Option.some.inj run
        exact inv
      · cases Option.some.inj run
        exact intra

theorem ActInv.openRow_ne_none (inv : ActInv c r log) (isOpen : c.openRowBufPolicy = true)
    (row bank : Nat) (type : MemAccessType) (arrivalCycle refreshNum : Nat) :
    r.openRow c row bank type arrivalCycle refreshNum ≠ none := by
  have intra := inv.intra (r.isRowBufferHit row bank) type arrivalCycle refreshNum
  unfold MemRank.openRow
  dsimp only
  rw [if_pos isOpen]
  split
  · exact Option.some_ne_none _
  · split
    case isTrue bankOpen =>
      have precharged := intra.precharged bank bankOpen
      unfold MemRank.issuePrecharge
      rw [if_pos (precharged.trans lastActCycle_le_calcPreConst)]
      exact Option.some_ne_none _
    case isFalse => exact Option.some_ne_none _

theorem ActInv.le_calcActConst (inv : ActInv c r log) {bank issueCycle : Nat}
    (checked : r.lastActCycle bank = 0 → SpacedAfter c log ⟨bank, issueCycle⟩ ∧
      r.lastPreCycle bank ≤ issueCycle + c.tRAS) :
    SpacedAfter c log ⟨bank, r.calcActConst c bank issueCycle⟩ ∧
      r.tFAWCycle r.tFAWIndex ≤ r.calcActConst c bank issueCycle ∧
      r.lastActCycle bank ≤ r.calcActConst c bank issueCycle ∧
      r.lastPreCycle bank ≤ r.calcActConst c bank issueCycle + c.tRAS := by
  by_cases never : r.lastActCycle bank = 0
  · obtain ⟨spaced, precharged⟩ := checked never
    have same : r.calcActConst c bank issueCycle = issueCycle := if_pos never
    rw [same, never]
    refine ⟨spaced, ?_, Nat.zero_le _, precharged⟩
    rw [inv.fourth]
    cases fourth : log[3]? with
    | none => exact Nat.zero_le _
    | some a => exact (Nat.le_add_right ..).trans (spaced.faw a fourth)
  · obtain ⟨-, rc, precharged, -, faw⟩ := calcActConst_ge (c := c) never issueCycle
    exact ⟨inv.spacedAfter never issueCycle, by omega, by omega, by omega⟩

theorem ActInv.activate (inv : ActInv c r log) {bank issueCycle : Nat}
    (bound : bank < c.address.bankCount)
    (checked : r.lastActCycle bank = 0 → SpacedAfter c log ⟨bank, issueCycle⟩ ∧
      r.lastPreCycle bank ≤ issueCycle + c.tRAS) :
    ∃ r', r.issueActivate bank (r.calcActConst c bank issueCycle) = some r' ∧
      ActInv c r' (⟨bank, r.calcActConst c bank issueCycle⟩ :: log) ∧ r'.bankinfo bank = true := by
  obtain ⟨spaced, faw, last, precharged⟩ := inv.le_calcActConst checked
  generalize r.calcActConst c bank issueCycle = cycle at *
  refine ⟨_, if_pos ⟨faw, last⟩, ⟨inv.spaced.cons spaced, ?_, ?_, ?_, ?_⟩,
    Function.update_self ..⟩
  · intro a member
    dsimp only
    rcases List.mem_cons.mp member with rfl | old
    · exact ⟨bound, (Function.update_self bank cycle r.lastActCycle).ge⟩
    · obtain ⟨bound, known⟩ := inv.last a old
      refine ⟨bound, ?_⟩
      by_cases same : a.bank = bank
      · rw [same, Function.update_self]
        rw [same] at known
        omega
      · rw [Function.update_of_ne same]
        exact known
  · exact Nat.mod_lt _ (by decide)
  · intro k small
    have index := inv.index
    dsimp only
    cases k with
    | zero =>
        have here : ((r.tFAWIndex + 1) % 4 + 3 - 0) % 4 = r.tFAWIndex := by omega
        rw [here, Function.update_self]
        rfl
    | succ k =>
        have before : ((r.tFAWIndex + 1) % 4 + 3 - (k + 1)) % 4 = (r.tFAWIndex + 3 - k) % 4 := by
          omega
        rw [before, Function.update_of_ne (by omega), List.getElem?_cons_succ]
        exact inv.ring k (by omega)
  · intro other isOpen
    dsimp only at isOpen ⊢
    by_cases same : other = bank
    · rw [same, Function.update_self]
      exact precharged
    · rw [Function.update_of_ne same] at isOpen ⊢
      exact inv.precharged other isOpen

/-! ## One access -/

section Access

variable {row bank arrivalCycle refreshNum : Nat} {type : MemAccessType}

theorem ActInv.calcRdWrStart (inv : ActInv c r log) (bound : bank < c.address.bankCount)
    (act : r.ActChecked c log row bank type arrivalCycle refreshNum)
    (pre : r.PreChecked c row bank type arrivalCycle refreshNum) {activated : MemRank}
    {rdwrStart : Nat}
    (run : r.calcRdWrStart c row bank type arrivalCycle refreshNum = some (activated, rdwrStart)) :
    ActInv c activated ((r.activation c row bank type arrivalCycle refreshNum).toList ++ log) ∧
      (c.openRowBufPolicy = false → activated.lastPreCycle bank ≤
        max (rdwrStart + c.getPreDelay type) (activated.lastActCycle bank + c.tRAS)) := by
  obtain ⟨⟨opened, issueCycle, continuous⟩, openRun, run⟩ := Option.bind_eq_some_iff.mp run
  have openInv := inv.openRow openRun
  cases issueCycle with
  | some issueCycle =>
      rw [ActChecked, openRun] at act
      obtain ⟨r', issue, actInv, isOpen⟩ := openInv.activate bound act
      obtain ⟨rank, issue', run⟩ := Option.bind_eq_some_iff.mp run
      cases Option.some.inj (issue.symm.trans issue')
      obtain ⟨-, run⟩ := Option.ite_none_right_eq_some.mp run
      cases Option.some.inj run
      rw [activation, openRun]
      exact ⟨actInv, fun _ => (actInv.precharged bank isOpen).trans (Nat.le_max_right ..)⟩
  | none =>
      rw [activation, openRun]
      dsimp only at run
      split at run
      case isTrue isContinuous =>
        cases Option.some.inj run
        rw [isContinuous] at openRun
        rw [PreChecked, openRun] at pre
        exact ⟨openInv, fun _ => pre⟩
      case isFalse =>
        obtain ⟨⟨-, isOpen⟩, run⟩ := Option.ite_none_right_eq_some.mp run
        have isRank := congrArg Prod.fst (Option.some.inj run)
        have intra := openInv.intra (r.isRowBufferHit row bank) type arrivalCycle refreshNum
        rw [isRank] at intra
        refine ⟨intra, fun isClosed => ?_⟩
        rw [isOpen] at isClosed
        cases isClosed

theorem ActInv.access (inv : ActInv c r log) {accessCycle issuedCycle : Nat} {accessed : MemRank}
    (run : r.access accessCycle issuedCycle row bank type = some accessed) :
    ActInv c accessed log := by
  obtain ⟨-, run⟩ := Option.ite_none_right_eq_some.mp run
  cases Option.some.inj run
  exact inv.of_same rfl rfl rfl fun bank isOpen => ⟨isOpen, rfl⟩

theorem ActInv.closeRow (inv : ActInv c r log) {rdwrIssueCycle : Nat} {closed : MemRank}
    (run : r.closeRow c bank type rdwrIssueCycle = some closed) : ActInv c closed log := by
  unfold MemRank.closeRow at run
  split at run
  · cases Option.some.inj run
    exact inv
  · exact inv.issuePrecharge run

theorem ActInv.asserts (inv : ActInv c r log) (bound : bank < c.address.bankCount)
    (act : r.ActChecked c log row bank type arrivalCycle refreshNum)
    (pre : r.PreChecked c row bank type arrivalCycle refreshNum) :
    r.Asserts c row bank type arrivalCycle refreshNum where
  precharge isOpen := inv.openRow_ne_none isOpen row bank type arrivalCycle refreshNum
  activate opened issueCycle continuous openRun := by
    rw [ActChecked, openRun] at act
    obtain ⟨r', issue, -⟩ := (inv.openRow openRun).activate bound act
    rw [issue]
    exact Option.some_ne_none r'
  close activated rdwrStart rdwrIssueCycle accessCycle accessed start late access := by
    obtain ⟨-, last⟩ := inv.calcRdWrStart bound act pre start
    obtain ⟨-, access⟩ := Option.ite_none_right_eq_some.mp access
    cases Option.some.inj access
    unfold MemRank.closeRow
    split
    case isTrue => exact Option.some_ne_none _
    case isFalse isClosed =>
      have last := last (Bool.eq_false_iff.mpr isClosed)
      have late : activated.lastPreCycle bank ≤ max (max rdwrIssueCycle
          (Function.update activated.lastRdWrCycle bank rdwrIssueCycle bank + c.getPreDelay type))
          (activated.lastActCycle bank + c.tRAS) := by
        rw [Function.update_self]
        omega
      unfold MemRank.issuePrecharge calcPreConst
      dsimp only
      rw [if_pos late]
      exact Option.some_ne_none _

end Access

end MemRank

theorem bank_lt {m : AddressParam} (banks : 0 < m.bankCount) {myId addr : Nat} {location : Location}
    (mapped : addressMap m myId addr = some location) : location.bank < m.bankCount := by
  obtain ⟨-, mapped⟩ := Option.ite_none_right_eq_some.mp mapped
  obtain ⟨-, mapped⟩ := Option.ite_none_right_eq_some.mp mapped
  cases Option.some.inj mapped
  have small : m.part .bank addr < 2 ^ m.bankWidth :=
    MixedRadix.value_lt (radix_pos m .bank) addr
  have width : 2 ^ m.bankWidth ≤ m.bankCount := Nat.log2_self_le banks.ne'
  rw [mapped_eq]
  exact Nat.lt_of_le_of_lt (Nat.mod_le ..) (Nat.lt_of_lt_of_le small width)

/-! ## Runs -/

/-- A channel and the activations of its ranks, the latest first. -/
structure ActRun where
  chnl : MemChannel
  activations : Nat → List Activation

namespace ActRun

open MemChannel (Access)

def init : ActRun := ⟨MemChannel.init, fun _ => []⟩

def step (c : MemParam) (myId : Nat) (s : ActRun) (a : Access) : Option ActRun := do
  let location ← addressMap c.address myId a.lineAddr
  let (rank, refreshNum) ← (s.chnl.ranks location.rank).refreshed c a.arrivalCycle
  let (chnl, _) ← s.chnl.latencySimulate c myId a.lineAddr a.arrivalCycle a.type
  let new := rank.activation c location.row location.bank a.type a.arrivalCycle refreshNum
  some
    { chnl := chnl
      activations := Function.update s.activations location.rank
        (new.toList ++ s.activations location.rank) }

def machine (c : MemParam) (myId : Nat) : Machine ActRun Access where
  legal _ _ := True
  step := step c myId

/-- What an access does without a check does no harm. -/
def Checked (c : MemParam) (myId : Nat) (s : ActRun) (a : Access) : Prop :=
  ∀ location ∈ addressMap c.address myId a.lineAddr,
    ∀ refreshed ∈ (s.chnl.ranks location.rank).refreshed c a.arrivalCycle,
      refreshed.1.ActChecked c (s.activations location.rank) location.row location.bank a.type
          a.arrivalCycle refreshed.2 ∧
        refreshed.1.PreChecked c location.row location.bank a.type a.arrivalCycle refreshed.2

instance (c : MemParam) (myId : Nat) (s : ActRun) (a : Access) : Decidable (Checked c myId s a) :=
  inferInstanceAs (Decidable (∀ _ ∈ _, ∀ _ ∈ _, _ ∧ _))

/-- The assertions of the commands of an access. -/
def Asserts (c : MemParam) (myId : Nat) (s : ActRun) (a : Access) : Prop :=
  ∀ location rank refreshNum, addressMap c.address myId a.lineAddr = some location →
    (s.chnl.ranks location.rank).refreshed c a.arrivalCycle = some (rank, refreshNum) →
    rank.Asserts c location.row location.bank a.type a.arrivalCycle refreshNum

def Inv (c : MemParam) (s : ActRun) : Prop :=
  ∀ rank, (s.chnl.ranks rank).ActInv c (s.activations rank)

variable {c : MemParam} {myId : Nat}

theorem Inv.init : Inv c init := by
  intro rank
  refine ⟨⟨.nil, .nil, fun i j later earlier _ isEntry => ?_⟩, fun a member => ?_, Nat.succ_pos 3,
    fun k _ => rfl, fun bank isOpen => ?_⟩
  · cases isEntry
  · cases member
  · cases isOpen

theorem Inv.step {s next : ActRun} {a : Access} (inv : Inv c s) (banks : 4 ≤ c.address.bankCount)
    (checked : Checked c myId s a) (run : s.step c myId a = some next) : Inv c next := by
  obtain ⟨location, mapped, run⟩ := Option.bind_eq_some_iff.mp run
  obtain ⟨⟨rank, refreshNum⟩, refreshed, run⟩ := Option.bind_eq_some_iff.mp run
  obtain ⟨⟨chnl, result⟩, simulated, run⟩ := Option.bind_eq_some_iff.mp run
  cases Option.some.inj run
  obtain ⟨act, pre⟩ := checked location mapped (rank, refreshNum) refreshed
  have bound := bank_lt (by omega) mapped
  have rankInv := (inv location.rank).refreshed refreshed
  -- the same steps, as `LatencySimulate` makes them
  obtain ⟨location', mapped', simulated⟩ := Option.bind_eq_some_iff.mp simulated
  cases Option.some.inj (mapped.symm.trans mapped')
  obtain ⟨number, isNumber, simulated⟩ := Option.bind_eq_some_iff.mp simulated
  obtain ⟨rank', isRank, simulated⟩ := Option.bind_eq_some_iff.mp simulated
  rw [MemRank.refreshed, isNumber, Option.bind_eq_bind, Option.bind_some, isRank] at refreshed
  cases Option.some.inj refreshed
  obtain ⟨⟨activated, rdwrStart⟩, start, simulated⟩ := Option.bind_eq_some_iff.mp simulated
  obtain ⟨-, simulated⟩ := Option.ite_none_right_eq_some.mp simulated
  obtain ⟨accessed, access, simulated⟩ := Option.bind_eq_some_iff.mp simulated
  obtain ⟨closed, close, simulated⟩ := Option.bind_eq_some_iff.mp simulated
  cases Option.some.inj simulated
  have closedInv := ((rankInv.calcRdWrStart bound act pre start).1.access access).closeRow close
  intro other
  dsimp only
  by_cases same : other = location.rank
  · rw [same, Function.update_self, Function.update_self]
    exact closedInv
  · rw [Function.update_of_ne same, Function.update_of_ne same]
    exact inv other

/-- In every run whose accesses meet the condition the activations of every rank are spaced as they
should be, and no assertion of the commands fails. -/
theorem activations_spaced (c : MemParam) (banks : 4 ≤ c.address.bankCount) (myId : Nat)
    (accesses : List Access) (final : ActRun)
    (run : (machine c myId).exec accesses init = some final)
    (checked : (machine c myId).Along (Checked c myId) accesses init) :
    (∀ rank, Spaced c (final.activations rank)) ∧
      ∀ a, Checked c myId final a → Asserts c myId final a := by
  have legal : (machine c myId).LegalRun accesses init :=
    Machine.along_of_forall (fun _ _ _ => trivial) init
  have keeps : ∀ s a next, Inv c s → (machine c myId).legal s a → Checked c myId s a →
      (machine c myId).step s a = some next → Inv c next :=
    fun s a next inv _ meets step => inv.step banks meets step
  have inv := Machine.exec_keeps_restrict keeps Inv.init (legal.restrict checked) run
  refine ⟨fun rank => (inv rank).spaced, fun a meets location rank refreshNum mapped refreshed => ?_⟩
  obtain ⟨act, pre⟩ := meets location mapped (rank, refreshNum) refreshed
  exact ((inv location.rank).refreshed refreshed).asserts (bank_lt (by omega) mapped) act pre

/-- One rank of four banks, whose activations are to be 5 cycles apart. -/
def fourBanks : MemParam :=
  { MemChannel.BusRun.twoRanks with
    address :=
      { MemChannel.BusRun.twoRanks.address with
        rankCount := 1
        bankCount := 4
        rankCount_lt := defaultParam.rankCount_lt
        bankCount_lt := by decide }
    tRRD := 5 }

theorem activations_spaced_fourBanks :
    ∃ final, (machine fourBanks 0).exec [⟨0, 100, .read⟩, ⟨8, 101, .read⟩, ⟨1, 120, .write⟩] init =
      some final ∧ ∀ rank, Spaced fourBanks (final.activations rank) := by
  have runs : ((machine fourBanks 0).exec
      [⟨0, 100, .read⟩, ⟨8, 101, .read⟩, ⟨1, 120, .write⟩] init).isSome = true := by
    decide +kernel
  obtain ⟨final, run⟩ := Option.isSome_iff_exists.mp runs
  exact ⟨final, run, (activations_spaced fourBanks (Nat.le_refl 4) 0 _ final run
    (by decide +kernel)).1⟩

/-- The second bank is activated two cycles after the first. -/
theorem activations_too_close :
    ¬ ∀ (c : MemParam), 4 ≤ c.address.bankCount → ∀ (myId : Nat) (accesses : List Access) final,
      (machine c myId).exec accesses init = some final → ∀ rank, Spaced c (final.activations rank) := by
  intro claim
  have issued : ((machine fourBanks 0).exec [⟨0, 100, .read⟩, ⟨1, 100, .read⟩] init).map
      (fun s => s.activations 0) = some [⟨1, 102⟩, ⟨0, 100⟩] := by
    decide +kernel
  obtain ⟨final, run, activations⟩ := Option.map_eq_some_iff.mp issued
  have spaced := claim fourBanks (Nat.le_refl 4) 0 _ final run 0
  rw [activations] at spaced
  have apart := (List.pairwise_cons.mp spaced.rrd).1 ⟨0, 100⟩ List.mem_cons_self
  exact absurd apart (by decide)

end ActRun

end Zsim.DetailedMem
