import Mathlib.Data.List.Count
import Zsim.OOO.Core

/-!
# Runs of the out-of-order core

What a program can rely on, whatever is issued when: a uop finds its operands, accesses wait for
the addresses of the stores before them and for fences, and a load gets what the last store to its
address has written.  And what the core promises to its recorder.
-/

set_option autoImplicit false

namespace Zsim.OOO

/-! ## The order of a program -/

/-- When a register was last written, in a log that begins with the last uop. -/
def lastCommit (r : Nat) : List Executed → Nat
  | [] => 0
  | e :: earlier => if e.uop.rd0 = r ∨ e.uop.rd1 = r then e.commitCycle else lastCommit r earlier

/-- The last store among those that share an entry of the forwarding table. -/
def lastStore (idx : Nat) : List Executed → FwdEntry
  | [] => ⟨noAddr, 0⟩
  | e :: earlier =>
    match e.uop.type, e.mem with
    | .store, some op => if fwdIdx op.addr = idx then ⟨op.addr, e.commitCycle⟩ else lastStore idx earlier
    | _, _ => lastStore idx earlier

def UopType.isAccess : UopType → Bool
  | .load | .store => true
  | _ => false

/-- Its address has to be known before any later access. -/
def UopType.isBarrier : UopType → Bool
  | .storeAddr | .fence => true
  | _ => false

/-- What a uop owes to the uops before it, the last one first. -/
structure Executed.After (e : Executed) (earlier : List Executed) : Prop where
  operands : ∀ r, r ≠ 0 → r = e.uop.rs0 ∨ r = e.uop.rs1 → lastCommit r earlier ≤ e.dispatchCycle
  issue : ∀ f ∈ earlier, f.issueCycle ≤ e.issueCycle
  pipeline : e.issueCycle ≤ e.dispatchCycle ∧ e.dispatchCycle ≤ e.commitCycle
  barriers : e.uop.type.isAccess → ∀ f ∈ earlier, f.uop.type.isBarrier → f.commitCycle < e.dispatchCycle
  fences : e.uop.type.isAccess → ∀ later fence before, earlier = later ++ fence :: before →
    fence.uop.type = .fence → ∀ f ∈ before, f.uop.type = .store → f.commitCycle < e.dispatchCycle
  forwarding : e.uop.type = .load → ∀ op ∈ e.mem, (lastStore (fwdIdx op.addr) earlier).addr = op.addr →
    (lastStore (fwdIdx op.addr) earlier).storeCycle ≤ e.commitCycle

/-- Every uop of a log is as the ones before it allow. -/
def InOrder : List Executed → Prop
  | [] => True
  | e :: earlier => e.After earlier ∧ InOrder earlier

/-- How many uops were issued in a cycle. -/
def issuedIn (log : List Executed) (c : Nat) : Nat := log.countP fun e => e.issueCycle = c

def Recorded.Proper (r : Recorded) : Prop :=
  r.curCycle ≤ r.dispatchCycle ∧ r.dispatchCycle ≤ r.tr.reqCycle ∧ r.tr.reqCycle ≤ r.tr.respCycle ∧
    r.tr.respCycle ≤ r.respCycle

def Told (recorded : List Recorded) (cycle : Nat) : Prop :=
  recorded.Pairwise (fun later earlier => earlier.curCycle ≤ later.curCycle) ∧
    ∀ r ∈ recorded, r.Proper ∧ r.curCycle ≤ cycle

theorem Told.mono {recorded : List Recorded} {cycle cycle' : Nat} (told : Told recorded cycle)
    (later : cycle ≤ cycle') : Told recorded cycle' :=
  ⟨told.1, fun r member => ⟨(told.2 r member).1, (told.2 r member).2.trans later⟩⟩

theorem Told.append {recorded new : List Recorded} {cycle : Nat} (told : Told recorded cycle)
    (proper : ∀ r ∈ new, r.Proper ∧ r.curCycle = cycle) : Told (new ++ recorded) cycle := by
  obtain ⟨sorted, before⟩ := told
  refine ⟨List.pairwise_append.mpr ⟨?_, sorted, fun r member r' member' => ?_⟩, fun r member => ?_⟩
  · refine List.pairwise_of_forall_mem_list fun r member r' member' => ?_
    rw [(proper r member).2, (proper r' member').2]
  · rw [(proper r member).2]
    exact (before r' member').2
  · rcases List.mem_append.mp member with member | member
    · exact ⟨(proper r member).1, le_of_eq (proper r member).2⟩
    · exact before r member

namespace Core

variable {ω κ : Type}

structure Inv (W : Window ω) (Ok : ω → Prop) (s : Core ω κ) : Prop where
  ok : Ok s.insWindow
  prev : ∀ info ∈ s.prevBbl, ∀ uop ∈ info.uop, uop.portMask ≠ 0
  order : InOrder s.log
  operands : ∀ r, r ≠ 0 → s.regScoreboard r = lastCommit r s.log
  issued : ∀ e ∈ s.log, e.issueCycle ≤ s.curCycle W
  barriers : ∀ e ∈ s.log, e.uop.type.isBarrier → e.commitCycle ≤ s.lastStoreAddrCommitCycle
  stores : ∀ e ∈ s.log, e.uop.type = .store → e.commitCycle ≤ s.lastStoreCommitCycle
  fences : ∀ later fence before, s.log = later ++ fence :: before → fence.uop.type = .fence →
    ∀ e ∈ before, e.uop.type = .store → e.commitCycle ≤ s.lastStoreAddrCommitCycle
  forwarding : ∀ idx, s.fwdArray idx = lastStore idx s.log
  width : (∀ e ∈ s.log, e.decodeAhead < 2 ^ 32) →
    (∀ c, issuedIn s.log c ≤ issuesPerCycle + 1) ∧
      issuedIn s.log (s.curCycle W) ≤ s.curCycleIssuedUops + 1
  counts : s.curCycleIssuedUops ≤ issuesPerCycle ∧ s.curCycleRFReads ≤ rfReadsPerCycle
  decode : decodeStage ≤ s.decodeCycle
  recorded : Told s.recorded (s.curCycle W)

variable {W : Window ω} {C : Caches κ} {Ok : ω → Prop}

theorem inv_init {insWindow : ω} {caches : κ} (ok : Ok insWindow) : Inv W Ok (init insWindow caches) where
  ok := ok
  prev := nofun
  order := trivial
  operands _ _ := rfl
  issued := nofun
  barriers := nofun
  stores := nofun
  fences later fence before split := by simp [init] at split
  forwarding _ := rfl
  width _ := ⟨fun _ => Nat.zero_le _, Nat.zero_le _⟩
  counts := ⟨Nat.zero_le _, Nat.zero_le _⟩
  decode := le_refl _
  recorded := ⟨.nil, nofun⟩

/-- What leaves the uops alone: only the caches, the recorder and the frontend go on. -/
structure Keeps (W : Window ω) (s s' : Core ω κ) : Prop where
  insWindow : s'.insWindow = s.insWindow
  regScoreboard : s'.regScoreboard = s.regScoreboard
  lastStore : s'.lastStoreCommitCycle = s.lastStoreCommitCycle
  lastStoreAddr : s'.lastStoreAddrCommitCycle = s.lastStoreAddrCommitCycle
  counts : s'.curCycleIssuedUops = s.curCycleIssuedUops ∧ s'.curCycleRFReads = s.curCycleRFReads
  fwdArray : s'.fwdArray = s.fwdArray
  log : s'.log = s.log
  decode : s.decodeCycle ≤ s'.decodeCycle
  recorded : ∃ new, s'.recorded = new ++ s.recorded ∧ ∀ r ∈ new, r.Proper ∧ r.curCycle = s.curCycle W

theorem Keeps.refl (s : Core ω κ) : Keeps W s s :=
  ⟨rfl, rfl, rfl, rfl, ⟨rfl, rfl⟩, rfl, rfl, le_refl _, [], rfl, nofun⟩

theorem Keeps.cycle {s s' : Core ω κ} (keeps : Keeps W s s') : s'.curCycle W = s.curCycle W :=
  congrArg W.curCycle keeps.insWindow

theorem Keeps.trans {s mid s' : Core ω κ} (first : Keeps W s mid) (second : Keeps W mid s') :
    Keeps W s s' where
  insWindow := second.insWindow.trans first.insWindow
  regScoreboard := second.regScoreboard.trans first.regScoreboard
  lastStore := second.lastStore.trans first.lastStore
  lastStoreAddr := second.lastStoreAddr.trans first.lastStoreAddr
  counts := ⟨second.counts.1.trans first.counts.1, second.counts.2.trans first.counts.2⟩
  fwdArray := second.fwdArray.trans first.fwdArray
  log := second.log.trans first.log
  decode := first.decode.trans second.decode
  recorded := by
    obtain ⟨new, split, proper⟩ := first.recorded
    obtain ⟨more, split', proper'⟩ := second.recorded
    refine ⟨more ++ new, by rw [split', split, List.append_assoc], fun r member => ?_⟩
    rcases List.mem_append.mp member with member | member
    · rw [← first.cycle]
      exact proper' r member
    · exact proper r member

/-- The clock goes on, and the recorder is told of later accesses only. -/
structure Tells (W : Window ω) (s s' : Core ω κ) : Prop where
  cycle : s.curCycle W ≤ s'.curCycle W
  recorded : ∃ new, s'.recorded = new ++ s.recorded ∧ ∀ r ∈ new, s.curCycle W ≤ r.curCycle

theorem Tells.trans {s mid s' : Core ω κ} (first : Tells W s mid) (second : Tells W mid s') :
    Tells W s s' where
  cycle := first.cycle.trans second.cycle
  recorded := by
    obtain ⟨new, split, later⟩ := first.recorded
    obtain ⟨more, split', later'⟩ := second.recorded
    refine ⟨more ++ new, by rw [split', split, List.append_assoc], fun r member => ?_⟩
    rcases List.mem_append.mp member with member | member
    · exact first.cycle.trans (later' r member)
    · exact later r member

theorem Keeps.tells {s s' : Core ω κ} (keeps : Keeps W s s') : Tells W s s' := by
  obtain ⟨new, split, proper⟩ := keeps.recorded
  exact ⟨keeps.cycle.ge, new, split, fun r member => (proper r member).2.ge⟩

theorem Inv.keeps {s s' : Core ω κ} (inv : Inv W Ok s) (keeps : Keeps W s s')
    (prev : ∀ info ∈ s'.prevBbl, ∀ uop ∈ info.uop, uop.portMask ≠ 0) : Inv W Ok s' where
  ok := keeps.insWindow ▸ inv.ok
  prev := prev
  order := keeps.log ▸ inv.order
  operands r valid := by
    rw [keeps.regScoreboard, keeps.log]
    exact inv.operands r valid
  issued := by
    rw [keeps.log, keeps.cycle]
    exact inv.issued
  barriers := by
    rw [keeps.log, keeps.lastStoreAddr]
    exact inv.barriers
  stores := by
    rw [keeps.log, keeps.lastStore]
    exact inv.stores
  fences := by
    rw [keeps.log, keeps.lastStoreAddr]
    exact inv.fences
  forwarding := by
    rw [keeps.log, keeps.fwdArray]
    exact inv.forwarding
  width := by
    rw [keeps.log, keeps.cycle, keeps.counts.1]
    exact inv.width
  counts := by
    rw [keeps.counts.1, keeps.counts.2]
    exact inv.counts
  decode := inv.decode.trans keeps.decode
  recorded := by
    obtain ⟨new, split, proper⟩ := keeps.recorded
    rw [split, keeps.cycle]
    exact inv.recorded.append proper

/-! ## An access -/

section
variable (W : Window ω) (C : Caches κ)

theorem record_spec (s : Core ω κ) {dispatchCycle respCycle : Nat} {record : Option Recorder.TimingRecord}
    (proper : ∀ tr ∈ record, Recorded.Proper ⟨s.curCycle W, dispatchCycle, respCycle, tr⟩) :
    Keeps W s (s.record W dispatchCycle respCycle record) ∧
      (s.record W dispatchCycle respCycle record).prevBbl = s.prevBbl := by
  cases record with
  | none => exact ⟨.refl s, rfl⟩
  | some tr =>
      refine ⟨⟨rfl, rfl, rfl, rfl, ⟨rfl, rfl⟩, rfl, rfl, le_refl _, [_], rfl, fun r member => ?_⟩, rfl⟩
      cases List.mem_singleton.mp member
      exact ⟨proper tr rfl, rfl⟩

theorem request_spec (s : Core ω κ) (type : Access) (op : MemOp) {dispatchCycle : Nat} (lat : Nat)
    (now : s.curCycle W ≤ dispatchCycle) :
    Keeps W s (s.request W C type op dispatchCycle lat).1 ∧
      dispatchCycle + lat ≤ (s.request W C type op dispatchCycle lat).2 ∧
      (s.request W C type op dispatchCycle lat).1.prevBbl = s.prevBbl := by
  have avail := C.le_avail s.caches type op.addr dispatchCycle op.pc
  have proper : ∀ tr ∈ (s.ask C type op dispatchCycle).2.record, Recorded.Proper
      ⟨s.curCycle W, dispatchCycle, (s.ask C type op dispatchCycle).2.availCycle + lat, tr⟩ := by
    intro tr left
    obtain ⟨req, resp, within⟩ := C.record_within s.caches type op.addr dispatchCycle op.pc tr left
    exact ⟨now, req, resp, within.trans (Nat.le_add_right _ _)⟩
  obtain ⟨keeps, prev⟩ := record_spec W { s with caches := (s.ask C type op dispatchCycle).1 } proper
  have asked : Keeps W s { s with caches := (s.ask C type op dispatchCycle).1 } :=
    ⟨rfl, rfl, rfl, rfl, ⟨rfl, rfl⟩, rfl, rfl, le_refl _, [], rfl, nofun⟩
  exact ⟨asked.trans keeps, Nat.add_le_add_right avail lat, prev⟩

/-! ## The frontend -/

theorem fetch_spec (s : Core ω κ) (addr : Nat) :
    Keeps W s (s.fetch W C addr).1 ∧ (s.fetch W C addr).1.prevBbl = s.prevBbl := by
  obtain ⟨keeps, -, prev⟩ := request_spec W C s .fetch ⟨addr, addr⟩ 0 (le_refl (s.curCycle W))
  exact ⟨keeps, prev⟩

variable (lineSize : Nat)

theorem fetchWrongPath_spec (lastCommitCycle left addr reqCycle : Nat) (s : Core ω κ) :
    Keeps W s (s.fetchWrongPath W C lineSize lastCommitCycle left addr reqCycle) ∧
      (s.fetchWrongPath W C lineSize lastCommitCycle left addr reqCycle).prevBbl = s.prevBbl := by
  induction left generalizing addr reqCycle s with
  | zero => exact ⟨.refl s, rfl⟩
  | succ left ih =>
      obtain ⟨first, prev⟩ := fetch_spec W C s addr
      rw [fetchWrongPath]
      dsimp only
      split
      · exact ⟨first, prev⟩
      · obtain ⟨later, prev'⟩ := ih (addr + lineSize) _ (s.fetch W C addr).1
        exact ⟨first.trans later, prev'.trans prev⟩

theorem fetchLines_spec (left addr fetchCycle : Nat) (s : Core ω κ) :
    Keeps W s (s.fetchLines W C lineSize left addr fetchCycle).1 ∧
      (s.fetchLines W C lineSize left addr fetchCycle).1.prevBbl = s.prevBbl := by
  induction left generalizing addr fetchCycle s with
  | zero => exact ⟨.refl s, rfl⟩
  | succ left ih =>
      obtain ⟨first, prev⟩ := fetch_spec W C s addr
      obtain ⟨later, prev'⟩ := ih (addr + lineSize) (fetchCycle + (s.fetch W C addr).2) (s.fetch W C addr).1
      exact ⟨first.trans later, prev'.trans prev⟩

theorem resolveBranch_spec (lastCommitCycle fetchCycle : Nat) (s : Core ω κ) :
    Keeps W s (s.resolveBranch W C lineSize lastCommitCycle fetchCycle).1 ∧
      (s.resolveBranch W C lineSize lastCommitCycle fetchCycle).1.prevBbl = s.prevBbl := by
  have same : Keeps W s s := .refl s
  unfold resolveBranch
  split
  · exact ⟨same, rfl⟩
  · dsimp only
    split
    · exact ⟨⟨rfl, rfl, rfl, rfl, ⟨rfl, rfl⟩, rfl, rfl, le_refl _, [], rfl, nofun⟩, rfl⟩
    · obtain ⟨keeps, prev⟩ := fetchWrongPath_spec W C lineSize lastCommitCycle (5 * 64 / lineSize)
        (if s.branchTaken then s.branchNotTakenNpc else s.branchTakenNpc) fetchCycle _
      refine ⟨Keeps.trans ?_ keeps, prev⟩
      exact ⟨rfl, rfl, rfl, rfl, ⟨rfl, rfl⟩, rfl, rfl, le_refl _, [], rfl, nofun⟩

theorem frontend_spec (bblAddr bytes lastCommitCycle : Nat) (s : Core ω κ) :
    Keeps W s (s.frontend W C lineSize bblAddr bytes lastCommitCycle) ∧
      (s.frontend W C lineSize bblAddr bytes lastCommitCycle).prevBbl = s.prevBbl := by
  obtain ⟨first, prev⟩ := resolveBranch_spec W C lineSize lastCommitCycle
    (s.decodeCycle - (decodeStage - fetchStage)) s
  have second (s : Core ω κ) : Keeps W s { s with branchPc := 0 } :=
    ⟨rfl, rfl, rfl, rfl, ⟨rfl, rfl⟩, rfl, rfl, le_refl _, [], rfl, nofun⟩
  have fourth (s : Core ω κ) (fetchCycle : Nat) :
      Keeps W s { s with decodeCycle := max (s.decodeCycle + 1) (fetchCycle + (decodeStage - fetchStage)) } :=
    ⟨rfl, rfl, rfl, rfl, ⟨rfl, rfl⟩, rfl, rfl, (Nat.le_succ _).trans (Nat.le_max_left _ _), [], rfl, nofun⟩
  unfold frontend
  obtain ⟨third, prev'⟩ := fetchLines_spec W C lineSize ((bytes + lineSize - 1) / lineSize) bblAddr _
    { (s.resolveBranch W C lineSize lastCommitCycle (s.decodeCycle - (decodeStage - fetchStage))).1 with
      branchPc := 0 }
  exact ⟨((first.trans (second _)).trans third).trans (fourth _ _), prev'.trans prev⟩

end

/-! ## A uop -/

/-- The forwarding table after a uop. -/
def storedBy (type : UopType) (mem : Option MemOp) (commitCycle : Nat) (fwdArray : Nat → FwdEntry) :
    Nat → FwdEntry :=
  match type, mem with
  | .store, some op => Function.update fwdArray (fwdIdx op.addr) ⟨op.addr, commitCycle⟩
  | _, _ => fwdArray

theorem storedBy_of_ne {type : UopType} (other : type ≠ .store) (mem : Option MemOp) (commitCycle : Nat)
    (fwdArray : Nat → FwdEntry) : storedBy type mem commitCycle fwdArray = fwdArray := by
  cases type with
  | store => exact absurd rfl other
  | _ => rfl

theorem lastStore_cons (e : Executed) (earlier : List Executed) (idx : Nat) :
    lastStore idx (e :: earlier) =
      storedBy e.uop.type e.mem e.commitCycle (fun idx => lastStore idx earlier) idx := by
  by_cases type : e.uop.type = .store
  · cases mem : e.mem with
    | none => simp [lastStore, storedBy, type, mem]
    | some op => simp [lastStore, storedBy, type, mem, Function.update_apply, eq_comm]
  · rw [storedBy_of_ne type, lastStore]
    split
    · contradiction
    · rfl

/-- The execution of a uop, which leaves the window and the log alone. -/
structure Executes (W : Window ω) (s s' : Core ω κ) (uop : DynUop) (mem : Option MemOp)
    (dispatchCycle commitCycle : Nat) : Prop where
  insWindow : s'.insWindow = s.insWindow
  prev : s'.prevBbl = s.prevBbl
  regScoreboard : s'.regScoreboard = s.regScoreboard
  counts : s'.curCycleIssuedUops = s.curCycleIssuedUops ∧ s'.curCycleRFReads = s.curCycleRFReads
  log : s'.log = s.log
  decode : s.decodeCycle ≤ s'.decodeCycle
  recorded : ∃ new, s'.recorded = new ++ s.recorded ∧ ∀ r ∈ new, r.Proper ∧ r.curCycle = s.curCycle W
  commit : dispatchCycle ≤ commitCycle
  waits : uop.type.isAccess → s.lastStoreAddrCommitCycle < dispatchCycle
  barrier : s.lastStoreAddrCommitCycle ≤ s'.lastStoreAddrCommitCycle ∧
    (uop.type.isBarrier → commitCycle ≤ s'.lastStoreAddrCommitCycle) ∧
    (uop.type = .fence → s.lastStoreCommitCycle ≤ s'.lastStoreAddrCommitCycle)
  store : s.lastStoreCommitCycle ≤ s'.lastStoreCommitCycle ∧
    (uop.type = .store → commitCycle ≤ s'.lastStoreCommitCycle)
  forwards : uop.type = .load → ∀ op ∈ mem, (s.fwdArray (fwdIdx op.addr)).addr = op.addr →
    (s.fwdArray (fwdIdx op.addr)).storeCycle ≤ commitCycle
  fwdArray : s'.fwdArray = storedBy uop.type mem commitCycle s.fwdArray

theorem executes_of_none {uop : DynUop} {dispatchCycle lastStoreAddr : Nat} (s : Core ω κ)
    (plain : uop.type.isAccess = false) (later : s.lastStoreAddrCommitCycle ≤ lastStoreAddr)
    (barrier : uop.type.isBarrier → dispatchCycle + uop.lat ≤ lastStoreAddr)
    (fence : uop.type = .fence → s.lastStoreCommitCycle ≤ lastStoreAddr) :
    Executes W s { s with lastStoreAddrCommitCycle := lastStoreAddr } uop none dispatchCycle
      (dispatchCycle + uop.lat) where
  insWindow := rfl
  prev := rfl
  regScoreboard := rfl
  counts := ⟨rfl, rfl⟩
  log := rfl
  decode := le_refl _
  recorded := ⟨[], rfl, nofun⟩
  commit := Nat.le_add_right _ _
  waits access := by simp [plain] at access
  barrier := ⟨later, barrier, fence⟩
  store := ⟨le_refl _, fun isStore => by simp [isStore, UopType.isAccess] at plain⟩
  forwards _ := nofun
  fwdArray := by
    have other : uop.type ≠ .store := fun isStore => by simp [isStore, UopType.isAccess] at plain
    rw [storedBy_of_ne other]

theorem Executes.of_pending {s s' : Core ω κ} (loads stores : List MemOp) {uop : DynUop} {mem : Option MemOp}
    {dispatchCycle commitCycle : Nat}
    (run : Executes W { s with loads := loads, stores := stores } s' uop mem dispatchCycle commitCycle) :
    Executes W s s' uop mem dispatchCycle commitCycle :=
  ⟨run.insWindow, run.prev, run.regScoreboard, run.counts, run.log, run.decode, run.recorded, run.commit,
    run.waits, run.barrier, run.store, run.forwards, run.fwdArray⟩

theorem le_accessFrom (s : Core ω κ) (queue : ReorderBuffer) (dispatchCycle : Nat) :
    s.lastStoreAddrCommitCycle < s.accessFrom queue dispatchCycle ∧
      dispatchCycle ≤ s.accessFrom queue dispatchCycle := by
  unfold accessFrom
  omega

theorem executeLoad_spec {uop : DynUop} (s : Core ω κ) (op : MemOp) {dispatchCycle : Nat}
    (type : uop.type = .load) (now : s.curCycle W ≤ dispatchCycle)
    (waits : s.lastStoreAddrCommitCycle < dispatchCycle) :
    Executes W s (s.executeLoad W C op dispatchCycle).1 uop (some op) dispatchCycle
      (s.executeLoad W C op dispatchCycle).2 := by
  have satisfied : ∃ mid reqSatisfiedCycle,
      (if op.addr ≠ noAddr then s.request W C .load op dispatchCycle l1dLat else (s, dispatchCycle)) =
        (mid, reqSatisfiedCycle) ∧
      Keeps W s mid ∧ mid.prevBbl = s.prevBbl ∧ dispatchCycle ≤ reqSatisfiedCycle := by
    split
    · obtain ⟨keeps, le, prev⟩ := request_spec W C s .load op l1dLat now
      exact ⟨_, _, rfl, keeps, prev, (Nat.le_add_right _ _).trans le⟩
    · exact ⟨_, _, rfl, .refl s, rfl, le_refl _⟩
  obtain ⟨mid, reqSatisfiedCycle, run, keeps, prev, le⟩ := satisfied
  have le' : reqSatisfiedCycle ≤ mid.forward op.addr reqSatisfiedCycle := by
    unfold forward
    dsimp only
    split
    · exact Nat.le_max_left _ _
    · exact le_refl _
  unfold executeLoad
  rw [run]
  exact
    { insWindow := keeps.insWindow
      prev := prev
      regScoreboard := keeps.regScoreboard
      counts := keeps.counts
      log := keeps.log
      decode := keeps.decode
      recorded := keeps.recorded
      commit := le.trans le'
      waits := fun _ => waits
      barrier := ⟨le_of_eq keeps.lastStoreAddr.symm, by simp [type, UopType.isBarrier], by simp [type]⟩
      store := ⟨le_of_eq keeps.lastStore.symm, by simp [type]⟩
      forwards := by
        intro _ op' same forwards
        cases Option.some.inj same
        rw [← keeps.fwdArray] at forwards ⊢
        unfold forward
        dsimp only
        rw [if_pos forwards]
        exact Nat.le_max_right _ _
      fwdArray := by
        rw [storedBy_of_ne (by simp [type])]
        exact keeps.fwdArray }

theorem executeStore_spec {uop : DynUop} (s : Core ω κ) (op : MemOp) {dispatchCycle : Nat}
    (type : uop.type = .store) (now : s.curCycle W ≤ dispatchCycle)
    (waits : s.lastStoreAddrCommitCycle < dispatchCycle) :
    Executes W s (s.executeStore W C op dispatchCycle).1 uop (some op) dispatchCycle
      (s.executeStore W C op dispatchCycle).2 := by
  obtain ⟨keeps, le, prev⟩ := request_spec W C s .store op l1dLat now
  exact
    { insWindow := keeps.insWindow
      prev := prev
      regScoreboard := keeps.regScoreboard
      counts := keeps.counts
      log := keeps.log
      decode := keeps.decode
      recorded := keeps.recorded
      commit := (Nat.le_add_right _ _).trans le
      waits := fun _ => waits
      barrier := ⟨le_of_eq keeps.lastStoreAddr.symm, by simp [type, UopType.isBarrier], by simp [type]⟩
      store := by
        refine ⟨?_, fun _ => Nat.le_max_right _ _⟩
        exact (le_of_eq keeps.lastStore.symm).trans (Nat.le_max_left _ _)
      forwards := by simp [type]
      fwdArray := by
        rw [type, ← keeps.fwdArray]
        rfl }

theorem execute_spec {uop : DynUop} {dispatchCycle dispatchCycle' commitCycle : Nat} {s s' : Core ω κ}
    {mem : Option MemOp} (run : s.execute W C uop dispatchCycle = some (s', dispatchCycle', mem, commitCycle))
    (now : s.curCycle W ≤ dispatchCycle) :
    dispatchCycle ≤ dispatchCycle' ∧ Executes W s s' uop mem dispatchCycle' commitCycle := by
  cases type : uop.type with
  | general =>
      simp only [execute, type] at run
      cases run
      exact ⟨le_refl _, executes_of_none s (by rw [type]; rfl) (le_refl _) (by simp [type, UopType.isBarrier])
        (by simp [type])⟩
  | storeAddr =>
      simp only [execute, type] at run
      cases run
      exact ⟨le_refl _, executes_of_none s (by rw [type]; rfl) (Nat.le_max_left _ _)
        (fun _ => Nat.le_max_right _ _) (by simp [type])⟩
  | fence =>
      simp only [execute, type] at run
      cases run
      refine ⟨le_refl _, executes_of_none s (by rw [type]; rfl) ?_ (fun _ => Nat.le_max_left _ _) fun _ => ?_⟩
      · omega
      · omega
  | load =>
      simp only [execute, type] at run
      cases pending : s.loads with
      | nil =>
          rw [pending] at run
          cases run
      | cons op loads =>
          rw [pending] at run
          cases run
          obtain ⟨waits, le⟩ := le_accessFrom s s.loadQueue dispatchCycle
          exact ⟨le, .of_pending loads s.stores
            (executeLoad_spec { s with loads := loads } op type (now.trans le) waits)⟩
  | store =>
      simp only [execute, type] at run
      cases pending : s.stores with
      | nil =>
          rw [pending] at run
          cases run
      | cons op stores =>
          rw [pending] at run
          cases run
          obtain ⟨waits, le⟩ := le_accessFrom s s.storeQueue dispatchCycle
          exact ⟨le, .of_pending s.loads stores
            (executeStore_spec { s with stores := stores } op type (now.trans le) waits)⟩

/-! ## A round -/

/-- What the uops before have left behind, which the issue of one more does not change. -/
structure Untouched (s issued : Core ω κ) : Prop where
  lastStore : issued.lastStoreCommitCycle = s.lastStoreCommitCycle
  lastStoreAddr : issued.lastStoreAddrCommitCycle = s.lastStoreAddrCommitCycle
  fwdArray : issued.fwdArray = s.fwdArray
  log : issued.log = s.log
  recorded : issued.recorded = s.recorded
  prevBbl : issued.prevBbl = s.prevBbl

theorem Issues.untouched {s issued : Core ω κ} (issues : Issues W Ok s issued) : Untouched s issued := by
  have same {α : Type} (part : Core Unit κ → α) : part issued.backend = part s.backend :=
    congrArg part issues.backend
  exact
    { lastStore := same Core.lastStoreCommitCycle
      lastStoreAddr := same Core.lastStoreAddrCommitCycle
      fwdArray := same Core.fwdArray
      log := same Core.log
      recorded := same Core.recorded
      prevBbl := same Core.prevBbl }

section
variable {s issued done : Core ω κ} {e : Executed}
variable (inv : Inv W Ok s) (issues : Issues W Ok s issued)
variable (executes : Executes W issued done e.uop e.mem e.dispatchCycle e.commitCycle)
include inv issues executes

theorem after_of_executes {scheduled : Nat}
    (operands : ∀ r, r ≠ 0 → r = e.uop.rs0 ∨ r = e.uop.rs1 → s.regScoreboard r ≤ scheduled)
    (issue : e.issueCycle = issued.curCycle W) (now : issued.curCycle W ≤ scheduled)
    (later : scheduled ≤ e.dispatchCycle) : e.After s.log := by
  have waits := executes.waits
  have forwards := executes.forwards
  rw [issues.untouched.lastStoreAddr] at waits
  rw [issues.untouched.fwdArray] at forwards
  exact
    { operands := fun r valid source => by
        rw [← inv.operands r valid]
        exact (operands r valid source).trans later
      issue := fun f member => by
        rw [issue]
        exact (inv.issued f member).trans issues.cycle
      pipeline := ⟨issue ▸ now.trans later, executes.commit⟩
      barriers := fun access f member barrier => (inv.barriers f member barrier).trans_lt (waits access)
      fences := fun access later fence before split isFence f member store =>
        (inv.fences later fence before split isFence f member store).trans_lt (waits access)
      forwarding := fun load op member => by
        rw [← inv.forwarding]
        exact forwards load op member }

theorem barriers_of_executes :
    ∀ f ∈ e :: s.log, f.uop.type.isBarrier → f.commitCycle ≤ done.lastStoreAddrCommitCycle := by
  intro f member barrier
  rcases List.mem_cons.mp member with rfl | member
  · exact executes.barrier.2.1 barrier
  · have before := inv.barriers f member barrier
    rw [← issues.untouched.lastStoreAddr] at before
    exact before.trans executes.barrier.1

theorem stores_of_executes :
    ∀ f ∈ e :: s.log, f.uop.type = .store → f.commitCycle ≤ done.lastStoreCommitCycle := by
  intro f member store
  rcases List.mem_cons.mp member with rfl | member
  · exact executes.store.2 store
  · have before := inv.stores f member store
    rw [← issues.untouched.lastStore] at before
    exact before.trans executes.store.1

theorem fences_of_executes :
    ∀ later fence before, e :: s.log = later ++ fence :: before → fence.uop.type = .fence →
      ∀ f ∈ before, f.uop.type = .store → f.commitCycle ≤ done.lastStoreAddrCommitCycle := by
  intro later fence before split isFence f member store
  cases later with
  | nil =>
      obtain ⟨rfl, rfl⟩ := List.cons.inj split
      have before := inv.stores f member store
      rw [← issues.untouched.lastStore] at before
      exact before.trans (executes.barrier.2.2 isFence)
  | cons _ later =>
      have before := inv.fences later fence before (List.cons.inj split).2 isFence f member store
      rw [← issues.untouched.lastStoreAddr] at before
      exact before.trans executes.barrier.1

omit issues executes in
theorem width_of_issues (issue : e.issueCycle = issued.curCycle W)
    (counts : e.decodeAhead < 2 ^ 32 →
      issued.curCycle W = s.curCycle W ∧ s.curCycleIssuedUops < issuesPerCycle ∧
          issued.curCycleIssuedUops = s.curCycleIssuedUops + 1 ∨
        s.curCycle W < issued.curCycle W ∧ issued.curCycleIssuedUops ≤ 1)
    (near : ∀ f ∈ e :: s.log, f.decodeAhead < 2 ^ 32) :
    (∀ c, issuedIn (e :: s.log) c ≤ issuesPerCycle + 1) ∧
      issuedIn (e :: s.log) (issued.curCycle W) ≤ issued.curCycleIssuedUops + 1 := by
  obtain ⟨all, current⟩ := inv.width fun f member => near f (List.mem_cons_of_mem e member)
  have one (c : Nat) : issuedIn (e :: s.log) c =
      issuedIn s.log c + if issued.curCycle W = c then 1 else 0 := by
    simp [issuedIn, List.countP_cons, issue]
  have bound : issuedIn (e :: s.log) (issued.curCycle W) ≤ issued.curCycleIssuedUops + 1 ∧
      issuedIn (e :: s.log) (issued.curCycle W) ≤ issuesPerCycle + 1 := by
    rw [one, if_pos rfl]
    rcases counts (near e List.mem_cons_self) with ⟨same, room, more⟩ | ⟨later, few⟩
    · rw [← same] at current
      omega
    · have none : issuedIn s.log (issued.curCycle W) = 0 := by
        refine List.countP_eq_zero.mpr fun f member => ?_
        have before := inv.issued f member
        simp
        omega
      omega
  refine ⟨fun c => ?_, bound.1⟩
  by_cases now : issued.curCycle W = c
  · rw [← now]
    exact bound.2
  · rw [one, if_neg now]
    exact all c

omit issues executes in
theorem operands_of_retire (same : done.regScoreboard = issued.regScoreboard)
    (scoreboard : ∀ r, r ≠ 0 → issued.regScoreboard r = s.regScoreboard r) (r : Nat) (valid : r ≠ 0) :
    (done.retire e.uop e.commitCycle).regScoreboard r = lastCommit r (e :: s.log) := by
  have before : done.regScoreboard r = lastCommit r s.log := by
    rw [same, scoreboard r valid, inv.operands r valid]
  simp only [retire, lastCommit, Function.update_apply, before]
  by_cases second : r = e.uop.rd1
  · simp [second]
  · by_cases first : r = e.uop.rd0
    · simp [first]
    · simp [first, second, Ne.symm first, Ne.symm second]

end

section
variable (lawful : W.Lawful Ok)
include lawful

theorem runUop_inv {uop : DynUop} {prevDecCycle commitCycle : Nat} {s s' : Core ω κ}
    (run : s.runUop W C uop prevDecCycle = some (s', commitCycle)) (inv : Inv W Ok s)
    (port : uop.portMask ≠ 0) : Inv W Ok s' ∧ Tells W s s' := by
  obtain ⟨⟨issued, scheduled⟩, issues, run⟩ := Option.bind_eq_some_iff.mp run
  obtain ⟨⟨done, dispatchCycle, mem, commit⟩, executes, run⟩ := Option.bind_eq_some_iff.mp run
  cases run
  obtain ⟨issues, operands, now, few, reads, counts⟩ := issue_spec lawful issues inv.ok port
  obtain ⟨later, executes⟩ := execute_spec executes now
  obtain ⟨new, split, proper⟩ := executes.recorded
  have untouched := issues.untouched
  have log : done.log = s.log := executes.log.trans untouched.log
  have cycle : done.curCycle W = issued.curCycle W := congrArg W.curCycle executes.insWindow
  have prev : done.prevBbl = s.prevBbl := executes.prev.trans untouched.prevBbl
  let e : Executed := ⟨uop, mem, issued.curCycle W, dispatchCycle, commitCycle, s.decodeAhead W uop prevDecCycle⟩
  have executes : Executes W issued done e.uop e.mem e.dispatchCycle e.commitCycle := executes
  have tells : Tells W s done := by
    refine ⟨issues.cycle.trans cycle.ge, new, by rw [split, untouched.recorded], fun r member => ?_⟩
    rw [(proper r member).2]
    exact issues.cycle
  refine ⟨?_, tells.cycle, tells.recorded⟩
  exact
    { ok := executes.insWindow ▸ issues.ok
      prev := fun info member => inv.prev info (prev ▸ member)
      order := by
        show InOrder (e :: done.log)
        rw [log]
        exact ⟨after_of_executes inv issues executes operands rfl now later, inv.order⟩
      operands := fun r valid => by
        show (done.retire e.uop e.commitCycle).regScoreboard r = lastCommit r (e :: done.log)
        rw [log]
        exact operands_of_retire inv executes.regScoreboard issues.scoreboard r valid
      issued := by
        show ∀ f ∈ e :: done.log, f.issueCycle ≤ done.curCycle W
        rw [log, cycle]
        exact List.forall_mem_cons.mpr ⟨le_refl _, fun f member => (inv.issued f member).trans issues.cycle⟩
      barriers := by
        show ∀ f ∈ e :: done.log, f.uop.type.isBarrier → f.commitCycle ≤ done.lastStoreAddrCommitCycle
        rw [log]
        exact barriers_of_executes inv issues executes
      stores := by
        show ∀ f ∈ e :: done.log, f.uop.type = .store → f.commitCycle ≤ done.lastStoreCommitCycle
        rw [log]
        exact stores_of_executes inv issues executes
      fences := by
        show ∀ later fence before, e :: done.log = later ++ fence :: before → fence.uop.type = .fence →
          ∀ f ∈ before, f.uop.type = .store → f.commitCycle ≤ done.lastStoreAddrCommitCycle
        rw [log]
        exact fences_of_executes inv issues executes
      forwarding := fun idx => by
        show done.fwdArray idx = lastStore idx (e :: done.log)
        rw [executes.fwdArray, untouched.fwdArray, log, lastStore_cons, ← funext inv.forwarding]
      width := by
        show (∀ f ∈ e :: done.log, f.decodeAhead < 2 ^ 32) →
          (∀ c, issuedIn (e :: done.log) c ≤ issuesPerCycle + 1) ∧
            issuedIn (e :: done.log) (done.curCycle W) ≤ done.curCycleIssuedUops + 1
        rw [log, cycle, executes.counts.1]
        exact width_of_issues inv rfl counts
      counts := by
        show done.curCycleIssuedUops ≤ issuesPerCycle ∧ done.curCycleRFReads ≤ rfReadsPerCycle
        rw [executes.counts.1, executes.counts.2]
        exact ⟨few, reads inv.counts.2⟩
      decode := (inv.decode.trans issues.decode).trans executes.decode
      recorded := by
        show Told done.recorded (done.curCycle W)
        rw [split, cycle, untouched.recorded]
        exact (inv.recorded.mono issues.cycle).append proper }

theorem runUops_inv {uops : List DynUop} {prevDecCycle last last' : Nat} {s s' : Core ω κ}
    (run : s.runUops W C uops prevDecCycle last = some (s', last')) (inv : Inv W Ok s)
    (ports : ∀ uop ∈ uops, uop.portMask ≠ 0) : Inv W Ok s' ∧ Tells W s s' := by
  induction uops generalizing prevDecCycle last s with
  | nil =>
      cases run
      exact ⟨inv, (Keeps.refl s').tells⟩
  | cons uop rest ih =>
      obtain ⟨⟨mid, commitCycle⟩, first, run⟩ := Option.bind_eq_some_iff.mp run
      obtain ⟨port, ports⟩ := List.forall_mem_cons.mp ports
      obtain ⟨inv, tells⟩ := runUop_inv lawful first inv port
      obtain ⟨inv, more⟩ := ih run inv ports
      exact ⟨inv, tells.trans more⟩

theorem bbl_inv {lineSize bblAddr : Nat} {bblInfo : BblInfo} {s s' : Core ω κ}
    (run : s.bbl W C lineSize bblAddr bblInfo = some s') (inv : Inv W Ok s)
    (ports : ∀ uop ∈ bblInfo.uop, uop.portMask ≠ 0) : Inv W Ok s' ∧ Tells W s s' := by
  have next : ∀ info ∈ some bblInfo, ∀ uop ∈ info.uop, uop.portMask ≠ 0 := by
    intro info member
    cases Option.some.inj member
    exact ports
  unfold bbl at run
  cases prev : s.prevBbl with
  | none =>
      rw [prev] at run
      cases run
      have kept : Keeps W s { s with prevBbl := some bblInfo, loads := [], stores := [] } :=
        ⟨rfl, rfl, rfl, rfl, ⟨rfl, rfl⟩, rfl, rfl, le_refl _, [], rfl, nofun⟩
      exact ⟨inv.keeps kept next, kept.tells⟩
  | some info =>
      rw [prev] at run
      obtain ⟨⟨done, lastCommitCycle⟩, uops, run⟩ := Option.bind_eq_some_iff.mp run
      have begun : Keeps W s { s with prevBbl := some bblInfo } :=
        ⟨rfl, rfl, rfl, rfl, ⟨rfl, rfl⟩, rfl, rfl, le_refl _, [], rfl, nofun⟩
      obtain ⟨ran, tells⟩ := runUops_inv lawful uops (inv.keeps begun next) (inv.prev info prev)
      dsimp only at run
      split at run
      · cases run
        obtain ⟨keeps, kept⟩ :=
          frontend_spec W C lineSize bblAddr bblInfo.bytes lastCommitCycle (done.count info)
        have counted : Keeps W done (done.count info) :=
          ⟨rfl, rfl, rfl, rfl, ⟨rfl, rfl⟩, rfl, rfl, le_refl _, [], rfl, nofun⟩
        refine ⟨ran.keeps (counted.trans keeps) ?_, ?_⟩
        · rw [kept]
          exact ran.prev
        · exact (begun.tells.trans tells).trans (counted.trans keeps).tells
      · cases run

theorem advance_inv {targetCycle : Nat} {s s' : Core ω κ} (run : s.advance W targetCycle = some s')
    (inv : Inv W Ok s) : Inv W Ok s' ∧ s'.curCycle W = targetCycle := by
  unfold advance at run
  split at run
  next before =>
    obtain ⟨insWindow, step, run⟩ := Option.bind_eq_some_iff.mp run
    cases run
    obtain ⟨ok, cycle⟩ := lawful.longAdvance _ _ _ inv.ok (Nat.le_of_lt before) step
    have later : s.curCycle W ≤ W.curCycle insWindow := by rw [cycle]; exact Nat.le_of_lt before
    refine ⟨?_, cycle⟩
    exact
      { inv with
        ok := ok
        issued := fun e member => (inv.issued e member).trans later
        width := fun near => by
          have none : issuedIn s.log (W.curCycle insWindow) = 0 := by
            refine List.countP_eq_zero.mpr fun e member => ?_
            have issued := inv.issued e member
            simp
            omega
          exact ⟨(inv.width near).1, none ▸ Nat.zero_le _⟩
        counts := ⟨Nat.zero_le _, Nat.zero_le _⟩
        decode := inv.decode.trans (Nat.le_add_right _ _)
        recorded := inv.recorded.mono later }
  next => cases run

end

/-- What is promised of a call: a uop has a port, and a block's accesses fit in their arrays. -/
def legal (s : Core ω κ) : Call → Prop
  | .load _ | .predFalseLoad => s.loads.length < 256
  | .store _ | .predFalseStore => s.stores.length < 256
  | .bbl _ bblInfo => ∀ uop ∈ bblInfo.uop, uop.portMask ≠ 0
  | .branch _ _ _ _ | .contextSwitch | .advance _ => True

instance (s : Core ω κ) : ∀ call, Decidable (legal s call)
  | .load _ | .predFalseLoad => inferInstanceAs (Decidable (s.loads.length < 256))
  | .store _ | .predFalseStore => inferInstanceAs (Decidable (s.stores.length < 256))
  | .bbl _ bblInfo => inferInstanceAs (Decidable (∀ uop ∈ bblInfo.uop, uop.portMask ≠ 0))
  | .branch _ _ _ _ | .contextSwitch | .advance _ => .isTrue trivial

def machine (W : Window ω) (C : Caches κ) (lineSize : Nat) : Machine (Core ω κ) Call where
  legal := legal
  step := step W C lineSize

instance (lineSize : Nat) (s : Core ω κ) (call : Call) : Decidable ((machine W C lineSize).legal s call) :=
  inferInstanceAs (Decidable (legal s call))

theorem step_inv {lineSize : Nat} (lawful : W.Lawful Ok) {call : Call} {s s' : Core ω κ}
    (inv : Inv W Ok s) (legal : legal s call) (run : s.step W C lineSize call = some s') : Inv W Ok s' := by
  cases call with
  | bbl bblAddr bblInfo => exact (bbl_inv lawful run inv legal).1
  | advance targetCycle => exact (advance_inv lawful run inv).1
  | contextSwitch =>
      cases run
      exact inv.keeps ⟨rfl, rfl, rfl, rfl, ⟨rfl, rfl⟩, rfl, rfl, le_refl _, [], rfl, nofun⟩ nofun
  | load _ | store _ | predFalseLoad | predFalseStore | branch _ _ _ _ =>
      cases run
      exact inv.keeps ⟨rfl, rfl, rfl, rfl, ⟨rfl, rfl⟩, rfl, rfl, le_refl _, [], rfl, nofun⟩ inv.prev

theorem exec_inv {lineSize : Nat} (lawful : W.Lawful Ok) {calls : List Call} {insWindow : ω} {caches : κ}
    {final : Core ω κ} (ok : Ok insWindow)
    (legal : (machine W C lineSize).LegalRun calls (init insWindow caches))
    (run : (machine W C lineSize).exec calls (init insWindow caches) = some final) : Inv W Ok final := by
  have keeps : ∀ (s : Core ω κ) call next, Inv W Ok s → (machine W C lineSize).legal s call →
      (machine W C lineSize).step s call = some next → Inv W Ok next :=
    fun _ _ _ inv legal step => step_inv lawful inv legal step
  exact Machine.exec_keeps keeps (inv_init ok) legal run

/-! ## What a program can rely on -/

section
variable {lineSize : Nat} (lawful : W.Lawful Ok) {calls : List Call} {insWindow : ω} {caches : κ}
variable {final : Core ω κ} (ok : Ok insWindow)
variable (legal : (machine W C lineSize).LegalRun calls (init insWindow caches))
variable (run : (machine W C lineSize).exec calls (init insWindow caches) = some final)
include lawful ok legal run

/-- In every run a uop is dispatched behind its operands, and an access behind all addresses of stores, all
fences and what these have waited for; a load of what was stored last commits behind that store. -/
theorem program_order : InOrder final.log := (exec_inv lawful ok legal run).order

/-- As long as the decoder is less than 2 ^ 32 cycles ahead, one uop more than the issue width is issued
in a cycle at most: a stall of the register file or the window begins a new cycle after the uop was
counted in the old one. -/
theorem issue_width (near : ∀ e ∈ final.log, e.decodeAhead < 2 ^ 32) :
    (∀ c, issuedIn final.log c ≤ issuesPerCycle + 1) ∧ final.curCycleIssuedUops ≤ issuesPerCycle ∧
      final.curCycleRFReads ≤ rfReadsPerCycle := by
  have inv := exec_inv lawful ok legal run
  exact ⟨(inv.width near).1, inv.counts⟩

end

end Core

end Zsim.OOO
