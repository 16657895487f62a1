import Mathlib.Tactic.Common
import Zsim.OOO.BranchPredictor
import Zsim.OOO.ReorderBuffer
import Zsim.OOO.WindowTable
import Zsim.Recorder.Events

/-!
# The out-of-order core

`OOOCore` of ooo_core.cpp: the simulation of a basic block with its decode and issue stalls, its
loads and stores, and the fetches of the next block.  The instruction window and the caches are
any that have the operations below; cycles of 64 bits are natural numbers.  A function returns
`none` where the window or an assertion fails.  `log` keeps every uop that was simulated and
`recorded` every access that the recorder is told of, both the last one first.
-/

set_option autoImplicit false

namespace Zsim.OOO

open Recorder (TimingRecord)

/-! ## The parts -/

/-- The calls of a core on its instruction window. -/
structure Window (ω : Type) where
  curCycle : ω → Nat
  advancePos : ω → Option ω
  /-- with the cycle that is returned in `schedCycle` -/
  schedule : ω → Nat → BitVec 8 → Nat → Option (ω × Nat)
  longAdvance : ω → Nat → Option ω

inductive Access
  | load | store
  /-- of the instruction cache -/
  | fetch
  deriving DecidableEq, Repr

/-- What a cache answers, and the record it leaves in the event recorder, if any. -/
structure Answer where
  availCycle : Nat
  record : Option TimingRecord

/-- The two L1 caches with all that is above them.  They do not answer before they are asked, and a
record lies between the request and the answer. -/
structure Caches (κ : Type) where
  access : κ → Access → (addr curCycle pc : Nat) → κ × Answer
  /-- `contextSwitch` of both filters -/
  contextSwitch : κ → κ
  le_avail : ∀ s type addr curCycle pc, curCycle ≤ (access s type addr curCycle pc).2.availCycle
  record_within : ∀ s type addr curCycle pc, ∀ tr ∈ (access s type addr curCycle pc).2.record,
    curCycle ≤ tr.reqCycle ∧ tr.reqCycle ≤ tr.respCycle ∧
      tr.respCycle ≤ (access s type addr curCycle pc).2.availCycle

structure CycleQueue where
  buf : Nat → Nat
  idx : Nat

namespace CycleQueue

def init : CycleQueue := ⟨fun _ => 0, 0⟩

def minAllocCycle (q : CycleQueue) : Nat := q.buf q.idx

def markLeave (SZ : Nat) (q : CycleQueue) (leaveCycle : Nat) : CycleQueue where
  buf := Function.update q.buf q.idx leaveCycle
  idx := if q.idx + 1 = SZ then 0 else q.idx + 1

end CycleQueue

inductive UopType
  | general | load | store | storeAddr | fence
  deriving DecidableEq, Repr

structure DynUop where
  rs0 : Nat
  rs1 : Nat
  rd0 : Nat
  rd1 : Nat
  lat : Nat
  decCycle : Nat
  type : UopType
  portMask : BitVec 8
  extraSlots : Nat
  deriving DecidableEq

structure BblInfo where
  instrs : Nat
  bytes : Nat
  approxInstrs : Nat
  uop : List DynUop

/-- An address of a load or store, with the instruction's. -/
structure MemOp where
  addr : Nat
  pc : Nat
  deriving DecidableEq

/-- `(Address)-1L`, the address of a predicated access that is not made. -/
def noAddr : Nat := 2 ^ 64 - 1

structure FwdEntry where
  addr : Nat
  storeCycle : Nat
  deriving DecidableEq

/-- A uop with the cycle in which it was issued, that in which it was dispatched, at first from the window and
at last from the load or store queue, and that of its commit. -/
structure Executed where
  uop : DynUop
  mem : Option MemOp
  issueCycle : Nat
  dispatchCycle : Nat
  commitCycle : Nat
  /-- by how much the decoder was ahead of the window -/
  decodeAhead : Nat
  deriving DecidableEq

/-- A call of `recordAccess`. -/
structure Recorded where
  curCycle : Nat
  dispatchCycle : Nat
  respCycle : Nat
  tr : TimingRecord

structure Core (ω κ : Type) where
  insWindow : ω
  caches : κ
  regScoreboard : Nat → Nat
  prevBbl : Option BblInfo
  loads : List MemOp
  stores : List MemOp
  lastStoreCommitCycle : Nat
  lastStoreAddrCommitCycle : Nat
  loadQueue : ReorderBuffer
  storeQueue : ReorderBuffer
  curCycleRFReads : Nat
  curCycleIssuedUops : Nat
  rob : ReorderBuffer
  branchPred : BranchPredictorPAg
  branchPc : Nat
  branchTaken : Bool
  branchTakenNpc : Nat
  branchNotTakenNpc : Nat
  decodeCycle : Nat
  uopQueue : CycleQueue
  instrs : Nat
  uops : Nat
  bbls : Nat
  approxInstrs : Nat
  mispredBranches : Nat
  condBranches : Nat
  fwdArray : Nat → FwdEntry
  log : List Executed
  recorded : List Recorded

/-! ## Stages and sizes -/

def fetchStage : Nat := 1

def decodeStage : Nat := 4

def issueStage : Nat := 7

def dispatchStage : Nat := 13

def l1dLat : Nat := 4

def fetchBytesPerCycle : Nat := 16

def issuesPerCycle : Nat := 4

def rfReadsPerCycle : Nat := 3

def fwdEntries : Nat := 32

def fwdIdx (addr : Nat) : Nat := (addr >>> 2) % fwdEntries

namespace Core

variable {ω κ : Type}

def init (insWindow : ω) (caches : κ) : Core ω κ where
  insWindow := insWindow
  caches := caches
  regScoreboard _ := 0
  prevBbl := none
  loads := []
  stores := []
  lastStoreCommitCycle := 0
  lastStoreAddrCommitCycle := 0
  loadQueue := .init
  storeQueue := .init
  curCycleRFReads := 0
  curCycleIssuedUops := 0
  rob := .init
  branchPred := .init
  branchPc := 0
  branchTaken := false
  branchTakenNpc := 0
  branchNotTakenNpc := 0
  decodeCycle := decodeStage
  uopQueue := .init
  instrs := 0
  uops := 0
  bbls := 0
  approxInstrs := 0
  mispredBranches := 0
  condBranches := 0
  fwdArray _ := ⟨noAddr, 0⟩
  log := []
  recorded := []

variable (W : Window ω) (C : Caches κ)

def curCycle (s : Core ω κ) : Nat := W.curCycle s.insWindow

def withWindow {ω' : Type} (s : Core ω κ) (insWindow : ω') : Core ω' κ := { s with insWindow := insWindow }

/-! ## Issue -/

/-- One more cycle, in which nothing has been issued or read. -/
def advancePos (s : Core ω κ) : Option (Core ω κ) :=
  (W.advancePos s.insWindow).map s.withWindow

def advancePosTimes : Nat → Core ω κ → Option (Core ω κ)
  | 0, s => some s
  | n + 1, s => (s.advancePos W).bind (advancePosTimes n)

def resetCycle (s : Core ω κ) : Core ω κ := { s with curCycleIssuedUops := 0, curCycleRFReads := 0 }

/-- The window goes on to the decoder's cycle, by a difference of 32 bits. -/
def catchUp (s : Core ω κ) : Option (Core ω κ) :=
  if s.curCycle W < s.decodeCycle then
    s.resetCycle.advancePosTimes W (u32 (s.decodeCycle - s.curCycle W))
  else some s

/-- The decoder's cycle for the uop; the difference is of 32 bits. -/
def decodeCycleOf (s : Core ω κ) (uop : DynUop) (prevDecCycle : Nat) : Nat :=
  max (s.decodeCycle + u32Sub uop.decCycle prevDecCycle) s.uopQueue.minAllocCycle

def decodeTo (decodeCycle : Nat) (s : Core ω κ) : Option (Core ω κ) :=
  let decoded : Core ω κ := { s with decodeCycle := decodeCycle }
  (decoded.catchUp W).map fun s => { s with uopQueue := s.uopQueue.markLeave 28 (s.curCycle W) }

def decodeStall (uop : DynUop) (prevDecCycle : Nat) (s : Core ω κ) : Option (Core ω κ) :=
  s.decodeTo W (s.decodeCycleOf uop prevDecCycle)

def issueWidth (s : Core ω κ) : Option (Core ω κ) :=
  (if issuesPerCycle ≤ s.curCycleIssuedUops then s.resetCycle.advancePos W else some s).map
    fun s => { s with curCycleIssuedUops := s.curCycleIssuedUops + 1 }

/-- A source that is not available at issue time has to go through the register file. -/
def rfReads (s : Core ω κ) (c0 c1 : Nat) : Nat :=
  s.curCycleRFReads + ((if c0 < s.curCycle W then 1 else 0) + (if c1 < s.curCycle W then 1 else 0))

def rfStall (c0 c1 : Nat) (s : Core ω κ) : Option (Core ω κ) :=
  if rfReadsPerCycle < s.rfReads W c0 c1 then
    { s with curCycleRFReads := s.rfReads W c0 c1 - rfReadsPerCycle, curCycleIssuedUops := 0 }.advancePos W
  else some { s with curCycleRFReads := s.rfReads W c0 c1 }

/-- When the uop may be dispatched: its sources, the reorder buffer and the stages in between. -/
def dispatchFrom (s : Core ω κ) (c0 c1 : Nat) : Nat :=
  max (max c0 c1) (max s.rob.minAllocCycle (s.curCycle W) + (dispatchStage - issueStage))

/-- The window takes the uop and gives its dispatch cycle; it may advance for that. -/
def schedule (uop : DynUop) (c0 c1 : Nat) (s : Core ω κ) : Option (Core ω κ × Nat) :=
  (W.schedule s.insWindow (s.dispatchFrom W c0 c1) uop.portMask uop.extraSlots).map
    fun (insWindow, dispatchCycle) =>
      let next := s.withWindow insWindow
      (if s.curCycle W < next.curCycle W then next.resetCycle else next, dispatchCycle)

/-- Kills dependences on the invalid register. -/
def clearInvalid (s : Core ω κ) : Core ω κ :=
  { s with regScoreboard := Function.update s.regScoreboard 0 (s.curCycle W) }

def issue (uop : DynUop) (prevDecCycle : Nat) (s : Core ω κ) : Option (Core ω κ × Nat) := do
  let s ← s.decodeStall W uop prevDecCycle
  let s ← s.issueWidth W
  let s := s.clearInvalid W
  let c0 := s.regScoreboard uop.rs0
  let c1 := s.regScoreboard uop.rs1
  let s ← s.rfStall W c0 c1
  s.schedule W uop c0 c1

/-! ## Loads and stores -/

/-- `OOOCoreRecorder::record`, which does nothing without a record. -/
def record (s : Core ω κ) (dispatchCycle respCycle : Nat) (tr : Option TimingRecord) : Core ω κ :=
  match tr with
  | some tr => { s with recorded := ⟨s.curCycle W, dispatchCycle, respCycle, tr⟩ :: s.recorded }
  | none => s

def ask (s : Core ω κ) (type : Access) (op : MemOp) (cycle : Nat) : κ × Answer :=
  C.access s.caches type op.addr cycle op.pc

/-- An access of a cache, and when it is satisfied. -/
def request (s : Core ω κ) (type : Access) (op : MemOp) (dispatchCycle lat : Nat) : Core ω κ × Nat :=
  let (caches, answer) := s.ask C type op dispatchCycle
  let respCycle := answer.availCycle + lat
  ({ s with caches := caches }.record W dispatchCycle respCycle answer.record, respCycle)

/-- An access waits for its queue and for all previous store addresses to be resolved. -/
def accessFrom (s : Core ω κ) (queue : ReorderBuffer) (dispatchCycle : Nat) : Nat :=
  max (s.lastStoreAddrCommitCycle + 1) (max queue.minAllocCycle dispatchCycle)

/-- Enforces store-load forwarding. -/
def forward (s : Core ω κ) (addr reqSatisfiedCycle : Nat) : Nat :=
  let fwd := s.fwdArray (fwdIdx addr)
  if fwd.addr = addr then max reqSatisfiedCycle fwd.storeCycle else reqSatisfiedCycle

def executeLoad (op : MemOp) (dispatchCycle : Nat) (s : Core ω κ) : Core ω κ × Nat :=
  let (s, reqSatisfiedCycle) :=
    if op.addr ≠ noAddr then s.request W C .load op dispatchCycle l1dLat else (s, dispatchCycle)
  let commitCycle := s.forward op.addr reqSatisfiedCycle
  ({ s with loadQueue := s.loadQueue.markRetire 32 4 commitCycle }, commitCycle)

def executeStore (op : MemOp) (dispatchCycle : Nat) (s : Core ω κ) : Core ω κ × Nat :=
  let (s, commitCycle) := s.request W C .store op dispatchCycle l1dLat
  ({ s with
      fwdArray := Function.update s.fwdArray (fwdIdx op.addr) ⟨op.addr, commitCycle⟩
      lastStoreCommitCycle := max s.lastStoreCommitCycle commitCycle
      storeQueue := s.storeQueue.markRetire 32 4 commitCycle },
    commitCycle)

/-- What a uop does after it was dispatched: its last dispatch cycle, its access and its commit cycle.  An
access that the block was not told of fails the assertion at the block's end. -/
def execute (uop : DynUop) (dispatchCycle : Nat) (s : Core ω κ) :
    Option (Core ω κ × Nat × Option MemOp × Nat) :=
  match uop.type with
  | .general => some (s, dispatchCycle, none, dispatchCycle + uop.lat)
  | .load =>
    match s.loads with
    | [] => none
    | op :: loads =>
      let dispatchCycle := s.accessFrom s.loadQueue dispatchCycle
      let (s, commitCycle) := { s with loads := loads }.executeLoad W C op dispatchCycle
      some (s, dispatchCycle, some op, commitCycle)
  | .store =>
    match s.stores with
    | [] => none
    | op :: stores =>
      let dispatchCycle := s.accessFrom s.storeQueue dispatchCycle
      let (s, commitCycle) := { s with stores := stores }.executeStore W C op dispatchCycle
      some (s, dispatchCycle, some op, commitCycle)
  | .storeAddr =>
    let commitCycle := dispatchCycle + uop.lat
    some ({ s with lastStoreAddrCommitCycle := max s.lastStoreAddrCommitCycle commitCycle },
      dispatchCycle, none, commitCycle)
  | .fence =>
    -- force future load serialization
    let commitCycle := dispatchCycle + uop.lat
    some
      ({ s with
          lastStoreAddrCommitCycle :=
            max commitCycle (max s.lastStoreAddrCommitCycle (s.lastStoreCommitCycle + uop.lat)) },
        dispatchCycle, none, commitCycle)

def retire (uop : DynUop) (commitCycle : Nat) (s : Core ω κ) : Core ω κ :=
  { s with
    rob := s.rob.markRetire 128 4 commitCycle
    regScoreboard := Function.update (Function.update s.regScoreboard uop.rd0 commitCycle) uop.rd1 commitCycle }

/-- How far the decoder will be ahead of the window. -/
def decodeAhead (uop : DynUop) (prevDecCycle : Nat) (s : Core ω κ) : Nat :=
  s.decodeCycleOf uop prevDecCycle - s.curCycle W

def runUop (uop : DynUop) (prevDecCycle : Nat) (s : Core ω κ) : Option (Core ω κ × Nat) := do
  let ahead := s.decodeAhead W uop prevDecCycle
  let (s, dispatchCycle) ← s.issue W uop prevDecCycle
  let issueCycle := s.curCycle W
  let (s, dispatchCycle, op, commitCycle) ← s.execute W C uop dispatchCycle
  let entry := ⟨uop, op, issueCycle, dispatchCycle, commitCycle, ahead⟩
  some ({ s.retire uop commitCycle with log := entry :: s.log }, commitCycle)

/-- The loop, with `prevDecCycle` and `lastCommitCycle`. -/
def runUops : List DynUop → Nat → Nat → Core ω κ → Option (Core ω κ × Nat)
  | [], _, lastCommitCycle, s => some (s, lastCommitCycle)
  | uop :: rest, prevDecCycle, _, s => do
    let (s, commitCycle) ← s.runUop W C uop prevDecCycle
    runUops rest uop.decCycle commitCycle s

/-! ## Fetch -/

variable (lineSize : Nat)

/-- The fetch of a line in the current cycle, and its latency. -/
def fetch (s : Core ω κ) (addr : Nat) : Core ω κ × Nat :=
  let (s', availCycle) := s.request W C .fetch ⟨addr, addr⟩ (s.curCycle W) 0
  (s', availCycle - s.curCycle W)

/-- Up to `left` lines of the wrong path, until the branch is resolved. -/
def fetchWrongPath (lastCommitCycle : Nat) : Nat → Nat → Nat → Core ω κ → Core ω κ
  | 0, _, _, s => s
  | left + 1, addr, reqCycle, s =>
    let (s, fetchLat) := s.fetch W C addr
    let respCycle := reqCycle + fetchLat
    if lastCommitCycle < respCycle then s
    else
      -- model the fetch throughput limit
      fetchWrongPath lastCommitCycle left (addr + lineSize) (respCycle + lineSize / fetchBytesPerCycle) s

def fetchLines : Nat → Nat → Nat → Core ω κ → Core ω κ × Nat
  | 0, _, fetchCycle, s => (s, fetchCycle)
  | left + 1, addr, fetchCycle, s =>
    let (s, fetchLat) := s.fetch W C addr
    fetchLines left (addr + lineSize) (fetchCycle + fetchLat) s

/-- The branch at the end of the block that was simulated; a wrong prediction makes the fetch wait. -/
def resolveBranch (lastCommitCycle fetchCycle : Nat) (s : Core ω κ) : Core ω κ × Nat :=
  if s.branchPc = 0 then (s, fetchCycle)
  else
    let (branchPred, right) := s.branchPred.predict BranchPredictorPAg.oooCore s.branchPc s.branchTaken
    let s := { s with condBranches := s.condBranches + 1, branchPred := branchPred }
    if right then (s, fetchCycle)
    else
      let s := { s with mispredBranches := s.mispredBranches + 1 }
      let wrongPathAddr := if s.branchTaken then s.branchNotTakenNpc else s.branchTakenNpc
      (s.fetchWrongPath W C lineSize lastCommitCycle (5 * 64 / lineSize) wrongPathAddr fetchCycle,
        lastCommitCycle)

/-- The frontend, up to the decode cycle of the next block. -/
def frontend (bblAddr bytes lastCommitCycle : Nat) (s : Core ω κ) : Core ω κ :=
  let fetchCycle := s.decodeCycle - (decodeStage - fetchStage)
  let (s, fetchCycle) := s.resolveBranch W C lineSize lastCommitCycle fetchCycle
  let s := { s with branchPc := 0 }
  let (s, fetchCycle) := s.fetchLines W C lineSize ((bytes + lineSize - 1) / lineSize) bblAddr fetchCycle
  -- if decode rules, different blocks make the decoders skip a cycle
  { s with decodeCycle := max (s.decodeCycle + 1) (fetchCycle + (decodeStage - fetchStage)) }

/-! ## The calls of a thread -/

def count (bblInfo : BblInfo) (s : Core ω κ) : Core ω κ :=
  { s with
    instrs := s.instrs + bblInfo.instrs
    uops := s.uops + bblInfo.uop.length
    bbls := s.bbls + 1
    approxInstrs := s.approxInstrs + bblInfo.approxInstrs }

def bbl (bblAddr : Nat) (bblInfo : BblInfo) (s : Core ω κ) : Option (Core ω κ) :=
  match s.prevBbl with
  | none => some { s with prevBbl := some bblInfo, loads := [], stores := [] }
  | some prev => do
    let (s, lastCommitCycle) ← { s with prevBbl := some bblInfo }.runUops W C prev.uop 0 0
    let s := s.count prev
    -- full match between expected and actual accesses
    if s.loads = [] ∧ s.stores = [] then
      some (s.frontend W C lineSize bblAddr bblInfo.bytes lastCommitCycle)
    else none

/-- `advance`, which the recorder's answers to `join`, `cSimStart` and `cSimEnd` may ask for. -/
def advance (targetCycle : Nat) (s : Core ω κ) : Option (Core ω κ) :=
  if s.curCycle W < targetCycle then do
    let decodeCycle := s.decodeCycle + (targetCycle - s.curCycle W)
    let insWindow ← W.longAdvance s.insWindow targetCycle
    some ({ s.withWindow insWindow with decodeCycle := decodeCycle }.resetCycle)
  else none

inductive Call
  | load (op : MemOp)
  | store (op : MemOp)
  | predFalseLoad
  | predFalseStore
  | branch (pc : Nat) (taken : Bool) (takenNpc notTakenNpc : Nat)
  | bbl (bblAddr : Nat) (bblInfo : BblInfo)
  /-- to no thread -/
  | contextSwitch
  | advance (targetCycle : Nat)

def step (s : Core ω κ) : Call → Option (Core ω κ)
  | .load op => some { s with loads := s.loads ++ [op] }
  | .store op => some { s with stores := s.stores ++ [op] }
  | .predFalseLoad => some { s with loads := s.loads ++ [⟨noAddr, noAddr⟩] }
  | .predFalseStore => some { s with stores := s.stores ++ [⟨noAddr, noAddr⟩] }
  | .branch pc taken takenNpc notTakenNpc =>
    some
      { s with
        branchPc := pc
        branchTaken := taken
        branchTakenNpc := takenNpc
        branchNotTakenNpc := notTakenNpc }
  | .bbl bblAddr bblInfo => s.bbl W C lineSize bblAddr bblInfo
  | .contextSwitch => some { s with prevBbl := none, caches := C.contextSwitch s.caches }
  | .advance targetCycle => s.advance W targetCycle

end Core

/-!
## What the core does with a uop

What a uop waits for on its way to dispatch and what that changes, and the same of its
execution.  The window only has to keep its promises: it gives no cycle before the one that is asked
for or before its own.
-/

/-- What a core relies on, of a window that is `Ok`. -/
structure Window.Lawful {ω : Type} (W : Window ω) (Ok : ω → Prop) : Prop where
  advancePos : ∀ w next, Ok w → W.advancePos w = some next →
    Ok next ∧ W.curCycle next = W.curCycle w + 1
  schedule : ∀ w schedCycle portMask extraSlots next cycle, Ok w → portMask ≠ 0 →
    W.schedule w schedCycle portMask extraSlots = some (next, cycle) →
    Ok next ∧ W.curCycle w ≤ W.curCycle next ∧ schedCycle ≤ cycle ∧ W.curCycle next ≤ cycle
  longAdvance : ∀ w targetCycle next, Ok w → W.curCycle w ≤ targetCycle →
    W.longAdvance w targetCycle = some next → Ok next ∧ W.curCycle next = targetCycle

namespace Core

variable {ω κ : Type}

def backend (s : Core ω κ) : Core Unit κ :=
  { s with
    insWindow := ()
    regScoreboard := fun _ => 0
    curCycleIssuedUops := 0
    curCycleRFReads := 0
    decodeCycle := 0
    uopQueue := .init }

variable {W : Window ω} {C : Caches κ} {Ok : ω → Prop}

structure Issues (W : Window ω) (Ok : ω → Prop) (s s' : Core ω κ) : Prop where
  ok : Ok s'.insWindow
  cycle : s.curCycle W ≤ s'.curCycle W
  decode : s.decodeCycle ≤ s'.decodeCycle
  scoreboard : ∀ r, r ≠ 0 → s'.regScoreboard r = s.regScoreboard r
  backend : s'.backend = s.backend

theorem Issues.refl {s : Core ω κ} (ok : Ok s.insWindow) : Issues W Ok s s :=
  ⟨ok, le_refl _, le_refl _, fun _ _ => rfl, rfl⟩

theorem Issues.trans {s mid s' : Core ω κ} (first : Issues W Ok s mid) (second : Issues W Ok mid s') :
    Issues W Ok s s' where
  ok := second.ok
  cycle := first.cycle.trans second.cycle
  decode := first.decode.trans second.decode
  scoreboard r valid := (second.scoreboard r valid).trans (first.scoreboard r valid)
  backend := second.backend.trans first.backend

def Counts (s : Core ω κ) (issued reads : Nat) : Prop :=
  s.curCycleIssuedUops = issued ∧ s.curCycleRFReads = reads

theorem counts_self (s : Core ω κ) : s.Counts s.curCycleIssuedUops s.curCycleRFReads := ⟨rfl, rfl⟩

section
variable (lawful : W.Lawful Ok)
include lawful

theorem advancePos_spec {s s' : Core ω κ} (run : s.advancePos W = some s') (ok : Ok s.insWindow) :
    Issues W Ok s s' ∧ s'.curCycle W = s.curCycle W + 1 ∧
      s'.Counts s.curCycleIssuedUops s.curCycleRFReads := by
  obtain ⟨next, step, rfl⟩ := Option.map_eq_some_iff.mp run
  obtain ⟨ok', cycle⟩ := lawful.advancePos _ _ ok step
  exact ⟨⟨ok', le_of_le_of_eq (Nat.le_succ _) cycle.symm, le_refl _, fun _ _ => rfl, rfl⟩, cycle, counts_self s⟩

theorem advancePosTimes_spec {n : Nat} {s s' : Core ω κ} (run : s.advancePosTimes W n = some s')
    (ok : Ok s.insWindow) :
    Issues W Ok s s' ∧ s'.curCycle W = s.curCycle W + n ∧
      s'.Counts s.curCycleIssuedUops s.curCycleRFReads := by
  induction n generalizing s with
  | zero =>
      cases Option.some.inj run
      exact ⟨.refl ok, rfl, counts_self _⟩
  | succ n ih =>
      obtain ⟨mid, step, rest⟩ := Option.bind_eq_some_iff.mp run
      obtain ⟨first, cycle, issued, reads⟩ := advancePos_spec lawful step ok
      obtain ⟨later, cycle', issued', reads'⟩ := ih rest first.ok
      exact ⟨first.trans later, by omega, issued'.trans issued, reads'.trans reads⟩

theorem catchUp_spec {s s' : Core ω κ} (run : s.catchUp W = some s') (ok : Ok s.insWindow) :
    Issues W Ok s s' ∧
      (s'.curCycle W = s.curCycle W ∧ s'.Counts s.curCycleIssuedUops s.curCycleRFReads ∨
        s'.Counts 0 0 ∧ (s.decodeCycle - s.curCycle W < 2 ^ 32 → s.curCycle W < s'.curCycle W)) := by
  unfold catchUp at run
  split at run
  next behind =>
    obtain ⟨moves, cycle, counts⟩ := advancePosTimes_spec lawful run ok
    refine ⟨⟨moves.ok, moves.cycle, moves.decode, moves.scoreboard, moves.backend⟩,
      .inr ⟨counts, fun near => ?_⟩⟩
    have distance : s'.curCycle W = s.curCycle W + u32 (s.decodeCycle - s.curCycle W) := cycle
    rw [u32_of_lt near] at distance
    omega
  next =>
    cases Option.some.inj run
    exact ⟨.refl ok, .inl ⟨rfl, counts_self s⟩⟩

theorem decodeTo_spec {decodeCycle : Nat} {s s' : Core ω κ} (run : s.decodeTo W decodeCycle = some s')
    (ok : Ok s.insWindow) (later : s.decodeCycle ≤ decodeCycle) :
    Issues W Ok s s' ∧
      (s'.curCycle W = s.curCycle W ∧ s'.Counts s.curCycleIssuedUops s.curCycleRFReads ∨
        s'.Counts 0 0 ∧ (decodeCycle - s.curCycle W < 2 ^ 32 → s.curCycle W < s'.curCycle W)) := by
  obtain ⟨mid, stall, rfl⟩ := Option.map_eq_some_iff.mp run
  obtain ⟨moves, cycle⟩ := catchUp_spec lawful stall ok
  exact ⟨⟨moves.ok, moves.cycle, later.trans moves.decode, moves.scoreboard, moves.backend⟩, cycle⟩

theorem decodeStall_spec {uop : DynUop} {prevDecCycle : Nat} {s s' : Core ω κ}
    (run : s.decodeStall W uop prevDecCycle = some s') (ok : Ok s.insWindow) :
    Issues W Ok s s' ∧
      (s'.curCycle W = s.curCycle W ∧ s'.Counts s.curCycleIssuedUops s.curCycleRFReads ∨
        s'.Counts 0 0 ∧ (s.decodeAhead W uop prevDecCycle < 2 ^ 32 → s.curCycle W < s'.curCycle W)) := by
  have later : s.decodeCycle ≤ s.decodeCycleOf uop prevDecCycle := by
    unfold decodeCycleOf
    exact (Nat.le_add_right _ _).trans (Nat.le_max_left _ _)
  unfold decodeAhead
  exact decodeTo_spec lawful run ok later

theorem issueWidth_spec {s s' : Core ω κ} (run : s.issueWidth W = some s') (ok : Ok s.insWindow) :
    Issues W Ok s s' ∧
      (s'.curCycle W = s.curCycle W ∧ s.curCycleIssuedUops < issuesPerCycle ∧
          s'.Counts (s.curCycleIssuedUops + 1) s.curCycleRFReads ∨
        s.curCycle W < s'.curCycle W ∧ s'.Counts 1 0) := by
  obtain ⟨mid, stall, rfl⟩ := Option.map_eq_some_iff.mp run
  by_cases full : issuesPerCycle ≤ s.curCycleIssuedUops
  · obtain ⟨moves, cycle, issued, reads⟩ := advancePos_spec lawful ((if_pos full).symm.trans stall) ok
    exact ⟨⟨moves.ok, moves.cycle, moves.decode, moves.scoreboard, moves.backend⟩,
      .inr ⟨lt_of_lt_of_eq (Nat.lt_succ_self _) cycle.symm, congrArg (· + 1) issued, reads⟩⟩
  · cases Option.some.inj ((if_neg full).symm.trans stall)
    exact ⟨⟨ok, le_refl _, le_refl _, fun _ _ => rfl, rfl⟩,
      .inl ⟨rfl, Nat.lt_of_not_le full, rfl, rfl⟩⟩

omit lawful in
theorem clearInvalid_spec {s : Core ω κ} (ok : Ok s.insWindow) : Issues W Ok s (s.clearInvalid W) :=
  ⟨ok, le_refl _, le_refl _, fun _ valid => Function.update_of_ne valid _ _, rfl⟩

theorem rfStall_spec {c0 c1 : Nat} {s s' : Core ω κ} (run : s.rfStall W c0 c1 = some s')
    (ok : Ok s.insWindow) :
    Issues W Ok s s' ∧
      (s'.curCycle W = s.curCycle W ∧ s'.curCycleIssuedUops = s.curCycleIssuedUops ∨
        s.curCycle W < s'.curCycle W ∧ s'.curCycleIssuedUops = 0) ∧
      (s.curCycleRFReads ≤ rfReadsPerCycle → s'.curCycleRFReads ≤ rfReadsPerCycle) := by
  have two : s.rfReads W c0 c1 ≤ s.curCycleRFReads + 2 := by
    unfold rfReads
    split <;> split <;> omega
  by_cases many : rfReadsPerCycle < s.rfReads W c0 c1
  · obtain ⟨moves, cycle, issued, reads⟩ := advancePos_spec lawful ((if_pos many).symm.trans run) ok
    have reads' : s'.curCycleRFReads = s.rfReads W c0 c1 - rfReadsPerCycle := reads
    refine ⟨⟨moves.ok, moves.cycle, moves.decode, moves.scoreboard, moves.backend⟩,
      .inr ⟨lt_of_lt_of_eq (Nat.lt_succ_self _) cycle.symm, issued⟩, fun few => ?_⟩
    unfold rfReadsPerCycle at *
    omega
  · cases Option.some.inj ((if_neg many).symm.trans run)
    exact ⟨⟨ok, le_refl _, le_refl _, fun _ _ => rfl, rfl⟩, .inl ⟨rfl, rfl⟩, fun _ => Nat.le_of_not_lt many⟩

theorem schedule_spec {uop : DynUop} {c0 c1 dispatchCycle : Nat} {s s' : Core ω κ}
    (run : s.schedule W uop c0 c1 = some (s', dispatchCycle)) (ok : Ok s.insWindow)
    (port : uop.portMask ≠ 0) :
    Issues W Ok s s' ∧ c0 ≤ dispatchCycle ∧ c1 ≤ dispatchCycle ∧ s'.curCycle W ≤ dispatchCycle ∧
      (s'.curCycle W = s.curCycle W ∧ s'.Counts s.curCycleIssuedUops s.curCycleRFReads ∨
        s.curCycle W < s'.curCycle W ∧ s'.Counts 0 0) := by
  obtain ⟨⟨next, cycle⟩, scheduled, same⟩ := Option.map_eq_some_iff.mp run
  obtain ⟨ok', notBefore, asked, inWindow⟩ := lawful.schedule _ _ _ _ _ _ ok port scheduled
  have sources : max c0 c1 ≤ cycle := (le_max_left _ _).trans asked
  obtain ⟨taken, rfl⟩ := Prod.mk.inj same
  by_cases advanced : s.curCycle W < (s.withWindow next).curCycle W
  · cases (if_pos advanced).symm.trans taken
    exact ⟨⟨ok', notBefore, le_refl _, fun _ _ => rfl, rfl⟩, (le_max_left _ _).trans sources,
      (le_max_right _ _).trans sources, inWindow, .inr ⟨advanced, rfl, rfl⟩⟩
  · cases (if_neg advanced).symm.trans taken
    exact ⟨⟨ok', notBefore, le_refl _, fun _ _ => rfl, rfl⟩, (le_max_left _ _).trans sources,
      (le_max_right _ _).trans sources, inWindow,
      .inl ⟨le_antisymm (Nat.le_of_not_lt advanced) notBefore, rfl, rfl⟩⟩

/-- From the decoder to dispatch: the sources are there, and the cycle has room for the uop or is a new one. -/
theorem issue_spec {uop : DynUop} {prevDecCycle dispatchCycle : Nat} {s s' : Core ω κ}
    (run : s.issue W uop prevDecCycle = some (s', dispatchCycle)) (ok : Ok s.insWindow)
    (port : uop.portMask ≠ 0) :
    Issues W Ok s s' ∧
      (∀ r, r ≠ 0 → r = uop.rs0 ∨ r = uop.rs1 → s.regScoreboard r ≤ dispatchCycle) ∧
      s'.curCycle W ≤ dispatchCycle ∧ s'.curCycleIssuedUops ≤ issuesPerCycle ∧
      (s.curCycleRFReads ≤ rfReadsPerCycle → s'.curCycleRFReads ≤ rfReadsPerCycle) ∧
      (s.decodeAhead W uop prevDecCycle < 2 ^ 32 →
        s'.curCycle W = s.curCycle W ∧ s.curCycleIssuedUops < issuesPerCycle ∧
            s'.curCycleIssuedUops = s.curCycleIssuedUops + 1 ∨
          s.curCycle W < s'.curCycle W ∧ s'.curCycleIssuedUops ≤ 1) := by
  obtain ⟨decoded, decodes, run⟩ := Option.bind_eq_some_iff.mp run
  obtain ⟨wide, widens, run⟩ := Option.bind_eq_some_iff.mp run
  obtain ⟨read, reads, run⟩ := Option.bind_eq_some_iff.mp run
  obtain ⟨first, decodes⟩ := decodeStall_spec lawful decodes ok
  obtain ⟨second, widens⟩ := issueWidth_spec lawful widens first.ok
  have third : Issues W Ok wide (wide.clearInvalid W) := clearInvalid_spec second.ok
  obtain ⟨fourth, reads, few⟩ := rfStall_spec lawful reads third.ok
  obtain ⟨fifth, c0, c1, dispatch, schedules⟩ := schedule_spec lawful run fourth.ok port
  have before := (first.trans second).trans third
  have wideCycle : (wide.clearInvalid W).curCycle W = wide.curCycle W := rfl
  have wideIssued : (wide.clearInvalid W).curCycleIssuedUops = wide.curCycleIssuedUops := rfl
  have wideReads : (wide.clearInvalid W).curCycleRFReads = wide.curCycleRFReads := rfl
  refine ⟨(before.trans fourth).trans fifth, ?_, dispatch, ?_, ?_, fun near => ?_⟩
  · rintro r valid (rfl | rfl)
    · rw [← before.scoreboard _ valid]
      exact c0
    · rw [← before.scoreboard _ valid]
      exact c1
  · unfold Counts issuesPerCycle at *
    omega
  · unfold Counts at *
    omega
  · have forward := And.intro first.cycle (And.intro second.cycle (And.intro fourth.cycle fifth.cycle))
    unfold Counts at *
    omega

end

end Core

end Zsim.OOO
