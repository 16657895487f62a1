import Mathlib.Data.List.Sort
import Mathlib.Logic.Function.Basic
import Zsim.DetailedMem.Address
import Zsim.Lib.Machine

/-!
# A channel of the detailed memory

`MemChannelBase::LatencySimulate` and what it calls, of detailed_mem.cpp, with the
constraints of detailed_mem_params.cpp.  Cycles are natural numbers.  The counters of
commands and the accounting of power are left out.  `none` is a failed assertion or a
division by zero.
-/

set_option autoImplicit false

namespace Zsim.DetailedMem

structure MemParam where
  address : AddressParam
  /-- `RB_OPEN` or `RB_CLOSE` -/
  openRowBufPolicy : Bool
  powerDownCycle : Nat
  accessLogDepth : Nat
  mergeContinuous : Bool
  tRC : Nat
  tRAS : Nat
  tRCD : Nat
  tRP : Nat
  tRPab : Nat
  tRTRS : Nat
  tRRD : Nat
  tWR : Nat
  tWTR : Nat
  tCAS : Nat
  tCWD : Nat
  tCCD : Nat
  tTrans : Nat
  tXP : Nat
  tREFI : Nat
  tRFC : Nat
  tFAW : Nat
  tRTP : Nat
  accessLogDepth_pos : 0 < accessLogDepth

namespace MemParam

variable (c : MemParam)

def tTransCrit : Nat := c.tTrans / 4

def getDataLatency : MemAccessType → Nat
  | .read => c.tCAS
  | .write => c.tCWD

/-- Read/write to first data. -/
def getDataDelay (type : MemAccessType) : Nat := c.getDataLatency type + c.tTransCrit

def getDataSlot (_ : MemAccessType) : Nat := c.tTrans

/-- Read/write to precharge. -/
def getPreDelay : MemAccessType → Nat
  | .read => c.tRTP
  | .write => c.tCWD + c.tTrans + c.tWR

def getRefreshCycle : Nat := if c.openRowBufPolicy then c.tRFC + c.tRPab else c.tRFC

/-- Read/write to read/write. -/
def getRdWrDelay (type lastType : MemAccessType) : Nat :=
  match lastType, type with
  | .read, .read => max c.tTrans c.tCCD
  | .read, .write => u32Sub (c.tCAS + c.tCCD / 2 + 2) c.tCWD
  | .write, .read => c.tCWD + c.tTrans + c.tWTR
  | .write, .write => max c.tCCD c.tTrans

end MemParam

structure MemRank where
  lastBank : Nat
  lastAccessCycle : Nat
  lastRefreshCycle : Nat
  accessInRefresh : Nat
  tFAWIndex : Nat
  /-- which banks are open -/
  bankinfo : Nat → Bool
  lastType : Nat → MemAccessType
  lastRow : Nat → Nat
  lastActCycle : Nat → Nat
  lastRdWrCycle : Nat → Nat
  lastPreCycle : Nat → Nat
  tFAWCycle : Nat → Nat

namespace MemRank

def init : MemRank where
  lastBank := 0
  lastAccessCycle := 0
  lastRefreshCycle := 0
  accessInRefresh := 0
  tFAWIndex := 0
  bankinfo _ := false
  lastType _ := .read
  lastRow _ := 0
  lastActCycle _ := 0
  lastRdWrCycle _ := 0
  lastPreCycle _ := 0
  tFAWCycle _ := 0

variable (c : MemParam) (r : MemRank)

/-! ### State changes -/

def access (accessCycle issuedCycle row bank : Nat) (type : MemAccessType) : Option MemRank :=
  if r.lastRdWrCycle bank < issuedCycle then
    some
      { r with
        lastAccessCycle := max r.lastAccessCycle accessCycle
        lastRdWrCycle := Function.update r.lastRdWrCycle bank issuedCycle
        lastRow := Function.update r.lastRow bank row
        lastType := Function.update r.lastType bank type
        lastBank := bank }
  else none

def refresh (lastCycle : Nat) : Option MemRank :=
  if r.lastRefreshCycle < lastCycle then
    some { r with bankinfo := fun _ => false, lastRefreshCycle := lastCycle }
  else none

def issueActivate (bank issuedCycle : Nat) : Option MemRank :=
  if r.tFAWCycle r.tFAWIndex ≤ issuedCycle ∧ r.lastActCycle bank ≤ issuedCycle then
    some
      { r with
        tFAWCycle := Function.update r.tFAWCycle r.tFAWIndex issuedCycle
        tFAWIndex := (r.tFAWIndex + 1) % 4
        lastActCycle := Function.update r.lastActCycle bank issuedCycle
        bankinfo := Function.update r.bankinfo bank true }
  else none

def issuePrecharge (bank issuedCycle : Nat) : Option MemRank :=
  if r.lastPreCycle bank ≤ issuedCycle then
    some
      { r with
        lastPreCycle := Function.update r.lastPreCycle bank issuedCycle
        bankinfo := Function.update r.bankinfo bank false }
  else none

/-! ### Refresh and power down -/

/-- The number of refreshes since the last one. -/
def updateRefreshNum (arrivalCycle : Nat) : Option Nat :=
  if r.lastRefreshCycle ≤ arrivalCycle then
    if c.tREFI = 0 then none else some (u32 ((arrivalCycle - r.lastRefreshCycle) / c.tREFI))
  else some 0

def updateLastRefreshCycle (refreshNum : Nat) : Option MemRank :=
  if 0 < refreshNum then r.refresh (r.lastRefreshCycle + u32 (c.tREFI * refreshNum)) else some r

def getPowerDownPenalty (arrivalCycle : Nat) : Nat :=
  if c.powerDownCycle ≠ 0 ∧ r.lastAccessCycle + c.powerDownCycle < arrivalCycle then c.tXP else 0

/-! ### Constraints -/

def isRowBufferHit (row bank : Nat) : Bool := r.bankinfo bank && r.lastRow bank == row

/-- The number of accesses in the refresh period, and the cycle. -/
def calcIntraIssueCycle (rowHit : Bool) (type : MemAccessType) (arrivalCycle refreshNum : Nat) :
    MemRank × Nat :=
  let lastType := r.lastType r.lastBank
  let refOverlap := r.lastAccessCycle - r.lastRefreshCycle
  let accessInRefresh := if refreshNum = 0 then 0 else r.accessInRefresh
  let accessInRefresh :=
    if r.lastRefreshCycle ≠ 0 ∧ refOverlap ≤ c.getRefreshCycle ∧
        r.lastRefreshCycle ≤ r.lastAccessCycle then
      accessInRefresh + 1
    else 0
  let r := { r with accessInRefresh := accessInRefresh }
  if accessInRefresh ≠ 0 then
    let issuableCycle := max (r.lastRefreshCycle + c.getRefreshCycle + refOverlap) arrivalCycle
    if 2 ≤ accessInRefresh then (r, issuableCycle + c.getRdWrDelay type lastType)
    else (r, issuableCycle)
  else
    let lastIssuedCycle := r.lastRdWrCycle r.lastBank
    if lastIssuedCycle ≠ 0 then
      let delay := if rowHit then c.getRdWrDelay type lastType else 1
      (r, max (lastIssuedCycle + delay) arrivalCycle)
    else (r, arrivalCycle)

/-- The latest activation of the banks below `bankCount`. -/
def latestActCycle (bankCount : Nat) : Nat :=
  (List.range bankCount).foldl (fun latest i => max latest (r.lastActCycle i)) 0

def calcActConst (bank issuableCycle : Nat) : Nat :=
  if r.lastActCycle bank = 0 then issuableCycle
  else
    let cycle := max issuableCycle (r.lastActCycle bank + c.tRC)
    let cycle := if r.lastPreCycle bank ≠ 0 then max cycle (r.lastPreCycle bank + c.tRP) else cycle
    let cycle := max cycle (r.latestActCycle c.address.bankCount + c.tRRD)
    max cycle (r.tFAWCycle r.tFAWIndex + c.tFAW)

def calcPreConst (bank : Nat) (type : MemAccessType) (issuableCycle : Nat) : Nat :=
  max (max issuableCycle (r.lastRdWrCycle bank + c.getPreDelay type)) (r.lastActCycle bank + c.tRAS)

def calcRdWrConst (type : MemAccessType) (issuableCycle : Nat) : Nat :=
  max issuableCycle (r.lastRdWrCycle r.lastBank + c.getRdWrDelay type (r.lastType r.lastBank))

def checkContinuousAccess (arrivalCycle bank row : Nat) : Bool :=
  c.mergeContinuous && arrivalCycle < r.lastPreCycle bank && r.lastRow bank == row

/-! ### Commands -/

/-- The cycle from which the row may be activated, if it has to be, and whether the access
continues the last one. -/
def openRow (row bank : Nat) (type : MemAccessType) (arrivalCycle refreshNum : Nat) :
    Option (MemRank × Option Nat × Bool) :=
  let rowHit := r.isRowBufferHit row bank
  if c.openRowBufPolicy then
    if rowHit then some (r, none, false)
    else
      let (r, issueCycle) := r.calcIntraIssueCycle c rowHit type arrivalCycle refreshNum
      if r.bankinfo bank then do
        let preIssueCycle := r.calcPreConst c bank (r.lastType bank) issueCycle
        let r ← r.issuePrecharge bank preIssueCycle
        some (r, some (preIssueCycle + c.tRP), false)
      else some (r, some issueCycle, false)
  else if rowHit then none
  else if r.checkContinuousAccess c arrivalCycle bank row then some (r, none, true)
  else
    let (r, issueCycle) := r.calcIntraIssueCycle c rowHit type arrivalCycle refreshNum
    some (r, some issueCycle, false)

/-- Activates the row, if it has to be, and finds the cycle from which the read or write may
be issued. -/
def calcRdWrStart (row bank : Nat) (type : MemAccessType) (arrivalCycle refreshNum : Nat) :
    Option (MemRank × Nat) := do
  let rowHit := r.isRowBufferHit row bank
  let (r, actIssueCycle, continuous) ← r.openRow c row bank type arrivalCycle refreshNum
  match actIssueCycle with
  | some issueCycle =>
    let actIssueCycle := r.calcActConst c bank issueCycle
    let r ← r.issueActivate bank actIssueCycle
    if arrivalCycle ≤ actIssueCycle then
      some (r, r.calcRdWrConst c type (actIssueCycle + c.tRCD))
    else none
  | none =>
    if continuous then some (r, r.calcRdWrConst c type arrivalCycle)
    else if rowHit ∧ c.openRowBufPolicy then
      some (r.calcIntraIssueCycle c rowHit type arrivalCycle refreshNum)
    else none

/-- In close policy a precharge is issued in each access. -/
def closeRow (bank : Nat) (type : MemAccessType) (rdwrIssueCycle : Nat) : Option MemRank :=
  if c.openRowBufPolicy then some r
  else r.issuePrecharge bank (r.calcPreConst c bank type rdwrIssueCycle)

end MemRank

/-! ### The data bus -/

def Before (a b : Nat × Nat) : Prop := a.1 < b.1 ∨ a.1 = b.1 ∧ a.2 ≤ b.2

instance (a b : Nat × Nat) : Decidable (Before a b) := inferInstanceAs (Decidable (_ ∨ _ ∧ _))

structure MemChannel where
  ranks : Nat → MemRank
  accessLog : List (Nat × Nat)

namespace MemChannel

def init : MemChannel := ⟨fun _ => MemRank.init, []⟩

def updateDataBusCycle (c : MemParam) (accessLog : List (Nat × Nat)) (start end_ : Nat) :
    List (Nat × Nat) :=
  let accessLog := (accessLog ++ [(start, end_)]).insertionSort Before
  if c.accessLogDepth < accessLog.length then
    match accessLog.tail with
    | (_, second) :: rest => (0, second) :: rest
    | [] => []
  else accessLog

/-- The loop of `CalcInterIssueCycle`. -/
def findSlot (c : MemParam) (tSlot : Nat) : List (Nat × Nat) → Nat → Nat
  | [], tStart => tStart
  | (busStart, second) :: rest, tStart =>
    let tEnd := tStart + tSlot
    let busEnd := second + c.tRTRS
    if busStart < tEnd ∧ tEnd ≤ busEnd ∨ busStart ≤ tStart ∧ tStart < busEnd then
      findSlot c tSlot rest busEnd
    else if tEnd < busStart then tStart
    else findSlot c tSlot rest tStart

def calcInterIssueCycle (c : MemParam) (accessLog : List (Nat × Nat)) (type : MemAccessType)
    (arrivalCycle : Nat) : Nat :=
  let tWait := c.getDataLatency type
  let tSlot := c.getDataSlot type + c.tRTRS
  findSlot c tSlot accessLog (arrivalCycle + tWait) - tWait

/-- The transfer that an access has recorded. -/
structure Transfer where
  arrivalCycle : Nat
  type : MemAccessType
  busStartCycle : Nat
  busEndCycle : Nat
  deriving DecidableEq

/-- The channel afterwards, the latency, and what goes to the bus. -/
def latencySimulate (c : MemParam) (myId : Nat) (s : MemChannel) (lineAddr arrivalCycle : Nat)
    (type : MemAccessType) : Option (MemChannel × Nat × Transfer) := do
  let location ← addressMap c.address myId lineAddr
  let rank := s.ranks location.rank
  let refreshNum ← rank.updateRefreshNum c arrivalCycle
  let pdPenalty := rank.getPowerDownPenalty c arrivalCycle
  let rank ← rank.updateLastRefreshCycle c refreshNum
  let (rank, rdwrStart) ←
    rank.calcRdWrStart c location.row location.bank type arrivalCycle refreshNum
  let rdwrIssueCycle := calcInterIssueCycle c s.accessLog type rdwrStart
  if arrivalCycle ≤ rdwrStart ∧ arrivalCycle ≤ rdwrIssueCycle then
    let issueDelay := rdwrIssueCycle - arrivalCycle
    let latency := issueDelay + c.getDataDelay type + pdPenalty
    let latencyMem := latency + (c.tTrans - c.tTransCrit)
    let accessCycle := arrivalCycle + latencyMem
    let rank ← rank.access accessCycle rdwrIssueCycle location.row location.bank type
    let rank ← rank.closeRow c location.bank type rdwrIssueCycle
    let busEndCycle := arrivalCycle + latencyMem
    let busStartCycle := busEndCycle - c.getDataSlot type
    some
      ({ ranks := Function.update s.ranks location.rank rank
         accessLog := updateDataBusCycle c s.accessLog busStartCycle busEndCycle },
        latency, ⟨arrivalCycle, type, busStartCycle, busEndCycle⟩)
  else none

end MemChannel

end Zsim.DetailedMem
