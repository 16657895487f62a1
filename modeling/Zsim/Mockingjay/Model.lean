import Mathlib.Algebra.Group.Nat.Defs
import Zsim.Coherence.Controllers
import Zsim.Lib.Machine
import Zsim.Lib.Word

/-!
# Mockingjay

`MockingjayReplPolicy` of mockingjay_repl.h.  A shift by the width of its operand or more
has no defined value in C++, so the shifts are a parameter that says what they give there;
a missing row of the sampled cache is a null pointer, and `none` is its use.
-/

set_option autoImplicit false

namespace Zsim.Mockingjay

open Coherence (AccessType)

/-- The width comes first, then the value and the count. -/
structure Shifts where
  shl : Nat → Nat → Nat → Nat
  shr : Nat → Nat → Nat → Nat
  shl_of_lt : ∀ {width count} value, count < width → shl width value count = value * 2 ^ count % 2 ^ width
  shr_of_lt : ∀ {width count} value, count < width → shr width value count = value / 2 ^ count

/-- The processor takes the count modulo the width. -/
def Shifts.x86 : Shifts where
  shl width value count := value * 2 ^ (count % width) % 2 ^ width
  shr width value count := value / 2 ^ (count % width)
  shl_of_lt value lt := by rw [Nat.mod_eq_of_lt lt]
  shr_of_lt value lt := by rw [Nat.mod_eq_of_lt lt]

structure Config where
  numLines : Nat
  llcWays : Nat
  lineSize : Nat
  numCores : Nat
  shifts : Shifts
  waysPos : 0 < llcWays
  multiple : numLines % llcWays = 0
  linesPos : 0 < numLines
  linesWord : numLines < 2 ^ 32
  sizePos : 0 < lineSize
  sizeWord : lineSize < 2 ^ 32

/-- The fields of a request that the policy reads. -/
structure MemReq where
  lineAddr : Nat
  type : AccessType
  prefetch : Bool
  srcId : Nat
  pc : Nat
  deriving DecidableEq, Repr

def numSampledWays : Nat := 5
def numSampledSets : Nat := 512
def log2SampledCacheSets : Nat := 4
def kMaxTimestamp : Nat := 256
def infEtr : Int := 15
def infRd : Int := 127
def maxRd : Int := 104
def granularity : Nat := 8

structure SampledCacheLine where
  valid : Bool
  tag : Nat
  lastPcSignature : Nat
  timestamp : Nat
  deriving DecidableEq, Repr

abbrev SampledRow := Fin 5 → SampledCacheLine

/-- The reuse distance predictor. -/
abbrev Rdp := Nat → Option Int

structure MockingjayReplPolicy where
  sampledCacheEntries : Nat → Option SampledRow
  etr : Nat → Int
  etrClock : Nat → Nat
  rdp : Rdp
  currentTimestamp : Nat → Nat

namespace Config

variable (c : Config)

def numSets : Nat := c.numLines / c.llcWays

def log2LlcSet : Nat := c.numSets.log2

def log2BlockSize : Nat := c.lineSize.log2

def log2LlcSize : Nat := c.log2LlcSet + c.llcWays.log2 + c.log2BlockSize

def sampledCacheTagBits : Nat := u32Sub 31 c.log2LlcSize

def pcSignatureBits : Nat := u32Sub c.log2LlcSize 10

def isSampledSet (set : Nat) : Bool :=
  let maskLength := u32Sub c.log2LlcSet numSampledSets
  let mask := u32Sub (c.shifts.shl 32 1 maskLength) 1
  (set &&& mask) == (c.shifts.shr 32 set (u32Sub c.log2LlcSet maskLength) &&& mask)

/-- The low bits of a 64-bit word, as the two shifts leave them. -/
def lowBits (value bits : Nat) : Nat :=
  c.shifts.shr 64 (c.shifts.shl 64 value (u32Sub 64 bits)) (u32Sub 64 bits)

/-- CRC_HASH -/
def crcHash (pc : Nat) : Nat :=
  let round := fun v : Nat => if v &&& 1 = 1 then (v >>> 1) ^^^ 3988292384 else v >>> 1
  round (round (round pc))

def getPcSignature (pc : Nat) (hit prefetch : Bool) (core : Nat) : Nat :=
  let pc :=
    if c.numCores = 1 then crcHash (u64 (u64 (pc * 2 ||| hit.toNat) * 2 ||| prefetch.toNat))
    else crcHash (u64 (u64 (pc * 2 ||| prefetch.toNat) * 4) ||| core)
  c.lowBits pc c.pcSignatureBits

def getSampledCacheIndex (fullAddr : Nat) : Nat :=
  u32 (c.lowBits (c.shifts.shr 64 fullAddr c.log2BlockSize) (log2SampledCacheSets + c.log2LlcSet))

def getSampledCacheTag (fullAddr : Nat) : Nat :=
  c.lowBits (c.shifts.shr 64 fullAddr (c.log2LlcSet + c.log2BlockSize + log2SampledCacheSets))
    c.sampledCacheTagBits

/-- The signature of an access, as `update` computes it. -/
def signature (req : MemReq) : Nat :=
  u32 (c.getPcSignature req.pc (req.type = .GETS || req.type = .GETX) req.prefetch req.srcId)

/-- `sample *= FLEXMIN_PENALTY`, which is 2.0 - ilog2(numCores)/4.0. -/
def flexminPenalty (sample : Int) : Int := (sample * (8 - (c.numCores.log2 : Int))).tdiv 4

/-- What the predictor says of a signature. -/
def prediction (rdp : Rdp) (pc : Nat) : Int :=
  match rdp pc with
  | none => if c.numCores = 1 then 0 else infEtr
  | some rd => if rd > maxRd then infEtr else rd.tdiv granularity

end Config

/-! ## One row of the sampled cache -/

def updateTimestamp (current : Nat) : Nat := (current + 1) % kMaxTimestamp

def computeElapsedTime (recent previous : Nat) : Nat :=
  if previous ≤ recent then recent - previous else recent + kMaxTimestamp - previous

def temporalDifference (init sample : Int) : Int :=
  let diff := min 1 ((sample - init).natAbs / 16 : Nat)
  if sample > init then min (init + diff) infRd
  else if sample < init then max (init - diff) 0
  else init

def findInSampledCache (row : SampledRow) (tag : Nat) : Option (Fin 5) :=
  (List.finRange 5).find? fun i => (row i).valid && (row i).tag == tag

/-- The way and the sample with which `update` trains the predictor. -/
def training (row : SampledRow) (tag current : Nat) : Option (Fin 5 × Nat) := do
  let way ← findInSampledCache row tag
  let sample := computeElapsedTime current (row way).timestamp
  if (sample : Int) ≤ infRd then some (way, sample) else none

def invalidate (row : SampledRow) (way : Fin 5) : SampledRow :=
  Function.update row way { row way with valid := false }

def detrain (row : SampledRow) (rdp : Rdp) (way : Fin 5) : SampledRow × Rdp :=
  if (row way).valid then
    let signature := (row way).lastPcSignature
    let rd := match rdp signature with
      | some rd => min (rd + 1) infRd
      | none => infRd
    (invalidate row way, Function.update rdp signature (some rd))
  else (row, rdp)

/-- The loop that looks for the least recently used way; it detrains what it takes for
scans. -/
structure LruScan where
  lruWay : Option (Fin 5)
  lruRd : Int
  row : SampledRow
  rdp : Rdp

def LruScan.round (current : Nat) (scan : LruScan) (i : Fin 5) : LruScan :=
  let entry := scan.row i
  if entry.valid then
    let sample : Int := computeElapsedTime current entry.timestamp
    if sample > infRd then
      let (row, rdp) := detrain scan.row scan.rdp i
      ⟨some i, infRd + 1, row, rdp⟩
    else if sample > scan.lruRd then { scan with lruWay := some i, lruRd := sample }
    else scan
  else { scan with lruWay := some i, lruRd := infRd + 1 }

namespace MockingjayReplPolicy

variable (c : Config)

def init : MockingjayReplPolicy where
  sampledCacheEntries index :=
    if (List.range c.numSets).any (fun set => c.isSampledSet set &&
        (List.range 16).any fun i => index == u32 (set + c.shifts.shl 32 1 c.log2LlcSet * i))
    then some fun _ => ⟨false, 0, 0, 0⟩ else none
  etr _ := 0
  etrClock _ := granularity
  rdp _ := none
  currentTimestamp _ := 0

/-- The training with the row of an access. -/
def train (req : MemReq) (row : SampledRow) (rdp : Rdp) (current : Nat) : SampledRow × Rdp :=
  match training row (c.getSampledCacheTag req.lineAddr) current with
  | some (way, sample) =>
    let lastSignature := (row way).lastPcSignature
    let sample : Int := if req.prefetch then c.flexminPenalty sample else sample
    let rd := match rdp lastSignature with
      | some init => temporalDifference init sample
      | none => sample
    (invalidate row way, Function.update rdp lastSignature (some rd))
  | none => (row, rdp)

/-- The row after the loop over its ways. -/
def evict (row : SampledRow) (rdp : Rdp) (current : Nat) : SampledRow × Rdp :=
  let scan := (List.finRange 5).foldl (LruScan.round current) ⟨none, -1, row, rdp⟩
  match scan.lruWay with
  | some lruWay => detrain scan.row scan.rdp lruWay
  | none => (scan.row, scan.rdp)

/-- The first way that is not valid is filled. -/
def record (row : SampledRow) (line : SampledCacheLine) : SampledRow :=
  match (List.finRange 5).find? fun w => !(row w).valid with
  | some way => Function.update row way line
  | none => row

/-- Training, giving up a way and recording the access. -/
def accessRow (req : MemReq) (pc current : Nat) (row : SampledRow) (rdp : Rdp) : SampledRow × Rdp :=
  let trained := train c req row rdp current
  let evicted := evict trained.1 trained.2 current
  (record evicted.1 ⟨true, c.getSampledCacheTag req.lineAddr, pc, current⟩, evicted.2)

def sampledUpdate (set : Nat) (req : MemReq) (pc : Nat) (p : MockingjayReplPolicy) :
    Option MockingjayReplPolicy := do
  let index := c.getSampledCacheIndex req.lineAddr
  let row ← p.sampledCacheEntries index
  let accessed := accessRow c req pc (p.currentTimestamp set) row p.rdp
  some
    { p with
      sampledCacheEntries := Function.update p.sampledCacheEntries index (some accessed.1)
      rdp := accessed.2
      currentTimestamp := Function.update p.currentTimestamp set
        (updateTimestamp (p.currentTimestamp set)) }

/-- Only some sets may be sampled. -/
def sample (set : Nat) (req : MemReq) (pc : Nat) (p : MockingjayReplPolicy) :
    Option MockingjayReplPolicy :=
  if c.isSampledSet set then p.sampledUpdate c set req pc else some p

/-- The other lines of the set age when its clock has come round. -/
def age (id : Nat) (p : MockingjayReplPolicy) : MockingjayReplPolicy :=
  let set := id / c.llcWays
  if p.etrClock set = granularity then
    let start := set * c.llcWays
    { p with
      etr := fun i =>
        if start ≤ i ∧ i < start + c.llcWays ∧ i ≠ id ∧ (p.etr i).natAbs < infEtr then p.etr i - 1
        else p.etr i
      etrClock := Function.update p.etrClock set 0 }
  else { p with etrClock := Function.update p.etrClock set (p.etrClock set + 1) }

def predict (id pc : Nat) (p : MockingjayReplPolicy) : MockingjayReplPolicy :=
  if id < c.llcWays then { p with etr := Function.update p.etr id (c.prediction p.rdp pc) }
  else p

/-- The special case of a writeback. -/
def writeback (id : Nat) (type : AccessType) (p : MockingjayReplPolicy) : MockingjayReplPolicy :=
  if type = .PUTS ∨ type = .PUTX then { p with etr := Function.update p.etr id (-infEtr) } else p

def update (id : Nat) (req : MemReq) (p : MockingjayReplPolicy) : Option MockingjayReplPolicy := do
  let p ← (p.writeback id req.type).sample c (id / c.llcWays) req (c.signature req)
  some ((p.age c id).predict c id (c.signature req))

def replaced (id : Nat) (p : MockingjayReplPolicy) : MockingjayReplPolicy :=
  { p with etr := Function.update p.etr id 0 }

def better (p : MockingjayReplPolicy) (best : Int × Nat) (id : Nat) : Int × Nat :=
  if (p.etr id).natAbs > best.1 ∨ ((p.etr id).natAbs = best.1 ∧ p.etr id < 0) then
    ((p.etr id).natAbs, id)
  else best

/-- An invalid candidate, or the one to be reused last. -/
def rank (isValid : Nat → Bool) (cands : List Nat) (p : MockingjayReplPolicy) : Nat :=
  match cands.find? fun id => !isValid id with
  | some id => id
  | none => (cands.foldl p.better (-1, 0)).2

end MockingjayReplPolicy

end Zsim.Mockingjay
