import Mathlib.Algebra.Group.Nat.Defs
import Mathlib.Data.List.ProdSigma
import Mathlib.Tactic.Ring
import Zsim.Lib.Word

/-!
# The parameters of a DDR controller

What the constructor of `DDRMemory` accepts: a technology of `initTech`, and a memory that
runs below half the frequency of the system.  Cycles are natural numbers.
-/

set_option autoImplicit false

namespace Zsim.DDR

/-- The timing parameters, in memory clocks. -/
structure Timing where
  tBL : Nat
  tCL : Nat
  tRCD : Nat
  tRTP : Nat
  tRP : Nat
  tRRD : Nat
  tRAS : Nat
  tFAW : Nat
  tWTR : Nat
  tWR : Nat
  tRFC : Nat
  tREFI : Nat
  memFreqKHz : Nat
  deriving DecidableEq, Repr

def isPow2 (n : Nat) : Bool := n ≠ 0 ∧ n &&& (n - 1) = 0

/-- `memFreqKHz` is 1e9/tCK/1e3, for a tCK of 1.5 or 1.875. -/
def technology (tech : String) : Option Timing :=
  if tech = "DDR3-1333-CL10" then
    some { tBL := 4, tCL := 10, tRCD := 10, tRTP := 5, tRP := 10, tRRD := 4, tRAS := 24, tFAW := 20,
           tWTR := 5, tWR := 10, tRFC := 74, tREFI := 5200, memFreqKHz := 666666 }
  else if tech = "DDR3-1066-CL7" then
    some { tBL := 4, tCL := 7, tRCD := 7, tRTP := 4, tRP := 7, tRRD := 4, tRAS := 18, tFAW := 18,
           tWTR := 4, tWR := 7, tRFC := 59, tREFI := 4160, memFreqKHz := 533333 }
  else if tech = "DDR3-1066-CL8" then
    some { tBL := 4, tCL := 8, tRCD := 8, tRTP := 4, tRP := 8, tRRD := 4, tRAS := 20, tFAW := 20,
           tWTR := 4, tWR := 8, tRFC := 59, tREFI := 4160, memFreqKHz := 533333 }
  else none

/-- `none` is a panic. -/
def initTech (techName : String) (lineSize : Nat) : Option Timing := do
  let t ← technology techName
  if isPow2 lineSize ∧ 64 ≤ lineSize then some { t with tBL := u32 (lineSize * t.tBL) / 64 }
  else if lineSize = 32 then some { t with tBL := t.tBL / 2 }
  else none

/-- The address mapping is given by the shifts of its fields; the row is always on top. -/
structure Config where
  techName : String
  lineSize : Nat
  timing : Timing
  accepted : initTech techName lineSize = some timing
  sysFreqKHz : Nat
  slower : timing.memFreqKHz < sysFreqKHz / 2
  ranksPerChannel : Nat
  banksPerRank : Nat
  rankShift : Nat
  bankShift : Nat
  rowShift : Nat
  controllerSysLatency : Nat
  queueDepth : Nat
  rowHitLimit : Nat
  deferredWrites : Bool
  closedPage : Bool

structure AddrLoc where
  row : Nat
  bank : Nat
  rank : Nat
  deriving DecidableEq, Repr

/-- Where the bank is in `banks`. -/
def AddrLoc.key (l : AddrLoc) : Nat × Nat := (l.rank, l.bank)

namespace Config

variable (c : Config)

def sysToMemCycle (sysCycle : Nat) : Nat := sysCycle * c.timing.memFreqKHz / c.sysFreqKHz + 1

def memToSysCycle (memCycle : Nat) : Nat := (memCycle + 1) * c.sysFreqKHz / c.timing.memFreqKHz

def matchingMemToSysCycle (memCycle : Nat) : Nat :=
  (2 * memCycle - 1) * c.sysFreqKHz / c.timing.memFreqKHz / 2

def preDelay : Nat := c.controllerSysLatency

def postDelayRd : Nat := c.memToSysCycle (c.timing.tCL + c.timing.tBL - 1)

def postDelayWr : Nat := 0

def minWrLatency : Nat := c.controllerSysLatency

/-- The keys of all banks. -/
def banks : List (Nat × Nat) := List.range c.ranksPerChannel ×ˢ List.range c.banksPerRank

def mapLineAddr (lineAddr : Nat) : Option AddrLoc :=
  let l : AddrLoc :=
    { row := lineAddr >>> c.rowShift
      bank := (lineAddr >>> c.bankShift) &&& (2 ^ Nat.log2 c.banksPerRank - 1)
      rank := (lineAddr >>> c.rankShift) &&& (2 ^ Nat.log2 c.ranksPerChannel - 1) }
  if l.rank < c.ranksPerChannel ∧ l.bank < c.banksPerRank then some l else none

theorem mem_banks {l : AddrLoc} :
    l.key ∈ c.banks ↔ l.rank < c.ranksPerChannel ∧ l.bank < c.banksPerRank := by
  rw [banks, AddrLoc.key, List.mem_product, List.mem_range, List.mem_range]

theorem mapLineAddr_mem {lineAddr : Nat} {l : AddrLoc} (map : c.mapLineAddr lineAddr = some l) :
    l.key ∈ c.banks := by
  unfold mapLineAddr at map
  dsimp only at map
  split at map
  case isFalse => cases map
  case isTrue bounds =>
    cases Option.some.inj map
    exact c.mem_banks.mpr bounds

/-! ## What is used of the parameters -/

theorem technology_ok {tech : String} {t : Timing} (isTech : technology tech = some t) :
    t.tRP ≤ t.tRFC ∧ 0 < t.tRP ∧ 0 < t.memFreqKHz := by
  unfold technology at isTech
  split_ifs at isTech <;> cases isTech <;> decide

theorem timing_ok : c.timing.tRP ≤ c.timing.tRFC ∧ 0 < c.timing.tRP ∧ 0 < c.timing.memFreqKHz := by
  obtain ⟨t, isTech, rest⟩ := Option.bind_eq_some_iff.mp c.accepted
  have ok := technology_ok isTech
  split_ifs at rest
  · rw [← Option.some.inj rest]
    exact ok
  · rw [← Option.some.inj rest]
    exact ok

/-- The halved odd multiple lies between two multiples of `n`: the added one is cancelled. -/
theorem matching_cancels {m n memCycle : Nat} (memPos : 0 < m) (twice : 2 * m ≤ n) (pos : 0 < memCycle) :
    (2 * memCycle - 1) * n / m / 2 * m / n + 1 = memCycle := by
  obtain ⟨k, rfl⟩ := Nat.exists_eq_add_of_lt pos
  have odd : 2 * (0 + k + 1) - 1 = 2 * k + 1 := by omega
  rw [Nat.div_div_eq_div_mul, odd]
  generalize isQuot : (2 * k + 1) * n / (m * 2) = q
  have expand : (2 * k + 1) * n = 2 * (k * n) + n := by ring
  have lower : 2 * (q * m) ≤ 2 * (k * n) + n := by
    have le := Nat.div_mul_le_self ((2 * k + 1) * n) (m * 2)
    rw [isQuot, expand] at le
    calc 2 * (q * m) = q * (m * 2) := by ring
      _ ≤ _ := le
  have upper : 2 * (k * n) + n < 2 * (q * m) + 2 * m := by
    have lt := Nat.lt_div_mul_add (a := (2 * k + 1) * n) (b := m * 2) (by omega)
    rw [isQuot, expand] at lt
    calc 2 * (k * n) + n < q * (m * 2) + m * 2 := lt
      _ = 2 * (q * m) + 2 * m := by ring
  have quot : q * m / n = k := by
    apply Nat.div_eq_of_lt_le
    · omega
    · rw [Nat.add_mul]
      omega
  omega

theorem sysToMem_matching {memCycle : Nat} (pos : 0 < memCycle) :
    c.sysToMemCycle (c.matchingMemToSysCycle memCycle) = memCycle := by
  obtain ⟨-, -, memPos⟩ := c.timing_ok
  have slower := c.slower
  exact matching_cancels memPos (by omega) pos

theorem sysToMem_mono {a b : Nat} (le : a ≤ b) : c.sysToMemCycle a ≤ c.sysToMemCycle b :=
  Nat.succ_le_succ (Nat.div_le_div_right (Nat.mul_le_mul_right _ le))

/-- The cycle for which `tick` is queued is the one it was queued for. -/
theorem sysToMem_enq {memCycle sysCycle : Nat} (le : c.sysToMemCycle sysCycle ≤ memCycle) :
    c.sysToMemCycle (max (c.matchingMemToSysCycle memCycle) sysCycle) = memCycle := by
  have pos : 0 < memCycle := Nat.lt_of_lt_of_le (Nat.succ_pos _) le
  have matching := c.sysToMem_matching pos
  rcases Nat.le_total (c.matchingMemToSysCycle memCycle) sysCycle with later | earlier
  · rw [Nat.max_eq_right later]
    have := c.sysToMem_mono later
    omega
  · rw [Nat.max_eq_left earlier, matching]

theorem matching_pos {memCycle : Nat} (pos : 0 < memCycle) : 0 < c.matchingMemToSysCycle memCycle := by
  obtain ⟨-, -, memPos⟩ := c.timing_ok
  have slower := c.slower
  unfold matchingMemToSysCycle
  rw [Nat.div_div_eq_div_mul]
  apply Nat.div_pos
  · have one : 1 ≤ 2 * memCycle - 1 := by omega
    have := Nat.mul_le_mul_right c.sysFreqKHz one
    omega
  · omega

theorem memToSys_mono {a b : Nat} (le : a ≤ b) : c.memToSysCycle a ≤ c.memToSysCycle b :=
  Nat.div_le_div_right (Nat.mul_le_mul_right _ (Nat.succ_le_succ le))

theorem le_memToSys (sysCycle : Nat) : sysCycle ≤ c.memToSysCycle (c.sysToMemCycle sysCycle) := by
  obtain ⟨-, -, memPos⟩ := c.timing_ok
  have slower := c.slower
  unfold memToSysCycle sysToMemCycle
  rw [Nat.le_div_iff_mul_le memPos]
  have := Nat.lt_div_mul_add (a := sysCycle * c.timing.memFreqKHz) (b := c.sysFreqKHz) (by omega)
  rw [Nat.add_mul, Nat.add_mul]
  omega

end Config

end Zsim.DDR
