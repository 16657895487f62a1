import Mathlib.Tactic.IntervalCases
import Zsim.Lib.MixedRadix
import Zsim.Lib.Word

/-!
# Addresses of the detailed memory

`MemChannelBase::AddressMap` and `MemControllerBase::ReturnChannel` of detailed_mem.cpp:
how a line address is cut into channel, rank, bank, column and row.  `none` is a failed
assertion, a panic, or a shift that has no meaning.
-/

set_option autoImplicit false

namespace Zsim.DetailedMem

inductive MemAccessType where
  | read
  | write
  deriving DecidableEq

/-- `ilog2` of a `uint32_t`. -/
def ilog2 (val : Nat) : Nat := Nat.log2 val

/-- The parameters that the widths of the fields come from.  `LoadConfigMain` takes
logarithms of 32-bit counts. -/
structure AddressParam where
  channelCount : Nat
  interleaveType : Nat
  cacheLineSize : Nat
  channelDataWidth : Nat
  rankCount : Nat
  bankCount : Nat
  colAddrWidth : Nat
  channelCount_pos : 0 < channelCount
  interleaveType_le : interleaveType ≤ 8
  cacheLineSize_lt : cacheLineSize < 2 ^ 32
  rankCount_lt : rankCount < 2 ^ 32
  bankCount_lt : bankCount < 2 ^ 32
  colAddrWidth_le : ilog2 cacheLineSize - ilog2 channelDataWidth ≤ colAddrWidth

namespace AddressParam

variable (m : AddressParam)

def byteOffsetWidth : Nat := ilog2 m.cacheLineSize

def channelDataWidthLog : Nat := ilog2 m.channelDataWidth

def rankWidth : Nat := ilog2 m.rankCount

def bankWidth : Nat := ilog2 m.bankCount

def colLowWidth : Nat :=
  if m.channelDataWidthLog < m.byteOffsetWidth then m.byteOffsetWidth - m.channelDataWidthLog else 0

def colHighWidth : Nat := m.colAddrWidth - m.colLowWidth

end AddressParam

/-- `addr & ((1L << width) - 1)`, as a `uint32_t`. -/
def field (width addr : Nat) : Nat := u32 (addr &&& (2 ^ width - 1))

/-- The variables of `AddressMap`. -/
structure Mapping where
  addr : Nat
  colLow : Nat
  chnl : Nat
  col : Nat
  rank : Nat
  bank : Nat

namespace Mapping

variable (m : AddressParam) (v : Mapping)

def takeColLow : Mapping :=
  { v with colLow := field m.colLowWidth v.addr, addr := v.addr >>> m.colLowWidth }

def takeChnl : Mapping :=
  { v with chnl := v.addr % m.channelCount, addr := v.addr / m.channelCount }

def takeColHigh : Mapping :=
  { v with
    col := u32 (field m.colHighWidth v.addr <<< m.colLowWidth) ||| v.colLow
    addr := v.addr >>> m.colHighWidth }

def takeRank : Mapping :=
  { v with rank := field m.rankWidth v.addr, addr := v.addr >>> m.rankWidth }

def takeBank : Mapping :=
  { v with bank := field m.bankWidth v.addr, addr := v.addr >>> m.bankWidth }

end Mapping

/-- What `AddressMap` returns in its reference parameters. -/
structure Location where
  row : Nat
  col : Nat
  rank : Nat
  bank : Nat
  deriving DecidableEq

/-- The variables after the `switch`. -/
def mapped (m : AddressParam) (addr : Nat) : Mapping :=
  let v : Mapping := ⟨addr, 0, u32Sub 0 1, 0, 0, 0⟩
  let v := if m.channelDataWidthLog < m.byteOffsetWidth then v.takeColLow m else v
  let v := if m.interleaveType ≤ 5 then v.takeChnl m else v
  let v := if 4 ≤ m.interleaveType then v.takeColHigh m else v
  match m.interleaveType with
  | 0 => ((v.takeRank m).takeBank m).takeColHigh m
  | 1 => ((v.takeBank m).takeRank m).takeColHigh m
  | 2 => ((v.takeRank m).takeColHigh m).takeBank m
  | 3 => ((v.takeBank m).takeColHigh m).takeRank m
  | 4 => (v.takeRank m).takeBank m
  | 5 => (v.takeBank m).takeRank m
  | 6 => ((v.takeChnl m).takeBank m).takeRank m
  | 7 => ((v.takeBank m).takeChnl m).takeRank m
  | 8 => ((v.takeBank m).takeRank m).takeChnl m
  | _ => v

/-- `1L << colHighWidth` has no meaning from 63 on. -/
def addressMap (m : AddressParam) (myId addr : Nat) : Option Location :=
  if m.colHighWidth < 63 then
    let v := mapped m addr
    if myId = v.chnl then some ⟨u32 v.addr, v.col, v.rank, v.bank⟩ else none
  else none

def returnChannel (m : AddressParam) (addr : Nat) : Option Nat :=
  let addr := if m.channelDataWidthLog < m.byteOffsetWidth then addr >>> m.colLowWidth else addr
  if m.interleaveType ≤ 5 then some (addr % m.channelCount)
  else if m.colHighWidth < 64 then
    match m.interleaveType with
    | 6 => some (addr >>> m.colHighWidth % m.channelCount)
    | 7 => some (addr >>> m.colHighWidth >>> m.bankWidth % m.channelCount)
    | 8 => some (addr >>> m.colHighWidth >>> m.bankWidth >>> m.rankWidth % m.channelCount)
    | _ => none
  else none

/-! ## The layout of an address -/

inductive Field where
  | colLow
  | chnl
  | rank
  | bank
  | colHigh
  deriving DecidableEq

/-- The fields from the low end on; the row is above them. -/
def layoutOf : Nat → List Field
  | 0 => [.colLow, .chnl, .rank, .bank, .colHigh]
  | 1 => [.colLow, .chnl, .bank, .rank, .colHigh]
  | 2 => [.colLow, .chnl, .rank, .colHigh, .bank]
  | 3 => [.colLow, .chnl, .bank, .colHigh, .rank]
  | 4 => [.colLow, .chnl, .colHigh, .rank, .bank]
  | 5 => [.colLow, .chnl, .colHigh, .bank, .rank]
  | 6 => [.colLow, .colHigh, .chnl, .bank, .rank]
  | 7 => [.colLow, .colHigh, .bank, .chnl, .rank]
  | 8 => [.colLow, .colHigh, .bank, .rank, .chnl]
  | _ => []

namespace AddressParam

variable (m : AddressParam)

def layout : List Field := layoutOf m.interleaveType

def radix : Field → Nat
  | .colLow => 2 ^ m.colLowWidth
  | .chnl => m.channelCount
  | .rank => 2 ^ m.rankWidth
  | .bank => 2 ^ m.bankWidth
  | .colHigh => 2 ^ m.colHighWidth

/-- The value of a field of an address. -/
def part (f : Field) (addr : Nat) : Nat := MixedRadix.value m.radix m.layout f addr

/-- The number of lines of a row of all ranks, banks and channels. -/
def rowSize : Nat := MixedRadix.size m.radix m.layout

/-- The row that an address lies in, however large. -/
def rowOf (addr : Nat) : Nat := addr / m.rowSize

end AddressParam

variable {m : AddressParam}

theorem field_eq (width addr : Nat) : field width addr = u32 (addr % 2 ^ width) := by
  rw [field, Nat.and_two_pow_sub_one_eq_mod]

theorem takeColLow_eq (addr : Nat) :
    (if m.channelDataWidthLog < m.byteOffsetWidth then
      Mapping.takeColLow m ⟨addr, 0, u32Sub 0 1, 0, 0, 0⟩ else ⟨addr, 0, u32Sub 0 1, 0, 0, 0⟩) =
      ⟨addr / 2 ^ m.colLowWidth, u32 (addr % 2 ^ m.colLowWidth), u32Sub 0 1, 0, 0, 0⟩ := by
  split
  · simp [Mapping.takeColLow, field_eq, Nat.shiftRight_eq_div_pow]
  · next wide => simp [AddressParam.colLowWidth, wide, Nat.mod_one, u32]

theorem mapped_eq (addr : Nat) :
    mapped m addr =
      { addr := m.rowOf addr
        colLow := u32 (m.part .colLow addr)
        chnl := m.part .chnl addr
        col := u32 (u32 (m.part .colHigh addr) <<< m.colLowWidth) ||| u32 (m.part .colLow addr)
        rank := u32 (m.part .rank addr)
        bank := u32 (m.part .bank addr) } := by
  have le := m.interleaveType_le
  simp only [mapped, takeColLow_eq, AddressParam.part, AddressParam.rowOf, AddressParam.rowSize,
    AddressParam.layout]
  generalize m.interleaveType = kind at le
  interval_cases kind <;>
    simp [layoutOf, MixedRadix.value, MixedRadix.size, AddressParam.radix, Mapping.takeChnl,
      Mapping.takeColHigh, Mapping.takeRank, Mapping.takeBank, field_eq, Nat.shiftRight_eq_div_pow,
      Nat.div_div_eq_div_mul, Nat.mul_assoc]

theorem radix_pos (m : AddressParam) (f : Field) : 0 < m.radix f := by
  cases f with
  | chnl => exact m.channelCount_pos
  | _ => exact Nat.two_pow_pos _

theorem layout_nodup (m : AddressParam) : m.layout.Nodup := by
  have le := m.interleaveType_le
  rw [AddressParam.layout]
  generalize m.interleaveType = kind at le
  interval_cases kind <;> decide

/-- The fields below the high part of the column. -/
def AddressParam.belowColHigh (m : AddressParam) : List Field := m.layout.takeWhile (· ≠ .colHigh)

theorem layout_split (m : AddressParam) :
    ∃ high, m.layout = m.belowColHigh ++ .colHigh :: high := by
  have le := m.interleaveType_le
  rw [AddressParam.belowColHigh, AddressParam.layout]
  generalize m.interleaveType = kind at le
  interval_cases kind <;> exact ⟨_, rfl⟩

theorem colHigh_not_below (m : AddressParam) : Field.colHigh ∉ m.belowColHigh := by
  have le := m.interleaveType_le
  rw [AddressParam.belowColHigh, AddressParam.layout]
  generalize m.interleaveType = kind at le
  interval_cases kind <;> decide

theorem returnChannel_eq (defined : m.colHighWidth < 63) (addr : Nat) :
    returnChannel m addr = some (m.part .chnl addr) := by
  have le := m.interleaveType_le
  have shifts : m.colHighWidth < 64 := Nat.lt_succ_of_lt defined
  have low : (if m.channelDataWidthLog < m.byteOffsetWidth then addr >>> m.colLowWidth else addr) =
      addr / 2 ^ m.colLowWidth := by
    split
    · exact Nat.shiftRight_eq_div_pow _ _
    · next wide => simp [AddressParam.colLowWidth, wide]
  simp only [returnChannel, low, shifts, if_true, AddressParam.part, AddressParam.layout]
  generalize m.interleaveType = kind at le
  interval_cases kind <;>
    simp [layoutOf, MixedRadix.value, AddressParam.radix, Nat.shiftRight_eq_div_pow]

/-! ## Widths -/

theorem ilog2_lt {val : Nat} (fits : val < 2 ^ 32) : ilog2 val < 32 := by
  rw [ilog2]
  by_cases zero : val = 0
  · simp [zero]
  · exact (Nat.log2_lt zero).mpr fits

theorem colLowWidth_eq (m : AddressParam) :
    m.colLowWidth = m.byteOffsetWidth - m.channelDataWidthLog := by
  rw [AddressParam.colLowWidth]
  split
  · rfl
  · omega

theorem colLowWidth_lt (m : AddressParam) : m.colLowWidth < 32 := by
  have bytes := ilog2_lt m.cacheLineSize_lt
  rw [colLowWidth_eq, AddressParam.byteOffsetWidth]
  omega

theorem colAddrWidth_eq (m : AddressParam) : m.colAddrWidth = m.colLowWidth + m.colHighWidth := by
  have le := m.colAddrWidth_le
  have low := colLowWidth_eq m
  unfold AddressParam.colHighWidth
  unfold AddressParam.byteOffsetWidth AddressParam.channelDataWidthLog at low
  omega

theorem part_lt (m : AddressParam) (f : Field) (addr : Nat) : m.part f addr < m.radix f :=
  MixedRadix.value_lt (radix_pos m f) addr

theorem u32_part {m : AddressParam} {f : Field} {width : Nat} (radix : m.radix f = 2 ^ width)
    (lt : width < 32) (addr : Nat) : u32 (m.part f addr) = m.part f addr := by
  apply u32_of_lt
  have below := part_lt m f addr
  rw [radix] at below
  exact below.trans (Nat.pow_lt_pow_right (by decide) lt)

/-- A `uint32_t` holds the low part of the column and what fits of the high part. -/
theorem col_eq (m : AddressParam) (addr : Nat) :
    (mapped m addr).col =
      2 ^ m.colLowWidth * (m.part .colHigh addr % 2 ^ (32 - m.colLowWidth)) + m.part .colLow addr := by
  have lt := colLowWidth_lt m
  have low := part_lt m .colLow addr
  have word : 2 ^ 32 = 2 ^ m.colLowWidth * 2 ^ (32 - m.colLowWidth) := by
    rw [← Nat.pow_add]
    congr 1
    omega
  have shifted : u32 (u32 (m.part .colHigh addr) <<< m.colLowWidth) =
      (m.part .colHigh addr % 2 ^ (32 - m.colLowWidth)) <<< m.colLowWidth := by
    rw [Nat.shiftLeft_eq, Nat.shiftLeft_eq, u32, u32, Nat.mul_comm, Nat.mul_comm (_ % _), word,
      Nat.mul_mod_mul_left, Nat.mod_mul_left_mod]
  rw [mapped_eq]
  simp only
  rw [u32_part (f := .colLow) rfl lt, shifted, ← Nat.shiftLeft_add_eq_or_of_lt low, Nat.shiftLeft_eq,
    Nat.mul_comm]

/-! ## Which addresses are told apart -/

/-- The number of the lowest addresses that are told apart. -/
def AddressParam.capacity (m : AddressParam) : Nat :=
  if m.colAddrWidth ≤ 32 then m.rowSize * 2 ^ 32
  else MixedRadix.size m.radix m.belowColHigh * 2 ^ (32 - m.colLowWidth)

structure InRange (m : AddressParam) (chnl : Nat) (l : Location) : Prop where
  chnl : chnl < m.channelCount
  rank : l.rank < 2 ^ m.rankWidth
  bank : l.bank < 2 ^ m.bankWidth
  col : l.col < 2 ^ m.colAddrWidth

/-- The first `n` addresses have their channel, are in range and are told apart, and two of
them share a row exactly where they seem to. -/
structure Lossless (m : AddressParam) (n : Nat) : Prop where
  consistent : ∀ addr < n, ∃ chnl l, returnChannel m addr = some chnl ∧
    addressMap m chnl addr = some l ∧ InRange m chnl l
  injective : ∀ a < n, ∀ b < n, ∀ chnl l, addressMap m chnl a = some l →
    addressMap m chnl b = some l → a = b
  rowHit : ∀ a < n, ∀ b < n, ∀ chnl l l', addressMap m chnl a = some l →
    addressMap m chnl b = some l' → l.row = l'.row → l.rank = l'.rank → l.bank = l'.bank →
    m.rowOf a = m.rowOf b

/-- The location of an address, by its fields. -/
def AddressParam.location (m : AddressParam) (addr : Nat) : Location where
  row := u32 (m.rowOf addr)
  col := 2 ^ m.colLowWidth * (m.part .colHigh addr % 2 ^ (32 - m.colLowWidth)) + m.part .colLow addr
  rank := m.part .rank addr
  bank := m.part .bank addr

theorem addressMap_eq (defined : m.colHighWidth < 63) (myId addr : Nat) :
    addressMap m myId addr =
      if myId = m.part .chnl addr then some (m.location addr) else none := by
  have col := col_eq m addr
  rw [mapped_eq] at col
  rw [addressMap, if_pos defined, mapped_eq]
  simp only at col ⊢
  rw [col, u32_part (f := .rank) rfl (ilog2_lt m.rankCount_lt),
    u32_part (f := .bank) rfl (ilog2_lt m.bankCount_lt), AddressParam.location]

theorem consistent (defined : m.colHighWidth < 63) (addr : Nat) :
    ∃ chnl l, returnChannel m addr = some chnl ∧ addressMap m chnl addr = some l ∧
      InRange m chnl l := by
  refine ⟨_, m.location addr, returnChannel_eq defined addr, ?_, ?_⟩
  · rw [addressMap_eq defined, if_pos rfl]
  · refine ⟨part_lt m .chnl addr, part_lt m .rank addr, part_lt m .bank addr, ?_⟩
    have low := part_lt m .colLow addr
    have high := (Nat.mod_le _ (2 ^ (32 - m.colLowWidth))).trans_lt (part_lt m .colHigh addr)
    have next := Nat.mul_le_mul_left (2 ^ m.colLowWidth) (Nat.succ_le_of_lt high)
    rw [Nat.mul_succ] at next
    rw [colAddrWidth_eq, Nat.pow_add]
    exact (Nat.add_lt_add_left low _).trans_le next

theorem rowSize_split (m : AddressParam) :
    ∃ rest, m.layout = m.belowColHigh ++ .colHigh :: rest ∧
      m.rowSize = MixedRadix.size m.radix m.belowColHigh * 2 ^ m.colHighWidth *
        MixedRadix.size m.radix rest := by
  obtain ⟨rest, split⟩ := layout_split m
  refine ⟨rest, split, ?_⟩
  rw [AddressParam.rowSize, split, MixedRadix.size_append, MixedRadix.size_cons, Nat.mul_assoc]
  rfl

theorem part_fits {addr : Nat} (below : addr < m.capacity) :
    m.rowOf addr < 2 ^ 32 ∧ m.part .colHigh addr < 2 ^ (32 - m.colLowWidth) := by
  rw [AddressParam.capacity] at below
  split at below
  · next fits =>
    refine ⟨Nat.div_lt_of_lt_mul below, (part_lt m .colHigh addr).trans_le ?_⟩
    apply Nat.pow_le_pow_right Nat.two_pos
    rw [colAddrWidth_eq] at fits
    omega
  · next wide =>
    obtain ⟨rest, split, size⟩ := rowSize_split m
    have high : addr / MixedRadix.size m.radix m.belowColHigh < 2 ^ (32 - m.colLowWidth) :=
      Nat.div_lt_of_lt_mul below
    have fewer : 2 ^ (32 - m.colLowWidth) ≤ 2 ^ m.colHighWidth := by
      apply Nat.pow_le_pow_right Nat.two_pos
      rw [colAddrWidth_eq] at wide
      omega
    constructor
    · have zero : m.rowOf addr = 0 := by
        rw [AddressParam.rowOf, size, ← Nat.div_div_eq_div_mul, ← Nat.div_div_eq_div_mul,
          Nat.div_eq_of_lt (high.trans_le fewer), Nat.zero_div]
      rw [zero]
      exact Nat.two_pow_pos 32
    · rw [AddressParam.part, split, MixedRadix.value_append, if_neg (colHigh_not_below m),
        MixedRadix.value, if_pos rfl]
      exact (Nat.mod_le _ _).trans_lt high

theorem location_injective {a b : Nat} (aBelow : a < m.capacity) (bBelow : b < m.capacity)
    (chnl : m.part .chnl a = m.part .chnl b) (same : m.location a = m.location b) : a = b := by
  obtain ⟨aRow, aHigh⟩ := part_fits aBelow
  obtain ⟨bRow, bHigh⟩ := part_fits bBelow
  simp only [AddressParam.location, Location.mk.injEq, Nat.mod_eq_of_lt aHigh,
    Nat.mod_eq_of_lt bHigh, u32_of_lt aRow, u32_of_lt bRow] at same
  obtain ⟨row, col, rank, bank⟩ := same
  have low : m.part .colLow a = m.part .colLow b := by
    have := congrArg (· % 2 ^ m.colLowWidth) col
    simp only [Nat.mul_add_mod] at this
    have aLow : m.part .colLow a < 2 ^ m.colLowWidth := part_lt m .colLow a
    have bLow : m.part .colLow b < 2 ^ m.colLowWidth := part_lt m .colLow b
    rwa [Nat.mod_eq_of_lt aLow, Nat.mod_eq_of_lt bLow] at this
  have high : m.part .colHigh a = m.part .colHigh b := by
    rw [low] at col
    exact Nat.eq_of_mul_eq_mul_left (Nat.two_pow_pos _) (Nat.add_right_cancel col)
  apply MixedRadix.ext (layout_nodup m) _ row
  intro f _
  cases f with
  | colLow => exact low
  | chnl => exact chnl
  | rank => exact rank
  | bank => exact bank
  | colHigh => exact high

/-- The first address beyond the capacity is mapped like address 0. -/
theorem location_capacity (m : AddressParam) :
    m.part .chnl m.capacity = m.part .chnl 0 ∧ m.location m.capacity = m.location 0 := by
  have zero : ∀ f, m.part f 0 = 0 := fun f => MixedRadix.value_zero m.layout f
  have row : m.rowOf 0 = 0 := Nat.zero_div _
  rw [AddressParam.capacity]
  split
  · have parts : ∀ f, m.part f (m.rowSize * 2 ^ 32) = 0 := fun f =>
      MixedRadix.value_mul (radix_pos m) m.layout f _
    have wraps : m.rowOf (m.rowSize * 2 ^ 32) = 2 ^ 32 :=
      Nat.mul_div_cancel_left _ (MixedRadix.size_pos (radix_pos m) m.layout)
    simp only [AddressParam.location, parts, zero, wraps, row, true_and]
    rfl
  · next wide =>
    obtain ⟨rest, split, size⟩ := rowSize_split m
    have fewer : 2 ^ (32 - m.colLowWidth) < 2 ^ m.colHighWidth := by
      apply Nat.pow_lt_pow_right (by decide)
      have low := colLowWidth_lt m
      rw [colAddrWidth_eq] at wide
      omega
    have parts : ∀ f, m.part f
        (MixedRadix.size m.radix m.belowColHigh * 2 ^ (32 - m.colLowWidth)) =
          if f = .colHigh then 2 ^ (32 - m.colLowWidth) else 0 := by
      intro f
      rw [AddressParam.part, split]
      exact MixedRadix.value_single (radix_pos m) (colHigh_not_below m) fewer f
    have inside : m.rowOf
        (MixedRadix.size m.radix m.belowColHigh * 2 ^ (32 - m.colLowWidth)) = 0 := by
      rw [AddressParam.rowOf, size, ← Nat.div_div_eq_div_mul, ← Nat.div_div_eq_div_mul,
        Nat.mul_div_cancel_left _ (MixedRadix.size_pos (radix_pos m) _), Nat.div_eq_of_lt fewer,
        Nat.zero_div]
    simp [AddressParam.location, parts, zero, inside, row]

theorem capacity_pos (m : AddressParam) : 0 < m.capacity := by
  rw [AddressParam.capacity]
  split
  · exact Nat.mul_pos (MixedRadix.size_pos (radix_pos m) _) (Nat.two_pow_pos _)
  · exact Nat.mul_pos (MixedRadix.size_pos (radix_pos m) _) (Nat.two_pow_pos _)

/-- Every address has the channel that it is sent to and is in range, and the first `n`
addresses are told apart exactly as long as they are within the capacity. -/
theorem lossless_iff (m : AddressParam) :
    (m.colHighWidth < 63 → ∀ addr, ∃ chnl l, returnChannel m addr = some chnl ∧
      addressMap m chnl addr = some l ∧ InRange m chnl l) ∧
    ∀ n, Lossless m n ↔ n = 0 ∨ m.colHighWidth < 63 ∧ n ≤ m.capacity := by
  refine ⟨consistent, fun n => ⟨fun lossless => ?_, ?_⟩⟩
  · by_contra fails
    rw [not_or, not_and, Nat.not_le] at fails
    obtain ⟨nonzero, beyond⟩ := fails
    have pos : 0 < n := Nat.pos_of_ne_zero nonzero
    obtain ⟨chnl, l, -, mapped, -⟩ := lossless.consistent 0 pos
    have defined : m.colHighWidth < 63 := by
      by_contra wide
      rw [addressMap, if_neg wide] at mapped
      cases mapped
    obtain ⟨chnlSame, same⟩ := location_capacity m
    have other : addressMap m chnl m.capacity = addressMap m chnl 0 := by
      rw [addressMap_eq defined, addressMap_eq defined, chnlSame, same]
    have equal := lossless.injective 0 pos m.capacity (beyond defined) chnl l mapped
      (other.trans mapped)
    exact (capacity_pos m).ne equal
  · rintro (rfl | ⟨defined, le⟩)
    · constructor
      · exact fun addr lt => absurd lt (Nat.not_lt_zero addr)
      · exact fun a lt => absurd lt (Nat.not_lt_zero a)
      · exact fun a lt => absurd lt (Nat.not_lt_zero a)
    · constructor
      · exact fun addr _ => consistent defined addr
      · intro a aLt b bLt chnl l first second
        rw [addressMap_eq defined] at first second
        obtain ⟨aChnl, aAt⟩ := Option.ite_none_right_eq_some.mp first
        obtain ⟨bChnl, bAt⟩ := Option.ite_none_right_eq_some.mp second
        exact location_injective (aLt.trans_le le) (bLt.trans_le le) (aChnl.symm.trans bChnl)
          ((Option.some.inj aAt).trans (Option.some.inj bAt).symm)
      · intro a aLt b bLt chnl l l' first second row _ _
        rw [addressMap_eq defined] at first second
        obtain ⟨-, aAt⟩ := Option.ite_none_right_eq_some.mp first
        obtain ⟨-, bAt⟩ := Option.ite_none_right_eq_some.mp second
        cases Option.some.inj aAt
        cases Option.some.inj bAt
        simp only [AddressParam.location] at row
        rwa [u32_of_lt (part_fits (aLt.trans_le le)).1, u32_of_lt (part_fits (bLt.trans_le le)).1]
          at row

/-- The default parameters, with 64-byte lines. -/
def defaultParam : AddressParam where
  channelCount := 2
  interleaveType := 0
  cacheLineSize := 64
  channelDataWidth := 64
  rankCount := 1
  bankCount := 2
  colAddrWidth := 10
  channelCount_pos := Nat.two_pos
  interleaveType_le := Nat.zero_le 8
  cacheLineSize_lt := by decide
  rankCount_lt := by decide
  bankCount_lt := by decide
  colAddrWidth_le := by decide

/-- Line 1 of process 0 and line 1 of process 1, whose number is in the top bits, seem to
lie in the same row. -/
theorem processes_share_row :
    addressMap defaultParam 1 1 = some ⟨0, 0, 0, 0⟩ ∧
      addressMap defaultParam 1 (2 ^ 58 + 1) = some ⟨0, 0, 0, 0⟩ ∧
      defaultParam.rowOf 1 = 0 ∧ defaultParam.rowOf (2 ^ 58 + 1) = 2 ^ 46 := by
  decide

end Zsim.DetailedMem
