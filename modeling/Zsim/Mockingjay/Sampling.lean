import Zsim.Mockingjay.Predictions

/-!
# Which sets are sampled

`is_sampled_set` subtracts a number of sets from the logarithm of one.  The difference wraps around
for every geometry, and is no count to shift by.
-/

set_option autoImplicit false

namespace Zsim.Mockingjay

/-- What `is_sampled_set` calls `mask_length`. -/
def Config.maskLength (c : Config) : Nat := u32Sub c.log2LlcSet numSampledSets

/-- The counts of the shifts, other than those of `is_sampled_set`. -/
def ShiftsDefined (c : Config) : Prop :=
  c.log2BlockSize < 64 ∧
  u32Sub 64 (log2SampledCacheSets + c.log2LlcSet) < 64 ∧
  c.log2LlcSet + c.log2BlockSize + log2SampledCacheSets < 64 ∧
  u32Sub 64 c.sampledCacheTagBits < 64 ∧
  u32Sub 64 c.pcSignatureBits < 64

def Config.setOf (c : Config) (lineAddr : Nat) : Nat := lineAddr % c.numSets

structure SamplingOk (c : Config) : Prop where
  maskDefined : c.maskLength < 32 ∧ u32Sub c.log2LlcSet c.maskLength < 32
  shiftsDefined : ShiftsDefined c
  noWrap : numSampledSets ≤ c.log2LlcSet ∧ c.maskLength ≤ c.log2LlcSet ∧
    1 ≤ c.shifts.shl 32 1 c.maskLength ∧ c.log2LlcSize ≤ 31 ∧ 10 ≤ c.log2LlcSize
  sampled : (List.range c.numSets).countP c.isSampledSet = numSampledSets
  allocated : ∀ lineAddr, c.isSampledSet (c.setOf lineAddr) = true →
    (MockingjayReplPolicy.init c).sampledCacheEntries (c.getSampledCacheIndex lineAddr) ≠ none

variable {c : Config}

/-! ## Every geometry -/

theorem maskLength_eq : c.maskLength = c.log2LlcSet + 2 ^ 32 - 512 := by
  have sets := log2LlcSet_lt (c := c)
  unfold Config.maskLength u32Sub u32 numSampledSets
  omega

theorem pow_log2_numSets : 2 ^ c.log2LlcSet ≤ c.numSets := Nat.log2_self_le numSets_pos.ne'

/-- The other counts are those of shifts that are defined if the cache has a size from 2 KiB
to 1 GiB. -/
theorem shiftsDefined_iff : ShiftsDefined c ↔ 11 ≤ c.log2LlcSize ∧ c.log2LlcSize ≤ 30 := by
  have sets := log2LlcSet_lt (c := c)
  have block := log2BlockSize_lt (c := c)
  have ways : c.llcWays.log2 < 32 := by
    refine (Nat.log2_lt c.waysPos.ne').mpr (Nat.lt_of_le_of_lt ?_ c.linesWord)
    exact Nat.le_of_dvd c.linesPos (Nat.dvd_of_mod_eq_zero c.multiple)
  have size : c.log2LlcSize = c.log2LlcSet + c.llcWays.log2 + c.log2BlockSize := rfl
  unfold ShiftsDefined Config.sampledCacheTagBits Config.pcSignatureBits log2SampledCacheSets
  constructor
  · intro defined
    obtain ⟨-, -, -, tag, signature⟩ := defined
    unfold u32Sub u32 at tag signature
    omega
  · intro bounds
    obtain ⟨low, high⟩ := bounds
    refine ⟨by omega, ?_, by omega, ?_, ?_⟩ <;> unfold u32Sub u32 <;> omega

/-! ## What the processor makes of it -/

theorem isSampledSet_x86 (isX86 : c.shifts = .x86) (set : Nat) : c.isSampledSet set = true := by
  have sets := log2LlcSet_lt (c := c)
  have count : u32Sub c.log2LlcSet (u32Sub c.log2LlcSet numSampledSets) = 512 := by
    unfold u32Sub u32 numSampledSets
    omega
  have unshifted : c.shifts.shr 32 set 512 = set := by
    rw [isX86]
    exact Nat.div_one set
  unfold Config.isSampledSet
  dsimp only
  rw [count, unshifted]
  exact beq_self_eq_true _

theorem countP_x86 (isX86 : c.shifts = .x86) :
    (List.range c.numSets).countP c.isSampledSet = c.numSets := by
  rw [List.countP_eq_length.mpr fun set _ => isSampledSet_x86 isX86 set, List.length_range]

theorem allocated_x86 (isX86 : c.shifts = .x86) (lineAddr : Nat) :
    (MockingjayReplPolicy.init c).sampledCacheEntries (c.getSampledCacheIndex lineAddr) ≠ none := by
  rw [getSampledCacheIndex_eq]
  have bound : lineAddr / 2 ^ c.log2BlockSize % 2 ^ (4 + c.log2LlcSet) < 2 ^ (4 + c.log2LlcSet) :=
    Nat.mod_lt _ (Nat.two_pow_pos _)
  generalize lineAddr / 2 ^ c.log2BlockSize % 2 ^ (4 + c.log2LlcSet) = index at bound ⊢
  have set : index % 2 ^ c.log2LlcSet < c.numSets :=
    Nat.lt_of_lt_of_le (Nat.mod_lt _ (Nat.two_pow_pos _)) pow_log2_numSets
  have row : index / 2 ^ c.log2LlcSet < 16 := by
    apply (Nat.div_lt_iff_lt_mul (Nat.two_pow_pos _)).mpr
    rw [Nat.pow_add] at bound
    exact bound
  obtain ⟨line, isRow, -⟩ := init_row set (isSampledSet_x86 isX86 _) row
  rw [Nat.mod_add_div] at isRow
  rw [isRow]
  exact Option.some_ne_none line

/-- For no geometry is the sampling as it should be: the first count always wraps, the others are
right for the caches from 2 KiB to 1 GiB.  The processor samples every set. -/
theorem sampling_broken (c : Config) :
    ¬ SamplingOk c ∧ (c.log2LlcSet < numSampledSets ∧ 32 ≤ c.maskLength) ∧
    (ShiftsDefined c ↔ 11 ≤ c.log2LlcSize ∧ c.log2LlcSize ≤ 30) ∧
    (c.shifts = .x86 → (List.range c.numSets).countP c.isSampledSet = c.numSets ∧
      ∀ lineAddr, (MockingjayReplPolicy.init c).sampledCacheEntries
        (c.getSampledCacheIndex lineAddr) ≠ none) := by
  have wraps : c.log2LlcSet < numSampledSets := Nat.lt_trans log2LlcSet_lt (by decide)
  refine ⟨fun ok => ?_, ⟨wraps, ?_⟩, shiftsDefined_iff, fun isX86 => ⟨countP_x86 isX86, ?_⟩⟩
  · exact absurd ok.noWrap.1 (Nat.not_le.mpr wraps)
  · rw [maskLength_eq]
    omega
  · exact allocated_x86 isX86

def thousandSets : Config :=
  { fourKB with
    numLines := 4096
    multiple := rfl
    linesPos := Nat.succ_pos 4095
    linesWord := by decide }

theorem sampling_broken_thousandSets :
    (List.range thousandSets.numSets).countP thousandSets.isSampledSet = 1024 :=
  ((sampling_broken thousandSets).2.2.2 rfl).1

/-- All of the 1024 sets are sampled. -/
theorem all_sets_sampled :
    ¬ ∀ c : Config, c.numSets = 2 ^ c.log2LlcSet → numSampledSets ≤ c.numSets → SamplingOk c := by
  intro claim
  have ok := claim thousandSets (by decide) (by decide)
  have sampled := ok.sampled
  rw [countP_x86 rfl] at sampled
  exact absurd sampled (by decide)

end Zsim.Mockingjay
