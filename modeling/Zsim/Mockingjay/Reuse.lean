import Mathlib.Data.List.Count
import Zsim.Arrays.SetAssocArray
import Zsim.Mockingjay.Predictions

/-!
# Reuse distances

A set-associative LLC without address hashing.  The array slices the line address as it
is; the sampled cache shifts the block offset out once more.
-/

set_option autoImplicit false

namespace Zsim.Mockingjay

/-! ## The cache -/

structure LlcConfig extends Config where
  isPow2 : toConfig.numSets ≠ 0 ∧ toConfig.numSets &&& (toConfig.numSets - 1) = 0

def LlcConfig.array (c : LlcConfig) : SetAssocConfig :=
  ⟨c.numSets, c.llcWays, id, c.isPow2, c.waysPos⟩

/-- An access that has updated the policy. -/
structure Access where
  lineAddr : Nat
  signature : Nat
  deriving DecidableEq, Repr

structure Llc where
  array : SetAssocArray
  policy : MockingjayReplPolicy
  /-- the accesses so far, newest first -/
  history : List Access

namespace Llc

variable (c : LlcConfig)

def init : Llc := ⟨fun _ => 0, .init c.toConfig, []⟩

/-- The line that `lookup` finds, or else the candidate of `preinsert`. -/
def lineId (s : Llc) (req : MemReq) (isValid : Nat → Bool) : Nat :=
  match c.array.lookup s.array req.lineAddr with
  | some id => id
  | none => s.policy.rank isValid (c.array.set req.lineAddr)

/-- `postinsert`, up to the update of the policy. -/
def insert (s : Llc) (req : MemReq) (id : Nat) : Llc :=
  match c.array.lookup s.array req.lineAddr with
  | some _ => s
  | none =>
    { s with
      array := SetAssocConfig.postinsert s.array req.lineAddr id
      policy := s.policy.replaced id }

def access (s : Llc) (req : MemReq) (isValid : Nat → Bool) : Option Llc := do
  let id := s.lineId c req isValid
  let s := s.insert c req id
  let policy ← s.policy.update c.toConfig id req
  some
    { s with
      policy := policy
      history := ⟨req.lineAddr, c.signature req⟩ :: s.history }

end Llc

/-- The requests, with the lines that the coherence controller says are valid. -/
def llcMachine (c : LlcConfig) : Machine Llc (MemReq × (Nat → Bool)) where
  legal _ input := input.1.type = .GETS ∨ input.1.type = .GETX
  step s input := s.access c input.1 input.2

/-! ## What it should be trained with -/

variable (c : LlcConfig)

/-- The set of an address in the array. -/
def setOf (lineAddr : Nat) : Nat := lineAddr &&& c.array.setMask

/-- What is left of a line address: the set, 4 bits of index and the tag. -/
def sampledLine (lineAddr : Nat) : Nat :=
  lineAddr % 2 ^ (c.log2LlcSet + 4 + c.sampledCacheTagBits)

/-- The line address without the offset of a block, which it does not have. -/
def shifted (lineAddr : Nat) : Nat := lineAddr / 2 ^ c.log2BlockSize

def accessesTo (set : Nat) (accesses : List Access) : Nat :=
  accesses.countP fun a => setOf c a.lineAddr == set

/-- The index is one of the LLC set, and what the update trains with is the time since the
previous access to the line, by the clock of its set. -/
structure TrainsTruly (s : Llc) (input : MemReq × (Nat → Bool)) : Prop where
  index : c.getSampledCacheIndex input.1.lineAddr % c.numSets = setOf c input.1.lineAddr
  sample : ∀ row way sample, c.isSampledSet (s.lineId c input.1 input.2 / c.llcWays) = true →
    s.policy.sampledCacheEntries (c.getSampledCacheIndex input.1.lineAddr) = some row →
    training row (c.getSampledCacheTag input.1.lineAddr)
      (s.policy.currentTimestamp (s.lineId c input.1 input.2 / c.llcWays)) = some (way, sample) →
    ∃ during previous earlier, s.history = during ++ previous :: earlier ∧
      sampledLine c previous.lineAddr = sampledLine c input.1.lineAddr ∧
      (∀ a ∈ during, sampledLine c a.lineAddr ≠ sampledLine c input.1.lineAddr) ∧
      (row way).lastPcSignature = previous.signature ∧
      -- the access itself is the last of them
      sample = (accessesTo c (setOf c input.1.lineAddr) during + 1) % 256

/-! ## The slices -/

variable {c}

theorem numSets_eq : c.numSets = 2 ^ c.log2LlcSet := by
  obtain ⟨k, isPow⟩ := Nat.ne_zero_and_sub_one_eq_zero_iff_isPowerOfTwo.mp c.isPow2
  rw [Config.log2LlcSet, isPow, Nat.log2_two_pow]

theorem setOf_eq (lineAddr : Nat) : setOf c lineAddr = lineAddr % c.numSets := by
  change lineAddr &&& (c.numSets - 1) = _
  rw [numSets_eq, Nat.and_two_pow_sub_one_eq_mod]

theorem div_of_mem_set {lineAddr id : Nat} (member : id ∈ c.array.set lineAddr) :
    id / c.llcWays = setOf c lineAddr := by
  obtain ⟨way, isWay, rfl⟩ := List.mem_map.mp member
  change (setOf c lineAddr * c.llcWays + way) / c.llcWays = _
  rw [Nat.add_comm, Nat.add_mul_div_right _ _ c.waysPos,
    Nat.div_eq_of_lt (List.mem_range.mp isWay : way < c.llcWays), Nat.zero_add]

theorem better_mem (p : MockingjayReplPolicy) (cands : List Nat) (best : Int × Nat)
    (first : best.1 = -1 → cands ≠ []) :
    (cands.foldl p.better best).2 ∈ cands ∨
      best.1 ≠ -1 ∧ (cands.foldl p.better best).2 = best.2 := by
  induction cands generalizing best with
  | nil =>
      right
      exact ⟨fun none => absurd rfl (first none), rfl⟩
  | cons id rest ih =>
      have positive : (p.better best id).1 ≠ -1 := by
        unfold MockingjayReplPolicy.better
        split
        · dsimp only
          omega
        · intro none
          omega
      rcases ih (p.better best id) (fun none => absurd none positive) with member | ⟨-, kept⟩
      · exact Or.inl (List.mem_cons_of_mem id member)
      · rw [List.foldl_cons, kept]
        by_cases larger : (p.etr id).natAbs > best.1 ∨
            ((p.etr id).natAbs = best.1 ∧ p.etr id < 0)
        · left
          rw [MockingjayReplPolicy.better, if_pos larger]
          exact List.mem_cons_self
        · right
          refine ⟨fun none => larger ?_, by rw [MockingjayReplPolicy.better, if_neg larger]⟩
          left
          omega

theorem rank_mem (p : MockingjayReplPolicy) (isValid : Nat → Bool) {cands : List Nat}
    (some' : cands ≠ []) : p.rank isValid cands ∈ cands := by
  unfold MockingjayReplPolicy.rank
  split
  case h_1 id found => exact List.mem_of_find?_eq_some found
  case h_2 =>
    rcases better_mem p cands (-1, 0) (fun _ => some') with member | ⟨absent, -⟩
    · exact member
    · exact absurd rfl absent

theorem lineId_div (s : Llc) (req : MemReq) (isValid : Nat → Bool) :
    s.lineId c req isValid / c.llcWays = setOf c req.lineAddr := by
  apply div_of_mem_set
  unfold Llc.lineId
  split
  case h_1 id found => exact (SetAssocConfig.lookup_sound found).1
  case h_2 => exact rank_mem _ _ (SetAssocConfig.set_ne_nil _)

/-- The sizes for which the shifts of the tag and of the rows are defined. -/
def Fits (c : LlcConfig) : Prop := c.log2LlcSize ≤ 30 ∧ c.log2LlcSet ≤ 27

theorem tagBits (fits : Fits c) : c.sampledCacheTagBits = 31 - c.log2LlcSize :=
  u32Sub_of_le (by decide) (Nat.le_succ_of_le fits.1)

theorem index_eq (fits : Fits c) (lineAddr : Nat) :
    c.getSampledCacheIndex lineAddr =
      lineAddr / 2 ^ c.log2BlockSize % 2 ^ (c.log2LlcSet + 4) := by
  have small : 2 ^ (c.log2LlcSet + 4) ≤ 2 ^ 31 :=
    Nat.pow_le_pow_right (by decide) (by have := fits.2; omega)
  have bound := Nat.mod_lt (lineAddr / 2 ^ c.log2BlockSize) (Nat.two_pow_pos (c.log2LlcSet + 4))
  rw [getSampledCacheIndex_eq, Nat.add_comm 4, u32_of_lt (by omega)]

theorem tag_eq (fits : Fits c) (lineAddr : Nat) :
    c.getSampledCacheTag lineAddr =
      lineAddr / 2 ^ c.log2BlockSize / 2 ^ (c.log2LlcSet + 4) % 2 ^ c.sampledCacheTagBits := by
  have size : c.log2LlcSize = c.log2LlcSet + c.llcWays.log2 + c.log2BlockSize := rfl
  have bits := tagBits fits
  have le := fits.1
  have count : c.log2LlcSet + c.log2BlockSize + log2SampledCacheSets =
      c.log2BlockSize + (c.log2LlcSet + 4) := by
    unfold log2SampledCacheSets
    omega
  rw [Config.getSampledCacheTag, lowBits_eq _ (by omega) (by omega), count,
    c.shifts.shr_of_lt _ (by omega), Nat.pow_add, Nat.div_div_eq_div_mul]

theorem slices_eq_iff (fits : Fits c) (a b : Nat) :
    (c.getSampledCacheIndex a = c.getSampledCacheIndex b ∧
      c.getSampledCacheTag a = c.getSampledCacheTag b) ↔
      sampledLine c (shifted c a) = sampledLine c (shifted c b) := by
  rw [index_eq fits, index_eq fits, tag_eq fits, tag_eq fits, sampledLine, sampledLine, shifted,
    shifted, Nat.pow_add 2 (c.log2LlcSet + 4)]
  exact (mod_mul_eq_iff (Nat.two_pow_pos _)).symm

theorem index_mod (fits : Fits c) (lineAddr : Nat) :
    c.getSampledCacheIndex lineAddr % c.numSets = shifted c lineAddr % c.numSets := by
  rw [index_eq fits, shifted, numSets_eq, Nat.mod_mod_of_dvd _ (Nat.pow_dvd_pow 2 (Nat.le_add_right ..))]

/-! ## The invariant -/

/-- The two slices that the sampled cache takes. -/
def SameSlices (c : LlcConfig) (index tag : Nat) (a : Access) : Prop :=
  c.getSampledCacheIndex a.lineAddr = index ∧ c.getSampledCacheTag a.lineAddr = tag

/-- A valid line of a row is what the last access with its slices has recorded. -/
def Recorded (c : LlcConfig) (history : List Access) (index : Nat) (line : SampledCacheLine) : Prop :=
  ∃ during previous earlier, history = during ++ previous :: earlier ∧
    SameSlices c index line.tag previous ∧ (∀ a ∈ during, ¬ SameSlices c index line.tag a) ∧
    line.lastPcSignature = previous.signature ∧
    setOf c previous.lineAddr = index % c.numSets ∧
    line.timestamp = accessesTo c (index % c.numSets) earlier % 256

structure LlcInv (c : LlcConfig) (s : Llc) : Prop where
  rows : ∀ index row, s.policy.sampledCacheEntries index = some row →
    c.isSampledSet (index % c.numSets) = true →
    Distinct row ∧ ∀ w, (row w).valid = true → Recorded c s.history index (row w)
  clocks : ∀ set, c.isSampledSet set = true →
    s.policy.currentTimestamp set = accessesTo c set s.history % 256

theorem LlcInv.init : LlcInv c (Llc.init c) := by
  refine ⟨fun index row isRow _ => ?_, fun _ _ => rfl⟩
  change (if _ then some _ else none) = some row at isRow
  split at isRow
  · cases isRow
    exact ⟨fun w w' valid => absurd valid Bool.false_ne_true,
      fun w valid => absurd valid Bool.false_ne_true⟩
  · cases isRow

theorem Recorded.later {history : List Access} {index : Nat} {line : SampledCacheLine}
    (recorded : Recorded c history index line) {a : Access}
    (other : ¬ SameSlices c index line.tag a) : Recorded c (a :: history) index line := by
  obtain ⟨during, previous, earlier, split, same, others, signature, set, timestamp⟩ := recorded
  refine ⟨a :: during, previous, earlier, by rw [split]; rfl, same, fun b member => ?_, signature,
    set, timestamp⟩
  rcases List.mem_cons.mp member with rfl | old
  · exact other
  · exact others b old

theorem accessesTo_cons (set : Nat) (a : Access) (history : List Access) :
    accessesTo c set (a :: history) =
      accessesTo c set history + if setOf c a.lineAddr = set then 1 else 0 := by
  rw [accessesTo, accessesTo, List.countP_cons]
  simp only [beq_iff_eq]

theorem accessesTo_append (set : Nat) (during earlier : List Access) :
    accessesTo c set (during ++ earlier) = accessesTo c set during + accessesTo c set earlier :=
  List.countP_append ..

theorem updateTimestamp_mod (n : Nat) : updateTimestamp (n % 256) = (n + 1) % 256 := by
  unfold updateTimestamp kMaxTimestamp
  omega

theorem computeElapsedTime_mod {recent previous : Nat} (le : previous ≤ recent) :
    computeElapsedTime (recent % 256) (previous % 256) = (recent - previous) % 256 := by
  unfold computeElapsedTime kMaxTimestamp
  split <;> omega

/-! ## One access -/

theorem access_spec {s next : Llc} {req : MemReq} {isValid : Nat → Bool}
    (run : s.access c req isValid = some next) :
    next.history = ⟨req.lineAddr, c.signature req⟩ :: s.history ∧
      (if c.isSampledSet (setOf c req.lineAddr) = true then
        ∃ row row', s.policy.sampledCacheEntries (c.getSampledCacheIndex req.lineAddr) = some row ∧
          next.policy.sampledCacheEntries = Function.update s.policy.sampledCacheEntries
            (c.getSampledCacheIndex req.lineAddr) (some row') ∧
          next.policy.currentTimestamp = Function.update s.policy.currentTimestamp
            (setOf c req.lineAddr) (updateTimestamp (s.policy.currentTimestamp (setOf c req.lineAddr))) ∧
          (Distinct row → Accessed row row' ⟨true, c.getSampledCacheTag req.lineAddr,
            c.signature req, s.policy.currentTimestamp (setOf c req.lineAddr)⟩)
      else
        next.policy.sampledCacheEntries = s.policy.sampledCacheEntries ∧
          next.policy.currentTimestamp = s.policy.currentTimestamp) := by
  obtain ⟨policy, update, run⟩ := Option.bind_eq_some_iff.mp run
  cases Option.some.inj run
  obtain ⟨mid, sample, update⟩ := Option.bind_eq_some_iff.mp update
  cases Option.some.inj update
  have history : (s.insert c req (s.lineId c req isValid)).history = s.history := by
    unfold Llc.insert
    split <;> rfl
  have entries : ((s.insert c req (s.lineId c req isValid)).policy.writeback
      (s.lineId c req isValid) req.type).sampledCacheEntries = s.policy.sampledCacheEntries := by
    unfold Llc.insert MockingjayReplPolicy.writeback MockingjayReplPolicy.replaced
    split <;> split <;> rfl
  have timestamps : ((s.insert c req (s.lineId c req isValid)).policy.writeback
      (s.lineId c req isValid) req.type).currentTimestamp = s.policy.currentTimestamp := by
    unfold Llc.insert MockingjayReplPolicy.writeback MockingjayReplPolicy.replaced
    split <;> split <;> rfl
  have kept : ∀ id, ((mid.age c.toConfig id).predict c.toConfig id
      (c.signature req)).sampledCacheEntries = mid.sampledCacheEntries ∧
      ((mid.age c.toConfig id).predict c.toConfig id (c.signature req)).currentTimestamp =
        mid.currentTimestamp := by
    intro id
    unfold MockingjayReplPolicy.predict MockingjayReplPolicy.age
    dsimp only
    split <;> split <;> exact ⟨rfl, rfl⟩
  obtain ⟨keptEntries, keptTimestamps⟩ := kept (s.lineId c req isValid)
  refine ⟨by rw [history], ?_⟩
  dsimp only
  rw [keptEntries, keptTimestamps]
  rw [lineId_div] at sample
  unfold MockingjayReplPolicy.sample at sample
  split at sample
  case isTrue isSampled =>
    obtain ⟨row, row', isRow, entries', timestamps', accessed⟩ := sampledUpdate_spec sample
    rw [if_pos isSampled]
    rw [entries] at isRow entries'
    rw [timestamps] at timestamps' accessed
    exact ⟨row, row', isRow, entries', timestamps', accessed⟩
  case isFalse notSampled =>
    cases Option.some.inj sample
    rw [if_neg notSampled]
    exact ⟨entries, timestamps⟩

/-- The shifted address is of the same set as the address. -/
def IndexOfSet (c : LlcConfig) (lineAddr : Nat) : Prop :=
  shifted c lineAddr % c.numSets = lineAddr % c.numSets

theorem LlcInv.access {s next : Llc} {req : MemReq} {isValid : Nat → Bool} (fits : Fits c)
    (inv : LlcInv c s) (ofSet : IndexOfSet c req.lineAddr)
    (run : s.access c req isValid = some next) : LlcInv c next := by
  obtain ⟨history, effect⟩ := access_spec run
  have isSet : c.getSampledCacheIndex req.lineAddr % c.numSets = setOf c req.lineAddr := by
    rw [index_mod fits, ofSet, setOf_eq]
  split at effect
  case isFalse notSampled =>
    obtain ⟨entries, timestamps⟩ := effect
    refine ⟨fun index row isRow isSampled => ?_, fun set isSampled => ?_⟩
    · rw [entries] at isRow
      obtain ⟨distinct, recorded⟩ := inv.rows index row isRow isSampled
      refine ⟨distinct, fun w valid => ?_⟩
      rw [history]
      refine (recorded w valid).later fun same => ?_
      rw [← same.1, isSet] at isSampled
      exact notSampled isSampled
    · have other : setOf c req.lineAddr ≠ set := fun same => notSampled (same ▸ isSampled)
      rw [timestamps, history, accessesTo_cons, if_neg other]
      exact inv.clocks set isSampled
  case isTrue sampled =>
    obtain ⟨row, row', isRow, entries, timestamps, accessed⟩ := effect
    have clock := inv.clocks _ sampled
    refine ⟨fun index other isOther isSampled => ?_, fun set isSampled => ?_⟩
    · rw [entries] at isOther
      rw [history]
      by_cases same : index = c.getSampledCacheIndex req.lineAddr
      · subst same
        rw [Function.update_self] at isOther
        cases Option.some.inj isOther
        obtain ⟨distinct, recorded⟩ := inv.rows _ row isRow isSampled
        have result := accessed distinct
        refine ⟨result.distinct distinct, fun w valid => ?_⟩
        obtain ⟨way, isLine, others⟩ := result.recorded
        by_cases here : w = way
        · rw [here, isLine]
          refine ⟨[], _, s.history, rfl, ⟨rfl, rfl⟩, (fun _ member => nomatch member), rfl,
            isSet.symm, ?_⟩
          rw [isSet]
          exact clock
        · obtain ⟨kept, apart⟩ := others w here valid
          rw [kept] at valid ⊢
          exact (recorded w valid).later fun same => apart same.2.symm
      · rw [Function.update_of_ne same] at isOther
        obtain ⟨distinct, recorded⟩ := inv.rows index other isOther isSampled
        exact ⟨distinct, fun w valid => (recorded w valid).later fun slices => same slices.1.symm⟩
    · rw [timestamps, history, accessesTo_cons]
      by_cases same : setOf c req.lineAddr = set
      · rw [if_pos same, ← same, Function.update_self, clock, updateTimestamp_mod]
      · rw [if_neg same, Function.update_of_ne (Ne.symm same)]
        exact inv.clocks set isSampled

/-! ## Runs -/

/-- The shifted address selects the same set as the address, and the last access that it
takes for one to the line was the last one to the line. -/
structure Sliced (c : LlcConfig) (s : Llc) (input : MemReq × (Nat → Bool)) : Prop where
  set : IndexOfSet c input.1.lineAddr
  lines : ∀ during previous earlier, s.history = during ++ previous :: earlier →
    sampledLine c (shifted c previous.lineAddr) = sampledLine c (shifted c input.1.lineAddr) →
    (∀ a ∈ during,
      sampledLine c (shifted c a.lineAddr) ≠ sampledLine c (shifted c input.1.lineAddr)) →
    sampledLine c previous.lineAddr = sampledLine c input.1.lineAddr ∧
      ∀ a ∈ during, sampledLine c a.lineAddr ≠ sampledLine c input.1.lineAddr

theorem LlcInv.trainsTruly {s : Llc} {input : MemReq × (Nat → Bool)} (fits : Fits c)
    (inv : LlcInv c s) (sliced : Sliced c s input) : TrainsTruly c s input := by
  obtain ⟨req, isValid⟩ := input
  have isSet : c.getSampledCacheIndex req.lineAddr % c.numSets = setOf c req.lineAddr := by
    rw [index_mod fits, sliced.set, setOf_eq]
  refine ⟨isSet, fun row way sample isSampled isRow trains => ?_⟩
  dsimp only at isSampled isRow trains ⊢
  rw [lineId_div] at isSampled trains
  obtain ⟨valid, isTag, elapsed⟩ := training_spec trains
  obtain ⟨-, recorded⟩ := inv.rows _ row isRow (by rw [isSet]; exact isSampled)
  obtain ⟨during, previous, earlier, split, same, others, signature, ofSet, timestamp⟩ :=
    recorded way valid
  rw [isTag] at same others
  have lines := sliced.lines during previous earlier split ((slices_eq_iff fits _ _).mp same)
    fun a member isLine => others a member ((slices_eq_iff fits _ _).mpr isLine)
  refine ⟨during, previous, earlier, split, lines.1, lines.2, signature, ?_⟩
  · rw [isSet] at ofSet timestamp
    rw [elapsed, inv.clocks _ isSampled, timestamp, split, accessesTo_append, accessesTo_cons,
      if_pos ofSet, computeElapsedTime_mod (by omega)]
    congr 1
    omega

/-- In every run whose addresses are sliced alike with and without the shift, the policy
trains on the time since the previous access to the line; and in a run in which it does, the
shifted addresses select the sets of the addresses. -/
theorem trains_on_reuse_distance (c : LlcConfig) (fits : Fits c)
    (inputs : List (MemReq × (Nat → Bool))) (legal : (llcMachine c).LegalRun inputs (.init c)) :
    ((llcMachine c).Along (Sliced c) inputs (.init c) →
      (llcMachine c).Along (TrainsTruly c) inputs (.init c)) ∧
    ((llcMachine c).Along (TrainsTruly c) inputs (.init c) →
      (llcMachine c).Along (fun _ input => IndexOfSet c input.1.lineAddr) inputs (.init c)) := by
  constructor
  · have keeps : ∀ s input next, LlcInv c s → Sliced c s input → (llcMachine c).legal s input →
        (llcMachine c).step s input = some next → LlcInv c next :=
      fun s input next inv sliced _ step => inv.access fits sliced.set step
    have holds : ∀ s input, LlcInv c s → Sliced c s input → (llcMachine c).legal s input →
        TrainsTruly c s input := fun s input inv sliced _ => inv.trainsTruly fits sliced
    exact legal.along keeps holds .init
  · refine Machine.Along.imp fun s input truly => ?_
    have index := truly.index
    rwa [index_mod fits, setOf_eq] at index

/-- A cache of 4 KB with 4 ways and lines of 64 bytes. -/
def smallLlc : LlcConfig where
  toConfig := fourKB
  isPow2 := by decide

/-- Line 65 is of the second set, with and without the shift. -/
theorem trains_on_reuse_distance_twice :
    (llcMachine smallLlc).Along (TrainsTruly smallLlc)
      [(⟨65, .GETS, false, 0, 100⟩, fun _ => true), (⟨65, .GETX, false, 1, 104⟩, fun _ => true)]
      (.init smallLlc) := by
  refine (trains_on_reuse_distance smallLlc ⟨by decide +kernel, by decide +kernel⟩ _ ?_).1 ?_
  · exact Machine.along_of_forall (fun input member _ => by
      simp only [List.mem_cons, List.not_mem_nil, or_false] at member
      rcases member with rfl | rfl
      · exact Or.inl rfl
      · exact Or.inr rfl) _
  · have ofSet : IndexOfSet smallLlc 65 := by
      unfold IndexOfSet
      decide +kernel
    refine ⟨⟨ofSet, fun during previous earlier split => ?_⟩, fun mid step =>
      ⟨⟨ofSet, fun during previous earlier split _ others => ?_⟩, fun _ _ => trivial⟩⟩
    · exact absurd split.symm (by simp [Llc.init])
    · obtain ⟨history, -⟩ := access_spec step
      have only : ∀ a ∈ mid.history, a.lineAddr = 65 := by
        rw [history]
        intro a member
        rcases List.mem_cons.mp member with rfl | none
        · rfl
        · cases none
      rw [split] at only
      refine ⟨by rw [only previous (by simp)], fun a member => ?_⟩
      exact absurd (by rw [only a (by simp [member])]) (others a member)

/-- The access to line 1, of the second set, trains with the entry of line 0, of the first. -/
theorem neighbour_trained :
    ¬ ∀ (c : LlcConfig), Fits c → ∀ inputs : List (MemReq × (Nat → Bool)),
      (llcMachine c).LegalRun inputs (.init c) →
      (llcMachine c).Along (TrainsTruly c) inputs (.init c) := by
  intro claim
  have along := claim smallLlc ⟨by decide +kernel, by decide +kernel⟩
    [(⟨0, .GETS, false, 0, 100⟩, fun _ => true), (⟨1, .GETS, false, 0, 104⟩, fun _ => true)]
    (Machine.along_of_forall (fun input member _ => by
      simp only [List.mem_cons, List.not_mem_nil, or_false] at member
      rcases member with rfl | rfl <;> exact Or.inl rfl) _)
  have reached : ((Llc.init smallLlc).access smallLlc ⟨0, .GETS, false, 0, 100⟩ fun _ => true).map
      (fun mid => (mid.history.map Access.lineAddr,
        (mid.policy.sampledCacheEntries (smallLlc.getSampledCacheIndex 1)).bind fun row =>
          training row (smallLlc.getSampledCacheTag 1) (mid.policy.currentTimestamp
            (mid.lineId smallLlc ⟨1, .GETS, false, 0, 104⟩ (fun _ => true) / 4)))) =
      some ([0], some (0, 0)) := by
    decide +kernel
  obtain ⟨mid, step, values⟩ := Option.map_eq_some_iff.mp reached
  obtain ⟨lines, trains⟩ := Prod.mk.inj values
  obtain ⟨row, isRow, trains⟩ := Option.bind_eq_some_iff.mp trains
  have isSampled : smallLlc.isSampledSet
      (mid.lineId smallLlc ⟨1, .GETS, false, 0, 104⟩ (fun _ => true) / smallLlc.llcWays) = true := by
    rw [lineId_div]
    decide +kernel
  obtain ⟨during, previous, earlier, split, same, -⟩ :=
    (along.2 mid step).1.sample row 0 0 isSampled isRow trains
  have isZero : previous.lineAddr ∈ mid.history.map Access.lineAddr := by
    rw [split]
    simp
  rw [lines, List.mem_singleton] at isZero
  rw [isZero] at same
  exact absurd same (by decide +kernel)

end Zsim.Mockingjay
