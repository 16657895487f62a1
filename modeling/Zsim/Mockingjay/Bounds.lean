import Zsim.Mockingjay.Sampled

/-!
# Bounds of the predictor

Training and detraining keep an entry of the predictor between 0 and `infRd`.  The first sample of
a signature is stored as it is, and that of a prefetch has been scaled by a factor that depends on
the number of cores.
-/

set_option autoImplicit false

namespace Zsim.Mockingjay

variable {c : Config}

def InRange (rd : Int) : Prop := 0 ≤ rd ∧ rd ≤ infRd

instance (rd : Int) : Decidable (InRange rd) := inferInstanceAs (Decidable (_ ∧ _))

def PredictorOk (rdp : Rdp) : Prop := ∀ signature rd, rdp signature = some rd → InRange rd

def EtrOk (etr : Nat → Int) : Prop := ∀ id, -infEtr ≤ etr id ∧ etr id ≤ infEtr

structure Bounded (p : MockingjayReplPolicy) : Prop where
  rdp : PredictorOk p.rdp
  etr : EtrOk p.etr

/-- A prefetch that trains a signature without an entry does so with a sample in range. -/
def Scaled (c : Config) (p : MockingjayReplPolicy) : Op → Prop
  | .update id req => ∀ row way sample, c.isSampledSet (id / c.llcWays) = true →
      p.sampledCacheEntries (c.getSampledCacheIndex req.lineAddr) = some row →
      training row (c.getSampledCacheTag req.lineAddr) (p.currentTimestamp (id / c.llcWays)) =
        some (way, sample) →
      req.prefetch = true → p.rdp (row way).lastPcSignature = none →
      InRange (c.flexminPenalty sample)
  | _ => True

/-- By at most one, and not past the sample. -/
def MovesTowards (old sample new : Int) : Prop :=
  (old ≤ new ∧ new ≤ sample ∧ new ≤ old + 1) ∨ (sample ≤ new ∧ new ≤ old ∧ old ≤ new + 1)

/-! ## Training -/

theorem temporalDifference_inRange {init : Int} (inRange : InRange init) (sample : Int) :
    InRange (temporalDifference init sample) := by
  obtain ⟨lower, upper⟩ := inRange
  unfold temporalDifference InRange infRd at *
  dsimp only
  split
  · omega
  · split <;> omega

theorem temporalDifference_moves (old : Int) {sample : Nat} (small : (sample : Int) ≤ infRd) :
    MovesTowards old sample (temporalDifference old sample) := by
  unfold temporalDifference MovesTowards infRd at *
  dsimp only
  split
  · left
    omega
  · split
    · right
      omega
    · left
      omega

theorem PredictorOk.update {rdp : Rdp} (ok : PredictorOk rdp) (signature : Nat) {rd : Int}
    (inRange : InRange rd) : PredictorOk (Function.update rdp signature (some rd)) := by
  intro other rd' isRd
  by_cases same : other = signature
  · subst same
    rw [Function.update_self] at isRd
    cases Option.some.inj isRd
    exact inRange
  · rw [Function.update_of_ne same] at isRd
    exact ok other rd' isRd

theorem training_le {row : SampledRow} {tag current : Nat} {way : Fin 5} {sample : Nat}
    (trains : training row tag current = some (way, sample)) : (sample : Int) ≤ infRd := by
  obtain ⟨way', -, trains⟩ := Option.bind_eq_some_iff.mp trains
  dsimp only at trains
  split at trains
  case isTrue small =>
    cases trains
    exact small
  case isFalse => cases trains

theorem PredictorOk.train {rdp : Rdp} (ok : PredictorOk rdp) {req : MemReq} {row : SampledRow}
    {current : Nat}
    (scaled : ∀ way sample, training row (c.getSampledCacheTag req.lineAddr) current =
        some (way, sample) →
      req.prefetch = true → rdp (row way).lastPcSignature = none →
      InRange (c.flexminPenalty sample)) :
    PredictorOk (MockingjayReplPolicy.train c req row rdp current).2 := by
  unfold MockingjayReplPolicy.train
  split
  case h_2 => exact ok
  case h_1 way sample trains =>
    apply ok.update
    have small := training_le trains
    cases known : rdp (row way).lastPcSignature with
    | some init => exact temporalDifference_inRange (ok _ _ known) _
    | none =>
        dsimp only
        split
        case isTrue prefetch => exact scaled way sample trains prefetch known
        case isFalse => exact ⟨Int.natCast_nonneg sample, small⟩

theorem PredictorOk.detrain {rdp : Rdp} (ok : PredictorOk rdp) (row : SampledRow) (way : Fin 5) :
    PredictorOk (detrain row rdp way).2 := by
  unfold Mockingjay.detrain
  split
  case isFalse => exact ok
  case isTrue =>
    apply ok.update
    cases known : rdp (row way).lastPcSignature with
    | none => exact ⟨by decide, Int.le_refl _⟩
    | some rd =>
        obtain ⟨lower, -⟩ := ok _ _ known
        exact ⟨le_min (Int.le_add_one lower) (by decide), Int.min_le_right ..⟩

theorem PredictorOk.evict {rdp : Rdp} (ok : PredictorOk rdp) (row : SampledRow) (current : Nat) :
    PredictorOk (MockingjayReplPolicy.evict row rdp current).2 :=
  evict_induction (P := fun _ rdp => PredictorOk rdp) ok
    (fun row _ way ok => ok.detrain row way) current

theorem PredictorOk.accessRow {rdp : Rdp} (ok : PredictorOk rdp) {req : MemReq} {row : SampledRow}
    {current : Nat} (pc : Nat)
    (scaled : ∀ way sample, training row (c.getSampledCacheTag req.lineAddr) current =
        some (way, sample) →
      req.prefetch = true → rdp (row way).lastPcSignature = none →
      InRange (c.flexminPenalty sample)) :
    PredictorOk (MockingjayReplPolicy.accessRow c req pc current row rdp).2 :=
  (ok.train scaled).evict _ current

theorem train_moves {req : MemReq} {row : SampledRow} {rdp : Rdp} {current : Nat} {way : Fin 5}
    {sample : Nat}
    (trains : training row (c.getSampledCacheTag req.lineAddr) current = some (way, sample))
    (demand : req.prefetch = false) {old : Int} (known : rdp (row way).lastPcSignature = some old) :
    ∃ new, (MockingjayReplPolicy.train c req row rdp current).2 (row way).lastPcSignature =
      some new ∧ MovesTowards old sample new := by
  refine ⟨temporalDifference old sample, ?_, temporalDifference_moves old (training_le trains)⟩
  rw [MockingjayReplPolicy.train, trains]
  dsimp only
  rw [Function.update_self, known, demand]
  rfl

/-! ## The counters -/

theorem prediction_ok {rdp : Rdp} (ok : PredictorOk rdp) (pc : Nat) :
    -infEtr ≤ c.prediction rdp pc ∧ c.prediction rdp pc ≤ infEtr := by
  unfold Config.prediction
  cases known : rdp pc with
  | none =>
      dsimp only
      split <;> decide
  | some rd =>
      obtain ⟨lower, -⟩ := ok pc rd known
      dsimp only
      split
      case isTrue => decide
      case isFalse small =>
        have isDiv : rd.tdiv granularity = rd / granularity := Int.tdiv_eq_ediv_of_nonneg lower
        rw [isDiv]
        unfold maxRd granularity infEtr at *
        omega

theorem EtrOk.update {etr : Nat → Int} (ok : EtrOk etr) (id : Nat) {value : Int}
    (bounds : -infEtr ≤ value ∧ value ≤ infEtr) : EtrOk (Function.update etr id value) := by
  intro other
  by_cases same : other = id
  · rw [same, Function.update_self]
    exact bounds
  · rw [Function.update_of_ne same]
    exact ok other

theorem EtrOk.age {p : MockingjayReplPolicy} (ok : EtrOk p.etr) (id : Nat) :
    EtrOk (p.age c id).etr := by
  unfold MockingjayReplPolicy.age
  dsimp only
  split
  case isFalse => exact ok
  case isTrue =>
    intro i
    obtain ⟨lower, upper⟩ := ok i
    dsimp only
    split
    case isTrue ages =>
      have := ages.2.2.2
      unfold infEtr at *
      omega
    case isFalse => exact ⟨lower, upper⟩

/-- What the sampled cache does not touch. -/
theorem sample_etr {p mid : MockingjayReplPolicy} {set pc : Nat} {req : MemReq}
    (sample : p.sample c set req pc = some mid) : mid.etr = p.etr := by
  unfold MockingjayReplPolicy.sample at sample
  split at sample
  · exact MockingjayReplPolicy.sampledUpdate_etr sample
  · cases Option.some.inj sample
    rfl

theorem EtrOk.writeback {p : MockingjayReplPolicy} (ok : EtrOk p.etr) (id : Nat)
    (type : Coherence.AccessType) : EtrOk (p.writeback id type).etr := by
  unfold MockingjayReplPolicy.writeback
  split
  · exact ok.update id (by decide)
  · exact ok

/-! ## Runs -/

theorem Bounded.init : Bounded (.init c) where
  rdp signature rd isRd := by cases isRd
  etr id := by
    have zero : (MockingjayReplPolicy.init c).etr id = 0 := rfl
    rw [zero]
    decide

theorem Bounded.update {p next : MockingjayReplPolicy} {id : Nat} {req : MemReq}
    (bounded : Bounded p) (scaled : Scaled c p (.update id req))
    (run : p.update c id req = some next) : Bounded next := by
  have rdp : PredictorOk next.rdp := by
    by_cases sampled : c.isSampledSet (id / c.llcWays) = true
    · obtain ⟨row, isRow, -, rdp⟩ := MockingjayReplPolicy.update_sampled run sampled
      rw [rdp]
      exact bounded.rdp.accessRow _ fun way sample => scaled row way sample sampled isRow
    · rw [(MockingjayReplPolicy.update_unsampled run sampled).2]
      exact bounded.rdp
  refine ⟨rdp, ?_⟩
  obtain ⟨mid, sample, run⟩ := Option.bind_eq_some_iff.mp run
  have etr : EtrOk mid.etr := by
    rw [sample_etr sample]
    exact bounded.etr.writeback id req.type
  cases Option.some.inj run
  have aged : EtrOk (mid.age c id).etr := etr.age id
  unfold MockingjayReplPolicy.predict at rdp ⊢
  split at rdp
  case isTrue first =>
    rw [if_pos first]
    exact aged.update id (prediction_ok rdp _)
  case isFalse notFirst =>
    rw [if_neg notFirst]
    exact aged

theorem Bounded.step {p next : MockingjayReplPolicy} {op : Op} (bounded : Bounded p)
    (scaled : Scaled c p op) (step : p.step c op = some next) : Bounded next := by
  cases op with
  | rank _ _ =>
      cases Option.some.inj step
      exact bounded
  | replaced id =>
      cases Option.some.inj step
      exact ⟨bounded.rdp, bounded.etr.update id (by decide)⟩
  | update id req => exact bounded.update scaled step

/-- With 16 to 511 cores the factor is between 0 and 1. -/
theorem scaled_of_numCores (lower : 16 ≤ c.numCores) (upper : c.numCores < 512)
    (p : MockingjayReplPolicy) (op : Op) : Scaled c p op := by
  cases op with
  | rank _ _ | replaced _ => trivial
  | update id req =>
      intro row way sample _ _ trains _ _
      have small := training_le trains
      have atLeast : 4 ≤ c.numCores.log2 := (Nat.le_log2 (by omega)).mpr lower
      have atMost : c.numCores.log2 < 9 := (Nat.log2_lt (by omega)).mpr upper
      have nonneg : 0 ≤ (sample : Int) * (8 - (c.numCores.log2 : Int)) :=
        Int.mul_nonneg (Int.natCast_nonneg sample) (by omega)
      have le : (sample : Int) * (8 - (c.numCores.log2 : Int)) ≤ sample * 4 :=
        Int.mul_le_mul_of_nonneg_left (by omega) (Int.natCast_nonneg sample)
      rw [Config.flexminPenalty, Int.tdiv_eq_ediv_of_nonneg nonneg, InRange]
      omega

/-- In every run the entries of the predictor and the counters keep their bounds as long as the
scaled samples do, which is always so with 16 to 511 cores; and in every state a demand access
moves an entry towards its sample. -/
theorem predictor_bounded (c : Config) {ops : List Op} (legal : (machine c).LegalRun ops (.init c)) :
    ((machine c).Along (Scaled c) ops (.init c) →
      (machine c).Throughout Bounded ops (.init c)) ∧
    (16 ≤ c.numCores → c.numCores < 512 → (machine c).Along (Scaled c) ops (.init c)) ∧
    ∀ final, (machine c).exec ops (.init c) = some final → ∀ id req row way sample old,
      c.isSampledSet (id / c.llcWays) = true →
      final.sampledCacheEntries (c.getSampledCacheIndex req.lineAddr) = some row →
      training row (c.getSampledCacheTag req.lineAddr) (final.currentTimestamp (id / c.llcWays)) =
        some (way, sample) →
      req.prefetch = false → final.rdp (row way).lastPcSignature = some old →
      ∃ new, (MockingjayReplPolicy.train c req row final.rdp
          (final.currentTimestamp (id / c.llcWays))).2 (row way).lastPcSignature = some new ∧
        MovesTowards old sample new := by
  refine ⟨?_, ?_, ?_⟩
  · intro scaled first rest mid split run
    subst split
    have keeps : ∀ p op next, Bounded p → (machine c).legal p op → Scaled c p op →
        (machine c).step p op = some next → Bounded next :=
      fun p op next bounded _ scaled step => bounded.step scaled step
    have legalFirst : (machine c).LegalRun first (.init c) := Machine.Along.of_append legal
    exact Machine.exec_keeps_restrict keeps .init (legalFirst.restrict scaled.of_append) run
  · intro lower upper
    exact Machine.along_of_forall (fun op _ p => scaled_of_numCores lower upper p op) _
  · intro final _ id req row way sample old _ _ trains demand known
    exact train_moves trains demand known

/-- The same cache in a system of many cores. -/
def manyCores (numCores : Nat) : Config := { fourKB with numCores := numCores }

theorem predictor_bounded_sixteen :
    (machine (manyCores 16)).Throughout Bounded
      [.update 1 ⟨16, .GETS, false, 0, 100⟩, .replaced 3, .update 3 ⟨16, .GETS, true, 1, 104⟩]
      (.init (manyCores 16)) := by
  have bounded := predictor_bounded (manyCores 16)
    (show (machine (manyCores 16)).LegalRun
      [.update 1 ⟨16, .GETS, false, 0, 100⟩, .replaced 3, .update 3 ⟨16, .GETS, true, 1, 104⟩]
      (.init (manyCores 16)) by decide +kernel)
  exact bounded.1 (bounded.2.1 (by decide) (by decide))

/-- A prefetch of a line a hundred accesses after its first access: two cores scale by 7/4. -/
def latePrefetch : List Op :=
  .update 1 ⟨0, .GETS, false, 0, 101⟩ ::
    (List.replicate 99 (.update 2 ⟨64, .GETS, false, 0, 104⟩) ++ [.update 1 ⟨0, .GETS, true, 0, 101⟩])

theorem prefetch_trains_past_infRd :
    ¬ ∀ (c : Config) (ops : List Op), (machine c).LegalRun ops (.init c) →
      (machine c).Throughout Bounded ops (.init c) := by
  intro claim
  have bounded := claim fourKB latePrefetch (by decide +kernel)
  have reached : ((machine fourKB).exec latePrefetch (.init fourKB)).map
      (fun final => final.rdp (fourKB.signature ⟨0, .GETS, false, 0, 101⟩)) = some (some 175) := by
    decide +kernel
  obtain ⟨final, run, trained⟩ := Option.map_eq_some_iff.mp reached
  have inRange := (bounded _ [] final (List.append_nil _).symm run).rdp _ _ trained
  exact absurd inRange (by decide)

end Zsim.Mockingjay
