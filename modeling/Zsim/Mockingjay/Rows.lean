import Zsim.Mockingjay.Model

/-!
# A row of the sampled cache

What an access does to the row it looks at: the lines with its tag are gone, others may
have been given up, and one way holds the access.
-/

set_option autoImplicit false

namespace Zsim.Mockingjay

variable {c : Config}

/-! ## The slices of an address -/

theorem lowBits_eq {bits : Nat} (value : Nat) (pos : 0 < bits) (le : bits ≤ 64) :
    c.lowBits value bits = value % 2 ^ bits := by
  have count : u32Sub 64 bits = 64 - bits := u32Sub_of_le (by decide) le
  have split : 2 ^ 64 = 2 ^ bits * 2 ^ (64 - bits) := by
    rw [← Nat.pow_add, Nat.add_sub_cancel' le]
  rw [Config.lowBits, count, c.shifts.shl_of_lt _ (by omega), c.shifts.shr_of_lt _ (by omega),
    split, Nat.mul_mod_mul_right, Nat.mul_div_cancel _ (Nat.two_pow_pos _)]

theorem numSets_pos : 0 < c.numSets :=
  Nat.div_pos (Nat.le_of_dvd c.linesPos (Nat.dvd_of_mod_eq_zero c.multiple)) c.waysPos

theorem numSets_mul : c.numSets * c.llcWays = c.numLines :=
  Nat.div_mul_cancel (Nat.dvd_of_mod_eq_zero c.multiple)

theorem log2LlcSet_lt : c.log2LlcSet < 32 :=
  Nat.log2_lt numSets_pos.ne' |>.mpr (Nat.lt_of_le_of_lt (Nat.div_le_self ..) c.linesWord)

theorem log2BlockSize_lt : c.log2BlockSize < 32 :=
  Nat.log2_lt c.sizePos.ne' |>.mpr c.sizeWord

theorem getSampledCacheIndex_eq (fullAddr : Nat) :
    c.getSampledCacheIndex fullAddr =
      u32 (fullAddr / 2 ^ c.log2BlockSize % 2 ^ (4 + c.log2LlcSet)) := by
  have sets := log2LlcSet_lt (c := c)
  have block := log2BlockSize_lt (c := c)
  rw [Config.getSampledCacheIndex, lowBits_eq _ (by unfold log2SampledCacheSets; omega)
    (by unfold log2SampledCacheSets; omega), c.shifts.shr_of_lt _ (by omega)]
  rfl

/-! ## What a row keeps -/

def Purged (row row' : SampledRow) : Prop :=
  ∀ w, row' w = row w ∨ row' w = { row w with valid := false }

theorem Purged.refl (row : SampledRow) : Purged row row := fun _ => Or.inl rfl

theorem Purged.trans {row mid row' : SampledRow} (first : Purged row mid) (second : Purged mid row') :
    Purged row row' := by
  intro w
  rcases second w with same | gone
  · rw [same]
    exact first w
  · rcases first w with same | gone'
    · rw [gone, same]
      exact Or.inr rfl
    · rw [gone, gone']
      exact Or.inr rfl

theorem Purged.eq_of_valid {row row' : SampledRow} (purged : Purged row row') {w : Fin 5}
    (valid : (row' w).valid = true) : row' w = row w := by
  rcases purged w with same | gone
  · exact same
  · rw [gone] at valid
    cases valid

theorem purged_invalidate (row : SampledRow) (way : Fin 5) : Purged row (invalidate row way) := by
  intro w
  by_cases same : w = way
  · rw [same, invalidate, Function.update_self]
    exact Or.inr rfl
  · rw [invalidate, Function.update_of_ne same]
    exact Or.inl rfl

theorem invalidate_self (row : SampledRow) (way : Fin 5) :
    (invalidate row way way).valid = false := by
  rw [invalidate, Function.update_self]

theorem detrain_spec (row : SampledRow) (rdp : Rdp) (way : Fin 5) :
    Purged row (detrain row rdp way).1 ∧ ((detrain row rdp way).1 way).valid = false := by
  unfold detrain
  split
  case isTrue => exact ⟨purged_invalidate row way, invalidate_self row way⟩
  case isFalse invalid => exact ⟨.refl row, Bool.eq_false_iff.mpr invalid⟩

theorem detrain_invalid {row : SampledRow} {way : Fin 5} (invalid : (row way).valid = false)
    (rdp : Rdp) : detrain row rdp way = (row, rdp) := by
  rw [detrain, invalid]
  rfl

/-! ## The scan for the least recently used way -/

theorem evict_induction {P : SampledRow → Rdp → Prop} {row : SampledRow} {rdp : Rdp}
    (start : P row rdp)
    (step : ∀ row rdp way, P row rdp → P (detrain row rdp way).1 (detrain row rdp way).2)
    (current : Nat) :
    P (MockingjayReplPolicy.evict row rdp current).1
      (MockingjayReplPolicy.evict row rdp current).2 := by
  have round (scan : LruScan) (i : Fin 5) (holds : P scan.row scan.rdp) :
      P (scan.round current i).row (scan.round current i).rdp := by
    unfold LruScan.round
    dsimp only
    split
    · split
      · exact step scan.row scan.rdp i holds
      · split <;> exact holds
    · exact holds
  have rounds (ways : List (Fin 5)) : ∀ scan : LruScan, P scan.row scan.rdp →
      P (ways.foldl (LruScan.round current) scan).row
        (ways.foldl (LruScan.round current) scan).rdp := by
    induction ways with
    | nil => exact fun _ holds => holds
    | cons i rest ih => exact fun scan holds => ih _ (round scan i holds)
  have scanned := rounds (List.finRange 5) ⟨none, -1, row, rdp⟩ start
  unfold MockingjayReplPolicy.evict
  dsimp only
  split
  · exact step _ _ _ scanned
  · exact scanned

/-- The scan has started from the row, and has a way unless it has not begun. -/
structure ScanOk (row : SampledRow) (scan : LruScan) : Prop where
  purged : Purged row scan.row
  begun : scan.lruWay = none → scan.lruRd = -1

theorem ScanOk.round {row : SampledRow} {scan : LruScan} (ok : ScanOk row scan) (current : Nat)
    (i : Fin 5) :
    ScanOk row (scan.round current i) ∧ (scan.round current i).lruWay ≠ none ∧
      Purged scan.row (scan.round current i).row ∧
      ((scan.row i).valid = true →
        infRd < computeElapsedTime current (scan.row i).timestamp →
        ((scan.round current i).row i).valid = false) := by
  unfold LruScan.round
  dsimp only
  split
  case isTrue valid =>
    split
    case isTrue isScan =>
      obtain ⟨purged, gone⟩ := detrain_spec scan.row scan.rdp i
      exact ⟨⟨ok.purged.trans purged, fun none => absurd none (Option.some_ne_none i)⟩,
        Option.some_ne_none i, purged,
        fun _ _ => gone⟩
    case isFalse notScan =>
      split
      case isTrue =>
        exact ⟨⟨ok.purged, fun none => absurd none (Option.some_ne_none i)⟩,
        Option.some_ne_none i, .refl _,
          fun _ isScan => absurd isScan notScan⟩
      case isFalse notLess =>
        refine ⟨ok, fun none => ?_, .refl _, fun _ isScan => absurd isScan notScan⟩
        have := ok.begun none
        omega
  case isFalse invalid =>
    exact ⟨⟨ok.purged, fun none => absurd none (Option.some_ne_none i)⟩,
        Option.some_ne_none i, .refl _,
      fun valid => absurd valid invalid⟩

theorem ScanOk.foldl {row : SampledRow} (current : Nat) (ways : List (Fin 5)) {scan : LruScan}
    (ok : ScanOk row scan) :
    ScanOk row (ways.foldl (LruScan.round current) scan) ∧
      Purged scan.row (ways.foldl (LruScan.round current) scan).row ∧
      (ways ≠ [] → (ways.foldl (LruScan.round current) scan).lruWay ≠ none) ∧
      ∀ w ∈ ways, infRd < computeElapsedTime current (scan.row w).timestamp →
        ((ways.foldl (LruScan.round current) scan).row w).valid = false := by
  induction ways generalizing scan with
  | nil => exact ⟨ok, .refl _, fun some' => absurd rfl some', fun _ member => nomatch member⟩
  | cons i rest ih =>
      obtain ⟨ok', found, purged, gone⟩ := ok.round current i
      obtain ⟨okRest, purgedRest, foundRest, goneRest⟩ := ih ok'
      rw [List.foldl_cons]
      refine ⟨okRest, purged.trans purgedRest, fun _ => ?_, fun w member isScan => ?_⟩
      · cases rest with
        | nil => exact found
        | cons j rest => exact foundRest (List.cons_ne_nil j rest)
      · by_contra valid
        rw [Bool.not_eq_false] at valid
        have afterRound := purgedRest.eq_of_valid valid
        rw [afterRound] at valid
        have before := purged.eq_of_valid valid
        rcases List.mem_cons.mp member with rfl | later
        · have invalid := gone (by rw [← before]; exact valid) isScan
          rw [valid] at invalid
          cases invalid
        · have invalid := goneRest w later (by rw [before]; exact isScan)
          rw [afterRound, valid] at invalid
          cases invalid

theorem evict_spec (row : SampledRow) (rdp : Rdp) (current : Nat) :
    Purged row (MockingjayReplPolicy.evict row rdp current).1 ∧
      (∃ w, ((MockingjayReplPolicy.evict row rdp current).1 w).valid = false) ∧
      ∀ w, infRd < computeElapsedTime current (row w).timestamp →
        ((MockingjayReplPolicy.evict row rdp current).1 w).valid = false := by
  have start : ScanOk row ⟨none, -1, row, rdp⟩ := ⟨.refl row, fun _ => rfl⟩
  obtain ⟨-, purged, found, gone⟩ := start.foldl current (List.finRange 5)
  unfold MockingjayReplPolicy.evict
  dsimp only
  split
  case h_1 way isLru =>
    generalize (List.finRange 5).foldl (LruScan.round current) ⟨none, -1, row, rdp⟩ = scan at *
    obtain ⟨purged', gone'⟩ := detrain_spec scan.row scan.rdp way
    refine ⟨purged.trans purged', ⟨way, gone'⟩, fun w isScan => ?_⟩
    rcases purged' w with same | invalid
    · rw [same]
      exact gone w (List.mem_finRange w) isScan
    · rw [invalid]
  case h_2 none => exact absurd none (found (by decide))

theorem record_spec {row : SampledRow} (line : SampledCacheLine)
    (free : ∃ w, (row w).valid = false) :
    ∃ way, (row way).valid = false ∧
      MockingjayReplPolicy.record row line = Function.update row way line := by
  obtain ⟨w, invalid⟩ := free
  unfold MockingjayReplPolicy.record
  cases first : (List.finRange 5).find? fun w => !(row w).valid with
  | none =>
      have := List.find?_eq_none.mp first w (List.mem_finRange w)
      simp [invalid] at this
  | some way => exact ⟨way, by simpa using List.find?_some first, rfl⟩

/-! ## Training -/

theorem findInSampledCache_spec {row : SampledRow} {tag : Nat} {way : Fin 5}
    (found : findInSampledCache row tag = some way) :
    (row way).valid = true ∧ (row way).tag = tag := by
  simpa using List.find?_some found

theorem training_spec {row : SampledRow} {tag current : Nat} {way : Fin 5} {sample : Nat}
    (trains : training row tag current = some (way, sample)) :
    (row way).valid = true ∧ (row way).tag = tag ∧
      sample = computeElapsedTime current (row way).timestamp := by
  obtain ⟨way', found, trains⟩ := Option.bind_eq_some_iff.mp trains
  dsimp only at trains
  split at trains
  case isFalse => cases trains
  case isTrue =>
    cases trains
    obtain ⟨valid, tag⟩ := findInSampledCache_spec found
    exact ⟨valid, tag, rfl⟩

theorem training_or_scan {row : SampledRow} {tag current : Nat} {w : Fin 5}
    (unique : ∀ w w', (row w).valid = true → (row w').valid = true → (row w).tag = (row w').tag →
      w = w') (valid : (row w).valid = true) (isTag : (row w).tag = tag) :
    (∃ sample, training row tag current = some (w, sample)) ∨
      infRd < computeElapsedTime current (row w).timestamp := by
  have found : findInSampledCache row tag = some w := by
    cases search : findInSampledCache row tag with
    | none =>
        have := List.find?_eq_none.mp search w (List.mem_finRange w)
        simp [valid, isTag] at this
    | some way =>
        obtain ⟨valid', isTag'⟩ := findInSampledCache_spec search
        rw [unique way w valid' valid (isTag'.trans isTag.symm)]
  by_cases small : (computeElapsedTime current (row w).timestamp : Int) ≤ infRd
  · left
    refine ⟨computeElapsedTime current (row w).timestamp, ?_⟩
    simp only [training, found, Option.bind_eq_bind, Option.bind_some, if_pos small]
  · exact Or.inr (Int.not_le.mp small)

theorem train_spec (req : MemReq) (row : SampledRow) (rdp : Rdp) (current : Nat) :
    Purged row (MockingjayReplPolicy.train c req row rdp current).1 ∧
      ∀ way sample, training row (c.getSampledCacheTag req.lineAddr) current = some (way, sample) →
        ((MockingjayReplPolicy.train c req row rdp current).1 way).valid = false := by
  unfold MockingjayReplPolicy.train
  split
  case h_1 way sample trains =>
    refine ⟨purged_invalidate row way, fun way' sample' trains' => ?_⟩
    cases Option.some.inj (trains.symm.trans trains')
    exact invalidate_self row way
  case h_2 none =>
    refine ⟨.refl row, fun way sample trains => ?_⟩
    rw [none] at trains
    cases trains

/-! ## One access -/

def Distinct (row : SampledRow) : Prop :=
  ∀ w w', (row w).valid = true → (row w').valid = true → (row w).tag = (row w').tag → w = w'

structure Accessed (row row' : SampledRow) (line : SampledCacheLine) : Prop where
  recorded : ∃ way, row' way = line ∧
    ∀ w, w ≠ way → (row' w).valid = true → row' w = row w ∧ (row w).tag ≠ line.tag

theorem accessed (req : MemReq) (row : SampledRow) (rdp : Rdp) (current pc : Nat)
    (distinct : Distinct row) :
    Accessed row (MockingjayReplPolicy.accessRow c req pc current row rdp).1
      ⟨true, c.getSampledCacheTag req.lineAddr, pc, current⟩ := by
  unfold MockingjayReplPolicy.accessRow
  dsimp only
  obtain ⟨trained, invalid⟩ := train_spec (c := c) req row rdp current
  generalize MockingjayReplPolicy.train c req row rdp current = afterTrain at trained invalid ⊢
  obtain ⟨evicted, free, scans⟩ := evict_spec afterTrain.1 afterTrain.2 current
  generalize MockingjayReplPolicy.evict afterTrain.1 afterTrain.2 current = afterEvict at evicted free scans ⊢
  obtain ⟨way, -, filled⟩ := record_spec
    ⟨true, c.getSampledCacheTag req.lineAddr, pc, current⟩ free
  rw [filled]
  refine ⟨way, Function.update_self .., fun w other valid => ?_⟩
  rw [Function.update_of_ne other] at valid ⊢
  have kept := (trained.trans evicted).eq_of_valid valid
  refine ⟨kept, fun isTag => ?_⟩
  have validBefore : (row w).valid = true := by rwa [← kept]
  -- a line with the tag has been trained with, or given up as a scan
  have either : (∃ sample, training row (c.getSampledCacheTag req.lineAddr) current = some (w, sample)) ∨
      infRd < computeElapsedTime current (row w).timestamp :=
    training_or_scan distinct validBefore isTag
  rcases either with ⟨sample, trains⟩ | isScan
  · have gone := invalid w sample trains
    rw [← evicted.eq_of_valid valid, valid] at gone
    cases gone
  · have same : (afterTrain.1 w) = row w := by rw [← evicted.eq_of_valid valid, kept]
    have gone := scans w (by rw [same]; exact isScan)
    rw [valid] at gone
    cases gone

theorem Accessed.distinct {row row' : SampledRow} {line : SampledCacheLine}
    (accessed : Accessed row row' line) (distinct : Distinct row) : Distinct row' := by
  obtain ⟨way, isLine, others⟩ := accessed.recorded
  intro w w' valid valid' same
  by_cases here : w = way
  · by_cases here' : w' = way
    · rw [here, here']
    · obtain ⟨eq', apart⟩ := others w' here' valid'
      rw [here, isLine, eq'] at same
      exact absurd same.symm apart
  · obtain ⟨eq, apart⟩ := others w here valid
    by_cases here' : w' = way
    · rw [here', isLine, eq] at same
      exact absurd same apart
    · obtain ⟨eq', -⟩ := others w' here' valid'
      rw [eq, eq'] at same
      exact distinct w w' (eq ▸ valid) (eq' ▸ valid') same

theorem sampledUpdate_spec {p next : MockingjayReplPolicy} {set pc : Nat} {req : MemReq}
    (run : p.sampledUpdate c set req pc = some next) :
    ∃ row row', p.sampledCacheEntries (c.getSampledCacheIndex req.lineAddr) = some row ∧
      next.sampledCacheEntries = Function.update p.sampledCacheEntries
        (c.getSampledCacheIndex req.lineAddr) (some row') ∧
      next.currentTimestamp = Function.update p.currentTimestamp set
        (updateTimestamp (p.currentTimestamp set)) ∧
      (Distinct row → Accessed row row'
        ⟨true, c.getSampledCacheTag req.lineAddr, pc, p.currentTimestamp set⟩) := by
  obtain ⟨row, isRow, run⟩ := Option.bind_eq_some_iff.mp run
  cases Option.some.inj run
  exact ⟨row, _, isRow, rfl, rfl, accessed req row p.rdp (p.currentTimestamp set) pc⟩

/-! ## A row that holds nothing -/

def Blank (row : SampledRow) : Prop := ∀ w, (row w).valid = false

theorem Blank.evict {row : SampledRow} (blank : Blank row) (rdp : Rdp) (current : Nat) :
    (MockingjayReplPolicy.evict row rdp current).2 = rdp := by
  have step (row' : SampledRow) (rdp' : Rdp) (way : Fin 5) (same : row' = row ∧ rdp' = rdp) :
      (detrain row' rdp' way).1 = row ∧ (detrain row' rdp' way).2 = rdp := by
    obtain ⟨rfl, rfl⟩ := same
    rw [detrain_invalid (blank way)]
    exact ⟨rfl, rfl⟩
  have start : row = row ∧ rdp = rdp := ⟨rfl, rfl⟩
  exact (evict_induction (P := fun row' rdp' => row' = row ∧ rdp' = rdp) start step current).2

theorem Blank.rdp {row : SampledRow} (blank : Blank row) (req : MemReq) (pc current : Nat)
    (rdp : Rdp) : (MockingjayReplPolicy.accessRow c req pc current row rdp).2 = rdp := by
  have noTraining : training row (c.getSampledCacheTag req.lineAddr) current = none := by
    cases trains : training row (c.getSampledCacheTag req.lineAddr) current with
    | none => rfl
    | some found =>
        obtain ⟨way, sample⟩ := found
        have := (training_spec trains).1
        rw [blank] at this
        cases this
  have trained : MockingjayReplPolicy.train c req row rdp current = (row, rdp) := by
    unfold MockingjayReplPolicy.train
    rw [noTraining]
  unfold MockingjayReplPolicy.accessRow
  dsimp only
  rw [trained]
  exact blank.evict rdp current

end Zsim.Mockingjay
