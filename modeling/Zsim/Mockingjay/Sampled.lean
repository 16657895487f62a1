import Zsim.Mockingjay.Predictions

/-!
# The sampled cache

A row has one line for each tag, and an update of a sampled set gives up a line only for one
of three reasons.  The loop over the ways has either a way that is free or the oldest line, and
there is none that is free only if all lines are valid.
-/

set_option autoImplicit false

namespace Zsim.Mockingjay

variable {c : Config}

/-! ## Updates -/

namespace MockingjayReplPolicy

theorem writeback_sampled (p : MockingjayReplPolicy) (id : Nat) (type : Coherence.AccessType) :
    (p.writeback id type).sampledCacheEntries = p.sampledCacheEntries ∧
      (p.writeback id type).rdp = p.rdp ∧
      (p.writeback id type).currentTimestamp = p.currentTimestamp := by
  unfold writeback
  split <;> exact ⟨rfl, rfl, rfl⟩

theorem finish_sampled (p : MockingjayReplPolicy) (id pc : Nat) :
    ((p.age c id).predict c id pc).sampledCacheEntries = p.sampledCacheEntries ∧
      ((p.age c id).predict c id pc).rdp = p.rdp ∧
      ((p.age c id).predict c id pc).currentTimestamp = p.currentTimestamp := by
  unfold predict age
  dsimp only
  split <;> split <;> exact ⟨rfl, rfl, rfl⟩

theorem update_sampled {p next : MockingjayReplPolicy} {id : Nat} {req : MemReq}
    (run : p.update c id req = some next) (sampled : c.isSampledSet (id / c.llcWays) = true) :
    ∃ row, p.sampledCacheEntries (c.getSampledCacheIndex req.lineAddr) = some row ∧
      next.sampledCacheEntries = Function.update p.sampledCacheEntries
        (c.getSampledCacheIndex req.lineAddr)
        (some (accessRow c req (c.signature req) (p.currentTimestamp (id / c.llcWays)) row
          p.rdp).1) ∧
      next.rdp = (accessRow c req (c.signature req) (p.currentTimestamp (id / c.llcWays)) row
        p.rdp).2 := by
  obtain ⟨mid, sample, run⟩ := Option.bind_eq_some_iff.mp run
  cases Option.some.inj run
  obtain ⟨entries, rdp, timestamp⟩ := writeback_sampled p id req.type
  obtain ⟨entries', rdp', -⟩ := finish_sampled (c := c) mid id (c.signature req)
  rw [MockingjayReplPolicy.sample, if_pos sampled] at sample
  obtain ⟨row, isRow, sample⟩ := Option.bind_eq_some_iff.mp sample
  cases Option.some.inj sample
  rw [entries] at isRow
  refine ⟨row, isRow, ?_, ?_⟩
  · rw [entries']
    dsimp only
    rw [entries, rdp, timestamp]
  · rw [rdp']
    dsimp only
    rw [rdp, timestamp]

theorem update_unsampled {p next : MockingjayReplPolicy} {id : Nat} {req : MemReq}
    (run : p.update c id req = some next) (unsampled : c.isSampledSet (id / c.llcWays) ≠ true) :
    next.sampledCacheEntries = p.sampledCacheEntries ∧ next.rdp = p.rdp := by
  obtain ⟨mid, sample, run⟩ := Option.bind_eq_some_iff.mp run
  cases Option.some.inj run
  obtain ⟨entries, rdp, -⟩ := writeback_sampled p id req.type
  obtain ⟨entries', rdp', -⟩ := finish_sampled (c := c) mid id (c.signature req)
  rw [MockingjayReplPolicy.sample, if_neg unsampled] at sample
  cases Option.some.inj sample
  exact ⟨entries'.trans entries, rdp'.trans rdp⟩

end MockingjayReplPolicy

/-! ## What the loop finds -/

/-- The age of a line, which wraps around. -/
def elapsed (row : SampledRow) (current : Nat) (w : Fin 5) : Nat :=
  computeElapsedTime current (row w).timestamp

/-- The way that the loop has: a free one, or that of the oldest line so far. -/
inductive Found (row : SampledRow) (current : Nat) (done : List (Fin 5)) (scan : LruScan) : Prop
  | none (empty : done = []) (lruRd : scan.lruRd = -1)
  | free (way : Fin 5) (lruWay : scan.lruWay = some way) (invalid : (scan.row way).valid = false)
      (lruRd : scan.lruRd = infRd + 1)
  | oldest (way : Fin 5) (lruWay : scan.lruWay = some way)
      (lruRd : scan.lruRd = elapsed row current way)
      (older : ∀ w ∈ done, (row w).valid = true ∧ (elapsed row current w : Int) ≤ infRd ∧
        elapsed row current w ≤ elapsed row current way)

/-- The loop after the ways that are done. -/
structure Scanned (row : SampledRow) (current : Nat) (done : List (Fin 5)) (scan : LruScan) :
    Prop where
  purged : Purged row scan.row
  ahead : ∀ w, w ∉ done → scan.row w = row w
  gone : ∀ w, (row w).valid = true → (scan.row w).valid = false →
    infRd < elapsed row current w
  found : Found row current done scan

theorem detrain_other (row : SampledRow) (rdp : Rdp) {way w : Fin 5} (other : w ≠ way) :
    (detrain row rdp way).1 w = row w := by
  unfold detrain
  split
  · exact Function.update_of_ne other ..
  · rfl

theorem Scanned.round {row : SampledRow} {current : Nat} {done : List (Fin 5)} {scan : LruScan}
    (scanned : Scanned row current done scan) {i : Fin 5} (new : i ∉ done) :
    Scanned row current (i :: done) (scan.round current i) := by
  have entry : scan.row i = row i := scanned.ahead i new
  have rest : ∀ w, w ∉ i :: done → scan.row w = row w := fun w other =>
    scanned.ahead w fun member => other (List.mem_cons_of_mem i member)
  unfold LruScan.round
  dsimp only
  by_cases valid : (scan.row i).valid = true
  case neg =>
    rw [if_neg valid]
    exact ⟨scanned.purged, rest, scanned.gone,
      .free i rfl (Bool.eq_false_iff.mpr valid) rfl⟩
  rw [if_pos valid]
  by_cases stale : (computeElapsedTime current (scan.row i).timestamp : Int) > infRd
  · rw [if_pos stale]
    obtain ⟨purged, invalid⟩ := detrain_spec scan.row scan.rdp i
    refine ⟨scanned.purged.trans purged, ?_, ?_, .free i rfl invalid rfl⟩
    · intro w other
      have ne : w ≠ i := fun same => other (same ▸ List.mem_cons_self)
      exact (detrain_other _ _ ne).trans (rest w other)
    · intro w wasValid isInvalid
      by_cases same : w = i
      · subst same
        rw [entry] at stale
        exact stale
      · dsimp only at isInvalid
        rw [detrain_other _ _ same] at isInvalid
        exact scanned.gone w wasValid isInvalid
  rw [if_neg stale]
  rw [entry] at valid stale ⊢
  have young : (elapsed row current i : Int) ≤ infRd := Int.not_lt.mp stale
  by_cases older : (computeElapsedTime current (row i).timestamp : Int) > scan.lruRd
  · rw [if_pos older]
    refine ⟨scanned.purged, rest, scanned.gone, .oldest i rfl rfl ?_⟩
    intro w member
    rcases List.mem_cons.mp member with rfl | earlier
    · exact ⟨valid, young, Nat.le_refl _⟩
    · cases scanned.found with
      | none empty =>
          rw [empty] at earlier
          cases earlier
      | free way _ _ lruRd =>
          have : (elapsed row current i : Int) > scan.lruRd := older
          omega
      | oldest way _ lruRd others =>
          obtain ⟨wasValid, wasYoung, le⟩ := others w earlier
          have : (elapsed row current i : Int) > scan.lruRd := older
          exact ⟨wasValid, wasYoung, by omega⟩
  · rw [if_neg older]
    have notOlder : (elapsed row current i : Int) ≤ scan.lruRd := Int.not_lt.mp older
    refine ⟨scanned.purged, rest, scanned.gone, ?_⟩
    cases scanned.found with
    | none _ lruRd => omega
    | free way lruWay invalid lruRd => exact .free way lruWay invalid lruRd
    | oldest way lruWay lruRd others =>
        refine .oldest way lruWay lruRd ?_
        intro w member
        rcases List.mem_cons.mp member with rfl | earlier
        · exact ⟨valid, young, by omega⟩
        · exact others w earlier

theorem Scanned.foldl {row : SampledRow} {current : Nat} (ways : List (Fin 5))
    {done : List (Fin 5)} {scan : LruScan} (scanned : Scanned row current done scan)
    (distinct : ways.Nodup) (new : ∀ w ∈ ways, w ∉ done) :
    Scanned row current (ways.reverse ++ done) (ways.foldl (LruScan.round current) scan) := by
  induction ways generalizing done scan with
  | nil => exact scanned
  | cons i rest ih =>
      obtain ⟨notIn, distinctRest⟩ := List.nodup_cons.mp distinct
      have round := scanned.round (new i List.mem_cons_self)
      rw [List.foldl_cons, List.reverse_cons, List.append_assoc]
      apply ih round distinctRest
      intro w member isDone
      rcases List.mem_cons.mp isDone with rfl | earlier
      · exact notIn member
      · exact new w (List.mem_cons_of_mem i member) earlier

/-- The loop of an update. -/
def lruScan (row : SampledRow) (rdp : Rdp) (current : Nat) : LruScan :=
  (List.finRange 5).foldl (LruScan.round current) ⟨none, -1, row, rdp⟩

theorem lruScan_scanned (row : SampledRow) (rdp : Rdp) (current : Nat) :
    Scanned row current ((List.finRange 5).reverse ++ []) (lruScan row rdp current) := by
  have start : Scanned row current [] ⟨none, -1, row, rdp⟩ := by
    refine ⟨.refl row, fun _ _ => rfl, ?_, .none rfl rfl⟩
    intro w valid invalid
    cases valid.symm.trans invalid
  exact start.foldl _ (List.nodup_finRange 5) fun _ _ isDone => by cases isDone

theorem evict_eq {row : SampledRow} {rdp : Rdp} {current : Nat} {way : Fin 5}
    (lruWay : (lruScan row rdp current).lruWay = some way) :
    MockingjayReplPolicy.evict row rdp current =
      detrain (lruScan row rdp current).row (lruScan row rdp current).rdp way := by
  unfold lruScan at lruWay ⊢
  unfold MockingjayReplPolicy.evict
  dsimp only
  rw [lruWay]

theorem lruScan_found (row : SampledRow) (rdp : Rdp) (current : Nat) :
    (lruScan row rdp current).lruWay ≠ none := by
  cases (lruScan_scanned row rdp current).found with
  | none empty => cases empty
  | free way lruWay => simp [lruWay]
  | oldest way lruWay => simp [lruWay]

/-- A line is given up because it is too old, or as the oldest one of a full row. -/
theorem evict_drops {row : SampledRow} {rdp : Rdp} {current : Nat} {w : Fin 5}
    (valid : (row w).valid = true)
    (dropped : ((MockingjayReplPolicy.evict row rdp current).1 w).valid = false) :
    infRd < elapsed row current w ∨
      ∀ v, (row v).valid = true ∧ (elapsed row current v : Int) ≤ infRd ∧
        elapsed row current v ≤ elapsed row current w := by
  have scanned := lruScan_scanned row rdp current
  cases scanned.found with
  | none empty => cases empty
  | free way lruWay invalid =>
      rw [evict_eq lruWay, detrain_invalid invalid] at dropped
      exact .inl (scanned.gone w valid dropped)
  | oldest way lruWay lruRd older =>
      rw [evict_eq lruWay] at dropped
      by_cases same : w = way
      · subst same
        exact .inr fun v => older v (by simp)
      · rw [detrain_other _ _ same] at dropped
        exact .inl (scanned.gone w valid dropped)

theorem train_drops {req : MemReq} {row : SampledRow} {rdp : Rdp} {current : Nat} {w : Fin 5}
    (valid : (row w).valid = true)
    (dropped : ((MockingjayReplPolicy.train c req row rdp current).1 w).valid = false) :
    (row w).tag = c.getSampledCacheTag req.lineAddr := by
  unfold MockingjayReplPolicy.train at dropped
  cases trains : training row (c.getSampledCacheTag req.lineAddr) current with
  | none =>
      rw [trains] at dropped
      cases valid.symm.trans dropped
  | some trained =>
      rw [trains] at dropped
      dsimp only at dropped
      by_cases same : w = trained.1
      · subst same
        exact (training_spec trains).2.1
      · rw [invalidate, Function.update_of_ne same] at dropped
        cases valid.symm.trans dropped

/-! ## One update -/

/-- A line is given up because it has been hit, because it is too old, or as the oldest one of a
row whose lines are all valid and not hit. -/
inductive Dropped (row : SampledRow) (tag current : Nat) (w : Fin 5) : Prop
  | hit (same : (row w).tag = tag)
  | scan (old : infRd < elapsed row current w)
  | oldest (full : ∀ v, (row v).valid = true ∧ (row v).tag ≠ tag)
      (older : ∀ v, elapsed row current v ≤ elapsed row current w)

theorem accessRow_drops (req : MemReq) (pc : Nat) {current : Nat} {row : SampledRow} {rdp : Rdp}
    (distinct : Distinct row) {w : Fin 5} (valid : (row w).valid = true)
    (changed : (MockingjayReplPolicy.accessRow c req pc current row rdp).1 w ≠ row w) :
    Dropped row (c.getSampledCacheTag req.lineAddr) current w := by
  unfold MockingjayReplPolicy.accessRow at changed
  dsimp only at changed
  obtain ⟨trained, hit⟩ := train_spec (c := c) req row rdp current
  have taken : ((MockingjayReplPolicy.train c req row rdp current).1 w).valid = false →
      (row w).tag = c.getSampledCacheTag req.lineAddr := train_drops valid
  generalize MockingjayReplPolicy.train c req row rdp current = afterTrain at changed trained hit taken
  obtain ⟨evicted, free, -⟩ := evict_spec afterTrain.1 afterTrain.2 current
  have drops : (afterTrain.1 w).valid = true →
      ((MockingjayReplPolicy.evict afterTrain.1 afterTrain.2 current).1 w).valid = false →
      infRd < elapsed afterTrain.1 current w ∨
        ∀ v, (afterTrain.1 v).valid = true ∧ (elapsed afterTrain.1 current v : Int) ≤ infRd ∧
          elapsed afterTrain.1 current v ≤ elapsed afterTrain.1 current w := evict_drops
  generalize MockingjayReplPolicy.evict afterTrain.1 afterTrain.2 current = afterEvict
    at changed evicted free drops
  obtain ⟨way, empty, filled⟩ := record_spec
    ⟨true, c.getSampledCacheTag req.lineAddr, pc, current⟩ free
  rw [filled] at changed
  have invalid : (afterEvict.1 w).valid = false := by
    by_contra stays
    have kept := (trained.trans evicted).eq_of_valid ((Bool.not_eq_false _).mp stays)
    have other : w ≠ way := by
      intro same
      rw [same, empty] at stays
      exact stays rfl
    rw [Function.update_of_ne other] at changed
    exact changed kept
  by_cases stays : (afterTrain.1 w).valid = true
  case neg => exact .hit (taken (Bool.eq_false_iff.mpr stays))
  have same := trained.eq_of_valid stays
  rcases drops stays invalid with old | full
  · rw [elapsed, same] at old
    exact .scan old
  · have kept : ∀ v, afterTrain.1 v = row v := fun v => trained.eq_of_valid (full v).1
    have isRow : afterTrain.1 = row := funext kept
    rw [isRow] at full
    refine .oldest ?_ fun v => (full v).2.2
    intro v
    refine ⟨(full v).1, fun isTag => ?_⟩
    rcases training_or_scan distinct (full v).1 isTag with ⟨sample, trains⟩ | old
    · have gone := hit v sample trains
      rw [kept v, (full v).1] at gone
      cases gone
    · exact absurd old (Int.not_lt.mpr (full v).2.1)

/-- What an update of a sampled set does to the row it accesses. -/
structure SampledAccess (c : Config) (p : MockingjayReplPolicy) (id : Nat) (req : MemReq)
    (row row' : SampledRow) : Prop where
  /-- The tag is there once, with the signature and the timestamp of the access. -/
  recorded : ∃ w, row' w = ⟨true, c.getSampledCacheTag req.lineAddr, c.signature req,
      p.currentTimestamp (id / c.llcWays)⟩ ∧
    ∀ v, (row' v).valid = true → (row' v).tag = c.getSampledCacheTag req.lineAddr → v = w
  /-- `lruWay` is not -1. -/
  finds : ∀ trained, trained = MockingjayReplPolicy.train c req row p.rdp
      (p.currentTimestamp (id / c.llcWays)) →
    (lruScan trained.1 trained.2 (p.currentTimestamp (id / c.llcWays))).lruWay ≠ none
  /-- There is a way for the new line. -/
  free : ∀ trained, trained = MockingjayReplPolicy.train c req row p.rdp
      (p.currentTimestamp (id / c.llcWays)) →
    ∃ w, ((MockingjayReplPolicy.evict trained.1 trained.2
      (p.currentTimestamp (id / c.llcWays))).1 w).valid = false
  drops : ∀ w, (row w).valid = true → row' w ≠ row w →
    Dropped row (c.getSampledCacheTag req.lineAddr) (p.currentTimestamp (id / c.llcWays)) w

def DistinctRows (p : MockingjayReplPolicy) : Prop :=
  ∀ index row, p.sampledCacheEntries index = some row → Distinct row

theorem sampledAccess {p next : MockingjayReplPolicy} {id : Nat} {req : MemReq}
    (run : p.update c id req = some next) (sampled : c.isSampledSet (id / c.llcWays) = true)
    (distinct : DistinctRows p) :
    ∃ row row', p.sampledCacheEntries (c.getSampledCacheIndex req.lineAddr) = some row ∧
      next.sampledCacheEntries (c.getSampledCacheIndex req.lineAddr) = some row' ∧
      SampledAccess c p id req row row' := by
  obtain ⟨row, isRow, entries, -⟩ := MockingjayReplPolicy.update_sampled run sampled
  have rowDistinct := distinct _ row isRow
  refine ⟨row, _, isRow, by rw [entries, Function.update_self], ?_, ?_, ?_, ?_⟩
  · obtain ⟨way, isLine, others⟩ := (accessed (c := c) req row p.rdp
      (p.currentTimestamp (id / c.llcWays)) (c.signature req) rowDistinct).recorded
    refine ⟨way, isLine, ?_⟩
    intro v valid isTag
    by_contra other
    obtain ⟨same, apart⟩ := others v other valid
    rw [same] at isTag
    exact apart isTag
  · exact fun trained _ => lruScan_found trained.1 trained.2 _
  · exact fun trained _ => (evict_spec trained.1 trained.2 _).2.1
  · exact fun w => accessRow_drops req _ rowDistinct

/-! ## Runs -/

theorem DistinctRows.init : DistinctRows (.init c) := by
  intro index row isRow
  have isRow : (if _ then some _ else none) = some row := isRow
  split at isRow
  · cases isRow
    intro w w' valid
    cases valid
  · cases isRow

theorem DistinctRows.step {p next : MockingjayReplPolicy} {op : Op} (distinct : DistinctRows p)
    (step : p.step c op = some next) : DistinctRows next := by
  cases op with
  | rank _ _ =>
      cases Option.some.inj step
      exact distinct
  | replaced _ =>
      cases Option.some.inj step
      exact distinct
  | update id req =>
      by_cases sampled : c.isSampledSet (id / c.llcWays) = true
      · obtain ⟨row, isRow, entries, -⟩ := MockingjayReplPolicy.update_sampled step sampled
        intro index other isOther
        rw [entries] at isOther
        by_cases same : index = c.getSampledCacheIndex req.lineAddr
        · subst same
          rw [Function.update_self] at isOther
          cases Option.some.inj isOther
          have rowDistinct := distinct _ row isRow
          exact (accessed req row p.rdp _ _ rowDistinct).distinct rowDistinct
        · rw [Function.update_of_ne same] at isOther
          exact distinct index other isOther
      · obtain ⟨entries, -⟩ := MockingjayReplPolicy.update_unsampled step sampled
        intro index row isRow
        rw [entries] at isRow
        exact distinct index row isRow

/-- In every run the tags of a row are distinct, and every update of a sampled set records its
access once, finds a way for it and drops a line only for one of the three reasons. -/
theorem sampled_cache_kept (c : Config) {ops : List Op} {final : MockingjayReplPolicy}
    (legal : (machine c).LegalRun ops (.init c))
    (run : (machine c).exec ops (.init c) = some final) :
    DistinctRows final ∧
      ∀ id req next, c.isSampledSet (id / c.llcWays) = true → final.update c id req = some next →
        ∃ row row', final.sampledCacheEntries (c.getSampledCacheIndex req.lineAddr) = some row ∧
          next.sampledCacheEntries (c.getSampledCacheIndex req.lineAddr) = some row' ∧
          SampledAccess c final id req row row' := by
  have distinct : DistinctRows final :=
    Machine.exec_keeps (fun _ _ _ distinct _ step => distinct.step step) .init legal run
  exact ⟨distinct, fun id req next sampled step => sampledAccess step sampled distinct⟩

/-- A line that was recorded is accessed again. -/
theorem sampled_cache_kept_fourKB : ∃ final next row row',
    (machine fourKB).exec [.update 1 ⟨16, .GETS, false, 0, 100⟩, .replaced 3,
      .update 3 ⟨32, .GETX, false, 1, 104⟩] (.init fourKB) = some final ∧
    final.update fourKB 1 ⟨16, .GETS, true, 0, 100⟩ = some next ∧ DistinctRows final ∧
    final.sampledCacheEntries (fourKB.getSampledCacheIndex 16) = some row ∧
    next.sampledCacheEntries (fourKB.getSampledCacheIndex 16) = some row' ∧
    SampledAccess fourKB final 1 ⟨16, .GETS, true, 0, 100⟩ row row' := by
  have runs : (((machine fourKB).exec [.update 1 ⟨16, .GETS, false, 0, 100⟩, .replaced 3,
      .update 3 ⟨32, .GETX, false, 1, 104⟩] (.init fourKB)).bind fun final =>
        final.update fourKB 1 ⟨16, .GETS, true, 0, 100⟩).isSome := by
    decide +kernel
  obtain ⟨next, runs⟩ := Option.isSome_iff_exists.mp runs
  obtain ⟨final, run, updates⟩ := Option.bind_eq_some_iff.mp runs
  obtain ⟨distinct, access⟩ := sampled_cache_kept fourKB (by decide +kernel) run
  obtain ⟨row, row', isRow, isNext, sampled⟩ := access 1 _ next (by decide +kernel) updates
  exact ⟨final, next, row, row', run, updates, distinct, isRow, isNext, sampled⟩

end Zsim.Mockingjay
