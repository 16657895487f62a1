import Zsim.Mockingjay.Bounds

/-!
# Aging

Every set has a clock of its own.  The access that finds it at `granularity` ages the other lines
of the set and resets it; every other access to the set moves it on by one.
-/

set_option autoImplicit false

namespace Zsim.Mockingjay

variable {c : Config}

def Op.accesses (c : Config) (set : Nat) : Op → Bool
  | .update id _ => id / c.llcWays == set
  | _ => false

/-- A call that may write the counter of the line, other than by aging it. -/
def Op.writes (i : Nat) : Op → Bool
  | .update id _ | .replaced id => id == i
  | .rank _ _ => false

/-- The access that finds the clock of its set come round. -/
def ages (c : Config) (set : Nat) (p : MockingjayReplPolicy) (op : Op) : Bool :=
  op.accesses c set && p.etrClock set == granularity

theorem ages_update {set id : Nat} {p : MockingjayReplPolicy} {req : MemReq} :
    ages c set p (.update id req) = true ↔ id / c.llcWays = set ∧ p.etrClock set = granularity := by
  simp [ages, Op.accesses]

/-- How often a run ages a set. -/
def agings (c : Config) (set : Nat) : List Op → MockingjayReplPolicy → Nat
  | [], _ => 0
  | op :: rest, p =>
    (if ages c set p op then 1 else 0) + ((p.step c op).map (agings c set rest)).getD 0

/-- The counter of another line of a set that ages; a saturated one stays. -/
def lowered (etr : Int) : Int := if etr.natAbs < infEtr then etr - 1 else etr

/-- The counter after `k` agings. -/
def loweredBy (k : Nat) (etr : Int) : Int :=
  if etr.natAbs < infEtr then max (etr - k) (-infEtr) else etr

theorem lowered_loweredBy (k : Nat) (etr : Int) : loweredBy k (lowered etr) = loweredBy (k + 1) etr := by
  unfold loweredBy lowered infEtr
  by_cases unsaturated : (etr.natAbs : Int) < 15
  · rw [if_pos unsaturated, if_pos unsaturated]
    split <;> omega
  · rw [if_neg unsaturated, if_neg unsaturated, if_neg unsaturated]

theorem loweredBy_zero {etr : Int} : loweredBy 0 etr = etr := by
  unfold loweredBy infEtr
  split <;> omega

/-! ## One access -/

namespace MockingjayReplPolicy

theorem sample_etrClock {p mid : MockingjayReplPolicy} {set pc : Nat} {req : MemReq}
    (sample : p.sample c set req pc = some mid) : mid.etrClock = p.etrClock := by
  unfold MockingjayReplPolicy.sample at sample
  split at sample
  case isTrue =>
    obtain ⟨row, -, update⟩ := Option.bind_eq_some_iff.mp sample
    cases Option.some.inj update
    rfl
  case isFalse =>
    cases Option.some.inj sample
    rfl

theorem writeback_etrClock (p : MockingjayReplPolicy) (id : Nat) (type : Coherence.AccessType) :
    (p.writeback id type).etrClock = p.etrClock := by
  unfold writeback
  split <;> rfl

theorem writeback_etr (p : MockingjayReplPolicy) {id i : Nat} (other : i ≠ id)
    (type : Coherence.AccessType) : (p.writeback id type).etr i = p.etr i := by
  unfold writeback
  split
  · exact Function.update_of_ne other ..
  · rfl

theorem predict_etrClock (p : MockingjayReplPolicy) (id pc : Nat) :
    (p.predict c id pc).etrClock = p.etrClock := by
  unfold predict
  split <;> rfl

theorem predict_etr (p : MockingjayReplPolicy) {id i : Nat} (other : i ≠ id) (pc : Nat) :
    (p.predict c id pc).etr i = p.etr i := by
  unfold predict
  split
  · exact Function.update_of_ne other ..
  · rfl

theorem age_etrClock (p : MockingjayReplPolicy) (id : Nat) : (p.age c id).etrClock =
    Function.update p.etrClock (id / c.llcWays)
      (if p.etrClock (id / c.llcWays) = granularity then 0
        else p.etrClock (id / c.llcWays) + 1) := by
  unfold age
  dsimp only
  split <;> rfl

/-- A line is in the range that `update` ages if it is in the set. -/
theorem in_set_iff (set i : Nat) :
    (set * c.llcWays ≤ i ∧ i < set * c.llcWays + c.llcWays) ↔ set = i / c.llcWays := by
  constructor
  · intro range
    exact (Nat.div_eq_of_lt_le range.1 (by rw [Nat.succ_mul]; exact range.2)).symm
  · intro same
    subst same
    exact ⟨Nat.div_mul_le_self i c.llcWays, Nat.lt_div_mul_add c.waysPos⟩

theorem age_etr_of_ne (p : MockingjayReplPolicy) {id i : Nat} (other : i ≠ id) (req : MemReq) :
    (p.age c id).etr i =
      if ages c (i / c.llcWays) p (.update id req) then lowered (p.etr i) else p.etr i := by
  have inSet := in_set_iff (c := c) (id / c.llcWays) i
  have isAges : ages c (i / c.llcWays) p (.update id req) = true ↔
      id / c.llcWays = i / c.llcWays ∧ p.etrClock (id / c.llcWays) = granularity := by
    rw [ages_update]
    exact and_congr_right fun same => by rw [same]
  unfold age
  dsimp only
  by_cases round : p.etrClock (id / c.llcWays) = granularity
  · rw [if_pos round]
    by_cases same : id / c.llcWays = i / c.llcWays
    · obtain ⟨low, high⟩ := inSet.mpr same
      rw [if_pos (isAges.mpr ⟨same, round⟩), lowered]
      simp [low, high, other]
    · rw [if_neg fun aging => same (isAges.mp aging).1]
      exact if_neg fun all => same (inSet.mp ⟨all.1, all.2.1⟩)
  · rw [if_neg round, if_neg fun aging => round (isAges.mp aging).2]

theorem update_clock {p next : MockingjayReplPolicy} {id : Nat} {req : MemReq}
    (run : p.update c id req = some next) : next.etrClock =
      Function.update p.etrClock (id / c.llcWays)
        (if p.etrClock (id / c.llcWays) = granularity then 0
          else p.etrClock (id / c.llcWays) + 1) := by
  obtain ⟨mid, sample, run⟩ := Option.bind_eq_some_iff.mp run
  cases Option.some.inj run
  rw [predict_etrClock, age_etrClock, sample_etrClock sample, writeback_etrClock]

theorem update_other {p next : MockingjayReplPolicy} {id i : Nat} {req : MemReq}
    (run : p.update c id req = some next) (other : i ≠ id) : next.etr i =
      if ages c (i / c.llcWays) p (.update id req) then lowered (p.etr i) else p.etr i := by
  obtain ⟨mid, sample, run⟩ := Option.bind_eq_some_iff.mp run
  cases Option.some.inj run
  have etr : mid.etr i = p.etr i := by rw [sample_etr sample, writeback_etr p other]
  have clock : mid.etrClock = p.etrClock := by rw [sample_etrClock sample, writeback_etrClock]
  have same : ages c (i / c.llcWays) mid (.update id req) = ages c (i / c.llcWays) p (.update id req) := by
    unfold ages
    rw [clock]
  rw [predict_etr _ other, age_etr_of_ne mid other req, etr, same]

end MockingjayReplPolicy

/-! ## Runs -/

def ClockOk (p : MockingjayReplPolicy) : Prop := ∀ set, p.etrClock set ≤ granularity

theorem clock_step {p next : MockingjayReplPolicy} {op : Op} (ok : ClockOk p)
    (step : p.step c op = some next) (set : Nat) :
    next.etrClock set ≤ granularity ∧
      (granularity + 1) * (if ages c set p op then 1 else 0) + next.etrClock set =
        p.etrClock set + if op.accesses c set then 1 else 0 := by
  have atMost := ok set
  cases op with
  | rank _ _ | replaced _ =>
      cases Option.some.inj step
      exact ⟨atMost, (Nat.add_comm ..).trans rfl⟩
  | update id req =>
      rw [MockingjayReplPolicy.update_clock step]
      unfold ages Op.accesses
      by_cases same : id / c.llcWays = set
      · subst same
        rw [Function.update_self]
        by_cases round : p.etrClock (id / c.llcWays) = granularity
        · simp [round]
        · simp only [round, beq_self_eq_true, Bool.true_and, if_false, if_true, beq_iff_eq]
          omega
      · rw [Function.update_of_ne (Ne.symm same)]
        simp [same, atMost]

theorem ClockOk.init : ClockOk (.init c) := fun _ => Nat.le_refl granularity

theorem ClockOk.exec {p final : MockingjayReplPolicy} {ops : List Op} (ok : ClockOk p)
    (run : (machine c).exec ops p = some final) : ClockOk final := by
  induction ops generalizing p with
  | nil =>
      cases Option.some.inj run
      exact ok
  | cons op rest ih =>
      obtain ⟨next, step, run⟩ := Option.bind_eq_some_iff.mp run
      exact ih (fun set => (clock_step ok step set).1) run

theorem agings_cons {p next : MockingjayReplPolicy} {op : Op} (step : p.step c op = some next)
    (set : Nat) (rest : List Op) : agings c set (op :: rest) p =
      (if ages c set p op then 1 else 0) + agings c set rest next := by
  rw [agings, step]
  rfl

theorem clock_counts {p final : MockingjayReplPolicy} {ops : List Op} (ok : ClockOk p)
    (run : (machine c).exec ops p = some final) (set : Nat) :
    (granularity + 1) * agings c set ops p + final.etrClock set =
      p.etrClock set + ops.countP (Op.accesses c set) := by
  induction ops generalizing p with
  | nil =>
      cases Option.some.inj run
      exact Nat.add_comm ..
  | cons op rest ih =>
      obtain ⟨next, step, run⟩ := Option.bind_eq_some_iff.mp run
      have one := clock_step ok step set
      have later := ih (fun set => (clock_step ok step set).1) run
      rw [agings_cons step, List.countP_cons, Nat.mul_add]
      omega

theorem etr_agings {p final : MockingjayReplPolicy} {ops : List Op} {i : Nat}
    (run : (machine c).exec ops p = some final) (unwritten : ∀ op ∈ ops, op.writes i = false) :
    final.etr i = loweredBy (agings c (i / c.llcWays) ops p) (p.etr i) := by
  induction ops generalizing p with
  | nil =>
      cases Option.some.inj run
      exact loweredBy_zero.symm
  | cons op rest ih =>
      obtain ⟨next, step, run⟩ := Option.bind_eq_some_iff.mp run
      have later := ih run fun op member => unwritten op (List.mem_cons_of_mem _ member)
      have notThis := unwritten op List.mem_cons_self
      rw [later, agings_cons step]
      cases op with
      | rank _ _ =>
          cases Option.some.inj step
          rw [if_neg (by simp [ages, Op.accesses]), Nat.zero_add]
      | replaced id =>
          cases Option.some.inj step
          have other : i ≠ id := Ne.symm (beq_eq_false_iff_ne.mp notThis)
          rw [if_neg (by simp [ages, Op.accesses]), Nat.zero_add]
          congr 1
          exact Function.update_of_ne other ..
      | update id req =>
          have other : i ≠ id := Ne.symm (beq_eq_false_iff_ne.mp notThis)
          rw [MockingjayReplPolicy.update_other step other]
          split
          · rw [lowered_loweredBy, Nat.add_comm]
          · rw [Nat.zero_add]

/-- A set ages only by its own accesses, with `granularity` of them between two agings; aging is
all that happens to a counter between two writes of it, and it does nothing to a saturated one. -/
theorem ages_on_schedule (c : Config) {ops : List Op} {p : MockingjayReplPolicy}
    (reached : (machine c).exec ops (.init c) = some p) :
    (∀ id req next, p.update c id req = some next → ∀ i, i ≠ id →
      (i / c.llcWays ≠ id / c.llcWays → next.etr i = p.etr i) ∧
      (i / c.llcWays = id / c.llcWays → next.etr i =
        if p.etrClock (id / c.llcWays) = granularity then lowered (p.etr i) else p.etr i)) ∧
    (∀ set first between last mid, (machine c).exec (first :: between) p = some mid →
      ages c set p first = true → agings c set (first :: between) p = 1 →
      ages c set mid last = true → between.countP (Op.accesses c set) = granularity) ∧
    ∀ later final, (machine c).exec later p = some final → ∀ i,
      (∀ op ∈ later, op.writes i = false) →
      final.etr i = loweredBy (agings c (i / c.llcWays) later p) (p.etr i) ∧
      later.countP (Op.accesses c (i / c.llcWays)) / (granularity + 1) ≤
        agings c (i / c.llcWays) later p ∧
      agings c (i / c.llcWays) later p ≤
        later.countP (Op.accesses c (i / c.llcWays)) / granularity + 1 := by
  have ok : ClockOk p := ClockOk.init.exec reached
  refine ⟨?_, ?_, ?_⟩
  · intro id req next update i other
    have etr := MockingjayReplPolicy.update_other update other
    refine ⟨fun apart => ?_, fun same => ?_⟩
    · rw [etr, if_neg]
      simp [ages, Op.accesses, Ne.symm apart]
    · rw [etr]
      simp [ages, Op.accesses, same]
  · intro set first between last mid run firstAges once lastAges
    have counts := clock_counts ok run set
    have firstClock : first.accesses c set = true ∧ p.etrClock set = granularity := by
      simpa [ages] using firstAges
    have lastClock : last.accesses c set = true ∧ mid.etrClock set = granularity := by
      simpa [ages] using lastAges
    rw [once, firstClock.2, lastClock.2, List.countP_cons, if_pos firstClock.1] at counts
    omega
  · intro later final run i unwritten
    have counts := clock_counts ok run (i / c.llcWays)
    have before := ok (i / c.llcWays)
    have after := ok.exec run (i / c.llcWays)
    refine ⟨etr_agings run unwritten, ?_, ?_⟩
    · unfold granularity at *
      omega
    · unfold granularity at *
      omega

/-- The last of nine accesses to line 1 ages line 0 of the same set; none ages line 5 of another. -/
theorem ages_on_schedule_fourKB : ∃ p final,
    (machine fourKB).exec [.update 0 ⟨0, .GETS, false, 0, 101⟩, .replaced 0] (.init fourKB) = some p ∧
    (machine fourKB).exec (List.replicate 9 (.update 1 ⟨64, .GETS, false, 0, 104⟩)) p = some final ∧
    p.etr 0 = 0 ∧ final.etr 0 = -1 ∧
    ∀ next, p.update fourKB 1 ⟨64, .GETS, false, 0, 104⟩ = some next → next.etr 5 = p.etr 5 := by
  have reaches : ((machine fourKB).exec [.update 0 ⟨0, .GETS, false, 0, 101⟩, .replaced 0]
      (.init fourKB)).bind (fun p => ((machine fourKB).exec (List.replicate 9
        (.update 1 ⟨64, .GETS, false, 0, 104⟩)) p).map fun _ =>
          (p.etr 0, agings fourKB 0 (List.replicate 9 (.update 1 ⟨64, .GETS, false, 0, 104⟩)) p)) =
        some (0, 1) := by
    decide +kernel
  obtain ⟨p, reached, reaches⟩ := Option.bind_eq_some_iff.mp reaches
  obtain ⟨final, run, reaches⟩ := Option.map_eq_some_iff.mp reaches
  obtain ⟨before, once⟩ := Prod.mk.inj reaches
  obtain ⟨step, -, aged⟩ := ages_on_schedule fourKB reached
  refine ⟨p, final, reached, run, before, ?_,
    fun next update => (step 1 _ next update 5 (by decide)).1 (by decide)⟩
  rw [(aged _ final run 0 (by decide)).1, before]
  show loweredBy (agings fourKB 0 _ p) 0 = -1
  rw [once]
  decide

/-- A prediction of `infEtr` is never lowered. -/
theorem saturated_stays :
    ¬ ∀ (c : Config) (ops later : List Op) (p final : MockingjayReplPolicy) (i : Nat),
      (machine c).LegalRun (ops ++ later) (.init c) →
      (machine c).exec ops (.init c) = some p → (machine c).exec later p = some final →
      (∀ op ∈ later, op.writes i = false) → final.etr i = -infEtr ∨
        (p.etr i - final.etr i -
          (later.countP (Op.accesses c (i / c.llcWays)) / granularity : Nat)).natAbs ≤ 1 := by
  intro claim
  have counters : ((machine fourKB).exec [.update 0 ⟨0, .GETS, false, 0, 101⟩] (.init fourKB)).bind
      (fun p => ((machine fourKB).exec (List.replicate 20 (.update 1 ⟨64, .GETS, false, 0, 104⟩))
        p).map fun final => (p.etr 0, final.etr 0)) = some (15, 15) := by
    decide +kernel
  obtain ⟨p, reached, counters⟩ := Option.bind_eq_some_iff.mp counters
  obtain ⟨final, run, counters⟩ := Option.map_eq_some_iff.mp counters
  obtain ⟨before, after⟩ := Prod.mk.inj counters
  have dropped := claim fourKB _ _ p final 0 (by decide +kernel) reached run (by decide)
  rw [before, after] at dropped
  exact absurd dropped (by decide)

end Zsim.Mockingjay
