import Zsim.Mockingjay.Rows

/-!
# What the policy predicts

`update` stores a prediction only for a line id below the number of ways, as if the id
were a way: the lines of the first set have predictions and no others.
-/

set_option autoImplicit false

namespace Zsim.Mockingjay

variable (c : Config)

/-! ## The calls -/

inductive Op where
  | update (id : Nat) (req : MemReq)
  | replaced (id : Nat)
  | rank (isValid : Nat → Bool) (cands : List Nat)

namespace MockingjayReplPolicy

def step (p : MockingjayReplPolicy) : Op → Option MockingjayReplPolicy
  | .update id req => p.update c id req
  | .replaced id => some (p.replaced id)
  | .rank _ _ => some p

/-- A line id is one of the cache. -/
def legal (_ : MockingjayReplPolicy) : Op → Prop
  | .update id _ | .replaced id => id < c.numLines
  | .rank _ cands => ∀ id ∈ cands, id < c.numLines

end MockingjayReplPolicy

instance decidableLegal (p : MockingjayReplPolicy) : ∀ op, Decidable (p.legal c op)
  | .update id _ => inferInstanceAs (Decidable (id < c.numLines))
  | .replaced id => inferInstanceAs (Decidable (id < c.numLines))
  | .rank _ cands => inferInstanceAs (Decidable (∀ id ∈ cands, id < c.numLines))

def machine : Machine MockingjayReplPolicy Op :=
  ⟨MockingjayReplPolicy.legal c, MockingjayReplPolicy.step c⟩

/-- After an update of a read or write access the line has the predicted value. -/
def Predicts (p : MockingjayReplPolicy) : Op → Prop
  | .update id req => req.type = .GETS ∨ req.type = .GETX →
      ∀ next, p.update c id req = some next →
        next.etr id = c.prediction next.rdp (c.signature req)
  | _ => True

/-- A read or write access updates a line of the first set. -/
def InFirstSet (_ : MockingjayReplPolicy) : Op → Prop
  | .update id req => req.type = .GETS ∨ req.type = .GETX → id / c.llcWays = 0
  | _ => True

instance decidableMachineLegal (p : MockingjayReplPolicy) (op : Op) :
    Decidable ((machine c).legal p op) :=
  decidableLegal c p op

instance decidableInFirstSet (p : MockingjayReplPolicy) : ∀ op, Decidable (InFirstSet c p op)
  | .update id req =>
    inferInstanceAs (Decidable (req.type = .GETS ∨ req.type = .GETX → id / c.llcWays = 0))
  | .replaced _ | .rank _ _ => .isTrue trivial

variable {c}

/-! ## One update -/

namespace MockingjayReplPolicy

theorem age_rdp (id : Nat) (p : MockingjayReplPolicy) : (p.age c id).rdp = p.rdp := by
  unfold age
  dsimp only
  split <;> rfl

/-- A line does not age on its own access. -/
theorem age_etr (id : Nat) (p : MockingjayReplPolicy) : (p.age c id).etr id = p.etr id := by
  unfold age
  dsimp only
  split
  · exact if_neg fun ages => ages.2.2.1 rfl
  · rfl

theorem sampledUpdate_etr {p next : MockingjayReplPolicy} {set pc : Nat} {req : MemReq}
    (run : p.sampledUpdate c set req pc = some next) : next.etr = p.etr := by
  obtain ⟨row, -, run⟩ := Option.bind_eq_some_iff.mp run
  cases Option.some.inj run
  rfl

theorem update_etr {p next : MockingjayReplPolicy} {id : Nat} {req : MemReq}
    (run : p.update c id req = some next) :
    next.etr id =
      if id < c.llcWays then c.prediction next.rdp (c.signature req)
      else (p.writeback id req.type).etr id := by
  obtain ⟨mid, sampled, run⟩ := Option.bind_eq_some_iff.mp run
  have etr : mid.etr = (p.writeback id req.type).etr := by
    unfold sample at sampled
    split at sampled
    · exact sampledUpdate_etr sampled
    · cases Option.some.inj sampled
      rfl
  cases Option.some.inj run
  unfold predict
  split
  · exact Function.update_self ..
  · rw [age_etr, etr]

end MockingjayReplPolicy

theorem predicts_of_inFirstSet {p : MockingjayReplPolicy} {op : Op} (first : InFirstSet c p op) :
    Predicts c p op := by
  cases op with
  | replaced | rank => trivial
  | update id req =>
      intro access next run
      have isFirst : id < c.llcWays := by
        have zero := first access
        rcases Nat.div_eq_zero_iff.mp zero with noWays | below
        · exact absurd c.waysPos (by omega)
        · exact below
      rw [MockingjayReplPolicy.update_etr run, if_pos isFirst]

/-! ## A line of another set -/

theorem update_blank {p : MockingjayReplPolicy} (id : Nat) (req : MemReq)
    (blank : c.isSampledSet (id / c.llcWays) = true → ∃ row,
      p.sampledCacheEntries (c.getSampledCacheIndex req.lineAddr) = some row ∧ Blank row) :
    ∃ next, p.update c id req = some next ∧ next.rdp = p.rdp ∧
      ∀ index, index ≠ c.getSampledCacheIndex req.lineAddr →
        next.sampledCacheEntries index = p.sampledCacheEntries index := by
  have entries : (p.writeback id req.type).sampledCacheEntries = p.sampledCacheEntries := by
    unfold MockingjayReplPolicy.writeback
    split <;> rfl
  have rdp : (p.writeback id req.type).rdp = p.rdp := by
    unfold MockingjayReplPolicy.writeback
    split <;> rfl
  have sampled : ∃ mid,
      (p.writeback id req.type).sample c (id / c.llcWays) req (c.signature req) = some mid ∧
        mid.rdp = p.rdp ∧ ∀ index, index ≠ c.getSampledCacheIndex req.lineAddr →
          mid.sampledCacheEntries index = p.sampledCacheEntries index := by
    unfold MockingjayReplPolicy.sample
    split
    case isFalse => exact ⟨_, rfl, rdp, fun index _ => by rw [entries]⟩
    case isTrue isSampled =>
      obtain ⟨row, isRow, blank⟩ := blank isSampled
      rw [← entries] at isRow
      refine ⟨_, Option.bind_eq_some_iff.mpr ⟨row, isRow, rfl⟩, ?_, fun index other => ?_⟩
      · exact (blank.rdp req (c.signature req) _ _).trans rdp
      · exact (Function.update_of_ne other ..).trans (by rw [entries])
  obtain ⟨mid, run, rdpMid, others⟩ := sampled
  refine ⟨(mid.age c id).predict c id (c.signature req), ?_, ?_, fun index other => ?_⟩
  · unfold MockingjayReplPolicy.update
    rw [run]
    rfl
  · rw [← rdpMid, ← MockingjayReplPolicy.age_rdp (c := c) id mid]
    unfold MockingjayReplPolicy.predict
    split <;> rfl
  · rw [← others index other]
    unfold MockingjayReplPolicy.predict MockingjayReplPolicy.age
    dsimp only
    split <;> split <;> rfl

/-- The rows that the constructor makes for a sampled set. -/
theorem init_row {set i : Nat} (bound : set < c.numSets) (isSampled : c.isSampledSet set = true)
    (row : i < 16) :
    ∃ row, (MockingjayReplPolicy.init c).sampledCacheEntries
      (u32 (set + 2 ^ c.log2LlcSet * i)) = some row ∧ Blank row := by
  have modifier : c.shifts.shl 32 1 c.log2LlcSet = 2 ^ c.log2LlcSet := by
    rw [c.shifts.shl_of_lt 1 log2LlcSet_lt, Nat.one_mul,
      Nat.mod_eq_of_lt (Nat.pow_lt_pow_right (by decide) log2LlcSet_lt)]
  refine ⟨fun _ => ⟨false, 0, 0, 0⟩, if_pos ?_, fun _ => rfl⟩
  refine List.any_eq_true.mpr ⟨set, List.mem_range.mpr bound, ?_⟩
  rw [isSampled, Bool.true_and]
  refine List.any_eq_true.mpr ⟨i, List.mem_range.mpr row, ?_⟩
  rw [modifier, beq_self_eq_true]

/-- A line address whose row is number `i` of the second set. -/
def rowAddr (c : Config) (i : Nat) : Nat := (1 + 2 ^ c.log2LlcSet * i) * 2 ^ c.log2BlockSize

theorem index_rowAddr {i : Nat} (second : 1 < c.numSets) (row : i < 16) :
    c.getSampledCacheIndex (rowAddr c i) = u32 (1 + 2 ^ c.log2LlcSet * i) := by
  have sets : 1 < 2 ^ c.log2LlcSet := by
    apply Nat.one_lt_two_pow
    intro zero
    have := Nat.lt_log2_self (n := c.numSets)
    rw [← Config.log2LlcSet, zero] at this
    omega
  have fits : 1 + 2 ^ c.log2LlcSet * i < 2 ^ (4 + c.log2LlcSet) := by
    have le : 2 ^ c.log2LlcSet * i ≤ 2 ^ c.log2LlcSet * 15 := Nat.mul_le_mul_left _ (by omega)
    have split : 2 ^ (4 + c.log2LlcSet) = 2 ^ c.log2LlcSet * 16 := by
      rw [Nat.pow_add, Nat.mul_comm]
    omega
  rw [getSampledCacheIndex_eq, rowAddr, Nat.mul_div_cancel _ (Nat.two_pow_pos _),
    Nat.mod_eq_of_lt fits]

/-- A writeback and a read of the first line of the second set, in rows of their own. -/
def secondSet (c : Config) : List Op :=
  [.update c.llcWays ⟨rowAddr c 0, .PUTS, false, 0, 0⟩,
    .update c.llcWays ⟨rowAddr c 1, .GETS, false, 0, 0⟩]

theorem prediction_ne (rdp : Rdp) (pc : Nat) (unknown : rdp pc = none) :
    c.prediction rdp pc ≠ -infEtr := by
  unfold Config.prediction infEtr
  rw [unknown]
  dsimp only
  split <;> decide

/-- The line keeps the value of the writeback. -/
theorem secondSet_mispredicts (second : 1 < c.numSets) :
    ¬ (machine c).Along (Predicts c) (secondSet c) (MockingjayReplPolicy.init c) := by
  have isSecond : c.llcWays / c.llcWays = 1 := Nat.div_self c.waysPos
  have index : c.getSampledCacheIndex (rowAddr c 0) = u32 (1 + 2 ^ c.log2LlcSet * 0) :=
    index_rowAddr second (by decide)
  have index' : c.getSampledCacheIndex (rowAddr c 1) = u32 (1 + 2 ^ c.log2LlcSet * 1) :=
    index_rowAddr second (by decide)
  have apart : c.getSampledCacheIndex (rowAddr c 1) ≠ c.getSampledCacheIndex (rowAddr c 0) := by
    have sets : 2 ^ c.log2LlcSet ≤ 2 ^ 31 :=
      Nat.pow_le_pow_right (by decide) (Nat.le_of_lt_succ log2LlcSet_lt)
    have some' := Nat.two_pow_pos c.log2LlcSet
    rw [index, index', u32_of_lt (by omega), u32_of_lt (by omega)]
    omega
  obtain ⟨mid, first, rdp, others⟩ := update_blank (p := .init c) c.llcWays
    ⟨rowAddr c 0, .PUTS, false, 0, 0⟩ (fun isSampled => by
      rw [isSecond] at isSampled
      rw [index]
      exact init_row second isSampled (by decide))
  obtain ⟨next, then', rdp', -⟩ := update_blank (p := mid) c.llcWays
    ⟨rowAddr c 1, .GETS, false, 0, 0⟩ (fun isSampled => by
      rw [isSecond] at isSampled
      rw [others _ apart, index']
      exact init_row second isSampled (by decide))
  rintro ⟨-, along⟩
  have predicts := (along mid first).1 (Or.inl rfl) next then'
  have notFirst : ¬ c.llcWays < c.llcWays := Nat.lt_irrefl _
  have etr : mid.etr c.llcWays = -infEtr := by
    rw [MockingjayReplPolicy.update_etr first, if_neg notFirst]
    exact Function.update_self ..
  have etr' : next.etr c.llcWays = -infEtr := by
    rw [MockingjayReplPolicy.update_etr then', if_neg notFirst]
    exact etr
  refine prediction_ne next.rdp (c.signature ⟨rowAddr c 1, .GETS, false, 0, 0⟩) ?_
    (predicts.symm.trans etr')
  rw [rdp', rdp]
  rfl

/-- In every run each read or write access leaves the predicted value in its line as long as
the lines are those of the first set; and a cache does so in all its runs only if it has no
other set. -/
theorem predicts_in_first_set (c : Config) :
    (∀ ops, (machine c).LegalRun ops (.init c) → (machine c).Along (InFirstSet c) ops (.init c) →
      (machine c).Along (Predicts c) ops (.init c)) ∧
    ((∀ ops, (machine c).LegalRun ops (.init c) → (machine c).Along (Predicts c) ops (.init c)) ↔
      c.numSets = 1) := by
  refine ⟨fun ops _ first => first.imp fun _ _ => predicts_of_inFirstSet, fun always => ?_,
    fun one ops legal => ?_⟩
  · by_contra several
    have second : 1 < c.numSets := by
      have := numSets_pos (c := c)
      omega
    have bound : c.llcWays < c.numLines := by
      have := Nat.mul_lt_mul_of_pos_right second c.waysPos
      rwa [Nat.one_mul, numSets_mul] at this
    refine secondSet_mispredicts second (always _ (Machine.along_of_forall (fun op member p => ?_) _))
    simp only [secondSet, List.mem_cons, List.not_mem_nil, or_false] at member
    rcases member with rfl | rfl <;> exact bound
  · have lines : c.numLines = c.llcWays := by rw [← numSets_mul, one, Nat.one_mul]
    refine Machine.Along.imp (fun p op isLegal => predicts_of_inFirstSet ?_) legal
    cases op with
    | replaced | rank => trivial
    | update id req => exact fun _ => Nat.div_eq_of_lt (Nat.lt_of_lt_of_eq isLegal lines)

theorem fourKB_waysPos : 0 < 4 := Nat.succ_pos 3

theorem fourKB_linesWord : 64 < 2 ^ 32 := by decide

theorem fourKB_sizeWord : 64 < 2 ^ 32 := fourKB_linesWord

/-- 4 KB with 4 ways and two cores. -/
def fourKB : Config where
  numLines := 64
  llcWays := 4
  lineSize := 64
  numCores := 2
  shifts := .x86
  waysPos := fourKB_waysPos
  multiple := rfl
  linesPos := by decide
  linesWord := fourKB_linesWord
  sizePos := by decide
  sizeWord := fourKB_sizeWord

theorem predicts_in_first_set_fourKB :
    (machine fourKB).Along (Predicts fourKB)
      [.update 1 ⟨16, .GETS, false, 0, 100⟩, .rank (fun _ => true) [0, 1, 2, 3], .replaced 3,
        .update 3 ⟨32, .GETX, false, 1, 104⟩, .update 1 ⟨16, .GETS, false, 0, 100⟩] (.init fourKB) :=
  (predicts_in_first_set fourKB).1 _ (by decide +kernel) (by decide +kernel)

/-- A read of a line of the second set, whose signature the predictor does not know. -/
theorem second_set_mispredicted :
    ¬ ∀ (c : Config) (ops : List Op), (machine c).LegalRun ops (.init c) →
      (machine c).Along (Predicts c) ops (.init c) := by
  intro claim
  have predicts := (claim fourKB [.update 4 ⟨1, .GETS, false, 0, 100⟩] (by decide +kernel)).1
    (Or.inl rfl)
  have reached : ((MockingjayReplPolicy.init fourKB).update fourKB 4 ⟨1, .GETS, false, 0, 100⟩).map
      (fun next => (next.etr 4, fourKB.prediction next.rdp
        (fourKB.signature ⟨1, .GETS, false, 0, 100⟩))) = some (0, 15) := by
    decide +kernel
  obtain ⟨next, run, values⟩ := Option.map_eq_some_iff.mp reached
  have same := predicts next run
  rw [(Prod.mk.inj values).1, (Prod.mk.inj values).2] at same
  cases same

end Zsim.Mockingjay
