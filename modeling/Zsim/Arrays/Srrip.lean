import Mathlib.Data.Finset.Max
import Zsim.Lib.Machine
import Zsim.Lib.Word

/-!
# Static RRIP

`SRRIPReplPolicy` of rrip_repl.h, under the calls of a cache array.  A line that was just replaced
is marked with `maxM + 1` until its update, so no value is above `maxM` when a victim is searched
for, and each round of the search brings the largest one nearer to it.
-/

set_option autoImplicit false

namespace Zsim

structure SrripConfig where
  numLines : Nat
  maxM : Nat
  maxM_pos : 1 ≤ maxM
  maxM_word : maxM < 2 ^ 32

structure SRRIPReplPolicy where
  array : Nat → Nat

namespace SRRIPReplPolicy

variable (c : SrripConfig)

def init : SRRIPReplPolicy := ⟨fun _ => 0⟩

def update (id : Nat) (p : SRRIPReplPolicy) : SRRIPReplPolicy :=
  ⟨Function.update p.array id (if p.array id = u32 (c.maxM + 1) then u32Sub c.maxM 1 else 0)⟩

def replaced (id : Nat) (p : SRRIPReplPolicy) : SRRIPReplPolicy :=
  ⟨Function.update p.array id (u32 (c.maxM + 1))⟩

/-- The loop over all lines, when no candidate is at `maxM`. -/
def increment (p : SRRIPReplPolicy) : SRRIPReplPolicy :=
  ⟨fun i => if i < c.numLines ∧ p.array i ≠ c.maxM then u32 (p.array i + 1) else p.array i⟩

/-- `none` is a search that has not ended after so many rounds. -/
def rank : Nat → List Nat → SRRIPReplPolicy → Option (Nat × SRRIPReplPolicy)
  | 0, _, _ => none
  | fuel + 1, cands, p =>
    match cands.find? fun id => p.array id == c.maxM with
    | some id => some (id, p)
    | none => rank fuel cands (p.increment c)

end SRRIPReplPolicy

/-- The calls of an array: an update on a hit, and on a miss a search and an insertion, which is
a replacement and an update. -/
inductive SrripOp where
  | hit (id : Nat)
  | preinsert (cands : List Nat)
  | postinsert (candidate : Nat)
  deriving Repr

def Candidates (c : SrripConfig) (cands : List Nat) : Prop :=
  cands ≠ [] ∧ ∀ id ∈ cands, id < c.numLines

instance (c : SrripConfig) (cands : List Nat) : Decidable (Candidates c cands) :=
  inferInstanceAs (Decidable (_ ∧ _))

/-- A search is given one round for each value. -/
def srripMachine (c : SrripConfig) : Machine SRRIPReplPolicy SrripOp where
  legal _ op :=
    match op with
    | .hit id | .postinsert id => id < c.numLines
    | .preinsert cands => Candidates c cands
  step p op :=
    match op with
    | .hit id => some (p.update c id)
    | .preinsert cands => (p.rank c (c.maxM + 1) cands).map Prod.snd
    | .postinsert candidate => some ((p.replaced c candidate).update c candidate)

def FirstLargest (value : Nat → Nat) (items : List Nat) (first : Nat) : Prop :=
  ∃ before after, items = before ++ first :: after ∧
    (∀ id ∈ before, value id < value first) ∧ ∀ id ∈ after, value id ≤ value first

theorem FirstLargest.mem {value : Nat → Nat} {items : List Nat} {first : Nat}
    (largest : FirstLargest value items first) : first ∈ items := by
  obtain ⟨before, after, split, -⟩ := largest
  rw [split]
  exact List.mem_append_right before List.mem_cons_self

theorem FirstLargest.bound {value : Nat → Nat} {items : List Nat} {first id : Nat}
    (largest : FirstLargest value items first) (member : id ∈ items) : value id ≤ value first := by
  obtain ⟨before, after, split, smaller, atMost⟩ := largest
  rw [split] at member
  rcases List.mem_append.mp member with earlier | later
  · exact Nat.le_of_lt (smaller id earlier)
  · cases later with
    | head => exact Nat.le_refl _
    | tail _ later => exact atMost id later

theorem FirstLargest.of_succ {value value' : Nat → Nat} {items : List Nat} {first : Nat}
    (largest : FirstLargest value' items first) (succ : ∀ id ∈ items, value' id = value id + 1) :
    FirstLargest value items first := by
  have isFirst := succ first largest.mem
  obtain ⟨before, after, split, smaller, atMost⟩ := largest
  subst split
  refine ⟨before, after, rfl, fun id member => ?_, fun id member => ?_⟩
  · have := smaller id member
    rw [succ id (List.mem_append_left _ member), isFirst] at this
    omega
  · have := atMost id member
    rw [succ id (List.mem_append_right _ (List.mem_cons_of_mem _ member)), isFirst] at this
    omega

namespace SRRIPReplPolicy

variable {c : SrripConfig}

instance decidableSrripLegal (p : SRRIPReplPolicy) : ∀ op, Decidable ((srripMachine c).legal p op)
  | .hit id | .postinsert id => inferInstanceAs (Decidable (id < c.numLines))
  | .preinsert cands => inferInstanceAs (Decidable (Candidates c cands))

def RrpvOk (c : SrripConfig) (p : SRRIPReplPolicy) : Prop := ∀ id, p.array id ≤ c.maxM

theorem RrpvOk.increment {p : SRRIPReplPolicy} (ok : RrpvOk c p) : RrpvOk c (p.increment c) := by
  intro id
  have atMost := ok id
  have word := c.maxM_word
  unfold SRRIPReplPolicy.increment
  dsimp only
  split
  case isTrue below =>
    have notLast := below.2
    rw [u32_of_lt (by omega)]
    omega
  case isFalse => exact atMost

theorem increment_of_lt {p : SRRIPReplPolicy} {id : Nat} (line : id < c.numLines)
    (below : p.array id < c.maxM) : (p.increment c).array id = p.array id + 1 := by
  have word := c.maxM_word
  unfold SRRIPReplPolicy.increment
  dsimp only
  rw [if_pos ⟨line, by omega⟩, u32_of_lt (by omega)]

/-- What a search does when its largest value is `gap` below `maxM`. -/
theorem rank_gap {cands : List Nat} (lines : ∀ id ∈ cands, id < c.numLines) (gap : Nat)
    {p : SRRIPReplPolicy} (ok : RrpvOk c p) (atMost : ∀ id ∈ cands, p.array id + gap ≤ c.maxM)
    (largest : ∃ id ∈ cands, p.array id + gap = c.maxM) :
    ∃ victim next, (∀ fuel, p.rank c (gap + 1 + fuel) cands = some (victim, next)) ∧
      RrpvOk c next ∧ FirstLargest p.array cands victim ∧
      ∀ id ∈ cands, next.array id = p.array id + gap := by
  induction gap generalizing p with
  | zero =>
      obtain ⟨id, member, isLast⟩ := largest
      cases found : cands.find? fun id => p.array id == c.maxM with
      | none =>
          have notLast := List.find?_eq_none.mp found id member
          exact absurd (beq_iff_eq.mpr isLast) notLast
      | some victim =>
          obtain ⟨isLast, before, after, split, others⟩ := List.find?_eq_some_iff_append.mp found
          have isLast : p.array victim = c.maxM := beq_iff_eq.mp isLast
          refine ⟨victim, p, fun fuel => ?_, ok, ?_, fun _ _ => rfl⟩
          · rw [Nat.add_comm, rank, found]
          · refine ⟨before, after, split, fun id member => ?_, fun id _ => by rw [isLast]; exact ok id⟩
            have other : p.array id ≠ c.maxM := by simpa using others id member
            rw [isLast]
            exact Nat.lt_of_le_of_ne (ok id) other
  | succ gap ih =>
      have below : ∀ id ∈ cands, p.array id < c.maxM := fun id member => by
        have := atMost id member
        omega
      have moved : ∀ id ∈ cands, (p.increment c).array id = p.array id + 1 := fun id member =>
        increment_of_lt (lines id member) (below id member)
      have none : cands.find? (fun id => p.array id == c.maxM) = none :=
        List.find?_eq_none.mpr fun id member isLast =>
          absurd (beq_iff_eq.mp isLast) (Nat.ne_of_lt (below id member))
      have atMost' : ∀ id ∈ cands, (p.increment c).array id + gap ≤ c.maxM := fun id member => by
        have := atMost id member
        rw [moved id member]
        omega
      have largest' : ∃ id ∈ cands, (p.increment c).array id + gap = c.maxM := by
        obtain ⟨id, member, isLargest⟩ := largest
        refine ⟨id, member, ?_⟩
        rw [moved id member]
        omega
      obtain ⟨victim, next, run, okNext, first, grown⟩ := ih ok.increment atMost' largest'
      refine ⟨victim, next, fun fuel => ?_, okNext, first.of_succ moved, fun id member => ?_⟩
      · have rounds : gap + 1 + 1 + fuel = gap + 1 + fuel + 1 := by omega
        rw [rounds, rank, none]
        exact run fuel
      · rw [grown id member, moved id member]
        omega

theorem RrpvOk.rank {p : SRRIPReplPolicy} (ok : RrpvOk c p) {cands : List Nat}
    (candidates : Candidates c cands) :
    ∃ victim next, (∀ fuel, c.maxM < fuel → p.rank c fuel cands = some (victim, next)) ∧
      RrpvOk c next ∧ FirstLargest p.array cands victim ∧
      ∀ id ∈ cands, next.array id = p.array id + (c.maxM - p.array victim) := by
  obtain ⟨nonempty, lines⟩ := candidates
  obtain ⟨id, member, largest⟩ := cands.toFinset.exists_max_image p.array
    ((List.toFinset_nonempty_iff cands).mpr nonempty)
  have member := List.mem_toFinset.mp member
  have largest : ∀ other ∈ cands, p.array other ≤ p.array id := fun other member =>
    largest other (List.mem_toFinset.mpr member)
  have bound := ok id
  obtain ⟨victim, next, run, okNext, first, grown⟩ := rank_gap lines (c.maxM - p.array id) ok
    (fun other member => by
      have := largest other member
      omega)
    ⟨id, member, Nat.add_sub_cancel' bound⟩
  have same : p.array victim = p.array id :=
    Nat.le_antisymm (largest victim first.mem) (first.bound member)
  refine ⟨victim, next, fun fuel enough => ?_, okNext, first, ?_⟩
  · have rounds : fuel = c.maxM - p.array id + 1 + (fuel - (c.maxM - p.array id + 1)) := by omega
    rw [rounds]
    exact run _
  · rw [same]
    exact grown

/-! ## Runs -/

theorem RrpvOk.update {p : SRRIPReplPolicy} {id : Nat} (others : ∀ i, i ≠ id → p.array i ≤ c.maxM) :
    RrpvOk c (p.update c id) := by
  have pos := c.maxM_pos
  have word := c.maxM_word
  intro i
  unfold SRRIPReplPolicy.update
  dsimp only
  by_cases same : i = id
  · rw [same, Function.update_self]
    split
    · rw [u32Sub_of_le word pos]
      omega
    · exact Nat.zero_le _
  · rw [Function.update_of_ne same]
    exact others i same

theorem srrip_preserves : (srripMachine c).Preserves (RrpvOk c) := by
  intro p op ok legal
  cases op with
  | hit id => exact ⟨_, rfl, RrpvOk.update fun i _ => ok i⟩
  | preinsert cands =>
      obtain ⟨victim, next, run, okNext, -⟩ := ok.rank legal
      exact ⟨next, congrArg (Option.map Prod.snd) (run _ (Nat.lt_succ_self _)), okNext⟩
  | postinsert candidate =>
      refine ⟨_, rfl, RrpvOk.update fun i other => ?_⟩
      have unmarked : (p.replaced c candidate).array i = p.array i := Function.update_of_ne other ..
      rw [unmarked]
      exact ok i

/-- In every run each search ends, its victim is the first of the candidates with the largest value,
and all of them grow by what that value is below `maxM`. -/
theorem victim_search (c : SrripConfig) {ops : List SrripOp}
    (legal : (srripMachine c).LegalRun ops init) :
    ∃ final, (srripMachine c).exec ops init = some final ∧ RrpvOk c final ∧
      ∀ cands, Candidates c cands →
        ∃ victim next, (∀ fuel, c.maxM < fuel → final.rank c fuel cands = some (victim, next)) ∧
          FirstLargest final.array cands victim ∧
          ∀ id ∈ cands, next.array id = final.array id + (c.maxM - final.array victim) := by
  have start : RrpvOk c init := fun _ => Nat.zero_le _
  obtain ⟨final, run, ok⟩ := srrip_preserves.exec start legal
  refine ⟨final, run, ok, fun cands candidates => ?_⟩
  obtain ⟨victim, next, ends, -, first, grown⟩ := ok.rank candidates
  exact ⟨victim, next, ends, first, grown⟩

/-- Two bits for each of eight lines. -/
def eightLines : SrripConfig := ⟨8, 3, by decide, by decide⟩

theorem victim_search_eightLines :
    ∃ final, (srripMachine eightLines).exec [.preinsert [0, 1], .postinsert 0, .hit 0, .preinsert [0, 1],
      .postinsert 1] init = some final ∧ RrpvOk eightLines final := by
  obtain ⟨final, run, ok, -⟩ := victim_search eightLines (show (srripMachine eightLines).LegalRun
    [.preinsert [0, 1], .postinsert 0, .hit 0, .preinsert [0, 1], .postinsert 1] init by
      decide +kernel)
  exact ⟨final, run, ok⟩

end SRRIPReplPolicy

end Zsim
