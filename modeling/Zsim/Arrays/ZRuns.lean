import Mathlib.Algebra.Group.Nat.Defs
import Mathlib.Order.Interval.Set.Defs
import Zsim.Arrays.ZWalk
import Zsim.Lib.Machine

/-!
# Runs of the zcache array

`lookup`, `preinsert` and `postinsert` in any order that the cache allows: an
insertion is a `preinsert` of a missing address and, perhaps after some lookups,
the `postinsert` of its candidate.
-/

set_option autoImplicit false

namespace Zsim.ZConfig

variable {c : ZConfig}

/-! ## lookup -/

theorem lookupWays_sound {z : ZArray} {lineAddr id : Nat} (inv : RepInv c z)
    (found : c.lookupWays z lineAddr = some id) : id < c.numLines ∧ z.array id = lineAddr := by
  obtain ⟨w, way, hit⟩ := List.exists_of_findSome?_eq_some found
  dsimp only at hit
  split at hit
  · rename_i here
    cases Option.some.inj hit
    exact ⟨inv.perm.mapsTo (c.pos_lt (List.mem_range.mp way) lineAddr), here⟩
  · cases hit

theorem lookupWays_complete {z : ZArray} {id : Nat} (inv : RepInv c z) (bound : id < c.numLines)
    (filled : z.array id ≠ 0) : c.lookupWays z (z.array id) = some id := by
  obtain ⟨p, isPos, rfl⟩ := inv.perm.surjOn bound
  obtain ⟨w, way, here⟩ := inv.own p isPos filled
  cases found : c.lookupWays z (z.array (z.lookupArray p)) with
  | none =>
      have missed := List.findSome?_eq_none_iff.mp found w (List.mem_range.mpr way)
      rw [← here, if_pos rfl] at missed
      cases missed
  | some other =>
      obtain ⟨otherBound, same⟩ := lookupWays_sound inv found
      rw [inv.unique _ _ bound otherBound filled same.symm]

/-! ## preinsert -/

/-- `swapArray` holds the chain for an insertion of `lineAddr` that gives up line
`candidate`. -/
structure SwapInv (c : ZConfig) (z : ZArray) (lineAddr candidate : Nat) : Prop where
  first : ∃ p rest, z.swapArray = p :: rest ∧ z.lookupArray p = candidate
  nodup : z.swapArray.Nodup
  fits : z.swapArray.length ≤ c.cands / c.ways + 2
  chain : z.swapArray.IsChain (c.MayMove z)
  bounded : ∀ p ∈ z.swapArray, p < c.numLines
  last : ∃ w < c.ways, z.swapArray.getLast? = some (c.pos w lineAddr)

theorem swapChain_length {walk : ZWalk} {slots : Nat} {idx : Option Nat} {swaps : List Nat}
    (run : swapChain walk slots idx = some swaps) : swaps.length ≤ slots := by
  induction slots generalizing idx swaps with
  | zero =>
      cases idx with
      | none => cases Option.some.inj run; exact Nat.le_refl 0
      | some i => cases run
  | succ slots ih =>
      cases idx with
      | none => cases Option.some.inj run; exact Nat.zero_le _
      | some i =>
          obtain ⟨rest, tail, rfl⟩ := Option.map_eq_some_iff.mp run
          exact Nat.succ_le_succ (ih tail)

theorem RepInv.preinsert {z : ZArray} (inv : RepInv c z) (lineAddr : Nat) (rp : RankCands) :
    ∃ swaps candidate, c.preinsert z lineAddr rp =
        some ({ z with swapArray := swaps }, candidate, z.array candidate) ∧
      candidate < c.numLines ∧ SwapInv c { z with swapArray := swaps } lineAddr candidate := by
  obtain ⟨walk, run, walked, done⟩ := inv.walks lineAddr
  obtain ⟨n, nEq⟩ : ∃ n, n = min walk.numCandidates c.cands := ⟨_, rfl⟩
  have waysLe : c.ways ≤ walk.numCandidates := by
    have := c.add_ways_le_base walk.fringeStart
    rw [walked.count]
    omega
  have positive : 0 < n := by
    have := c.waysGt
    have := c.candsGe
    omega
  have nonempty : (List.range n).map (fun i => (walk.candidates i).lineId) ≠ [] := by
    simp only [ne_eq, List.map_eq_nil_iff, List.range_eq_nil]
    omega
  obtain ⟨best, bestEq⟩ : ∃ best, best = rp.rank ((List.range n).map fun i => (walk.candidates i).lineId) :=
    ⟨_, rfl⟩
  have isLine : ∃ i < n, lineOf walk i = best := by
    have presented := rp.presented _ nonempty
    rw [← bestEq] at presented
    obtain ⟨i, inRange, line⟩ := List.mem_map.mp presented
    exact ⟨i, List.mem_range.mp inRange, line⟩
  have bound : best < c.numLines := by
    obtain ⟨i, lt, line⟩ := isLine
    obtain ⟨isPos, found⟩ := walked.located (show i < walk.numCandidates by omega)
    rw [← line, found]
    exact inv.perm.mapsTo isPos
  cases minIdx : (List.range n).find? fun i => best = (walk.candidates i).lineId with
  | none =>
      obtain ⟨i, lt, line⟩ := isLine
      have missed := List.find?_range_eq_none.mp minIdx i lt
      simp [← line, lineOf] at missed
  | some i =>
      obtain ⟨hit, inRange, before⟩ := List.find?_range_eq_some.mp minIdx
      have lt : i < n := List.mem_range.mp inRange
      have isBest : best = lineOf walk i := of_decide_eq_true hit
      have first : IsFirst walk i := fun j earlier same => by
        have missed := before j earlier
        rw [isBest, ← same] at missed
        simp [lineOf] at missed
      have enough : i / c.ways + 1 ≤ c.cands / c.ways + 2 := by
        have := Nat.div_le_div_right (c := c.ways) (show i ≤ c.cands by omega)
        omega
      obtain ⟨rest, swapRun, nodup, chain, members, last⟩ :=
        walked.swapChain (c.cands / c.ways + 2) i (by omega) first enough
      refine ⟨_ :: rest, best, ?_, bound, ⟨_, rest, rfl, ?_⟩, nodup, swapChain_length swapRun, chain,
        ?_, last⟩
      · unfold ZConfig.preinsert
        rw [run]
        show (if walk.allValid = true → c.cands ≤ walk.numCandidates then _ else none) = _
        rw [if_pos done]
        dsimp only
        rw [← nEq, ← bestEq, if_pos bound, minIdx, swapRun]
        simp
      · exact (walked.located (by omega)).2.symm.trans isBest.symm
      · intro p member
        obtain ⟨j, le, rfl⟩ := members p member
        exact (walked.located (by omega)).1

/-! ## postinsert -/

/-- Where the lines are after the swaps: where they were, one step down the chain
at one of their own positions, or, for the candidate, at a seed. -/
theorem SwapInv.rotated {z : ZArray} (inv : RepInv c z) {lineAddr candidate : Nat}
    (swaps : SwapInv c z lineAddr candidate) {x : Nat} (bound : x < c.numLines) :
    (∃ w < c.ways, x = c.pos w lineAddr ∧ rotate candidate z.swapArray z.lookupArray x = candidate) ∨
      ∃ y < c.numLines, rotate candidate z.swapArray z.lookupArray x = z.lookupArray y ∧
        z.lookupArray y ≠ candidate ∧ (x = y ∨ c.MayMove z x y) := by
  obtain ⟨p, rest, isSwaps, here⟩ := swaps.first
  have nodup := isSwaps ▸ swaps.nodup
  have head : p < c.numLines := swaps.bounded p (isSwaps ▸ List.mem_cons_self)
  have notCandidate : ∀ y < c.numLines, y ≠ p → z.lookupArray y ≠ candidate := fun y isPos other same =>
    other (inv.perm.injOn isPos head (same.trans here.symm))
  by_cases member : x ∈ z.swapArray
  · rcases rotate_of_mem candidate z.lookupArray swaps.nodup swaps.chain member with
      ⟨isLast, value⟩ | ⟨y, later, next, value⟩
    · obtain ⟨w, way, last⟩ := swaps.last
      exact .inl ⟨w, way, Option.some.inj (isLast.symm.trans last), value⟩
    · rw [isSwaps] at later
      have isPos := swaps.bounded y (isSwaps ▸ List.mem_cons_of_mem p later)
      have other : y ≠ p := fun h => (List.nodup_cons.mp nodup).1 (h ▸ later)
      exact .inr ⟨y, isPos, value, notCandidate y isPos other, .inr next⟩
  · have other : x ≠ p := fun h => member (h ▸ isSwaps ▸ List.mem_cons_self)
    exact .inr ⟨x, bound, rotate_of_notMem candidate _ member, notCandidate x bound other, .inl rfl⟩

theorem RepInv.postinsert {z : ZArray} (inv : RepInv c z) {lineAddr candidate : Nat}
    (swaps : SwapInv c z lineAddr candidate)
    (missing : ∀ id < c.numLines, z.array id ≠ lineAddr) :
    ∃ next, ZConfig.postinsert z lineAddr candidate = some next ∧ RepInv c next ∧
      candidate < c.numLines ∧ next.array = Function.update z.array candidate lineAddr := by
  obtain ⟨p, rest, isSwaps, here⟩ := swaps.first
  have head : p < c.numLines := swaps.bounded p (isSwaps ▸ List.mem_cons_self)
  have isLine : candidate < c.numLines := here ▸ inv.perm.mapsTo head
  refine ⟨{ z with
    lookupArray := rotate candidate z.swapArray z.lookupArray
    array := Function.update z.array candidate lineAddr }, ?_, ⟨?_, ?_, ?_⟩, isLine, rfl⟩
  · unfold ZConfig.postinsert
    rw [isSwaps]
    dsimp only
    rw [if_pos here]
  · have bounded := swaps.bounded
    have nodup := swaps.nodup
    rw [isSwaps] at bounded nodup
    dsimp only
    rw [isSwaps, ← here]
    exact rotate_bijOn nodup bounded inv.perm
  · intro x bound
    dsimp only
    intro filled
    unfold OwnPos
    dsimp only
    rcases swaps.rotated inv bound with ⟨w, way, isSeed, value⟩ | ⟨y, isPos, value, other, moved⟩
    · rw [value, Function.update_self]
      exact ⟨w, way, isSeed⟩
    · rw [value, Function.update_of_ne other] at filled ⊢
      rcases moved with rfl | ⟨-, own⟩
      · exact inv.own x isPos filled
      · exact own
  · intro i j boundI boundJ
    dsimp only
    by_cases isI : i = candidate <;> by_cases isJ : j = candidate
    · exact fun _ _ => isI.trans isJ.symm
    · rw [isI, Function.update_self, Function.update_of_ne isJ]
      exact fun _ same => absurd same.symm (missing j boundJ)
    · rw [isJ, Function.update_self, Function.update_of_ne isI]
      exact fun _ same => absurd same (missing i boundI)
    · rw [Function.update_of_ne isI, Function.update_of_ne isJ]
      exact inv.unique i j boundI boundJ

theorem RepInv.init (c : ZConfig) : RepInv c ZConfig.init where
  perm := Set.bijOn_id _
  own _ _ filled := absurd rfl filled
  unique _ _ _ _ filled := absurd rfl filled

/-! ## Runs -/

inductive Op where
  | lookup (lineAddr : Nat)
  | preinsert (lineAddr : Nat) (rp : RankCands)
  | postinsert (lineAddr candidate : Nat)

/-- An insertion between its two halves. -/
structure Pending where
  lineAddr : Nat
  candidate : Nat
  wbLineAddr : Nat

structure Run where
  z : ZArray
  pending : Option Pending

def Run.start : Run := ⟨init, none⟩

/-- Addresses are not 0, what is inserted is missing, and `postinsert` follows its
own `preinsert`. -/
def legal (c : ZConfig) (run : Run) : Op → Prop
  | .lookup lineAddr => lineAddr ≠ 0
  | .preinsert lineAddr _ => c.lookup run.z lineAddr = some none
  | .postinsert lineAddr candidate =>
      run.pending.map (fun p => (p.lineAddr, p.candidate)) = some (lineAddr, candidate)

def step (c : ZConfig) (run : Run) : Op → Option Run
  | .lookup lineAddr => (c.lookup run.z lineAddr).map fun _ => run
  | .preinsert lineAddr rp => (c.preinsert run.z lineAddr rp).map fun (z, candidate, wbLineAddr) =>
      ⟨z, some ⟨lineAddr, candidate, wbLineAddr⟩⟩
  | .postinsert lineAddr candidate => (postinsert run.z lineAddr candidate).map fun z => ⟨z, none⟩

def machine (c : ZConfig) : Machine Run Op := ⟨c.legal, c.step⟩

instance (c : ZConfig) (run : Run) : (op : Op) → Decidable (c.machine.legal run op)
  | .lookup lineAddr => inferInstanceAs (Decidable (lineAddr ≠ 0))
  | .preinsert lineAddr _ => inferInstanceAs (Decidable (c.lookup run.z lineAddr = some none))
  | .postinsert lineAddr candidate => inferInstanceAs (Decidable
      (run.pending.map (fun p => (p.lineAddr, p.candidate)) = some (lineAddr, candidate)))

structure RunInv (c : ZConfig) (run : Run) : Prop where
  rep : RepInv c run.z
  pending : ∀ p, run.pending = some p → p.lineAddr ≠ 0 ∧
    (∀ id < c.numLines, run.z.array id ≠ p.lineAddr) ∧
    SwapInv c run.z p.lineAddr p.candidate ∧ p.wbLineAddr = run.z.array p.candidate

theorem missing_of_lookup {z : ZArray} (inv : RepInv c z) {lineAddr : Nat}
    (miss : c.lookup z lineAddr = some none) :
    lineAddr ≠ 0 ∧ ∀ id < c.numLines, z.array id ≠ lineAddr := by
  unfold lookup at miss
  split at miss
  · cases miss
  · rename_i nonzero
    refine ⟨nonzero, fun id bound here => ?_⟩
    have found := lookupWays_complete inv bound (here ▸ nonzero)
    rw [here, Option.some.inj miss] at found
    cases found

theorem preserves_runInv (c : ZConfig) : c.machine.Preserves (RunInv c) := by
  intro run op ⟨rep, pending⟩ legal
  cases op with
  | lookup lineAddr =>
      refine ⟨run, ?_, rep, pending⟩
      show (c.lookup run.z lineAddr).map _ = some run
      rw [lookup, if_neg legal]
      rfl
  | preinsert lineAddr rp =>
      obtain ⟨nonzero, missing⟩ := missing_of_lookup rep legal
      obtain ⟨swaps, candidate, eq, -, swapInv⟩ := rep.preinsert lineAddr rp
      refine ⟨⟨{ run.z with swapArray := swaps },
        some ⟨lineAddr, candidate, run.z.array candidate⟩⟩, ?_, ⟨rep.perm, rep.own, rep.unique⟩, ?_⟩
      · show (c.preinsert run.z lineAddr rp).map _ = _
        rw [eq]
        rfl
      · intro p isPending
        cases Option.some.inj isPending
        exact ⟨nonzero, missing, swapInv, rfl⟩
  | postinsert lineAddr candidate =>
      obtain ⟨p, isPending, same⟩ := Option.map_eq_some_iff.mp legal
      obtain ⟨rfl, rfl⟩ := Prod.mk.inj same
      obtain ⟨-, missing, swapInv, -⟩ := pending p isPending
      obtain ⟨z, eq, rep', -⟩ := rep.postinsert swapInv missing
      refine ⟨⟨z, none⟩, ?_, rep', fun _ none => by cases none⟩
      show (postinsert run.z p.lineAddr p.candidate).map _ = _
      rw [eq]
      rfl

/-- Some line holds the address. -/
def Resident (c : ZConfig) (z : ZArray) (lineAddr : Nat) : Prop :=
  lineAddr ≠ 0 ∧ ∃ id < c.numLines, z.array id = lineAddr

/-- The array at a point of a run, and what its operations do there. -/
structure Correct (c : ZConfig) (run : Run) : Prop where
  permutation : Set.BijOn run.z.lookupArray (Set.Iio c.numLines) (Set.Iio c.numLines)
  own : ∀ id < c.numLines, run.z.array id ≠ 0 →
    ∃ w < c.ways, run.z.lookupArray (c.pos w (run.z.array id)) = id
  found : ∀ id < c.numLines, run.z.array id ≠ 0 → c.lookup run.z (run.z.array id) = some (some id)
  unique : ∀ i j, i < c.numLines → j < c.numLines → run.z.array i ≠ 0 →
    run.z.array i = run.z.array j → i = j
  /-- the walk for a missing address ends within its array; the chain of the swaps
  fits and has no repeated position -/
  preinsert : ∀ lineAddr rp, c.lookup run.z lineAddr = some none →
    ∃ swaps candidate, c.preinsert run.z lineAddr rp =
        some ({ run.z with swapArray := swaps }, candidate, run.z.array candidate) ∧
      candidate < c.numLines ∧ swaps.Nodup ∧ swaps.length ≤ c.cands / c.ways + 2
  /-- the insertion loses the victim's address and no other -/
  postinsert : ∀ p, run.pending = some p →
    ∃ z, ZConfig.postinsert run.z p.lineAddr p.candidate = some z ∧
      ∀ a, c.Resident z a ↔ a = p.lineAddr ∨ c.Resident run.z a ∧ a ≠ p.wbLineAddr

theorem RunInv.correct {run : Run} (inv : RunInv c run) : Correct c run where
  permutation := inv.rep.perm
  own id bound filled := by
    obtain ⟨p, isPos, rfl⟩ := inv.rep.perm.surjOn bound
    obtain ⟨w, way, here⟩ := inv.rep.own p isPos filled
    exact ⟨w, way, by rw [← here]⟩
  found id bound filled := by
    rw [lookup, if_neg filled, lookupWays_complete inv.rep bound filled]
  unique := inv.rep.unique
  preinsert lineAddr rp _ := by
    obtain ⟨swaps, candidate, eq, bound, swapInv⟩ := inv.rep.preinsert lineAddr rp
    exact ⟨swaps, candidate, eq, bound, swapInv.nodup, swapInv.fits⟩
  postinsert p isPending := by
    obtain ⟨nonzero, missing, swapInv, wb⟩ := inv.pending p isPending
    obtain ⟨z, eq, -, bound, array⟩ := inv.rep.postinsert swapInv missing
    refine ⟨z, eq, fun a => ?_⟩
    unfold Resident
    rw [array, wb]
    constructor
    · rintro ⟨filled, id, isLine, here⟩
      by_cases isCandidate : id = p.candidate
      · rw [isCandidate, Function.update_self] at here
        exact .inl here.symm
      · rw [Function.update_of_ne isCandidate] at here
        refine .inr ⟨⟨filled, id, isLine, here⟩, fun victim => isCandidate ?_⟩
        exact inv.rep.unique id _ isLine bound (here ▸ filled) (here.trans victim)
    · rintro (rfl | ⟨⟨filled, id, isLine, here⟩, notVictim⟩)
      · exact ⟨nonzero, p.candidate, bound, Function.update_self ..⟩
      · have other : id ≠ p.candidate := fun h => notVictim (by rw [← here, h])
        exact ⟨filled, id, isLine, by rw [Function.update_of_ne other, here]⟩

/-- Every legal run from the constructor passes all assertions and bounds, and
keeps the array correct. -/
theorem correct_throughout (c : ZConfig) (ops : List Op) (legal : c.machine.LegalRun ops Run.start) :
    ∃ run, c.machine.exec ops Run.start = some run ∧ Correct c run := by
  have start : RunInv c Run.start := ⟨RepInv.init c, fun _ none => by cases none⟩
  obtain ⟨run, reached, inv⟩ := (preserves_runInv c).exec start legal
  exact ⟨run, reached, inv.correct⟩

/-- Two ways of two sets, and policies that pick the first and the last candidate. -/
def twoWays : ZConfig where
  numSets := 2
  ways := 2
  cands := 4
  hash w lineAddr := lineAddr / 2 ^ w
  waysGt := by decide
  candsGe := by decide
  isPow2 := by decide

def rankFirst : RankCands where
  rank cands := cands.headD 0
  presented cands nonempty := by
    cases cands with
    | nil => exact absurd rfl nonempty
    | cons cand rest => exact List.mem_cons_self

def rankLast : RankCands where
  rank cands := cands.getLastD 0
  presented cands nonempty := by
    rw [List.getLastD_eq_getLast?, List.getLast?_eq_some_getLast nonempty]
    exact List.getLast_mem nonempty

/-- Four insertions fill the array; the fifth expands the walk and swaps. -/
theorem correct_throughout_full :
    ∃ run, twoWays.machine.exec
      [.preinsert 1 rankLast, .postinsert 1 2, .preinsert 2 rankLast, .postinsert 2 3,
        .preinsert 3 rankFirst, .postinsert 3 1, .preinsert 4 rankFirst, .postinsert 4 0,
        .lookup 2, .preinsert 7 rankLast, .postinsert 7 0] Run.start = some run ∧
      Correct twoWays run :=
  correct_throughout twoWays
    [.preinsert 1 rankLast, .postinsert 1 2, .preinsert 2 rankLast, .postinsert 2 3,
      .preinsert 3 rankFirst, .postinsert 3 1, .preinsert 4 rankFirst, .postinsert 4 0,
      .lookup 2, .preinsert 7 rankLast, .postinsert 7 0] (by decide +kernel)

end Zsim.ZConfig
