import Zsim.Arrays.CacheArray
import Zsim.Repl.Legacy

/-!
# What the arrays present

A set-associative array presents the lines of a set, a zcache the lines of a walk, which may be
fewer than it was configured for.  `BuildCacheBank` gives the policies that configured number.
-/

set_option autoImplicit false

namespace Zsim

open Repl (Presented)

namespace ZConfig

variable {c : ZConfig}

/-- The lines that `preinsert` hands to `rankCands`. -/
def candidates (c : ZConfig) (z : ZArray) (lineAddr : Nat) : Option (List Nat) :=
  (c.walk z lineAddr).map fun walk =>
    (List.range (min walk.numCandidates c.cands)).map fun i => (walk.candidates i).lineId

theorem RepInv.candidates {z : ZArray} (inv : RepInv c z) (lineAddr : Nat) :
    ∃ lines, c.candidates z lineAddr = some lines ∧ Presented c.numLines lines ∧
      lines.length ≤ c.cands := by
  obtain ⟨walk, run, walked, done⟩ := inv.walks lineAddr
  have waysLe := c.add_ways_le_base walk.fringeStart
  have count := walked.count
  have ways := c.waysGt
  have cands := c.candsGe
  refine ⟨_, by rw [ZConfig.candidates, run]; rfl, ⟨?_, fun id member => ?_⟩, ?_⟩
  · simp only [ne_eq, List.map_eq_nil_iff, List.range_eq_nil]
    omega
  · obtain ⟨i, inRange, rfl⟩ := List.mem_map.mp member
    have lt := List.mem_range.mp inRange
    obtain ⟨isPos, found⟩ := walked.located (show i < walk.numCandidates by omega)
    unfold lineOf at found
    rw [found]
    exact inv.perm.mapsTo isPos
  · rw [List.length_map, List.length_range]
    omega

/-- The line that `preinsert` returns is the one that `rankCands` picked of the candidates. -/
theorem preinsert_candidates {z z' : ZArray} {lineAddr id wbLineAddr : Nat} {rp : RankCands}
    {lines : List Nat} (cands : c.candidates z lineAddr = some lines)
    (run : c.preinsert z lineAddr rp = some (z', id, wbLineAddr)) : id = rp.rank lines := by
  obtain ⟨walk, walkRun, isLines⟩ := Option.map_eq_some_iff.mp cands
  unfold preinsert at run
  rw [walkRun] at run
  dsimp only [Option.bind_eq_bind, Option.bind_some] at run
  rw [isLines] at run
  split at run
  · split at run
    · obtain ⟨swaps, -, run⟩ := Option.bind_eq_some_iff.mp run
      split at run
      · cases run
        rfl
      · cases run
    · cases run
  · cases run

theorem lookup_lt {z : ZArray} (inv : RepInv c z) {lineAddr id : Nat}
    (found : c.lookup z lineAddr = some (some id)) : id < c.numLines := by
  unfold lookup at found
  split at found
  · cases found
  · exact (lookupWays_sound inv (Option.some.inj found)).1

end ZConfig

def RankCands.choosing (victim : Nat) : RankCands where
  rank cands := if victim ∈ cands then victim else cands.headD 0
  presented cands nonempty := by
    split
    case isTrue member => exact member
    case isFalse =>
      cases cands with
      | nil => exact absurd rfl nonempty
      | cons cand rest => exact List.mem_cons_self

theorem RankCands.choosing_rank {victim : Nat} {cands : List Nat} (member : victim ∈ cands) :
    (choosing victim).rank cands = victim := if_pos member

/-- An array with the candidates that its `preinsert` presents. -/
structure CandidateArray extends CacheArray where
  numLines : Nat
  linesWord : numLines < 2 ^ 32
  /-- what `BuildCacheBank` passes on as the number of candidates -/
  numCands : Nat
  candidates : State → Nat → Option (List Nat)
  lookup_lt : ∀ {z a id}, Inv z → lookup z a = some (some id) → id < numLines
  candidates_spec : ∀ {z} a, Inv z → ∃ cands, candidates z a = some cands ∧
    Presented numLines cands ∧ cands.length ≤ numCands
  preinsert_candidates : ∀ {z z' a id wbLineAddr rp cands}, candidates z a = some cands →
    preinsert z a rp = some (z', id, wbLineAddr) → id = rp.rank cands

namespace CandidateArray

/-- The sets need not fill the array. -/
def setAssoc (c : SetAssocConfig) (numLines : Nat) (linesWord : numLines < 2 ^ 32)
    (isSets : c.numSets = numLines / c.assoc) : CandidateArray where
  toCacheArray := .setAssoc c
  numLines := numLines
  linesWord := linesWord
  numCands := c.assoc
  candidates _ lineAddr := some (c.set lineAddr)
  lookup_lt _ found := c.set_lt_lines isSets (SetAssocConfig.lookup_sound (Option.some.inj found)).1
  candidates_spec a _ := ⟨_, rfl,
    ⟨SetAssocConfig.set_ne_nil a, fun _ member => c.set_lt_lines isSets member⟩,
    Nat.le_of_eq (SetAssocConfig.length_set a)⟩
  preinsert_candidates := by
    intro z z' a id wbLineAddr rp cands isCands run
    cases isCands
    cases run
    rfl

def zcache (c : ZConfig) (linesWord : c.numLines < 2 ^ 32) : CandidateArray where
  toCacheArray := .zcache c
  numLines := c.numLines
  linesWord := linesWord
  numCands := c.cands
  candidates := c.candidates
  lookup_lt inv found := ZConfig.lookup_lt inv found
  candidates_spec a inv := inv.candidates a
  preinsert_candidates := ZConfig.preinsert_candidates

end CandidateArray

end Zsim
