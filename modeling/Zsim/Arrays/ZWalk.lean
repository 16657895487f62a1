import Mathlib.Order.Interval.Set.Defs
import Zsim.Arrays.ZArray
import Zsim.Lib.Loop

/-!
# The replacement walk of the zcache

In an array whose lines sit at their own positions, an expansion meets its own
line in exactly one way, so every expansion adds `ways - 1` candidates.  The
candidates of fringe `q` therefore lie between `c.base q` and `c.base (q + 1)`,
which gives the bounds of the walk and, with the least index of a line, a chain
without repetition.
-/

set_option autoImplicit false

namespace Zsim.ZConfig

variable {c : ZConfig}

/-! ## Positions -/

theorem numSets_pos (c : ZConfig) : 0 < c.numSets := Nat.pos_of_ne_zero c.isPow2.1

theorem set_lt (c : ZConfig) (hval : Nat) : hval &&& c.setMask < c.numSets := by
  have le : hval &&& c.setMask ≤ c.numSets - 1 := Nat.and_le_right
  have := c.numSets_pos
  omega

theorem pos_lt {w : Nat} (way : w < c.ways) (lineAddr : Nat) : c.pos w lineAddr < c.numLines := by
  have row : (w + 1) * c.numSets ≤ c.ways * c.numSets := Nat.mul_le_mul_right _ way
  have := c.set_lt (c.hash w lineAddr)
  rw [Nat.succ_mul] at row
  unfold pos numLines
  omega

theorem way_eq {v w : Nat} {a b : Nat} (same : c.pos v a = c.pos w b) : v = w := by
  have way : ∀ u x, c.pos u x / c.numSets = u := fun u x => by
    unfold pos
    rw [Nat.mul_comm, Nat.mul_add_div c.numSets_pos, Nat.div_eq_of_lt (c.set_lt _), Nat.add_zero]
  rw [← way v a, same, way w b]

/-- Position `p` is one of the hash positions of the address in line `id`. -/
def OwnPos (c : ZConfig) (z : ZArray) (id p : Nat) : Prop :=
  ∃ w < c.ways, p = c.pos w (z.array id)

structure RepInv (c : ZConfig) (z : ZArray) : Prop where
  perm : Set.BijOn z.lookupArray (Set.Iio c.numLines) (Set.Iio c.numLines)
  own : ∀ p < c.numLines, z.array (z.lookupArray p) ≠ 0 → c.OwnPos z (z.lookupArray p) p
  unique : ∀ i j, i < c.numLines → j < c.numLines → z.array i ≠ 0 → z.array i = z.array j → i = j

theorem RepInv.selfWay {z : ZArray} (inv : RepInv c z) {p : Nat} (bound : p < c.numLines)
    (filled : z.array (z.lookupArray p) ≠ 0) :
    ∃ self < c.ways, ∀ w < c.ways,
      z.lookupArray (c.pos w (z.array (z.lookupArray p))) = z.lookupArray p ↔ w = self := by
  obtain ⟨self, way, here⟩ := inv.own p bound filled
  refine ⟨self, way, fun w isWay => ⟨fun same => ?_, fun same => ?_⟩⟩
  · have back := inv.perm.injOn (c.pos_lt isWay _) bound same
    exact way_eq (back.trans here)
  · rw [same, ← here]

/-! ## The state of the walk -/

/-- The first candidate that the expansion of candidate `q` adds. -/
def base (c : ZConfig) (q : Nat) : Nat := c.ways + q * (c.ways - 1)

theorem base_succ (c : ZConfig) (q : Nat) : c.base (q + 1) = c.base q + (c.ways - 1) := by
  unfold base
  rw [Nat.succ_mul]
  omega

theorem base_mono (c : ZConfig) {q r : Nat} (le : q ≤ r) : c.base q ≤ c.base r :=
  Nat.add_le_add_left (Nat.mul_le_mul_right _ le) _

theorem add_ways_le_base (c : ZConfig) (q : Nat) : q + c.ways ≤ c.base q := by
  have step : q * 1 ≤ q * (c.ways - 1) := Nat.mul_le_mul_left q (Nat.le_sub_one_of_lt c.waysGt)
  unfold base
  omega

section
variable (z : ZArray) (lineAddr : Nat)

/-- The line of candidate `i`. -/
def lineOf (walk : ZWalk) (i : Nat) : Nat := (walk.candidates i).lineId

/-- Candidate `i` was added by the expansion of `q` in way `w`. -/
def Expanded (c : ZConfig) (walk : ZWalk) (q w i : Nat) : Prop :=
  w < c.ways ∧ z.array (lineOf walk q) ≠ 0 ∧
    walk.candidates i = ⟨c.pos w (z.array (lineOf walk q)),
      z.lookupArray (c.pos w (z.array (lineOf walk q))), some q⟩

structure Walked (c : ZConfig) (walk : ZWalk) : Prop where
  count : walk.numCandidates = c.base walk.fringeStart
  seeds : ∀ i < c.ways, walk.candidates i = ⟨c.pos i lineAddr, z.lookupArray (c.pos i lineAddr), none⟩
  added : ∀ i, c.ways ≤ i → i < walk.numCandidates →
    ∃ q < walk.fringeStart, ∃ w, c.base q ≤ i ∧ Expanded z c walk q w i
  met : ∀ q < walk.fringeStart, ∀ w < c.ways,
    z.lookupArray (c.pos w (z.array (lineOf walk q))) ≠ lineOf walk q →
    ∃ i < c.base (q + 1), Expanded z c walk q w i
  valid : walk.allValid = true → ∀ i < walk.numCandidates, z.array (lineOf walk i) ≠ 0

end

section
variable {z : ZArray} {lineAddr : Nat} {walk : ZWalk}

theorem Walked.fringe_lt (walked : Walked z lineAddr c walk) : walk.fringeStart < walk.numCandidates := by
  have := c.add_ways_le_base walk.fringeStart
  have := c.waysGt
  rw [walked.count]
  omega

theorem Walked.located (walked : Walked z lineAddr c walk) {i : Nat} (bound : i < walk.numCandidates) :
    (walk.candidates i).pos < c.numLines ∧
      lineOf walk i = z.lookupArray (walk.candidates i).pos := by
  by_cases seed : i < c.ways
  · unfold lineOf
    rw [walked.seeds i seed]
    exact ⟨c.pos_lt seed lineAddr, rfl⟩
  · obtain ⟨q, -, w, -, way, -, isCand⟩ := walked.added i (Nat.not_lt.mp seed) bound
    unfold lineOf
    rw [isCand]
    exact ⟨c.pos_lt way _, rfl⟩

theorem setCandidate_eq {i : Nat} (room : i < c.cands + c.ways) (walk : ZWalk) (info : ZWalkInfo) :
    c.setCandidate walk i info =
      some { walk with candidates := Function.update walk.candidates i info } :=
  if_pos room

/-! ## Seeds -/

/-- What is known after the seeds of the ways below `k`. -/
structure Seeding (c : ZConfig) (z : ZArray) (lineAddr k : Nat) (walk : ZWalk) : Prop where
  count : walk.numCandidates = c.ways
  fringe : walk.fringeStart = 0
  seeds : ∀ i < k, walk.candidates i = ⟨c.pos i lineAddr, z.lookupArray (c.pos i lineAddr), none⟩
  valid : walk.allValid = true → ∀ i < k, z.array (lineOf walk i) ≠ 0

theorem Seeding.seed {k : Nat} (seeding : Seeding c z lineAddr k walk) (way : k < c.ways) :
    ∃ next, c.seed z lineAddr walk k = some next ∧ Seeding c z lineAddr (k + 1) next := by
  have room : k < c.cands + c.ways := Nat.lt_of_lt_of_le way (Nat.le_add_left _ _)
  unfold ZConfig.seed
  dsimp only
  rw [setCandidate_eq room]
  refine ⟨_, rfl, seeding.count, seeding.fringe, ?_, ?_⟩
  · intro i bound
    by_cases here : i = k
    · subst here
      exact Function.update_self ..
    · exact (Function.update_of_ne here _ _).trans (seeding.seeds i (by omega))
  · intro valid i bound
    obtain ⟨before, now⟩ := Bool.and_eq_true_iff.mp valid
    by_cases here : i = k
    · subst here
      simpa [lineOf] using now
    · have line := seeding.valid before i (by omega)
      simpa [lineOf, here] using line

theorem Seeding.walked (seeding : Seeding c z lineAddr c.ways walk) : Walked z lineAddr c walk where
  count := by simp [seeding.count, seeding.fringe, base]
  seeds := seeding.seeds
  added i fromWays bound := by
    rw [seeding.count] at bound
    omega
  met q bound := by
    rw [seeding.fringe] at bound
    omega
  valid valid i bound := seeding.valid valid i (seeding.count ▸ bound)

/-! ## One expansion -/

/-- What is known after the ways below `k` of the expansion of `walk`, which meets
its own line in way `own`. -/
structure Expanding (c : ZConfig) (z : ZArray) (walk : ZWalk) (own k : Nat) (cur : ZWalk) : Prop where
  fringe : cur.fringeStart = walk.fringeStart
  count : cur.numCandidates + (if own < k then 1 else 0) = walk.numCandidates + k
  old : ∀ i < walk.numCandidates, cur.candidates i = walk.candidates i
  added : ∀ i, walk.numCandidates ≤ i → i < cur.numCandidates →
    ∃ w, Expanded z c cur walk.fringeStart w i
  met : ∀ w < k, w ≠ own → ∃ i < cur.numCandidates, Expanded z c cur walk.fringeStart w i
  valid : cur.allValid = true → ∀ i < cur.numCandidates, z.array (lineOf cur i) ≠ 0

theorem Expanded.congr {cur next : ZWalk} {q w i : Nat} (expanded : Expanded z c cur q w i)
    (fringe : next.candidates q = cur.candidates q) (cand : next.candidates i = cur.candidates i) :
    Expanded z c next q w i := by
  unfold Expanded lineOf at *
  rw [fringe, cand]
  exact expanded

theorem Expanded.line {cur : ZWalk} {q w i : Nat} (expanded : Expanded z c cur q w i) :
    lineOf cur i = z.lookupArray (c.pos w (z.array (lineOf cur q))) := by
  unfold lineOf
  rw [expanded.2.2]
  rfl

theorem Expanding.way {own k : Nat} {cur : ZWalk} (state : Expanding c z walk own k cur)
    (isFringe : walk.fringeStart < walk.numCandidates) (more : walk.numCandidates < c.cands)
    (way : k < c.ways) (filled : z.array (lineOf walk walk.fringeStart) ≠ 0)
    (selfHit : z.lookupArray (c.pos k (z.array (lineOf walk walk.fringeStart))) =
      lineOf walk walk.fringeStart ↔ k = own) :
    ∃ next, c.expandWay z (lineOf walk walk.fringeStart) (z.array (lineOf walk walk.fringeStart))
      cur k = some next ∧ Expanding c z walk own (k + 1) next := by
  obtain ⟨n, nEq⟩ : ∃ n, n = cur.numCandidates := ⟨_, rfl⟩
  have count := state.count
  have atLeast : walk.numCandidates ≤ n := by
    split at count <;> omega
  have room : n < c.cands + c.ways := by
    split at count <;> omega
  have sameFringe : lineOf cur walk.fringeStart = lineOf walk walk.fringeStart := by
    unfold lineOf
    rw [state.old _ isFringe]
  obtain ⟨info, infoEq⟩ : ∃ info : ZWalkInfo, info =
      ⟨c.pos k (z.array (lineOf walk walk.fringeStart)),
        z.lookupArray (c.pos k (z.array (lineOf walk walk.fringeStart))), some walk.fringeStart⟩ :=
    ⟨_, rfl⟩
  have before : ∀ i < n, Function.update cur.candidates n info i = cur.candidates i :=
    fun i bound => Function.update_of_ne (Nat.ne_of_lt bound) _ _
  obtain ⟨added, addedEq⟩ : ∃ added, added = if k = own then 0 else 1 := ⟨_, rfl⟩
  refine ⟨⟨Function.update cur.candidates n info, n + added,
    cur.allValid && z.array info.lineId ≠ 0, walk.fringeStart⟩, ?_, ?_⟩
  · unfold expandWay
    dsimp only
    rw [← nEq, setCandidate_eq room, state.fringe, addedEq, infoEq]
    by_cases isSelf : k = own
    · subst isSelf
      simp [selfHit.mpr rfl, nEq]
    · have miss := mt selfHit.mp isSelf
      simp [isSelf, miss, nEq]
  · have isNew : Expanded z c ⟨Function.update cur.candidates n info, n + added,
        cur.allValid && z.array info.lineId ≠ 0, walk.fringeStart⟩ walk.fringeStart k n := by
      have fringe : Function.update cur.candidates n info walk.fringeStart =
          walk.candidates walk.fringeStart :=
        (before _ (by omega)).trans (state.old _ isFringe)
      unfold Expanded lineOf
      dsimp only
      rw [fringe, Function.update_self]
      exact ⟨way, filled, infoEq⟩
    have kept : ∀ w i, i < n → Expanded z c cur walk.fringeStart w i →
        Expanded z c ⟨Function.update cur.candidates n info, n + added,
          cur.allValid && z.array info.lineId ≠ 0, walk.fringeStart⟩ walk.fringeStart w i :=
      fun w i bound expanded => expanded.congr (before _ (by omega)) (before i bound)
    refine ⟨rfl, ?_, ?_, ?_, ?_, ?_⟩
    · show n + added + _ = _
      split at addedEq <;> split at count <;> split <;> omega
    · intro i bound
      exact (before i (by omega)).trans (state.old i bound)
    · intro i low high
      change i < n + added at high
      by_cases last : i = n
      · subst last
        exact ⟨k, isNew⟩
      · have bound : i < n := by split at addedEq <;> omega
        obtain ⟨w, expanded⟩ := state.added i low (by omega)
        exact ⟨w, kept w i bound expanded⟩
    · intro w bound other
      by_cases last : w = k
      · subst last
        rw [if_neg other] at addedEq
        exact ⟨n, show n < n + added by omega, isNew⟩
      · obtain ⟨i, high, expanded⟩ := state.met w (by omega) other
        exact ⟨i, show i < n + added by omega, kept w i (by omega) expanded⟩
    · intro valid i high
      change i < n + added at high
      obtain ⟨earlier, now⟩ := Bool.and_eq_true_iff.mp valid
      by_cases last : i = n
      · subst last
        simpa [lineOf] using now
      · have bound : i < n := by split at addedEq <;> omega
        have line := state.valid earlier i (by omega)
        simpa [lineOf, before i bound] using line

theorem Walked.expand (inv : RepInv c z) (walked : Walked z lineAddr c walk)
    (more : walk.numCandidates < c.cands) (valid : walk.allValid = true) :
    ∃ next, c.expand z walk = some next ∧ Walked z lineAddr c next ∧
      next.numCandidates = walk.numCandidates + (c.ways - 1) := by
  have isFringe := walked.fringe_lt
  have filled := walked.valid valid _ isFringe
  obtain ⟨bound, line⟩ := walked.located isFringe
  obtain ⟨own, ownWay, selfHit⟩ := inv.selfWay bound (line ▸ filled)
  rw [← line] at selfHit
  have start : Expanding c z walk own 0 walk := by
    refine ⟨rfl, by simp, fun _ _ => rfl, ?_, ?_, walked.valid⟩
    · intro i low high
      omega
    · intro w none
      omega
  obtain ⟨final, run, state⟩ := foldlM_range c.ways start fun k cur way state =>
    state.way isFringe more way filled (selfHit k way)
  have count := state.count
  rw [if_pos ownWay, walked.count] at count
  have total : final.numCandidates = c.base (walk.fringeStart + 1) := by
    rw [base_succ]
    omega
  have waysLe : c.ways ≤ walk.numCandidates := by
    have := c.add_ways_le_base walk.fringeStart
    rw [walked.count]
    omega
  have sameCand : ∀ i < walk.numCandidates, final.candidates i = walk.candidates i := state.old
  refine ⟨{ final with fringeStart := final.fringeStart + 1 }, ?_, ⟨?_, ?_, ?_, ?_, state.valid⟩, ?_⟩
  · unfold ZConfig.expand
    unfold lineOf at filled run
    dsimp only
    rw [if_pos filled, run]
    rfl
  · show final.numCandidates = c.base (final.fringeStart + 1)
    rw [total, state.fringe]
  · intro i seed
    exact (sameCand i (by omega)).trans (walked.seeds i seed)
  · intro i fromWays high
    change i < final.numCandidates at high
    by_cases old : i < walk.numCandidates
    · obtain ⟨q, isExpanded, w, low, expanded⟩ := walked.added i fromWays old
      refine ⟨q, show q < final.fringeStart + 1 by rw [state.fringe]; omega, w, low, ?_⟩
      exact expanded.congr (sameCand q (by omega)) (sameCand i old)
    · obtain ⟨w, expanded⟩ := state.added i (Nat.not_lt.mp old) high
      refine ⟨walk.fringeStart, show _ < final.fringeStart + 1 by rw [state.fringe]; omega, w, ?_,
        expanded⟩
      have := walked.count
      omega
  · intro q isExpanded w way other
    change q < final.fringeStart + 1 at isExpanded
    rw [state.fringe] at isExpanded
    have isOld : q < walk.numCandidates := by omega
    have sameLine : lineOf final q = lineOf walk q := congrArg ZWalkInfo.lineId (sameCand q isOld)
    change z.lookupArray (c.pos w (z.array (lineOf final q))) ≠ lineOf final q at other
    rw [sameLine] at other
    by_cases last : q = walk.fringeStart
    · subst last
      obtain ⟨i, high, expanded⟩ := state.met w way (mt (selfHit w way).mpr other)
      exact ⟨i, by omega, expanded⟩
    · obtain ⟨i, high, expanded⟩ := walked.met q (by omega) w way other
      have isOldCand : i < walk.numCandidates := by
        have := c.base_mono (show q + 1 ≤ walk.fringeStart by omega)
        rw [walked.count]
        omega
      exact ⟨i, high, expanded.congr (sameCand q isOld) (sameCand i isOldCand)⟩
  · show final.numCandidates = _
    have := walked.count
    omega

theorem Walked.walkFrom (inv : RepInv c z) (walked : Walked z lineAddr c walk) {fuel : Nat}
    (enough : c.cands ≤ fuel + walk.numCandidates) :
    ∃ final, c.walkFrom z fuel walk = some final ∧ Walked z lineAddr c final ∧
      (final.allValid = true → c.cands ≤ final.numCandidates) := by
  induction fuel generalizing walk with
  | zero =>
      unfold ZConfig.walkFrom
      rw [if_neg (by omega)]
      exact ⟨walk, rfl, walked, fun _ => by omega⟩
  | succ fuel ih =>
      unfold ZConfig.walkFrom
      by_cases more : walk.numCandidates < c.cands ∧ walk.allValid = true
      · obtain ⟨next, step, walkedNext, count⟩ := walked.expand inv more.1 more.2
        have := c.waysGt
        obtain ⟨final, run, done⟩ := ih walkedNext (by omega)
        exact ⟨final, by rw [if_pos more]; simp [step, run], done⟩
      · rw [if_neg more]
        exact ⟨walk, rfl, walked, fun valid => Nat.not_lt.mp fun lt => more ⟨lt, valid⟩⟩

theorem RepInv.walks (inv : RepInv c z) (lineAddr : Nat) :
    ∃ final, c.walk z lineAddr = some final ∧ Walked z lineAddr c final ∧
      (final.allValid = true → c.cands ≤ final.numCandidates) := by
  have start : Seeding c z lineAddr 0 ⟨fun _ => ⟨0, 0, none⟩, c.ways, true, 0⟩ :=
    ⟨rfl, rfl, fun i none => absurd none (Nat.not_lt_zero i),
      fun _ i none => absurd none (Nat.not_lt_zero i)⟩
  obtain ⟨seeded, run, seeding⟩ := foldlM_range c.ways start fun k s way seeding => seeding.seed way
  obtain ⟨final, walkRun, done⟩ :=
    seeding.walked.walkFrom inv (Nat.le_add_right c.cands seeded.numCandidates)
  refine ⟨final, ?_, done⟩
  unfold ZConfig.walk
  dsimp only
  rw [run]
  exact walkRun

/-! ## The chain of the swaps -/

/-- Candidate `i` is the first with its line. -/
def IsFirst (walk : ZWalk) (i : Nat) : Prop := ∀ j < i, lineOf walk j ≠ lineOf walk i

/-- Breadth-first order: the parent of a first candidate is a first candidate,
or an earlier expansion of the same line would have met this one before. -/
theorem Walked.parent_first (walked : Walked z lineAddr c walk) {i q w : Nat}
    (bound : q < walk.fringeStart) (low : c.base q ≤ i) (expanded : Expanded z c walk q w i)
    (first : IsFirst walk i) : IsFirst walk q := by
  intro r before same
  have waysBase := c.add_ways_le_base q
  have line := expanded.line
  rw [← same] at line
  have other : z.lookupArray (c.pos w (z.array (lineOf walk r))) ≠ lineOf walk r := by
    rw [← line]
    exact fun h => first r (by omega) h.symm
  obtain ⟨j, high, met⟩ := walked.met r (by omega) w expanded.1 other
  have earlier : j < i := by
    have := c.base_mono (show r + 1 ≤ q by omega)
    omega
  exact first j earlier (met.line.trans line.symm)

/-- A line at position `q` may move to `p`, which is one of its own positions. -/
def MayMove (c : ZConfig) (z : ZArray) (p q : Nat) : Prop :=
  z.array (z.lookupArray q) ≠ 0 ∧ c.OwnPos z (z.lookupArray q) p

theorem swapChain_none (walk : ZWalk) (slots : Nat) : swapChain walk slots none = some [] := by
  cases slots <;> rfl

/-- The chain from a first candidate fits the slots and repeats no position: its
lines are all different. -/
theorem Walked.swapChain (walked : Walked z lineAddr c walk) (slots i : Nat)
    (bound : i < walk.numCandidates) (first : IsFirst walk i) (enough : i / c.ways + 1 ≤ slots) :
    ∃ rest, swapChain walk slots (some i) = some ((walk.candidates i).pos :: rest) ∧
      ((walk.candidates i).pos :: rest).Nodup ∧
      ((walk.candidates i).pos :: rest).IsChain (c.MayMove z) ∧
      (∀ p ∈ (walk.candidates i).pos :: rest, ∃ j ≤ i, p = (walk.candidates j).pos) ∧
      ∃ w < c.ways, ((walk.candidates i).pos :: rest).getLast? = some (c.pos w lineAddr) := by
  have ways := c.waysGt
  induction slots generalizing i with
  | zero => exact absurd enough (Nat.not_succ_le_zero _)
  | succ slots ih =>
      unfold ZConfig.swapChain
      by_cases seed : i < c.ways
      · refine ⟨[], ?_, List.pairwise_singleton _ _, List.isChain_singleton _, ?_, i, seed, ?_⟩
        · rw [walked.seeds i seed]
          dsimp only
          rw [swapChain_none]
          rfl
        · intro p member
          exact ⟨i, Nat.le_refl i, List.mem_singleton.mp member⟩
        · rw [walked.seeds i seed]
          rfl
      · obtain ⟨q, isExpanded, w, low, expanded⟩ := walked.added i (Nat.not_lt.mp seed) bound
        have waysBase := c.add_ways_le_base q
        have isCand : q < walk.numCandidates := by omega
        have shorter : q / c.ways + 1 ≤ slots := by
          have step : (q + c.ways) / c.ways ≤ i / c.ways := Nat.div_le_div_right (by omega)
          rw [Nat.add_div_right q (by omega)] at step
          omega
        obtain ⟨rest, run, nodup, chain, members, last⟩ :=
          ih q isCand (walked.parent_first isExpanded low expanded first) shorter
        obtain ⟨way, filled, cand⟩ := expanded
        obtain ⟨here, line⟩ := walked.located bound
        obtain ⟨-, parentLine⟩ := walked.located isCand
        refine ⟨(walk.candidates q).pos :: rest, ?_, ?_, ?_, ?_, ?_⟩
        · have parent : (walk.candidates i).parentIdx = some q := by rw [cand]
          dsimp only
          rw [parent, run]
          rfl
        · refine List.nodup_cons.mpr ⟨fun again => ?_, nodup⟩
          obtain ⟨j, le, same⟩ := members _ again
          refine first j (by omega) ?_
          rw [(walked.located (show j < walk.numCandidates by omega)).2, line, same]
        · refine List.isChain_cons_cons.mpr ⟨?_, chain⟩
          unfold MayMove OwnPos
          rw [← parentLine]
          exact ⟨filled, w, way, by rw [cand]⟩
        · intro p member
          rcases List.mem_cons.mp member with rfl | later
          · exact ⟨i, Nat.le_refl i, rfl⟩
          · obtain ⟨j, le, same⟩ := members p later
            exact ⟨j, by omega, same⟩
        · rw [List.getLast?_cons_cons]
          exact last

end

end Zsim.ZConfig
