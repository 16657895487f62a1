import Mathlib.Data.List.Find
import Mathlib.Data.List.MinMax
import Zsim.Arrays.SetAssocArray
import Zsim.Arrays.Srrip
import Zsim.Lib.Machine

/-!
# The sets of a cache with SRRIP

A search ages every line of the cache, also those of other sets, by as many rounds as it takes to
bring a candidate to `maxM`.  What a set sees of a run is its own accesses and the rounds of the
searches in other sets, and its victims depend on nothing else.
-/

set_option autoImplicit false

namespace Zsim

theorem FirstLargest.foldr_max {value : Nat → Nat} {items : List Nat} {first : Nat}
    (largest : FirstLargest value items first) : (items.map value).foldr max 0 = value first := by
  apply Nat.le_antisymm
  · refine List.max_le_of_forall_le _ _ fun v member => ?_
    obtain ⟨id, isItem, rfl⟩ := List.mem_map.mp member
    exact largest.bound isItem
  · exact List.le_max_of_le (List.mem_map_of_mem largest.mem) (Nat.le_refl _)

namespace SRRIPReplPolicy

variable {c : SrripConfig}

/-! ## Aging -/

/-- The lines after a number of rounds. -/
def aged (c : SrripConfig) (rounds : Nat) (p : SRRIPReplPolicy) : SRRIPReplPolicy :=
  ⟨fun i => if i < c.numLines then min c.maxM (p.array i + rounds) else p.array i⟩

theorem aged_of_lt {p : SRRIPReplPolicy} {id : Nat} (line : id < c.numLines) (rounds : Nat) :
    (p.aged c rounds).array id = min c.maxM (p.array id + rounds) := if_pos line

theorem RrpvOk.aged_zero {p : SRRIPReplPolicy} (ok : RrpvOk c p) : p.aged c 0 = p := by
  unfold aged
  congr 1
  funext i
  split
  · rw [Nat.add_zero, Nat.min_eq_right (ok i)]
  · rfl

theorem RrpvOk.aged {p : SRRIPReplPolicy} (ok : RrpvOk c p) (rounds : Nat) :
    RrpvOk c (p.aged c rounds) := by
  intro i
  unfold SRRIPReplPolicy.aged
  dsimp only
  split
  · exact Nat.min_le_left _ _
  · exact ok i

theorem aged_aged (p : SRRIPReplPolicy) (first second : Nat) :
    (p.aged c first).aged c second = p.aged c (first + second) := by
  unfold aged
  congr 1
  funext i
  dsimp only
  split
  · omega
  · rfl

/-- A round of the loop over all lines. -/
theorem RrpvOk.increment_eq {p : SRRIPReplPolicy} (ok : RrpvOk c p) : p.increment c = p.aged c 1 := by
  have word := c.maxM_word
  unfold SRRIPReplPolicy.increment SRRIPReplPolicy.aged
  congr 1
  funext i
  have atMost := ok i
  by_cases line : i < c.numLines
  · rw [if_pos line]
    by_cases last : p.array i = c.maxM
    · rw [if_neg fun both => both.2 last]
      omega
    · rw [if_pos ⟨line, last⟩, u32_of_lt (by omega)]
      omega
  · rw [if_neg fun both => line both.1, if_neg line]

/-- The rounds that a search takes. -/
def rounds (c : SrripConfig) (p : SRRIPReplPolicy) (cands : List Nat) : Nat :=
  c.maxM - (cands.map p.array).foldr max 0

/-- A search ages all lines until its victim is at `maxM`. -/
theorem rank_aged {cands : List Nat} (lines : ∀ id ∈ cands, id < c.numLines) {fuel : Nat}
    {p next : SRRIPReplPolicy} {victim : Nat} (ok : RrpvOk c p)
    (run : p.rank c fuel cands = some (victim, next)) :
    victim ∈ cands ∧ next = p.aged c (c.maxM - p.array victim) := by
  induction fuel generalizing p with
  | zero => cases run
  | succ fuel ih =>
      unfold rank at run
      split at run
      case h_1 id found =>
        obtain ⟨rfl, rfl⟩ := Prod.mk.inj (Option.some.inj run)
        have isLast : p.array id = c.maxM := by simpa using List.find?_some found
        refine ⟨List.mem_of_find?_eq_some found, ?_⟩
        rw [isLast, Nat.sub_self, ok.aged_zero]
      case h_2 missing =>
        obtain ⟨member, isNext⟩ := ih ok.increment run
        refine ⟨member, ?_⟩
        have notLast : p.array victim ≠ c.maxM := by
          have missed := List.find?_eq_none.mp missing victim member
          simpa using missed
        have atMost := ok victim
        have below : p.array victim < c.maxM := by omega
        rw [isNext, increment_of_lt (lines victim member) below, ok.increment_eq, aged_aged]
        congr 1
        omega

theorem RrpvOk.rank_rounds {cands : List Nat} (isCands : Candidates c cands) {p next : SRRIPReplPolicy}
    {victim : Nat} (ok : RrpvOk c p) (run : p.rank c (c.maxM + 1) cands = some (victim, next)) :
    next = p.aged c (p.rounds c cands) := by
  obtain ⟨first, last, searched, -, largest, -⟩ := ok.rank isCands
  obtain ⟨-, isAged⟩ := rank_aged isCands.2 ok run
  rw [searched _ (Nat.lt_succ_self _)] at run
  obtain ⟨rfl, -⟩ := Prod.mk.inj (Option.some.inj run)
  unfold rounds
  rw [largest.foldr_max]
  exact isAged

/-- The lines outside the candidates keep their values exactly if no round was needed, or there is
none of them that a round would change. -/
theorem aged_outside_iff {p : SRRIPReplPolicy} (ok : RrpvOk c p) (rounds : Nat) (cands : List Nat) :
    (∀ id, id ∉ cands → (p.aged c rounds).array id = p.array id) ↔
      rounds = 0 ∨ ∀ id < c.numLines, id ∉ cands → p.array id = c.maxM := by
  constructor
  · intro kept
    by_contra neither
    obtain ⟨some', notAll⟩ := not_or.mp neither
    refine notAll fun id line outside => ?_
    have same := kept id outside
    have atMost := ok id
    rw [aged_of_lt line] at same
    omega
  · rintro (none | full) id outside
    · rw [none, ok.aged_zero]
    · by_cases line : id < c.numLines
      · rw [aged_of_lt line, full id line outside]
        omega
      · exact if_neg line

theorem rank_congr {cands : List Nat} {fuel : Nat} {p q next : SRRIPReplPolicy} {victim : Nat}
    (same : ∀ id ∈ cands, p.array id = q.array id)
    (run : p.rank c fuel cands = some (victim, next)) :
    ∃ other, q.rank c fuel cands = some (victim, other) ∧ ∀ id ∈ cands, next.array id = other.array id := by
  induction fuel generalizing p q with
  | zero => cases run
  | succ fuel ih =>
      have sameFind : cands.find? (fun id => q.array id == c.maxM) =
          cands.find? fun id => p.array id == c.maxM :=
        List.find?_congr fun id member => by rw [same id member]
      unfold rank at run ⊢
      rw [sameFind]
      split at run
      case h_1 id found =>
        cases run
        exact ⟨q, rfl, same⟩
      case h_2 missing =>
        refine ih (fun id member => ?_) run
        unfold increment
        dsimp only
        rw [same id member]

end SRRIPReplPolicy

/-! ## The cache -/

structure SrripCacheConfig where
  array : SetAssocConfig
  rp : SrripConfig
  isSets : array.numSets = rp.numLines / array.assoc

structure SrripCache where
  tags : SetAssocArray
  rp : SRRIPReplPolicy
  /-- the victims and their sets, the latest first -/
  victims : List (Nat × Nat)

/-- The calls of the controller; an address may be inserted while another one is. -/
inductive SetOp where
  | lookup (lineAddr : Nat) (updateReplacement : Bool)
  | preinsert (lineAddr : Nat)
  | postinsert (lineAddr candidate : Nat)
  deriving DecidableEq, Repr

namespace SetOp

def lineAddr : SetOp → Nat
  | lookup lineAddr _ | preinsert lineAddr | postinsert lineAddr _ => lineAddr

end SetOp

namespace SrripCache

variable (c : SrripCacheConfig)

def start : SrripCache := ⟨fun _ => 0, .init, []⟩

def legal (_ : SrripCache) : SetOp → Prop
  | .lookup _ _ | .preinsert _ => True
  | .postinsert lineAddr candidate => candidate ∈ c.array.set lineAddr

def lookup (s : SrripCache) (lineAddr : Nat) (updateReplacement : Bool) : SrripCache :=
  match c.array.lookup s.tags lineAddr with
  | some id => if updateReplacement then { s with rp := s.rp.update c.rp id } else s
  | none => s

def preinsert (s : SrripCache) (lineAddr : Nat) : Option SrripCache :=
  (s.rp.rank c.rp (c.rp.maxM + 1) (c.array.set lineAddr)).map fun (victim, rp) =>
    { s with rp := rp, victims := (c.array.index lineAddr, victim) :: s.victims }

def postinsert (s : SrripCache) (lineAddr candidate : Nat) : SrripCache :=
  { s with
    tags := SetAssocConfig.postinsert s.tags lineAddr candidate
    rp := (s.rp.replaced c.rp candidate).update c.rp candidate }

def step (s : SrripCache) : SetOp → Option SrripCache
  | .lookup lineAddr updateReplacement => some (s.lookup c lineAddr updateReplacement)
  | .preinsert lineAddr => s.preinsert c lineAddr
  | .postinsert lineAddr candidate => some (s.postinsert c lineAddr candidate)

def machine : Machine SrripCache SetOp := ⟨legal c, step c⟩

instance (s : SrripCache) : ∀ op, Decidable ((machine c).legal s op)
  | .lookup _ _ | .preinsert _ => .isTrue trivial
  | .postinsert lineAddr candidate => inferInstanceAs (Decidable (candidate ∈ c.array.set lineAddr))

/-! ## A set of the cache -/

/-- What a set sees: an access of its own, or the rounds of a search in another set. -/
inductive Seen where
  | own (op : SetOp)
  | aged (rounds : Nat)
  deriving DecidableEq, Repr

def seen (set : Nat) (s : SrripCache) (op : SetOp) : List Seen :=
  if c.array.index op.lineAddr = set then [.own op]
  else match op with
    | .preinsert lineAddr =>
      let rounds := s.rp.rounds c.rp (c.array.set lineAddr)
      if rounds = 0 then [] else [.aged rounds]
    | .lookup _ _ | .postinsert _ _ => []

/-- A cache in which nothing happens but in one set. -/
def alone : Machine SrripCache Seen where
  legal _ _ := True
  step s
    | .own op => s.step c op
    | .aged rounds => some { s with rp := s.rp.aged c.rp rounds }

def victimsOf (set : Nat) (s : SrripCache) : List Nat :=
  (s.victims.filter fun victim => victim.1 = set).map Prod.snd

/-- The lines and the victims of a set. -/
structure SameSet (set : Nat) (s t : SrripCache) : Prop where
  tags : ∀ id, id / c.array.assoc = set → s.tags id = t.tags id
  rp : ∀ id, id / c.array.assoc = set → s.rp.array id = t.rp.array id
  victims : s.victimsOf set = t.victimsOf set

variable {c} {s t : SrripCache} {set : Nat}

theorem set_lines (c : SrripCacheConfig) (lineAddr : Nat) : Candidates c.rp (c.array.set lineAddr) :=
  ⟨SetAssocConfig.set_ne_nil lineAddr, fun _ member => c.array.set_lt_lines c.isSets member⟩

theorem SameSet.lookup_eq (same : SameSet c set s t) {lineAddr : Nat} (own : c.array.index lineAddr = set) :
    c.array.lookup s.tags lineAddr = c.array.lookup t.tags lineAddr :=
  List.find?_congr fun id member => by
    rw [same.tags id ((SetAssocConfig.index_of_mem_set member).trans own)]

theorem update_congr {c : SrripConfig} {p q : SRRIPReplPolicy} {assoc : Nat}
    (same : ∀ i, i / assoc = set → p.array i = q.array i) (id : Nat) :
    ∀ i, i / assoc = set → (p.update c id).array i = (q.update c id).array i := by
  intro i here
  unfold SRRIPReplPolicy.update
  dsimp only
  by_cases updated : i = id
  · subst updated
    rw [Function.update_self, Function.update_self, same i here]
  · rw [Function.update_of_ne updated, Function.update_of_ne updated, same i here]

theorem update_other {c : SrripConfig} {p : SRRIPReplPolicy} {i id : Nat} (other : i ≠ id) :
    (p.update c id).array i = p.array i := Function.update_of_ne other ..

theorem ne_of_other {lineAddr i id : Nat} (other : c.array.index lineAddr ≠ set)
    (member : id ∈ c.array.set lineAddr) (here : i / c.array.assoc = set) : i ≠ id := by
  intro same
  subst same
  exact other ((SetAssocConfig.index_of_mem_set member).symm.trans here)

theorem victimsOf_own {index : Nat} (own : index = set) (s : SrripCache) (rp : SRRIPReplPolicy) (victim : Nat) :
    victimsOf set { s with rp := rp, victims := (index, victim) :: s.victims } = victim :: s.victimsOf set := by
  unfold victimsOf
  dsimp only
  rw [List.filter_cons_of_pos (by simpa using own), List.map_cons]

theorem victimsOf_other {index : Nat} (other : index ≠ set) (s : SrripCache) (rp : SRRIPReplPolicy)
    (victim : Nat) :
    victimsOf set { s with rp := rp, victims := (index, victim) :: s.victims } = s.victimsOf set := by
  unfold victimsOf
  dsimp only
  rw [List.filter_cons_of_neg (by simpa using other)]

theorem SameSet.own (same : SameSet c set s t) {op : SetOp} (own : c.array.index op.lineAddr = set)
    {next : SrripCache} (step : s.step c op = some next) :
    ∃ next', t.step c op = some next' ∧ SameSet c set next next' := by
  cases op with
  | lookup lineAddr updateReplacement =>
      cases step
      refine ⟨_, rfl, ?_⟩
      unfold lookup
      have sameLookup : c.array.lookup s.tags lineAddr = c.array.lookup t.tags lineAddr :=
        same.lookup_eq own
      rw [sameLookup]
      split
      · split
        · exact ⟨same.tags, update_congr same.rp _, same.victims⟩
        · exact same
      · exact same
  | preinsert lineAddr =>
      obtain ⟨⟨victim, rp⟩, run, isNext⟩ := Option.map_eq_some_iff.mp step
      cases isNext
      obtain ⟨rp', run', sameRp⟩ := SRRIPReplPolicy.rank_congr (fun id member =>
        same.rp id ((SetAssocConfig.index_of_mem_set member).trans own)) run
      refine ⟨_, congrArg (Option.map _) run', same.tags, fun id here => ?_, ?_⟩
      · exact sameRp id (SetAssocConfig.mem_set_iff.mpr (here.trans own.symm))
      · exact (victimsOf_own own s rp victim).trans
          ((congrArg (victim :: ·) same.victims).trans (victimsOf_own own t rp' victim).symm)
  | postinsert lineAddr candidate =>
      cases step
      refine ⟨_, rfl, fun id here => ?_, update_congr (fun id here => ?_) candidate, same.victims⟩
      · unfold postinsert SetAssocConfig.postinsert
        dsimp only
        rw [Function.update_apply, Function.update_apply, same.tags id here]
      · unfold SRRIPReplPolicy.replaced
        dsimp only
        rw [Function.update_apply, Function.update_apply, same.rp id here]

theorem SameSet.other (same : SameSet c set s t) (ok : SRRIPReplPolicy.RrpvOk c.rp s.rp) {op : SetOp}
    (legal : s.legal c op)
    (other : c.array.index op.lineAddr ≠ set) {next : SrripCache} (step : s.step c op = some next) :
    ∃ next', (alone c).exec (s.seen c set op) t = some next' ∧ SameSet c set next next' := by
  unfold seen
  rw [if_neg other]
  cases op with
  | lookup lineAddr updateReplacement =>
      cases step
      refine ⟨t, rfl, ?_⟩
      unfold lookup
      split
      case h_1 id found =>
        split
        · refine ⟨same.tags, fun i here => ?_, same.victims⟩
          rw [update_other (ne_of_other other (SetAssocConfig.lookup_sound found).1 here)]
          exact same.rp i here
        · exact same
      case h_2 => exact same
  | preinsert lineAddr =>
      obtain ⟨⟨victim, rp⟩, run, isNext⟩ := Option.map_eq_some_iff.mp step
      cases isNext
      have isAged := ok.rank_rounds (set_lines c lineAddr) run
      have sameVictims := (victimsOf_other other s rp victim).trans same.victims
      dsimp only
      split
      case isTrue none =>
        rw [none, ok.aged_zero] at isAged
        exact ⟨t, rfl, same.tags, by rw [isAged]; exact same.rp, sameVictims⟩
      case isFalse =>
        refine ⟨_, rfl, same.tags, fun i here => ?_, sameVictims⟩
        rw [isAged]
        unfold SRRIPReplPolicy.aged
        dsimp only
        rw [same.rp i here]
  | postinsert lineAddr candidate =>
      cases step
      refine ⟨t, rfl, fun i here => ?_, fun i here => ?_, same.victims⟩
      · exact (Function.update_of_ne (ne_of_other other legal here) ..).trans (same.tags i here)
      · have apart := ne_of_other other legal here
        exact ((update_other apart).trans (Function.update_of_ne apart ..)).trans (same.rp i here)

/-! ## Runs -/

theorem step_ok (ok : SRRIPReplPolicy.RrpvOk c.rp s.rp) (op : SetOp) :
    ∃ next, s.step c op = some next ∧ SRRIPReplPolicy.RrpvOk c.rp next.rp := by
  cases op with
  | lookup lineAddr updateReplacement =>
      refine ⟨_, rfl, ?_⟩
      unfold lookup
      split
      · split
        · exact SRRIPReplPolicy.RrpvOk.update fun i _ => ok i
        · exact ok
      · exact ok
  | preinsert lineAddr =>
      obtain ⟨victim, rp, run, okNext, -⟩ := ok.rank (set_lines c lineAddr)
      exact ⟨_, congrArg (Option.map _) (run _ (Nat.lt_succ_self _)), okNext⟩
  | postinsert lineAddr candidate =>
      refine ⟨_, rfl, SRRIPReplPolicy.RrpvOk.update fun i other => ?_⟩
      have unmarked : (s.rp.replaced c.rp candidate).array i = s.rp.array i := Function.update_of_ne other ..
      rw [unmarked]
      exact ok i

theorem preserves (c : SrripCacheConfig) : (machine c).Preserves fun s => SRRIPReplPolicy.RrpvOk c.rp s.rp :=
  fun _ op ok _ => step_ok ok op

theorem start_ok : SRRIPReplPolicy.RrpvOk c.rp start.rp := fun _ => Nat.zero_le _

theorem projects (c : SrripCacheConfig) (set : Nat) : (machine c).Projects (alone c) (seen c set)
    fun s t => SRRIPReplPolicy.RrpvOk c.rp s.rp ∧ SameSet c set s t := by
  rintro s t op next ⟨ok, same⟩ legal step
  have okNext := (preserves c).keeps ok legal step
  by_cases own : c.array.index op.lineAddr = set
  · obtain ⟨next', step', sameNext⟩ := same.own own step
    refine ⟨next', ?_, okNext, sameNext⟩
    unfold seen
    rw [if_pos own]
    change (t.step c op).bind some = some next'
    rw [step']
    rfl
  · obtain ⟨next', run, sameNext⟩ := same.other ok legal own step
    exact ⟨next', run, okNext, sameNext⟩

/-- A search ages the lines of all sets by its rounds, and a set has the same lines and victims in
all runs in which it sees the same accesses and rounds. -/
theorem sets_see_rounds (c : SrripCacheConfig) {ops : List SetOp} (legal : (machine c).LegalRun ops start) :
    ∃ final, (machine c).exec ops start = some final ∧
      (∀ cands, Candidates c.rp cands → ∃ victim next,
        (∀ fuel, c.rp.maxM < fuel → final.rp.rank c.rp fuel cands = some (victim, next)) ∧
        FirstLargest final.rp.array cands victim ∧
        next = final.rp.aged c.rp (final.rp.rounds c.rp cands) ∧
        ((∀ id, id ∉ cands → next.array id = final.rp.array id) ↔ final.rp.rounds c.rp cands = 0 ∨
          ∀ id < c.rp.numLines, id ∉ cands → final.rp.array id = c.rp.maxM)) ∧
      ∀ (set : Nat) (ops' : List SetOp), (machine c).LegalRun ops' start →
        (machine c).view (seen c set) ops start = (machine c).view (seen c set) ops' start →
        ∃ final', (machine c).exec ops' start = some final' ∧ SameSet c set final final' := by
  obtain ⟨final, run, ok⟩ := (preserves c).exec start_ok legal
  refine ⟨final, run, fun cands candidates => ?_, fun set ops' legal' sameView => ?_⟩
  · obtain ⟨victim, next, ends, -, largest, -⟩ := ok.rank candidates
    obtain ⟨-, isAged⟩ := SRRIPReplPolicy.rank_aged candidates.2 ok (ends _ (Nat.lt_succ_self _))
    have isRounds : final.rp.rounds c.rp cands = c.rp.maxM - final.rp.array victim := by
      unfold SRRIPReplPolicy.rounds
      rw [largest.foldr_max]
    rw [← isRounds] at isAged
    refine ⟨victim, next, ends, largest, isAged, ?_⟩
    rw [isAged]
    exact SRRIPReplPolicy.aged_outside_iff ok _ cands
  · obtain ⟨final', run', -⟩ := (preserves c).exec start_ok legal'
    have same : SameSet c set start start := ⟨fun _ _ => rfl, fun _ _ => rfl, rfl⟩
    obtain ⟨t, ⟨-, shows'⟩, -, shows''⟩ := (projects c set).same_view ⟨start_ok, same⟩ ⟨start_ok, same⟩
      legal legal' run run' sameView
    exact ⟨final', run', fun id here => (shows'.tags id here).trans (shows''.tags id here).symm,
      fun id here => (shows'.rp id here).trans (shows''.rp id here).symm,
      shows'.victims.trans shows''.victims.symm⟩

theorem twoSets_isPow2 : 2 ≠ 0 ∧ 2 &&& (2 - 1) = 0 := by decide

/-- Two sets of two lines. -/
def twoSets : SrripCacheConfig where
  array := ⟨2, 2, id, twoSets_isPow2, Nat.two_pos⟩
  rp := { SRRIPReplPolicy.eightLines with numLines := 4 }
  isSets := rfl

def insertion (lineAddr victim : Nat) : List SetOp :=
  [.lookup lineAddr true, .preinsert lineAddr, .postinsert lineAddr victim]

/-- The other set is cold, so that its insertions take no rounds and do not show. -/
theorem sets_see_rounds_cold :
    ∃ final, (machine twoSets).exec (insertion 2 0 ++ insertion 4 1) start = some final ∧
    ∃ final', (machine twoSets).exec (insertion 2 0 ++ insertion 1 2 ++ insertion 4 1) start = some final' ∧
      SameSet twoSets 0 final final' := by
  obtain ⟨final, run, -, same⟩ := sets_see_rounds twoSets
    (show (machine twoSets).LegalRun (insertion 2 0 ++ insertion 4 1) start by decide +kernel)
  exact ⟨final, run, same 0 (insertion 2 0 ++ insertion 1 2 ++ insertion 4 1) (by decide +kernel)
    (by decide +kernel)⟩

def ownAccesses : List SetOp := insertion 2 0 ++ insertion 4 1 ++ [.lookup 2 true]

def otherAccesses : List SetOp := insertion 1 2 ++ insertion 3 3 ++ insertion 5 2 ++ insertion 7 3 ++
  insertion 9 2 ++ insertion 11 3 ++ insertion 13 2

/-- A search in one set changes a line of the other, and the next victim of a set is another one if
there are accesses to the other set before. -/
theorem search_ages_other_set :
    (2 ∉ twoSets.array.set 2 ∧ start.rp.array 2 = 0 ∧
      ((start.preinsert twoSets 2).map fun next => next.rp.array 2) = some 3) ∧
    ((machine twoSets).LegalRun (ownAccesses ++ otherAccesses ++ [.preinsert 6]) start ∧
      (ownAccesses ++ otherAccesses ++ [SetOp.preinsert 6]).filter
          (fun op => twoSets.array.index op.lineAddr = 0) = ownAccesses ++ [.preinsert 6] ∧
      ((machine twoSets).exec (ownAccesses ++ otherAccesses ++ [.preinsert 6]) start).map
          (victimsOf 0) = some [0, 1, 0] ∧
      ((machine twoSets).exec (ownAccesses ++ [.preinsert 6]) start).map (victimsOf 0) = some [1, 1, 0]) := by
  refine ⟨⟨by decide, rfl, by decide +kernel⟩, by decide +kernel, by decide +kernel, by decide +kernel,
    by decide +kernel⟩

end SrripCache

end Zsim
