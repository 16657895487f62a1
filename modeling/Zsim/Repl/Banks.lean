import Zsim.Repl.Candidates
import Zsim.Repl.LFU
import Zsim.Repl.NRU
import Zsim.Repl.Rand

/-!
# Banks

What `BuildCacheBank` builds of an array and a policy that records candidates.  The array and the
policy of a bank take their steps together; a search passes unless the policy is random and the
array presents fewer candidates than it was configured for.
-/

set_option autoImplicit false

namespace Zsim.Repl

open LegacyReplPolicy (Bank)

inductive ReplType where
  | rand | nru | lfu
  deriving DecidableEq, Repr

structure BankConfig where
  array : CandidateArray
  replType : ReplType
  rnd : MTRand

def BankConfig.rp (c : BankConfig) : LegacyReplPolicy :=
  match c.replType with
  | .rand => rand c.array.numCands c.rnd
  | .nru => nru ⟨c.array.numLines, c.array.numCands, c.array.linesWord⟩
  | .lfu => lfu

structure CacheBank (c : BankConfig) where
  array : c.array.State
  repl : Bank c.rp
  /-- the address between `preinsert` and `postinsert` -/
  inserting : Option Nat

inductive ArrayOp where
  | lookup (lineAddr : Nat) (updateReplacement : Bool)
  | preinsert (cc : CC) (lineAddr : Nat)
  | postinsert

namespace CacheBank

variable (c : BankConfig)

def start : CacheBank c := ⟨c.array.init, .init c.rp, none⟩

/-- An address is looked up before it is inserted, one at a time. -/
def legal (s : CacheBank c) : ArrayOp → Prop
  | .lookup lineAddr _ => c.array.Addressable lineAddr
  | .preinsert _ lineAddr => s.inserting = none ∧ c.array.lookup s.array lineAddr = some none
  | .postinsert => s.inserting.isSome = true

def lookup (s : CacheBank c) (lineAddr : Nat) (updateReplacement : Bool) : Option (CacheBank c) :=
  (c.array.lookup s.array lineAddr).bind fun
    | some id =>
      if updateReplacement then
        (Bank.step c.rp s.repl (.update id)).map fun repl => { s with repl := repl }
      else some s
    | none => some s

def preinsert (s : CacheBank c) (cc : CC) (lineAddr : Nat) : Option (CacheBank c) := do
  let cands ← c.array.candidates s.array lineAddr
  let repl ← Bank.step c.rp s.repl (.rank cc cands)
  let candidate ← repl.pending
  let (array, _, _) ← c.array.preinsert s.array lineAddr (.choosing candidate)
  some ⟨array, repl, some lineAddr⟩

def postinsert (s : CacheBank c) : Option (CacheBank c) := do
  let lineAddr ← s.inserting
  let candidate ← s.repl.pending
  let array ← c.array.postinsert s.array lineAddr candidate
  let repl ← Bank.step c.rp s.repl .insert
  some ⟨array, repl, none⟩

def step (s : CacheBank c) : ArrayOp → Option (CacheBank c)
  | .lookup lineAddr updateReplacement => s.lookup c lineAddr updateReplacement
  | .preinsert cc lineAddr => s.preinsert c cc lineAddr
  | .postinsert => s.postinsert c

def machine : Machine (CacheBank c) ArrayOp := ⟨legal c, step c⟩

/-- `rankCands` returns one of the candidates presented for the address. -/
def Accepts (s : CacheBank c) (cc : CC) (lineAddr : Nat) : Prop :=
  ∃ cands candidate next, c.array.candidates s.array lineAddr = some cands ∧
    c.rp.rank cc cands s.repl.policy = some (candidate, next) ∧ candidate ∈ cands

/-- A random policy is presented with as many candidates as it was configured for. -/
def Fits (s : CacheBank c) : ArrayOp → Prop
  | .preinsert _ lineAddr => c.replType = .rand → ∀ cands,
      c.array.candidates s.array lineAddr = some cands → cands.length = c.array.numCands
  | .lookup _ _ | .postinsert => True

end CacheBank

/-! ## The policies -/

def BankConfig.Takes (c : BankConfig) (cands : List Nat) : Prop :=
  cands.length ≤ c.array.numCands ∧ (c.replType = .rand → cands.length = c.array.numCands)

/-- The policy keeps its invariants with the lists that it takes, and fails with any other. -/
structure BankConfig.Judges (c : BankConfig) (Inv Ready : c.rp.State → Prop) : Prop where
  keeps : c.rp.Keeps c.array.numLines Inv Ready c.Takes
  fails : ∀ {s cands} (cc : CC), Ready s → Presented c.array.numLines cands →
    cands.length ≤ c.array.numCands → ¬ c.Takes cands → c.rp.rank cc cands s = none

theorem LegacyReplPolicy.Keeps.imp {p : LegacyReplPolicy} {numLines : Nat} {Inv Ready : p.State → Prop}
    {Accepts Takes : List Nat → Prop} (keeps : p.Keeps numLines Inv Ready Accepts)
    (imp : ∀ cands, Takes cands → Accepts cands) : p.Keeps numLines Inv Ready Takes :=
  { keeps with
    rank := fun cc inv ready presented takes => keeps.rank cc inv ready presented (imp _ takes) }

theorem BankConfig.exists_judges (c : BankConfig) : ∃ Inv Ready, c.Judges Inv Ready := by
  obtain ⟨array, replType, rnd⟩ := c
  cases replType with
  | rand =>
      refine ⟨_, _, RandReplPolicy.keeps.imp fun cands takes => takes.2 rfl, ?_⟩
      intro s cands cc ready presented room rejected
      exact (RandReplPolicy.Ready.rank ready cc presented.1 room).2
        fun full => rejected ⟨room, fun _ => full⟩
  | nru =>
      refine ⟨_, _, (NRUReplPolicy.keepsValues _).imp fun cands takes => takes.1, ?_⟩
      intro s cands cc ready presented room rejected
      exact absurd ⟨room, fun isRand => by cases isRand⟩ rejected
  | lfu =>
      refine ⟨_, _, (LFUReplPolicy.keeps array.linesWord).imp fun cands takes => trivial, ?_⟩
      intro s cands cc ready presented room rejected
      exact absurd ⟨room, fun isRand => by cases isRand⟩ rejected

namespace CacheBank

variable {c : BankConfig} {Inv Ready : c.rp.State → Prop} {s : CacheBank c}

/-! ## A step -/

/-- The invariant of a bank.  The victim of an insertion is what the array has picked. -/
structure Ok (c : BankConfig) (Inv Ready : c.rp.State → Prop) (s : CacheBank c) : Prop where
  array : c.array.Inv s.array
  repl : Bank.Ok c.rp c.array.numLines Inv Ready s.repl
  free : s.inserting = none → s.repl.pending = none
  picked : ∀ lineAddr, s.inserting = some lineAddr → ∃ candidate, s.repl.pending = some candidate ∧
    c.array.lookup s.array lineAddr = some none ∧ c.array.Picked s.array lineAddr candidate

theorem Ok.start (judges : c.Judges Inv Ready) : Ok c Inv Ready (.start c) where
  array := c.array.inv_init
  repl := judges.keeps.start
  free _ := rfl
  picked _ isInserting := by cases isInserting

theorem Ok.lookup (judges : c.Judges Inv Ready) (ok : Ok c Inv Ready s) {lineAddr : Nat}
    (addressable : c.array.Addressable lineAddr) (updateReplacement : Bool) :
    ∃ next, s.lookup c lineAddr updateReplacement = some next ∧ Ok c Inv Ready next := by
  obtain ⟨found, run⟩ := c.array.lookup_addressable ok.array addressable
  unfold CacheBank.lookup
  rw [run, Option.bind_some]
  cases found with
  | none => exact ⟨s, rfl, ok⟩
  | some id =>
      cases updateReplacement with
      | false => exact ⟨s, rfl, ok⟩
      | true =>
          have line : (c.rp.machine c.array.numLines).legal s.repl (.update id) :=
            c.array.lookup_lt ok.array run
          obtain ⟨repl, step, okRepl⟩ := judges.keeps.step ok.repl line trivial
          have samePending : repl.pending = s.repl.pending := by
            cases Option.some.inj step
            rfl
          refine ⟨{ s with repl := repl }, ?_, ok.array, okRepl, ?_, ?_⟩
          · dsimp only
            rw [if_pos rfl, show Bank.step c.rp s.repl (.update id) = some repl from step]
            rfl
          · intro isFree
            exact samePending.trans (ok.free isFree)
          · intro a isInserting
            obtain ⟨candidate, isPending, missing, picked⟩ := ok.picked a isInserting
            exact ⟨candidate, samePending.trans isPending, missing, picked⟩

theorem Ok.accepts_fits (judges : c.Judges Inv Ready) (ok : Ok c Inv Ready s) (free : s.inserting = none)
    (cc : CC) (lineAddr : Nat) : s.Accepts c cc lineAddr ↔ s.Fits c (.preinsert cc lineAddr) := by
  obtain ⟨cands, run, presented, room⟩ := c.array.candidates_spec lineAddr ok.array
  constructor
  · rintro ⟨cands', candidate, next, run', ranked, -⟩ isRand other isCands
    cases Option.some.inj (run.symm.trans run')
    cases Option.some.inj (run.symm.trans isCands)
    by_contra short
    have failed := judges.fails cc (ok.repl.ready (ok.free free)) presented room
      fun takes => short (takes.2 isRand)
    rw [failed] at ranked
    cases ranked
  · intro fits
    obtain ⟨candidate, next, ranked, -, member, -⟩ := judges.keeps.search cc ok.repl (ok.free free)
      presented ⟨room, fun isRand => fits isRand cands run⟩
    exact ⟨cands, candidate, next, run, ranked, member⟩

theorem Ok.preinsert (judges : c.Judges Inv Ready) (ok : Ok c Inv Ready s) (cc : CC) {lineAddr : Nat}
    (legal : s.legal c (.preinsert cc lineAddr)) (fits : s.Fits c (.preinsert cc lineAddr)) :
    ∃ next, s.preinsert c cc lineAddr = some next ∧ Ok c Inv Ready next := by
  obtain ⟨free, missing⟩ := legal
  obtain ⟨cands, run, presented, room⟩ := c.array.candidates_spec lineAddr ok.array
  obtain ⟨candidate, policy, -, searched, member, okRepl⟩ := judges.keeps.search cc ok.repl (ok.free free)
    presented ⟨room, fun isRand => fits isRand cands run⟩
  obtain ⟨array, id, inserted, inv, picked, sameLookup, -⟩ :=
    c.array.preinsert_spec (.choosing candidate) ok.array missing
  have isVictim : id = candidate :=
    (c.array.preinsert_candidates run inserted).trans (RankCands.choosing_rank member)
  refine ⟨⟨array, ⟨policy, some candidate⟩, some lineAddr⟩, ?_, inv, okRepl,
    fun isFree => (by cases isFree), ?_⟩
  · unfold CacheBank.preinsert
    rw [run]
    dsimp only [Option.bind_eq_bind, Option.bind_some]
    rw [searched]
    dsimp only [Option.bind_some]
    rw [inserted]
    rfl
  · intro a isInserting
    cases Option.some.inj isInserting
    refine ⟨candidate, rfl, ?_, isVictim ▸ picked⟩
    rw [sameLookup]
    exact missing

/-- A search whose list does not fit fails. -/
theorem Ok.preinsert_fails (judges : c.Judges Inv Ready) (ok : Ok c Inv Ready s) (cc : CC) {lineAddr : Nat}
    (legal : s.legal c (.preinsert cc lineAddr)) (unfit : ¬ s.Fits c (.preinsert cc lineAddr)) :
    s.preinsert c cc lineAddr = none := by
  obtain ⟨cands, run, presented, room⟩ := c.array.candidates_spec lineAddr ok.array
  have failed : c.rp.rank cc cands s.repl.policy = none := by
    refine judges.fails cc (ok.repl.ready (ok.free legal.1)) presented room fun takes => unfit ?_
    intro isRand other isCands
    cases Option.some.inj (run.symm.trans isCands)
    exact takes.2 isRand
  have searched : Bank.step c.rp s.repl (.rank cc cands) = none := by
    change (c.rp.rank cc cands s.repl.policy).map _ = none
    rw [failed]
    rfl
  unfold CacheBank.preinsert
  rw [run]
  dsimp only [Option.bind_eq_bind, Option.bind_some]
  rw [searched]
  rfl

theorem Ok.postinsert (judges : c.Judges Inv Ready) (ok : Ok c Inv Ready s)
    (legal : s.legal c .postinsert) : ∃ next, s.postinsert c = some next ∧ Ok c Inv Ready next := by
  obtain ⟨lineAddr, isInserting⟩ := Option.isSome_iff_exists.mp legal
  obtain ⟨candidate, isPending, missing, picked⟩ := ok.picked lineAddr isInserting
  obtain ⟨array, inserted, inv, -⟩ := c.array.postinsert_spec ok.array missing picked
  have waiting : (c.rp.machine c.array.numLines).legal s.repl .insert := by
    change s.repl.pending.isSome = true
    rw [isPending]
    rfl
  obtain ⟨repl, step, okRepl⟩ := judges.keeps.step ok.repl waiting trivial
  have ended : repl.pending = none := by
    obtain ⟨victim, -, isNext⟩ := Option.map_eq_some_iff.mp
      (show s.repl.pending.map _ = some repl from step)
    rw [← isNext]
  refine ⟨⟨array, repl, none⟩, ?_, inv, okRepl, fun _ => ended,
    fun _ isInserting => by cases isInserting⟩
  unfold CacheBank.postinsert
  rw [isInserting, isPending]
  dsimp only [Option.bind_eq_bind, Option.bind_some]
  rw [inserted]
  dsimp only [Option.bind_some]
  rw [show Bank.step c.rp s.repl .insert = some repl from step]
  rfl

theorem Ok.step (judges : c.Judges Inv Ready) (ok : Ok c Inv Ready s) {op : ArrayOp}
    (legal : s.legal c op) (fits : s.Fits c op) :
    ∃ next, s.step c op = some next ∧ Ok c Inv Ready next := by
  cases op with
  | lookup lineAddr updateReplacement => exact ok.lookup judges legal updateReplacement
  | preinsert cc lineAddr => exact ok.preinsert judges cc legal fits
  | postinsert => exact ok.postinsert judges legal

theorem Ok.step_fails (judges : c.Judges Inv Ready) (ok : Ok c Inv Ready s) {op : ArrayOp}
    (legal : s.legal c op) (unfit : ¬ s.Fits c op) : s.step c op = none := by
  cases op with
  | preinsert cc lineAddr => exact ok.preinsert_fails judges cc legal unfit
  | lookup lineAddr updateReplacement => exact absurd trivial unfit
  | postinsert => exact absurd trivial unfit

/-! ## Runs -/

/-- A run passes all assertions and bounds exactly if every list that a random policy is presented
with is full, and where no line is being inserted a search passes exactly if its list would be. -/
theorem accepts_iff (c : BankConfig) (ops : List ArrayOp) (legal : (machine c).LegalRun ops (.start c)) :
    ((∃ final, (machine c).exec ops (.start c) = some final) ↔
      (machine c).Along (Fits c) ops (.start c)) ∧
    ∀ final, (machine c).exec ops (.start c) = some final → final.inserting = none →
      ∀ cc lineAddr, final.Accepts c cc lineAddr ↔ final.Fits c (.preinsert cc lineAddr) := by
  obtain ⟨Inv, Ready, judges⟩ := c.exists_judges
  have start : Ok c Inv Ready (.start c) := .start judges
  have preserves : ((machine c).restrict (Fits c)).Preserves (Ok c Inv Ready) :=
    fun s op ok both => ok.step judges both.1 both.2
  have keeps : ∀ s op next, Ok c Inv Ready s → (machine c).legal s op →
      (machine c).step s op = some next → Ok c Inv Ready next := by
    intro s op next ok legal step
    by_cases fits : s.Fits c op
    · exact preserves.keeps ok ⟨legal, fits⟩ step
    · have failed := ok.step_fails judges legal fits
      cases step.symm.trans failed
  refine ⟨⟨?_, fun fits => ?_⟩, fun final run free cc lineAddr => ?_⟩
  · rintro ⟨final, run⟩
    exact legal.along_of_exec (fun s op next ok _ => keeps s op next ok)
      (fun s op ok isLegal unfit => ok.step_fails judges isLegal unfit) start run
  · obtain ⟨final, run, -⟩ := preserves.exec_restrict start (legal.restrict fits)
    exact ⟨final, run⟩
  · have ok := Machine.exec_keeps keeps start legal run
    exact ok.accepts_fits judges free cc lineAddr

/-- Two ways of two sets, whose walks are configured for four candidates. -/
def twoWays (replType : ReplType) : BankConfig where
  array := .zcache ZConfig.twoWays (by decide)
  replType := replType
  rnd := ⟨fun _ _ => 0, fun _ n => Nat.zero_le n⟩

/-- The bank of LFU takes the two candidates of the cold array, and the address is found. -/
theorem accepts_iff_cold : ((∃ final, (machine (twoWays .lfu)).exec
      [.preinsert .allValid 5, .postinsert, .lookup 5 true] (.start (twoWays .lfu)) = some final) ↔
      (machine (twoWays .lfu)).Along (Fits (twoWays .lfu))
        [.preinsert .allValid 5, .postinsert, .lookup 5 true] (.start (twoWays .lfu))) ∧
    ∀ final, (machine (twoWays .lfu)).exec
        [.preinsert .allValid 5, .postinsert, .lookup 5 true] (.start (twoWays .lfu)) = some final →
      final.inserting = none → ∀ cc lineAddr,
        final.Accepts _ cc lineAddr ↔ final.Fits _ (.preinsert cc lineAddr) :=
  accepts_iff (twoWays .lfu) [.preinsert .allValid 5, .postinsert, .lookup 5 true]
    ⟨⟨rfl, by decide⟩, fun first step => ⟨by cases step; rfl,
      fun second step' => ⟨show (5 : Nat) ≠ 0 by decide, fun _ _ => trivial⟩⟩⟩

/-- A random policy fails its assertion in the cold array, whose walk stops at the seeds. -/
theorem rand_asserts_cold :
    (start (twoWays .rand)).legal _ (.preinsert .allValid 5) ∧
      (twoWays .rand).array.candidates (start (twoWays .rand)).array 5 = some [1, 2] ∧
      (twoWays .rand).rp.rank .allValid [1, 2] (start (twoWays .rand)).repl.policy = none ∧
      (machine (twoWays .rand)).exec [.preinsert .allValid 5] (.start (twoWays .rand)) = none :=
  ⟨⟨rfl, by decide⟩, by decide, rfl, rfl⟩

theorem setAssoc_fits (array : SetAssocConfig) {numLines : Nat} (linesWord : numLines < 2 ^ 32)
    (isSets : array.numSets = numLines / array.assoc) (replType : ReplType) (rnd : MTRand)
    (s : CacheBank ⟨.setAssoc array numLines linesWord isSets, replType, rnd⟩) (op : ArrayOp) :
    s.Fits _ op := by
  cases op with
  | preinsert cc lineAddr =>
      intro _ cands isCands
      cases Option.some.inj isCands
      exact SetAssocConfig.length_set lineAddr
  | lookup lineAddr updateReplacement => exact trivial
  | postinsert => exact trivial

end CacheBank

end Zsim.Repl
