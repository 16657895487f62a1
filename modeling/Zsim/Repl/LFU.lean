import Mathlib.Data.Prod.Lex
import Mathlib.Order.BooleanAlgebra.Basic
import Mathlib.Order.WithBot
import Zsim.Lib.Least
import Zsim.Repl.Legacy

/-!
# Least frequently used

`LFUReplPolicy` of repl_policies.h.  A candidate is compared with the best one so far, and the
comparison is that of a key: validity, whether there are sharers, and how much time there was
for each access.
-/

set_option autoImplicit false

namespace Zsim.Repl

structure LFUInfo where
  ts : Nat
  acc : Nat
  deriving DecidableEq, Repr

/-- `ts` is the average timestamp of all the accesses. -/
def LFUInfo.accessed (info : LFUInfo) (timestamp : Nat) : LFUInfo :=
  ⟨u64 (info.acc * info.ts + timestamp) / u64 (info.acc + 1), u64 (info.acc + 1)⟩

structure Rank where
  lfuInfo : LFUInfo
  sharers : Nat
  valid : Bool
  deriving DecidableEq, Repr

namespace Rank

def reset : Rank := ⟨⟨0, 0⟩, 0, false⟩

def lessThan (r other : Rank) (curTs : Nat) : Bool :=
  if r.valid = false ∧ other.valid = true then true
  else if r.valid = other.valid then
    if r.sharers = 0 ∧ 0 < other.sharers then true
    else if 0 < r.sharers ∧ other.sharers = 0 then false
    else if r.lfuInfo.acc = 0 then true
    else if other.lfuInfo.acc = 0 then false
    else
      -- inverse frequency, lower is better
      let ownInvFreq := u64Sub curTs r.lfuInfo.ts / r.lfuInfo.acc
      let otherInvFreq := u64Sub curTs other.lfuInfo.ts / other.lfuInfo.acc
      otherInvFreq < ownInvFreq
  else false

/-- The inverse frequency, which is infinite for a line that was not accessed. -/
def invFreq (r : Rank) (curTs : Nat) : WithTop Nat :=
  if r.lfuInfo.acc = 0 then ⊤ else WithTop.some ((curTs - r.lfuInfo.ts) / r.lfuInfo.acc)

def key (curTs : Nat) (r : Rank) : Bool ×ₗ Bool ×ₗ (WithTop Nat)ᵒᵈ :=
  toLex (r.valid, toLex (decide (0 < r.sharers), OrderDual.toDual (r.invFreq curTs)))

def Past (curTs : Nat) (r : Rank) : Prop := r.lfuInfo.ts ≤ curTs

variable {curTs : Nat} {r other : Rank}

theorem key_le_iff : r.key curTs ≤ other.key curTs ↔
    (r.valid = false ∧ other.valid = true) ∨ (r.valid = other.valid ∧
      ((r.sharers = 0 ∧ 0 < other.sharers) ∨ ((r.sharers = 0 ↔ other.sharers = 0) ∧
        other.invFreq curTs ≤ r.invFreq curTs))) := by
  unfold key
  rw [Prod.Lex.toLex_le_toLex, Prod.Lex.toLex_le_toLex, OrderDual.toDual_le_toDual, Bool.lt_iff,
    Bool.lt_iff]
  simp only [decide_eq_false_iff_not, decide_eq_true_eq, decide_eq_decide, Nat.pos_iff_ne_zero,
    not_iff_not, not_not, ne_eq]

/-- A rank that is less than another has no larger key, and a rank that is not has no smaller one. -/
theorem lessThan_key (r other : Rank) (word : curTs < 2 ^ 64) (past : r.Past curTs) (past' : other.Past curTs) :
    if r.lessThan other curTs then r.key curTs ≤ other.key curTs
    else other.key curTs ≤ r.key curTs := by
  have own : u64Sub curTs r.lfuInfo.ts = curTs - r.lfuInfo.ts := u64Sub_of_le word past
  have others : u64Sub curTs other.lfuInfo.ts = curTs - other.lfuInfo.ts := u64Sub_of_le word past'
  rw [key_le_iff, key_le_iff]
  unfold lessThan
  dsimp only
  rw [own, others]
  by_cases invalid : r.valid = false ∧ other.valid = true
  · rw [if_pos invalid, if_pos rfl]
    exact .inl invalid
  rw [if_neg invalid]
  by_cases same : r.valid = other.valid
  · rw [if_pos same]
    by_cases unshared : r.sharers = 0 ∧ 0 < other.sharers
    · rw [if_pos unshared, if_pos rfl]
      exact .inr ⟨same, .inl unshared⟩
    rw [if_neg unshared]
    by_cases shared : 0 < r.sharers ∧ other.sharers = 0
    · rw [if_pos shared, if_neg Bool.false_ne_true]
      exact .inr ⟨same.symm, .inl ⟨shared.2, shared.1⟩⟩
    rw [if_neg shared]
    have alike : r.sharers = 0 ↔ other.sharers = 0 := by omega
    by_cases unused : r.lfuInfo.acc = 0
    · rw [if_pos unused, if_pos rfl]
      refine .inr ⟨same, .inr ⟨alike, ?_⟩⟩
      unfold invFreq
      rw [if_pos unused]
      exact le_top
    rw [if_neg unused]
    by_cases unused' : other.lfuInfo.acc = 0
    · rw [if_pos unused', if_neg Bool.false_ne_true]
      refine .inr ⟨same.symm, .inr ⟨alike.symm, ?_⟩⟩
      unfold invFreq
      rw [if_pos unused']
      exact le_top
    rw [if_neg unused']
    have isOwn : r.invFreq curTs = WithTop.some ((curTs - r.lfuInfo.ts) / r.lfuInfo.acc) := if_neg unused
    have isOther : other.invFreq curTs = WithTop.some ((curTs - other.lfuInfo.ts) / other.lfuInfo.acc) :=
      if_neg unused'
    by_cases less : (curTs - other.lfuInfo.ts) / other.lfuInfo.acc < (curTs - r.lfuInfo.ts) / r.lfuInfo.acc
    · rw [decide_eq_true less, if_pos rfl]
      refine .inr ⟨same, .inr ⟨alike, ?_⟩⟩
      rw [isOwn, isOther]
      exact WithTop.coe_le_coe.mpr (Nat.le_of_lt less)
    · rw [decide_eq_false less, if_neg Bool.false_ne_true]
      refine .inr ⟨same.symm, .inr ⟨alike.symm, ?_⟩⟩
      rw [isOwn, isOther]
      exact WithTop.coe_le_coe.mpr (Nat.not_lt.mp less)
  · rw [if_neg same, if_neg Bool.false_ne_true]
    left
    cases isValid : r.valid <;> cases isValid' : other.valid <;> simp_all

end Rank

structure LFUReplPolicy where
  timestamp : Nat
  /-- the word of an `int32_t`, so that -1 is the last one -/
  bestCandidate : Nat
  array : Nat → LFUInfo
  bestRank : Rank

namespace LFUReplPolicy

def noCandidate : Nat := 2 ^ 32 - 1

def init : LFUReplPolicy := ⟨1, noCandidate, fun _ => ⟨0, 0⟩, .reset⟩

def update (id : Nat) (s : LFUReplPolicy) : LFUReplPolicy :=
  { s with
    timestamp := u64 (s.timestamp + 1000)
    array := Function.update s.array id ((s.array id).accessed s.timestamp) }

def candRank (cc : CC) (s : LFUReplPolicy) (id : Nat) : Rank :=
  ⟨s.array id, cc.numSharers id, cc.isValid id⟩

def recordCandidate (cc : CC) (id : Nat) (s : LFUReplPolicy) : LFUReplPolicy :=
  if s.bestCandidate = noCandidate ∨ (s.candRank cc id).lessThan s.bestRank s.timestamp = true then
    { s with bestRank := s.candRank cc id, bestCandidate := id }
  else s

def getBestCandidate (s : LFUReplPolicy) : Option (Nat × LFUReplPolicy) :=
  if s.bestCandidate ≠ noCandidate then some (s.bestCandidate, s) else none

def replaced (id : Nat) (s : LFUReplPolicy) : LFUReplPolicy :=
  { s with
    bestCandidate := noCandidate
    bestRank := .reset
    array := Function.update s.array id { s.array id with acc := 0 } }

end LFUReplPolicy

abbrev lfu : LegacyReplPolicy where
  State := LFUReplPolicy
  init := .init
  update := LFUReplPolicy.update
  recordCandidate cc id s := some (s.recordCandidate cc id)
  getBestCandidate := LFUReplPolicy.getBestCandidate
  replaced := LFUReplPolicy.replaced

namespace LFUReplPolicy

@[simp] theorem update_timestamp (id : Nat) (s : LFUReplPolicy) :
    (s.update id).timestamp = u64 (s.timestamp + 1000) := rfl

@[simp] theorem update_array (id : Nat) (s : LFUReplPolicy) : (s.update id).array =
    Function.update s.array id ((s.array id).accessed s.timestamp) := rfl

@[simp] theorem replaced_array (id : Nat) (s : LFUReplPolicy) : (s.replaced id).array =
    Function.update s.array id { s.array id with acc := 0 } := rfl

@[simp] theorem replaced_timestamp (id : Nat) (s : LFUReplPolicy) :
    (s.replaced id).timestamp = s.timestamp := rfl

/-! ## The search -/

/-- What the search keeps of two candidates. -/
def choose (cc : CC) (s : LFUReplPolicy) (best id : Nat) : Nat :=
  if (s.candRank cc id).lessThan (s.candRank cc best) s.timestamp then id else best

/-- The state in the middle of a search. -/
def searched (cc : CC) (s : LFUReplPolicy) (best : Nat) : LFUReplPolicy :=
  { s with bestCandidate := best, bestRank := s.candRank cc best }

theorem recordCandidate_searched (cc : CC) (s : LFUReplPolicy) {best : Nat}
    (isLine : best ≠ noCandidate) (id : Nat) :
    (s.searched cc best).recordCandidate cc id = s.searched cc (s.choose cc best id) := by
  unfold recordCandidate searched choose
  dsimp only
  by_cases less : (s.candRank cc id).lessThan (s.candRank cc best) s.timestamp = true
  · rw [if_pos less, if_pos (.inr less)]
    rfl
  · rw [if_neg less, if_neg]
    rintro (none | taken)
    · exact isLine none
    · exact less taken

theorem choose_eq (cc : CC) (s : LFUReplPolicy) (best id : Nat) :
    s.choose cc best id = best ∨ s.choose cc best id = id := by
  unfold choose
  split
  · exact .inr rfl
  · exact .inl rfl

theorem record_searched (cc : CC) (s : LFUReplPolicy) {cands : List Nat} {best : Nat}
    (isLine : best ≠ noCandidate) (lines : ∀ id ∈ cands, id ≠ noCandidate) :
    lfu.record cc cands (s.searched cc best) = some (s.searched cc (cands.foldl (s.choose cc) best)) ∧
      cands.foldl (s.choose cc) best ∈ best :: cands := by
  induction cands generalizing best with
  | nil => exact ⟨rfl, List.mem_cons_self⟩
  | cons id rest ih =>
      have isLine' : s.choose cc best id ≠ noCandidate := by
        rcases s.choose_eq cc best id with same | same
        · rw [same]
          exact isLine
        · rw [same]
          exact lines id List.mem_cons_self
      obtain ⟨run, member⟩ := ih isLine' fun x later => lines x (List.mem_cons_of_mem id later)
      constructor
      · have first : lfu.recordCandidate cc id (s.searched cc best) =
            some (s.searched cc (s.choose cc best id)) :=
          congrArg some (recordCandidate_searched cc s isLine id)
        rw [LegacyReplPolicy.record_cons, first]
        exact run
      · rw [List.foldl_cons]
        rcases List.mem_cons.mp member with isChosen | later
        · rw [isChosen]
          rcases s.choose_eq cc best id with same | same
          · rw [same]
            exact List.mem_cons_self
          · rw [same]
            exact List.mem_cons_of_mem best List.mem_cons_self
        · exact List.mem_cons_of_mem best (List.mem_cons_of_mem id later)

/-- No search has left anything behind. -/
def Ready (s : LFUReplPolicy) : Prop := s.bestCandidate = noCandidate

theorem Ready.init : Ready init := rfl

theorem Ready.update {s : LFUReplPolicy} (ready : s.Ready) (id : Nat) : Ready (s.update id) := by
  unfold Ready LFUReplPolicy.update
  exact ready

theorem Ready.replaced (s : LFUReplPolicy) (id : Nat) : Ready (s.replaced id) := rfl

/-- The result of a search, which depends on the array, the time and the coherence state alone. -/
theorem Ready.rank {s : LFUReplPolicy} (ready : s.Ready) (cc : CC) {id : Nat} {rest : List Nat}
    (lines : ∀ x ∈ id :: rest, x ≠ noCandidate) :
    lfu.rank cc (id :: rest) s =
        some (rest.foldl (s.choose cc) id, s.searched cc (rest.foldl (s.choose cc) id)) ∧
      rest.foldl (s.choose cc) id ∈ id :: rest := by
  obtain ⟨run, member⟩ := record_searched cc s (lines id List.mem_cons_self)
    fun x later => lines x (List.mem_cons_of_mem id later)
  refine ⟨?_, member⟩
  have first : lfu.recordCandidate cc id s = some (s.searched cc id) :=
    congrArg some (if_pos (.inl ready))
  have searches : lfu.record cc (id :: rest) s =
      some (s.searched cc (rest.foldl (s.choose cc) id)) := by
    rw [LegacyReplPolicy.record_cons, first]
    exact run
  have best : lfu.getBestCandidate (s.searched cc (rest.foldl (s.choose cc) id)) =
      some (rest.foldl (s.choose cc) id, s.searched cc (rest.foldl (s.choose cc) id)) :=
    if_pos (lines _ member)
  exact (congrArg (Option.bind · lfu.getBestCandidate) searches).trans best

theorem ne_noCandidate {numLines id : Nat} (word : numLines < 2 ^ 32) (lt : id < numLines) :
    id ≠ noCandidate := by
  unfold noCandidate
  omega

/-- Every search ends with a candidate, and `replaced` clears what it leaves. -/
theorem keeps {numLines : Nat} (word : numLines < 2 ^ 32) :
    lfu.Keeps numLines (fun _ => True) Ready fun _ => True where
  init := ⟨trivial, Ready.init⟩
  update _ _ := trivial
  updateReady id ready := ready.update id
  rank := by
    intro s cands cc _ ready presented _
    obtain ⟨some, lines⟩ := presented
    cases cands with
    | nil => exact absurd rfl some
    | cons id rest =>
        obtain ⟨run, member⟩ := ready.rank cc fun x isCand => ne_noCandidate word (lines x isCand)
        exact ⟨_, _, run, member, trivial⟩
  replaced _ _ := ⟨trivial, Ready.replaced _ _⟩

/-! ## The order of the victims -/

structure Timed (s : LFUReplPolicy) : Prop where
  word : s.timestamp < 2 ^ 64
  past : ∀ id, (s.array id).ts ≤ s.timestamp
  room : ∀ id, 1000 * (s.array id).acc < s.timestamp

theorem Timed.init : Timed init := ⟨by decide, fun _ => Nat.zero_le _, fun _ => Nat.one_pos⟩

/-- A mean of times in the past is in the past, even of a sum that is wrapped. -/
theorem Timed.mean_le {s : LFUReplPolicy} (timed : Timed s) (id : Nat) :
    ((s.array id).accessed s.timestamp).ts ≤ s.timestamp := by
  have word := timed.word
  have past := timed.past id
  have room := timed.room id
  unfold LFUInfo.accessed
  dsimp only
  rw [u64_of_lt (show (s.array id).acc + 1 < 2 ^ 64 by omega)]
  apply Nat.div_le_of_le_mul
  calc u64 ((s.array id).acc * (s.array id).ts + s.timestamp)
      ≤ (s.array id).acc * (s.array id).ts + s.timestamp := Nat.mod_le _ _
    _ ≤ (s.array id).acc * s.timestamp + s.timestamp :=
        Nat.add_le_add_right (Nat.mul_le_mul_left _ past) _
    _ = ((s.array id).acc + 1) * s.timestamp := (Nat.succ_mul _ _).symm

theorem Timed.update {s : LFUReplPolicy} (timed : Timed s) (fits : s.timestamp + 1000 < 2 ^ 64)
    (id : Nat) : Timed (s.update id) := by
  have later : (s.update id).timestamp = s.timestamp + 1000 := u64_of_lt fits
  refine ⟨by rw [later]; exact fits, fun other => ?_, fun other => ?_⟩
  · have past := timed.past other
    have mean := timed.mean_le id
    rw [later, update_array, Function.update_apply]
    split
    · omega
    · omega
  · have room := timed.room other
    rw [later, update_array, Function.update_apply]
    split
    case isTrue same =>
      subst same
      unfold LFUInfo.accessed
      dsimp only
      rw [u64_of_lt (by omega)]
      omega
    case isFalse => omega

theorem Timed.replaced {s : LFUReplPolicy} (timed : Timed s) (id : Nat) : Timed (s.replaced id) := by
  refine ⟨timed.word, fun other => ?_, fun other => ?_⟩
  · have past := timed.past other
    rw [replaced_array, Function.update_apply]
    split
    case isTrue same =>
      subst same
      exact past
    case isFalse => exact past
  · have room := timed.room other
    rw [replaced_array, Function.update_apply]
    split
    case isTrue =>
      change 1000 * 0 < s.timestamp
      omega
    case isFalse => exact room

def victimKey (cc : CC) (s : LFUReplPolicy) (id : Nat) : Bool ×ₗ Bool ×ₗ (WithTop Nat)ᵒᵈ :=
  (s.candRank cc id).key s.timestamp

theorem Timed.least {s : LFUReplPolicy} (timed : Timed s) (cc : CC) (id : Nat) (rest : List Nat) :
    Least (s.victimKey cc) (id :: rest) (rest.foldl (s.choose cc) id) := by
  refine Least.foldl (s.choose_eq cc) (fun best id => ?_) rest id
  have less := Rank.lessThan_key (s.candRank cc id) (s.candRank cc best) timed.word (timed.past id)
    (timed.past best)
  unfold choose
  split
  case isTrue taken =>
    rw [if_pos taken] at less
    exact ⟨less, le_refl _⟩
  case isFalse kept =>
    rw [if_neg kept] at less
    exact ⟨le_refl _, less⟩

end LFUReplPolicy

end Zsim.Repl
