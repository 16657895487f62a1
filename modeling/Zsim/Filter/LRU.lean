import Zsim.Arrays.SetAssocArray
import Zsim.Lib.Word

/-!
# Least recently used

`LRUReplPolicy<false>` of repl_policies.h, the only policy a terminal cache may have.
A score is a `uint64_t`, but `rank` keeps it in a `uint32_t`.
-/

set_option autoImplicit false

namespace Zsim

structure LRUReplPolicy where
  timestamp : Nat
  /-- the timestamp of the last access to a line id -/
  array : Nat → Nat

namespace LRUReplPolicy

def init : LRUReplPolicy := ⟨1, fun _ => 0⟩

def update (rp : LRUReplPolicy) (id : Nat) : LRUReplPolicy where
  timestamp := u64 (rp.timestamp + 1)
  array := Function.update rp.array id rp.timestamp

def replaced (rp : LRUReplPolicy) (id : Nat) : LRUReplPolicy :=
  { rp with array := Function.update rp.array id 0 }

/-- Higher is least evictable. -/
def score (rp : LRUReplPolicy) (isValid : Nat → Bool) (id : Nat) : Nat :=
  rp.array id * (isValid id).toNat

/-- One round of the loop of `rank`: the best candidate and its score. -/
def better (score : Nat → Nat) (best : Nat × Nat) (id : Nat) : Nat × Nat :=
  let s := u32 (score id)
  (if s < best.2 then id else best.1, min s best.2)

def rank (rp : LRUReplPolicy) (isValid : Nat → Bool) (cands : List Nat) : Nat :=
  (cands.foldl (better (rp.score isValid)) (2 ^ 32 - 1, 2 ^ 64 - 1)).1

@[simp] theorem update_array (rp : LRUReplPolicy) (id : Nat) :
    (rp.update id).array = Function.update rp.array id rp.timestamp := rfl

@[simp] theorem replaced_array (rp : LRUReplPolicy) (id : Nat) :
    (rp.replaced id).array = Function.update rp.array id 0 := rfl

@[simp] theorem replaced_timestamp (rp : LRUReplPolicy) (id : Nat) :
    (rp.replaced id).timestamp = rp.timestamp := rfl

/-! ## The candidate that is picked -/

theorem better_mem (score : Nat → Nat) (cands : List Nat) (best : Nat × Nat) :
    (cands.foldl (better score) best).1 = best.1 ∨ (cands.foldl (better score) best).1 ∈ cands := by
  induction cands generalizing best with
  | nil => exact Or.inl rfl
  | cons id rest ih =>
      rcases ih (better score best id) with same | member
      · by_cases smaller : u32 (score id) < best.2
        · right
          rw [List.foldl_cons, same, better, if_pos smaller]
          exact List.mem_cons_self
        · left
          rw [List.foldl_cons, same, better, if_neg smaller]
      · exact Or.inr (List.mem_cons_of_mem id member)

theorem rank_presented (rp : LRUReplPolicy) (isValid : Nat → Bool) (cands : List Nat)
    (some : cands ≠ []) : rp.rank isValid cands ∈ cands := by
  cases cands with
  | nil => exact absurd rfl some
  | cons id rest =>
      -- the first candidate beats the initial best score, which no uint32_t reaches
      have first : u32 (rp.score isValid id) < 2 ^ 64 - 1 :=
        lt_trans (Nat.mod_lt _ (by decide)) (by decide)
      rcases better_mem (rp.score isValid) rest (better (rp.score isValid) (2 ^ 32 - 1, 2 ^ 64 - 1) id)
        with same | member
      · rw [rank, List.foldl_cons, same, better, if_pos first]
        exact List.mem_cons_self
      · exact List.mem_cons_of_mem id member

def rankCands (rp : LRUReplPolicy) (isValid : Nat → Bool) : RankCands where
  rank := rp.rank isValid
  presented := rp.rank_presented isValid

theorem better_congr {f g : Nat → Nat} {cands : List Nat} {b b' : Nat × Nat}
    (same : b.1 = b'.1) (start : ∀ x ∈ cands, u32 (f x) < b.2 ↔ u32 (g x) < b'.2)
    (order : ∀ x ∈ cands, ∀ y ∈ cands, u32 (f x) < u32 (f y) ↔ u32 (g x) < u32 (g y)) :
    (cands.foldl (better f) b).1 = (cands.foldl (better g) b').1 := by
  induction cands generalizing b b' with
  | nil => exact same
  | cons id rest ih =>
      refine ih ?_ (fun x member => ?_) fun x memX y memY =>
        order x (List.mem_cons_of_mem id memX) y (List.mem_cons_of_mem id memY)
      · simp only [better, start id List.mem_cons_self, same]
      · have first := order x (List.mem_cons_of_mem id member) id List.mem_cons_self
        have before := start x (List.mem_cons_of_mem id member)
        simp only [better, Nat.lt_min, first, before]

/-! ## Two policies that agree -/

/-- The policies order the given line ids in the same way, and the ids that were never
accessed are the same. -/
structure SameOrder (ids : List Nat) (rp rp' : LRUReplPolicy) : Prop where
  order : ∀ a ∈ ids, ∀ b ∈ ids, rp.array a < rp.array b ↔ rp'.array a < rp'.array b
  unused : ∀ a ∈ ids, rp.array a = 0 ↔ rp'.array a = 0

/-- Every timestamp in the array was given out, and none was truncated by `rank`. -/
structure Fits (rp : LRUReplPolicy) : Prop where
  given : ∀ id, rp.array id < rp.timestamp
  word : rp.timestamp ≤ 2 ^ 32

/-- `id` was accessed after every other of the line ids. -/
def MostRecent (rp : LRUReplPolicy) (ids : List Nat) (id : Nat) : Prop :=
  ∀ other ∈ ids, other ≠ id → rp.array other < rp.array id

theorem Fits.init : Fits init := ⟨fun _ => Nat.one_pos, by decide⟩

theorem Fits.pos {rp : LRUReplPolicy} (fits : Fits rp) : 0 < rp.timestamp :=
  Nat.lt_of_le_of_lt (Nat.zero_le _) (fits.given 0)

theorem Fits.score {rp : LRUReplPolicy} (fits : Fits rp) (isValid : Nat → Bool) (id : Nat) :
    u32 (rp.score isValid id) = rp.score isValid id := by
  apply u32_of_lt
  have small := lt_of_lt_of_le (fits.given id) fits.word
  cases valid : isValid id with
  | false => simp [LRUReplPolicy.score, valid]
  | true => simpa [LRUReplPolicy.score, valid] using small

theorem Fits.update_timestamp {rp : LRUReplPolicy} (fits : Fits rp) (id : Nat) :
    (rp.update id).timestamp = rp.timestamp + 1 := by
  apply u64_of_lt
  have := fits.word
  omega

theorem Fits.update {rp : LRUReplPolicy} (fits : Fits rp) (room : rp.timestamp < 2 ^ 32) (id : Nat) :
    Fits (rp.update id) where
  given other := by
    rw [fits.update_timestamp]
    by_cases same : other = id
    · rw [same, update_array, Function.update_self]
      exact Nat.lt_succ_self _
    · rw [update_array, Function.update_of_ne same]
      exact Nat.lt_succ_of_lt (fits.given other)
  word := by
    rw [fits.update_timestamp]
    exact room

theorem Fits.replaced {rp : LRUReplPolicy} (fits : Fits rp) (id : Nat) : Fits (rp.replaced id) where
  given other := by
    by_cases same : other = id
    · rw [same, replaced_array, Function.update_self]
      exact fits.pos
    · rw [replaced_array, Function.update_of_ne same]
      exact fits.given other
  word := fits.word

theorem Fits.mostRecent_update {rp : LRUReplPolicy} (fits : Fits rp) (ids : List Nat) (id : Nat) :
    (rp.update id).MostRecent ids id := by
  intro other _ apart
  rw [update_array, Function.update_of_ne apart, Function.update_self]
  exact fits.given other

theorem MostRecent.congr {rp rp' : LRUReplPolicy} {ids : List Nat} {id : Nat}
    (recent : rp.MostRecent ids id) (member : id ∈ ids)
    (same : ∀ other ∈ ids, rp'.array other = rp.array other) : rp'.MostRecent ids id := by
  intro other isOther apart
  rw [same other isOther, same id member]
  exact recent other isOther apart

theorem SameOrder.refl (ids : List Nat) (rp : LRUReplPolicy) : SameOrder ids rp rp :=
  ⟨fun _ _ _ _ => Iff.rfl, fun _ _ => Iff.rfl⟩

theorem SameOrder.score_lt {ids : List Nat} {rp rp' : LRUReplPolicy} (same : SameOrder ids rp rp')
    (isValid : Nat → Bool) {a b : Nat} (memA : a ∈ ids) (memB : b ∈ ids) :
    rp.score isValid a < rp.score isValid b ↔ rp'.score isValid a < rp'.score isValid b := by
  have order := same.order a memA b memB
  have unused := same.unused b memB
  unfold score
  cases isValid a <;> cases isValid b <;> simp only [Bool.toNat_false, Bool.toNat_true] <;> omega

theorem SameOrder.rank {ids : List Nat} {rp rp' : LRUReplPolicy} (same : SameOrder ids rp rp')
    (fits : Fits rp) (fits' : Fits rp') (isValid : Nat → Bool) :
    rp.rank isValid ids = rp'.rank isValid ids := by
  refine better_congr rfl (fun x _ => ?_) fun x memX y memY => ?_
  · have small : ∀ n, u32 n < 2 ^ 64 - 1 := fun n =>
      lt_trans (Nat.mod_lt n (by decide)) (by decide)
    exact iff_of_true (small _) (small _)
  · rw [fits.score, fits.score, fits'.score, fits'.score]
    exact same.score_lt isValid memX memY

-- a line that was accessed at timestamp 2^32 is taken for one that never was
example : (⟨2 ^ 32 + 1, fun id => if id = 0 then 2 ^ 32 else 5⟩ : LRUReplPolicy).rank
    (fun _ => true) [0, 1] = 0 := by decide

theorem SameOrder.update {ids : List Nat} {rp rp' : LRUReplPolicy} (same : SameOrder ids rp rp')
    (fits : Fits rp) (fits' : Fits rp') (id : Nat) : SameOrder ids (rp.update id) (rp'.update id) where
  order a memA b memB := by
    have beforeA := fits.given a
    have beforeA' := fits'.given a
    have beforeB := fits.given b
    have beforeB' := fits'.given b
    have order := same.order a memA b memB
    simp only [update_array, Function.update_apply]
    split <;> split <;> omega
  unused a memA := by
    have pos := fits.pos
    have pos' := fits'.pos
    have unused := same.unused a memA
    simp only [update_array, Function.update_apply]
    split <;> omega

theorem SameOrder.replaced {ids : List Nat} {rp rp' : LRUReplPolicy} (same : SameOrder ids rp rp')
    (id : Nat) : SameOrder ids (rp.replaced id) (rp'.replaced id) where
  order a memA b memB := by
    have order := same.order a memA b memB
    have unusedA := same.unused a memA
    have unusedB := same.unused b memB
    simp only [replaced_array, Function.update_apply]
    split <;> split <;> omega
  unused a memA := by
    have unused := same.unused a memA
    simp only [replaced_array, Function.update_apply]
    split <;> omega

/-- Only the second policy sees the access, to what is the most recent line id for the
first one. -/
theorem SameOrder.update_right {ids : List Nat} {rp rp' : LRUReplPolicy}
    (same : SameOrder ids rp rp') (fits' : Fits rp') {id : Nat}
    (recent : id ∈ ids → rp.MostRecent ids id) (used : id ∈ ids → rp.array id ≠ 0) :
    SameOrder ids rp (rp'.update id) where
  order a memA b memB := by
    have beforeA := fits'.given a
    have beforeB := fits'.given b
    have order := same.order a memA b memB
    simp only [update_array, Function.update_apply]
    by_cases isA : a = id <;> by_cases isB : b = id
    · simp [isA, isB]
    · subst isA
      have less := recent memA b memB isB
      simp only [if_neg isB, if_true]
      omega
    · subst isB
      have less := recent memB a memA isA
      simp only [if_neg isA, if_true]
      omega
    · simp only [if_neg isA, if_neg isB]
      exact order
  unused a memA := by
    have pos' := fits'.pos
    have unused := same.unused a memA
    simp only [update_array, Function.update_apply]
    split
    case isTrue here =>
      have := used (here ▸ memA)
      rw [here]
      omega
    case isFalse => exact unused

end LRUReplPolicy

end Zsim
