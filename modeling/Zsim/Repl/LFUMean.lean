import Mathlib.Algebra.Order.BigOperators.Group.List
import Mathlib.Tactic.Ring
import Zsim.Lib.Machine
import Zsim.Repl.LFU

/-!
# The timestamps of LFU

The timestamp of a line is to be the mean of those of its accesses.  It is as long as the sum
that is divided fits into 64 bits; a sum that does not gives a mean that is far too low.
-/

set_option autoImplicit false

namespace Zsim.Repl

/-! ## One line -/

/-- The accesses to a line since it was last replaced, newest first, and what is stored of it
after so many updates. -/
structure Line (updates : Nat) (info : LFUInfo) (accesses : List Nat) : Prop where
  acc : info.acc = accesses.length
  room : accesses.length ≤ updates
  past : ∀ t ∈ accesses, t < 1000 * updates + 1
  /-- the accesses are 1000 apart -/
  spread : 500 * (accesses.length * accesses.length) ≤ accesses.sum + 500 * accesses.length

/-- The timestamp of a line is the mean of those of its accesses, but for what the divisions
have lost. -/
structure Mean (timestamp : Nat) (info : LFUInfo) (accesses : List Nat) : Prop where
  acc : info.acc = accesses.length
  atMost : info.ts * accesses.length ≤ accesses.sum
  atLeast : accesses.sum / accesses.length ≤ info.ts + (accesses.length - 1)
  past : info.ts < timestamp
  product : info.acc * info.ts < 2 ^ 64

variable {updates : Nat} {info : LFUInfo} {accesses : List Nat}

theorem Line.later (line : Line updates info accesses) : Line (updates + 1) info accesses where
  acc := line.acc
  room := Nat.le_succ_of_le line.room
  past t member := Nat.lt_of_lt_of_le (line.past t member) (by omega)
  spread := line.spread

theorem Line.replaced (updates : Nat) (info : LFUInfo) : Line updates { info with acc := 0 } [] where
  acc := rfl
  room := Nat.zero_le _
  past _ none := absurd none List.not_mem_nil
  spread := Nat.le_refl _

theorem Line.accessed (line : Line updates info accesses) (few : updates + 1 < 2 ^ 54) :
    Line (updates + 1) (info.accessed (1000 * updates + 1)) ((1000 * updates + 1) :: accesses) where
  acc := by
    have room := line.room
    rw [LFUInfo.accessed, List.length_cons, line.acc]
    exact u64_of_lt (by omega)
  room := Nat.succ_le_succ line.room
  past t member := by
    rcases List.mem_cons.mp member with isNew | old
    · omega
    · have past := line.past t old
      omega
  spread := by
    have room := line.room
    have spread := line.spread
    have square : (accesses.length + 1) * (accesses.length + 1) =
        accesses.length * accesses.length + 2 * accesses.length + 1 := by ring
    rw [List.length_cons, List.sum_cons, square]
    omega

theorem Line.sum_le (line : Line updates info accesses) :
    accesses.sum ≤ accesses.length * (1000 * updates + 1) := by
  have le := List.sum_le_card_nsmul accesses (1000 * updates + 1)
    fun t member => Nat.le_of_lt (line.past t member)
  rwa [nsmul_eq_mul] at le

theorem Mean.later {timestamp later : Nat} (mean : Mean timestamp info accesses) (le : timestamp ≤ later) :
    Mean later info accesses :=
  ⟨mean.acc, mean.atMost, mean.atLeast, Nat.lt_of_lt_of_le mean.past le, mean.product⟩

theorem Mean.sum_lt {timestamp : Nat} (mean : Mean timestamp info accesses) (some : accesses ≠ []) :
    accesses.sum < accesses.length * info.ts + accesses.length * accesses.length := by
  have pos : 0 < accesses.length := List.length_pos_iff.mpr some
  have quotient : accesses.sum / accesses.length < info.ts + accesses.length := by
    have := mean.atLeast
    omega
  have less := (Nat.div_lt_iff_lt_mul pos).mp quotient
  have split : (info.ts + accesses.length) * accesses.length =
      accesses.length * info.ts + accesses.length * accesses.length := by ring
  rwa [split] at less

theorem Mean.length_lt {timestamp : Nat} (line : Line updates info accesses)
    (mean : Mean timestamp info accesses) (some : accesses ≠ []) : accesses.length < 2 ^ 28 := by
  have less := mean.sum_lt some
  have spread := line.spread
  have product := mean.product
  rw [mean.acc] at product
  by_contra many
  have square : 2 ^ 28 * accesses.length ≤ accesses.length * accesses.length :=
    Nat.mul_le_mul_right _ (Nat.not_lt.mp many)
  omega

/-! ## One access -/

theorem Line.sum_bounds (line : Line updates info accesses)
    (before : accesses ≠ [] → Mean (1000 * updates + 1) info accesses) :
    info.acc * info.ts < 2 ^ 64 ∧ info.acc * info.ts ≤ accesses.sum ∧
    accesses.sum ≤ info.acc * info.ts + accesses.length * accesses.length ∧ accesses.length < 2 ^ 28 := by
  by_cases none : accesses = []
  · subst none
    rw [line.acc]
    simp
  · have mean := before none
    have less := mean.sum_lt none
    have atMost := mean.atMost
    rw [Nat.mul_comm] at atMost
    have acc := line.acc
    refine ⟨mean.product, ?_, ?_, mean.length_lt line none⟩
    · rw [acc]
      exact atMost
    · rw [acc]
      exact Nat.le_of_lt less

theorem Line.acc_succ (line : Line updates info accesses) (few : updates + 1 < 2 ^ 54) :
    u64 (info.acc + 1) = accesses.length + 1 := by
  have room := line.room
  rw [line.acc]
  exact u64_of_lt (by omega)

section
variable (line : Line updates info accesses) (few : updates + 1 < 2 ^ 54)
  (before : accesses ≠ [] → Mean (1000 * updates + 1) info accesses)
include line few before

theorem Mean.accessed (fits : info.acc * info.ts + (1000 * updates + 1) < 2 ^ 64) :
    Mean (1000 * updates + 1 + 1000) (info.accessed (1000 * updates + 1))
      ((1000 * updates + 1) :: accesses) := by
  obtain ⟨-, notAbove, notBelow, -⟩ := line.sum_bounds before
  have sumLe := line.sum_le
  have isAcc := line.acc_succ few
  obtain ⟨q, isQ⟩ : ∃ q, q = (info.acc * info.ts + (1000 * updates + 1)) / (accesses.length + 1) := ⟨_, rfl⟩
  have ts : (info.accessed (1000 * updates + 1)).ts = q := by
    rw [LFUInfo.accessed, u64_of_lt fits, isAcc, isQ]
  have divided : q * (accesses.length + 1) ≤ info.acc * info.ts + (1000 * updates + 1) := by
    rw [isQ]
    exact Nat.div_mul_le_self _ _
  have remainder : info.acc * info.ts + (1000 * updates + 1) < (q + 1) * (accesses.length + 1) := by
    rw [← Nat.div_lt_iff_lt_mul (Nat.succ_pos _), ← isQ]
    exact Nat.lt_succ_self q
  refine ⟨?_, ?_, ?_, ?_, ?_⟩
  · rw [LFUInfo.accessed, isAcc, List.length_cons]
  · rw [ts, List.length_cons, List.sum_cons]
    omega
  · rw [ts, List.length_cons, List.sum_cons, Nat.add_sub_cancel]
    apply Nat.le_of_lt_succ
    rw [Nat.div_lt_iff_lt_mul (Nat.succ_pos _)]
    have split : (q + accesses.length).succ * (accesses.length + 1) =
        (q + 1) * (accesses.length + 1) + (accesses.length * accesses.length + accesses.length) := by
      rw [Nat.succ_eq_add_one]
      ring
    rw [Nat.succ_eq_add_one, split]
    omega
  · rw [ts]
    have most : q * (accesses.length + 1) ≤ (1000 * updates + 1) * (accesses.length + 1) := by
      have split : (1000 * updates + 1) * (accesses.length + 1) =
        accesses.length * (1000 * updates + 1) + (1000 * updates + 1) := by ring
      rw [split]
      omega
    have le := Nat.le_of_mul_le_mul_right most (Nat.succ_pos _)
    omega
  · rw [ts]
    change u64 (info.acc + 1) * q < 2 ^ 64
    rw [isAcc, Nat.mul_comm]
    omega

/-- A sum that does not fit leaves a mean that is too low. -/
theorem Mean.fits (mean : Mean (1000 * updates + 1 + 1000) (info.accessed (1000 * updates + 1))
    ((1000 * updates + 1) :: accesses)) : info.acc * info.ts + (1000 * updates + 1) < 2 ^ 64 := by
  obtain ⟨product, notAbove, -, short⟩ := line.sum_bounds before
  have isAcc := line.acc_succ few
  have atLeast := mean.atLeast
  rw [List.length_cons, List.sum_cons, Nat.add_sub_cancel, LFUInfo.accessed, isAcc] at atLeast
  by_contra wraps
  obtain ⟨w, isW⟩ : ∃ w, info.acc * info.ts + (1000 * updates + 1) = w + 2 ^ 64 :=
    ⟨info.acc * info.ts + (1000 * updates + 1) - 2 ^ 64, by omega⟩
  have wrapped : u64 (w + 2 ^ 64) = w := by
    unfold u64
    rw [Nat.add_mod_right]
    exact Nat.mod_eq_of_lt (by omega)
  rw [isW, wrapped] at atLeast
  have divided := Nat.div_mul_le_self w (accesses.length + 1)
  have less := Nat.lt_succ_of_le atLeast
  rw [Nat.div_lt_iff_lt_mul (Nat.succ_pos _)] at less
  have split : (w / (accesses.length + 1) + accesses.length).succ * (accesses.length + 1) =
      w / (accesses.length + 1) * (accesses.length + 1) +
        (accesses.length + 1) * (accesses.length + 1) := by
    rw [Nat.succ_eq_add_one]
    ring
  rw [split] at less
  have square : (accesses.length + 1) * (accesses.length + 1) ≤ 2 ^ 28 * 2 ^ 28 :=
    Nat.mul_le_mul short short
  omega

end

/-! ## Runs -/

/-- The policy, with the timestamps of the accesses to a line since it was last replaced. -/
structure LFURun where
  policy : LFUReplPolicy
  accesses : Nat → List Nat
  updates : Nat

inductive LFUOp where
  | update (id : Nat)
  | replaced (id : Nat)
  deriving DecidableEq, Repr

namespace LFURun

def init : LFURun := ⟨.init, fun _ => [], 0⟩

def step (s : LFURun) : LFUOp → LFURun
  | .update id =>
    { policy := s.policy.update id
      accesses := Function.update s.accesses id (s.policy.timestamp :: s.accesses id)
      updates := s.updates + 1 }
  | .replaced id =>
    { s with
      policy := s.policy.replaced id
      accesses := Function.update s.accesses id [] }

/-- There are fewer than 2^54 updates. -/
def legal (numLines : Nat) (s : LFURun) : LFUOp → Prop
  | .update id => id < numLines ∧ s.updates + 1 < 2 ^ 54
  | .replaced id => id < numLines

/-- The timestamps of all lines that have been accessed are means. -/
def Means (s : LFURun) : Prop :=
  ∀ id, s.accesses id ≠ [] → Mean s.policy.timestamp (s.policy.array id) (s.accesses id)

/-- The sum that an update divides is below 2^64. -/
def SumFits (s : LFURun) : LFUOp → Prop
  | .update id => (s.policy.array id).acc * (s.policy.array id).ts + s.policy.timestamp < 2 ^ 64
  | .replaced _ => True

instance decidableSumFits (s : LFURun) : ∀ op, Decidable (SumFits s op)
  | .update id => inferInstanceAs (Decidable
      ((s.policy.array id).acc * (s.policy.array id).ts + s.policy.timestamp < 2 ^ 64))
  | .replaced _ => .isTrue trivial

end LFURun

def lfuMachine (numLines : Nat) : Machine LFURun LFUOp :=
  ⟨LFURun.legal numLines, fun s op => some (s.step op)⟩

instance decidableLfuLegal (numLines : Nat) (s : LFURun) : ∀ op, Decidable ((lfuMachine numLines).legal s op)
  | .update id => inferInstanceAs (Decidable (id < numLines ∧ s.updates + 1 < 2 ^ 54))
  | .replaced id => inferInstanceAs (Decidable (id < numLines))

namespace LFURun

/-- What every run keeps, whether or not a sum is wrapped. -/
structure Inv (s : LFURun) : Prop where
  time : s.policy.timestamp = 1000 * s.updates + 1
  lines : ∀ id, Line s.updates (s.policy.array id) (s.accesses id)

theorem Inv.init : Inv init where
  time := rfl
  lines _ := .replaced 0 ⟨0, 0⟩

variable {s : LFURun}

theorem updated_timestamp (inv : Inv s) (few : s.updates + 1 < 2 ^ 54) (id : Nat) :
    (s.step (.update id)).policy.timestamp = s.policy.timestamp + 1000 := by
  have time := inv.time
  exact u64_of_lt (by omega)

theorem updated_self (s : LFURun) (id : Nat) :
    (s.step (.update id)).policy.array id = (s.policy.array id).accessed s.policy.timestamp ∧
      (s.step (.update id)).accesses id = s.policy.timestamp :: s.accesses id :=
  ⟨Function.update_self .., Function.update_self ..⟩

theorem updated_of_ne (s : LFURun) {id other : Nat} (apart : other ≠ id) :
    (s.step (.update id)).policy.array other = s.policy.array other ∧
      (s.step (.update id)).accesses other = s.accesses other :=
  ⟨Function.update_of_ne apart .., Function.update_of_ne apart ..⟩

theorem replaced_self (s : LFURun) (id : Nat) :
    (s.step (.replaced id)).policy.array id = { s.policy.array id with acc := 0 } ∧
      (s.step (.replaced id)).accesses id = [] :=
  ⟨Function.update_self .., Function.update_self ..⟩

theorem replaced_of_ne (s : LFURun) {id other : Nat} (apart : other ≠ id) :
    (s.step (.replaced id)).policy.array other = s.policy.array other ∧
      (s.step (.replaced id)).accesses other = s.accesses other :=
  ⟨Function.update_of_ne apart .., Function.update_of_ne apart ..⟩

theorem Inv.step (inv : Inv s) {numLines : Nat} {op : LFUOp} (legal : s.legal numLines op) :
    Inv (s.step op) := by
  have time := inv.time
  cases op with
  | update id =>
      constructor
      · rw [updated_timestamp inv legal.2, time]
        change 1000 * s.updates + 1 + 1000 = 1000 * (s.updates + 1) + 1
        omega
      · intro other
        have line := inv.lines other
        by_cases same : other = id
        · subst same
          obtain ⟨info, accesses⟩ := updated_self s other
          rw [info, accesses, time]
          exact line.accessed legal.2
        · obtain ⟨info, accesses⟩ := updated_of_ne s same
          rw [info, accesses]
          exact line.later
  | replaced id =>
      refine ⟨time, fun other => ?_⟩
      by_cases same : other = id
      · subst same
        obtain ⟨info, accesses⟩ := replaced_self s other
        rw [info, accesses]
        exact .replaced _ _
      · obtain ⟨info, accesses⟩ := replaced_of_ne s same
        rw [info, accesses]
        exact inv.lines other

/-- An operation leaves means exactly if the sum that it divides fits. -/
theorem Inv.means_iff (inv : Inv s) (means : Means s) {numLines : Nat} {op : LFUOp}
    (legal : s.legal numLines op) : Means (s.step op) ↔ SumFits s op := by
  have time := inv.time
  cases op with
  | update id =>
      have line := inv.lines id
      have before : s.accesses id ≠ [] →
          Mean (1000 * s.updates + 1) (s.policy.array id) (s.accesses id) := fun some => by
        have mean := means id some
        rwa [time] at mean
      obtain ⟨info, accesses⟩ := updated_self s id
      have later := updated_timestamp inv legal.2 id
      constructor
      · intro means
        have mean := means id (by rw [accesses]; exact List.cons_ne_nil _ _)
        rw [later, info, accesses, time] at mean
        have fits := mean.fits line legal.2 before
        rw [← time] at fits
        exact fits
      · intro fits other some
        by_cases same : other = id
        · subst same
          have fits : _ + s.policy.timestamp < 2 ^ 64 := fits
          rw [time] at fits
          rw [later, info, accesses, time]
          exact Mean.accessed line legal.2 before fits
        · obtain ⟨infoOther, accessesOther⟩ := updated_of_ne s same
          rw [accessesOther] at some
          rw [later, infoOther, accessesOther]
          exact (means other some).later (Nat.le_add_right _ _)
  | replaced id =>
      refine ⟨fun _ => trivial, fun _ other some => ?_⟩
      by_cases same : other = id
      · subst same
        exact absurd (replaced_self s other).2 some
      · obtain ⟨info, accesses⟩ := replaced_of_ne s same
        rw [accesses] at some
        change Mean s.policy.timestamp _ _
        rw [info, accesses]
        exact means other some

end LFURun

open LFURun (Means SumFits)

/-- In a run of fewer than 2^54 updates the timestamps are means in every state exactly if every
sum that is divided is below 2^64. -/
theorem lfu_means_iff {numLines : Nat} {ops : List LFUOp} (legal : (lfuMachine numLines).LegalRun ops .init) :
    ∃ final, (lfuMachine numLines).exec ops .init = some final ∧
      ((lfuMachine numLines).Throughout Means ops .init ↔
        (lfuMachine numLines).Along SumFits ops .init) := by
  have preserves : (lfuMachine numLines).Preserves LFURun.Inv := fun s op inv legal =>
    ⟨_, rfl, inv.step legal⟩
  obtain ⟨final, run, -⟩ := preserves.exec LFURun.Inv.init legal
  have exact' : ∀ s op next, LFURun.Inv s → Means s → (lfuMachine numLines).legal s op →
      (lfuMachine numLines).step s op = some next → (Means next ↔ SumFits s op) :=
    fun s op next inv means legal step => by
      cases Option.some.inj step
      exact inv.means_iff means legal
  exact ⟨final, run, legal.throughout_iff (fun s op next inv isLegal step => preserves.keeps inv isLegal step)
    exact' LFURun.Inv.init (fun id some => absurd rfl some) run⟩

def twoLines : List LFUOp := [.update 0, .update 1, .update 0, .replaced 1, .update 1, .update 0]

theorem lfu_means_iff_twoLines : ∃ final, (lfuMachine 2).exec twoLines .init = some final ∧
    ((lfuMachine 2).Throughout Means twoLines .init ↔ (lfuMachine 2).Along SumFits twoLines .init) :=
  lfu_means_iff (by decide +kernel)

/-! ## One line that is accessed often -/

theorem legalRun_replicate {n : Nat} {s : LFURun} (few : s.updates + n < 2 ^ 54) :
    (lfuMachine 1).LegalRun (List.replicate n (.update 0)) s := by
  induction n generalizing s with
  | zero => trivial
  | succ n ih =>
      refine ⟨⟨Nat.one_pos, by omega⟩, fun next step => ih ?_⟩
      cases Option.some.inj step
      change s.updates + 1 + n < 2 ^ 54
      omega

theorem length_replicate {n : Nat} {s final : LFURun}
    (run : (lfuMachine 1).exec (List.replicate n (.update 0)) s = some final) :
    (final.accesses 0).length = (s.accesses 0).length + n := by
  induction n generalizing s with
  | zero =>
      cases Option.some.inj run
      rfl
  | succ n ih =>
      have later := ih (s := s.step (.update 0)) run
      rw [(LFURun.updated_self s 0).2, List.length_cons] at later
      omega

/-- A quarter of a billion accesses to one line are too many. -/
theorem lfu_mean_wraps :
    ¬ ∀ (numLines : Nat) (ops : List LFUOp), (lfuMachine numLines).LegalRun ops .init →
      (lfuMachine numLines).Throughout Means ops .init := by
  intro claim
  have legal : (lfuMachine 1).LegalRun (List.replicate (2 ^ 28) (.update 0)) .init :=
    legalRun_replicate (by decide)
  have preserves : (lfuMachine 1).Preserves LFURun.Inv := fun s op inv legal => ⟨_, rfl, inv.step legal⟩
  obtain ⟨final, run, inv⟩ := preserves.exec LFURun.Inv.init legal
  have length := length_replicate run
  have many : (final.accesses 0).length = 2 ^ 28 := length.trans (Nat.zero_add _)
  have some : final.accesses 0 ≠ [] := fun none => by
    rw [none] at many
    cases many
  have mean := claim 1 _ legal _ [] final (List.append_nil _).symm run 0 some
  have short := mean.length_lt (inv.lines 0) some
  omega

end Zsim.Repl
