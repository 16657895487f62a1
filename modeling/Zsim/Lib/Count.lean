import Mathlib.Algebra.BigOperators.Group.Finset.Piecewise
import Mathlib.Algebra.BigOperators.Group.Finset.Sigma
import Mathlib.Algebra.Order.BigOperators.Group.Finset
import Mathlib.Data.Finset.Card
import Mathlib.Data.Finset.Range
import Mathlib.Data.Fintype.Card
import Zsim.Lib.Word

/-!
# Counting and adding through a point update

How the number of indices whose entry satisfies a predicate, and the sum of the
entries, change when one entry of a table is written.

A tally is a table whose entries fall into classes, and one counter for each class.  A counter is
right when it is the number of entries of its class; a write to the table keeps the counters right
if it takes one from the class that the entry leaves and gives one to the class that it joins.
-/

set_option autoImplicit false

namespace Zsim

section
variable {α β : Type*} [DecidableEq α]

/-- The number of indices of `S` whose entry in `table` satisfies `p`. -/
def countIn (S : Finset α) (table : α → β) (p : β → Prop) [DecidablePred p] : Nat :=
  (S.filter fun a => p (table a)).card

variable (S : Finset α) (table : α → β) (p : β → Prop) [DecidablePred p]

omit [DecidableEq α] in
theorem countIn_eq_zero (none : ∀ a ∈ S, ¬ p (table a)) : countIn S table p = 0 := by
  rw [countIn, Finset.card_eq_zero, Finset.filter_eq_empty_iff]
  exact fun {a} member => none a member

omit [DecidableEq α] in
theorem countIn_eq_zero_iff : countIn S table p = 0 ↔ ∀ a ∈ S, ¬ p (table a) := by
  rw [countIn, Finset.card_eq_zero, Finset.filter_eq_empty_iff]

omit [DecidableEq α] in
theorem countIn_pos_iff : 0 < countIn S table p ↔ ∃ a ∈ S, p (table a) := by
  rw [countIn, Finset.card_pos, Finset.filter_nonempty_iff]

omit [DecidableEq α] in
theorem countIn_congr {other : α → β} (same : ∀ a ∈ S, p (table a) ↔ p (other a)) :
    countIn S table p = countIn S other p := by
  rw [countIn, countIn, Finset.filter_congr same]

theorem countIn_update {a : α} (member : a ∈ S) (value : β) :
    countIn S (Function.update table a value) p + (if p (table a) then 1 else 0) =
      countIn S table p + (if p value then 1 else 0) := by
  have split (entries : α → β) : countIn S entries p =
      countIn (S.erase a) entries p + (if p (entries a) then 1 else 0) := by
    conv_lhs => rw [countIn, ← Finset.insert_erase member, Finset.filter_insert]
    by_cases here : p (entries a)
    · rw [if_pos here, if_pos here, Finset.card_insert_of_notMem (by simp)]
      rfl
    · rw [if_neg here, if_neg here]
      rfl
  have others : countIn (S.erase a) (Function.update table a value) p =
      countIn (S.erase a) table p := by
    apply countIn_congr
    intro b other
    rw [Function.update_of_ne (Finset.ne_of_mem_erase other)]
  rw [split (Function.update table a value), split table, others, Function.update_self]
  omega

end

/-! ## All indices -/

section
variable {α β : Type*} [Fintype α] {table : α → β} {p : β → Bool}

/-- The number of all indices whose entry satisfies `p`. -/
def population (table : α → β) (p : β → Bool) : Nat := countIn Finset.univ table fun entry => p entry

theorem population_pos_iff : 0 < population table p ↔ ∃ a, p (table a) := by
  simp [population, countIn_pos_iff]

theorem population_eq_zero (none : ∀ a, p (table a) = false) : population table p = 0 :=
  countIn_eq_zero _ _ _ fun a _ => by simp [none a]

theorem eq_of_population_le_one (few : population table p ≤ 1) {a b : α} (first : p (table a))
    (second : p (table b)) : a = b :=
  Finset.card_le_one.mp few a (by simp [first]) b (by simp [second])

theorem population_le_card (table : α → β) (p : β → Bool) : population table p ≤ Fintype.card α :=
  Finset.card_le_univ _

theorem population_update [DecidableEq α] (table : α → β) (p : β → Bool) (a : α) (value : β) :
    population (Function.update table a value) p + (p (table a)).toNat =
      population table p + (p value).toNat := by
  have moved := countIn_update Finset.univ table (fun entry => p entry = true) (Finset.mem_univ a) value
  have weight (b : Bool) : b.toNat = if b = true then 1 else 0 := by
    cases b <;> rfl
  rw [weight, weight]
  exact moved

/-- All indices but one, and that one. -/
theorem population_split [DecidableEq α] (table : α → β) (p : β → Bool) (a : α) :
    ∃ rest, population table p = rest + (p (table a)).toNat ∧
      ∀ value, population (Function.update table a value) p = rest + (p value).toNat := by
  have counted : (p (table a)).toNat ≤ population table p := by
    cases here : p (table a) with
    | false => exact Nat.zero_le _
    | true => exact population_pos_iff.mpr ⟨a, here⟩
  refine ⟨population table p - (p (table a)).toNat, by omega, fun value => ?_⟩
  have moved := population_update table p a value
  omega

end

/-! ## Sums -/

section Sums

open Finset

theorem sum_change {n i : Nat} (bound : i < n) {f g : Nat → Nat} (same : ∀ j, j ≠ i → g j = f j) :
    ∑ j ∈ range n, g j + f i = ∑ j ∈ range n, f j + g i := by
  have inRange : i ∈ range n := mem_range.mpr bound
  have after := add_sum_erase (range n) g inRange
  have before := add_sum_erase (range n) f inRange
  have rest : ∑ j ∈ (range n).erase i, g j = ∑ j ∈ (range n).erase i, f j :=
    sum_congr rfl fun j member => same j (ne_of_mem_erase member)
  omega

theorem le_sum {n i : Nat} (bound : i < n) (f : Nat → Nat) : f i ≤ ∑ j ∈ range n, f j := by
  have := add_sum_erase (range n) f (mem_range.mpr bound)
  omega

section
variable {α β : Type*} [Fintype α]

/-- What all entries of a table weigh. -/
def total (weight : β → Nat) (table : α → β) : Nat := ∑ a, weight (table a)

theorem total_eq_zero_iff {weight : β → Nat} {table : α → β} :
    total weight table = 0 ↔ ∀ a, weight (table a) = 0 := by
  simp [total]

theorem total_update [DecidableEq α] (weight : β → Nat) (table : α → β) (a : α) (value : β) :
    total weight (Function.update table a value) + weight (table a) = total weight table + weight value := by
  have before : total weight table = weight (table a) + ∑ b ∈ univ \ {a}, weight (table b) :=
    sum_eq_add_sum_sdiff_singleton_of_mem (mem_univ a) _
  have after : total weight (Function.update table a value) =
      weight value + ∑ b ∈ univ \ {a}, weight (table b) := by
    have moved : ∀ b, weight (Function.update table a value b) =
        Function.update (weight ∘ table) a (weight value) b := 
      Function.apply_update (fun _ => weight) table a value
    unfold total
    rw [sum_congr rfl fun b _ => moved b, sum_update_of_mem (mem_univ a)]
    rfl
  omega

end

end Sums

/-! ## Tallies -/

section
variable {α β κ : Type*} [DecidableEq α] [DecidableEq κ]

/-- `size` counts the entries of every class. -/
def Tally (S : Finset α) (table : α → β) (key : β → κ) (size : κ → Nat) : Prop :=
  ∀ k, size k = countIn S table fun entry => key entry = k

namespace Tally

variable {S : Finset α} {table : α → β} {key : β → κ} {size size' : κ → Nat}

omit [DecidableEq α] in
theorem le_card (tally : Tally S table key size) (k : κ) : size k ≤ S.card := by
  rw [tally k]
  exact Finset.card_filter_le S _

omit [DecidableEq α] in
theorem pos (tally : Tally S table key size) {a : α} (member : a ∈ S) :
    0 < size (key (table a)) := by
  rw [tally, countIn_pos_iff]
  exact ⟨a, member, rfl⟩

theorem write (tally : Tally S table key size) {a : α} (member : a ∈ S) (value : β)
    (change : ∀ k, size' k + (if key (table a) = k then 1 else 0) =
      size k + (if key value = k then 1 else 0)) :
    Tally S (Function.update table a value) key size' := by
  intro k
  have counted := countIn_update S table (fun entry => key entry = k) member value
  have here := change k
  have before := tally k
  omega

theorem write_same (tally : Tally S table key size) {a : α} (member : a ∈ S) {value : β}
    (same : key value = key (table a)) : Tally S (Function.update table a value) key size := by
  apply tally.write member value
  intro k
  rw [same]

omit [DecidableEq α] in
theorem sum_eq (tally : Tally S table key size) {K : Finset κ}
    (inside : ∀ a ∈ S, key (table a) ∈ K) : ∑ k ∈ K, size k = S.card := by
  rw [Finset.card_eq_sum_card_fiberwise inside]
  exact Finset.sum_congr rfl fun k _ => tally k

omit [DecidableEq α] in
theorem single (S : Finset α) (table : α → β) (key : β → κ) (k : κ) (all : ∀ a ∈ S, key (table a) = k) :
    Tally S table key (Function.update (fun _ => 0) k S.card) := by
  intro other
  by_cases same : other = k
  · subst same
    rw [Function.update_self, countIn, Finset.filter_true_of_mem all]
  · rw [Function.update_of_ne same, countIn_eq_zero]
    intro a member here
    exact same (here.symm.trans (all a member))

end Tally

/-! ## Counters that are words -/

def decr (size : κ → Nat) (k : κ) : κ → Nat := Function.update size k (u64Sub (size k) 1)

def incr (size : κ → Nat) (k : κ) : κ → Nat := Function.update size k (u64 (size k + 1))

/-- A counter that is not 0 does not wrap. -/
theorem decr_add {size : κ → Nat} {k : κ} (pos : 0 < size k) (fits : size k < 2 ^ 64) (j : κ) :
    decr size k j + (if k = j then 1 else 0) = size j := by
  unfold decr
  by_cases same : k = j
  · subst same
    rw [Function.update_self, if_pos rfl, u64Sub_of_le fits pos]
    omega
  · rw [Function.update_of_ne (Ne.symm same), if_neg same, Nat.add_zero]

theorem incr_eq (size : κ → Nat) (k : κ) (fits : size k + 1 < 2 ^ 64) (j : κ) :
    incr size k j = size j + if k = j then 1 else 0 := by
  unfold incr
  by_cases same : k = j
  · subst same
    rw [Function.update_self, if_pos rfl, u64_of_lt fits]
  · rw [Function.update_of_ne (Ne.symm same), if_neg same, Nat.add_zero]

end

end Zsim
