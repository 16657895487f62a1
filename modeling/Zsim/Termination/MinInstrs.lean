import Mathlib.Data.List.Perm.Basic
import Mathlib.Order.Bounds.Basic
import Zsim.Lib.Word

/-!
# Conditions to terminate

`CheckForTermination` of zsim.cpp.  The cores are known by the instructions they have executed;
`maxMinInstrs` is about the cores that have executed some.
-/

set_option autoImplicit false

namespace Zsim.Termination

structure GlobSimInfo where
  terminationConditionMet : Bool
  maxPhases : Nat
  numPhases : Nat
  maxMinInstrs : Nat
  maxTotalInstrs : Nat
  maxSimTimeNs : Nat
  /-- `profSimTime`, in the bound and in the weave phase -/
  boundNs : Nat
  weaveNs : Nat
  externalTermPending : Bool
  /-- `getInstrs` of each core -/
  instrs : List Nat

/-- What is compared with `maxMinInstrs`; there is a core 0. -/
def minInstrs : List Nat → Option Nat
  | [] => none
  | first :: rest =>
    some (rest.foldl (fun minInstrs coreInstrs =>
      if coreInstrs < minInstrs ∧ 0 < coreInstrs then coreInstrs else minInstrs) first)

def minInstrsReached (maxMinInstrs : Nat) (instrs : List Nat) : Option Bool :=
  (minInstrs instrs).map fun minInstrs => decide (maxMinInstrs ≤ minInstrs)

def totalInstrs (instrs : List Nat) : Nat :=
  instrs.foldl (fun totalInstrs coreInstrs => u64 (totalInstrs + coreInstrs)) 0

def checkForTermination (z : GlobSimInfo) : Option GlobSimInfo :=
  let terminate := { z with terminationConditionMet := true }
  if z.terminationConditionMet = true then none  -- assertion
  else if z.maxPhases ≠ 0 ∧ z.maxPhases ≤ z.numPhases then some terminate
  else do
    let minReached ← if z.maxMinInstrs ≠ 0 then minInstrsReached z.maxMinInstrs z.instrs else some false
    if minReached = true then some terminate
    else if z.maxTotalInstrs ≠ 0 ∧ z.maxTotalInstrs ≤ totalInstrs z.instrs then some terminate
    else if z.maxSimTimeNs ≠ 0 ∧ z.maxSimTimeNs ≤ u64 (z.boundNs + z.weaveNs) then some terminate
    else if z.externalTermPending = true then some terminate
    else some z

/-! ## The minimum -/

/-- The minimum over the cores that have executed at least one instruction. -/
def LeastBusy (instrs : List Nat) (least : Nat) : Prop := IsLeast {c | c ∈ instrs ∧ 0 < c} least

variable {instrs rest : List Nat} {first least max : Nat}

theorem LeastBusy.perm {other : List Nat} (isLeast : LeastBusy instrs least) (perm : other.Perm instrs) :
    LeastBusy other least :=
  ⟨⟨perm.mem_iff.mpr isLeast.1.1, isLeast.1.2⟩,
    fun _ busy => isLeast.2 ⟨perm.mem_iff.mp busy.1, busy.2⟩⟩

theorem leastBusy_foldl (busy : 0 < first) : LeastBusy (first :: rest)
    (rest.foldl (fun least c => if c < least ∧ 0 < c then c else least) first) := by
  induction rest generalizing first with
  | nil =>
      refine ⟨⟨List.mem_singleton_self first, busy⟩, fun _ other => ?_⟩
      exact Nat.le_of_eq (List.mem_singleton.mp other.1).symm
  | cons core rest ih =>
      rw [List.foldl_cons]
      by_cases better : core < first ∧ 0 < core
      · rw [if_pos better]
        obtain ⟨member, least⟩ := ih better.2
        refine ⟨⟨List.mem_cons_of_mem first member.1, member.2⟩, fun c other => ?_⟩
        rcases List.mem_cons.mp other.1 with isFirst | later
        · have atMost := least ⟨List.mem_cons_self, better.2⟩
          omega
        · exact least ⟨later, other.2⟩
      · rw [if_neg better]
        obtain ⟨member, least⟩ := ih busy
        have atMost := least ⟨List.mem_cons_self, busy⟩
        refine ⟨⟨?_, member.2⟩, fun c other => ?_⟩
        · rcases List.mem_cons.mp member.1 with isFirst | later
          · rw [isFirst]
            exact List.mem_cons_self
          · exact List.mem_cons_of_mem first (List.mem_cons_of_mem core later)
        · have positive : 0 < c := other.2
          rcases List.mem_cons.mp other.1 with isFirst | later
          · rw [isFirst]
            exact atMost
          · rcases List.mem_cons.mp later with isCore | later
            · omega
            · exact least ⟨List.mem_cons_of_mem first later, positive⟩

/-- From an idle core 0 the minimum stays 0. -/
theorem foldl_of_idle (rest : List Nat) :
    rest.foldl (fun least c => if c < least ∧ 0 < c then c else least) 0 = 0 := by
  induction rest with
  | nil => rfl
  | cons core rest ih =>
      have kept : ¬ (core < 0 ∧ 0 < core) := fun both => Nat.not_lt_zero core both.1
      rw [List.foldl_cons, if_neg kept]
      exact ih

theorem minInstrs_cons_zero : minInstrs (0 :: rest) = some 0 := congrArg some (foldl_of_idle rest)

theorem exists_leastBusy (busy : 0 < first) (rest : List Nat) :
    ∃ least, minInstrs (first :: rest) = some least ∧ LeastBusy (first :: rest) least :=
  ⟨_, rfl, leastBusy_foldl busy⟩

theorem minInstrs_eq_some_iff (busy : ∃ c ∈ instrs, 0 < c) :
    (∃ least, minInstrs instrs = some least ∧ LeastBusy instrs least) ↔ instrs.head? ≠ some 0 := by
  cases instrs with
  | nil =>
      obtain ⟨c, member, -⟩ := busy
      exact absurd member List.not_mem_nil
  | cons first rest =>
      rcases Nat.eq_zero_or_pos first with idle | isBusy
      · subst idle
        refine iff_of_false ?_ (fun ne => ne rfl)
        rintro ⟨least, found, isLeast⟩
        rw [minInstrs_cons_zero] at found
        cases found
        exact Nat.lt_irrefl 0 isLeast.1.2
      · refine iff_of_true (exists_leastBusy isBusy rest) ?_
        intro same
        exact absurd (Option.some.inj same) (Nat.ne_of_gt isBusy)

/-! ## The decision -/

/-- A core that is busy and below the maximum keeps the run going, wherever it stands. -/
theorem not_reached (nonempty : instrs ≠ []) (below : ∃ c ∈ instrs, 0 < c ∧ c < max) :
    minInstrsReached max instrs = some false := by
  obtain ⟨c, member, busy, less⟩ := below
  cases instrs with
  | nil => exact absurd rfl nonempty
  | cons first rest =>
      rcases Nat.eq_zero_or_pos first with idle | isBusy
      · subst idle
        have notReached : ¬ max ≤ 0 := by omega
        rw [minInstrsReached, minInstrs_cons_zero, Option.map_some, decide_eq_false notReached]
      · obtain ⟨least, found, isLeast⟩ := exists_leastBusy isBusy rest
        have atMost := isLeast.2 ⟨member, busy⟩
        have notReached : ¬ max ≤ least := by omega
        rw [minInstrsReached, found, Option.map_some, decide_eq_false notReached]

theorem reached_of_leastBusy (front : instrs.head? ≠ some 0) (isLeast : LeastBusy instrs least) :
    minInstrsReached max instrs = some (decide (max ≤ least)) := by
  have busy : ∃ c ∈ instrs, 0 < c := ⟨least, isLeast.1.1, isLeast.1.2⟩
  obtain ⟨other, found, isLeast'⟩ := (minInstrs_eq_some_iff busy).mpr front
  rw [minInstrsReached, found, Option.map_some, isLeast'.unique isLeast]

theorem same_decision_iff (isLeast : LeastBusy instrs least) (front : instrs.head? ≠ some 0)
    (limited : max ≠ 0) :
    (∀ other : List Nat, other.Perm instrs → minInstrsReached max other = minInstrsReached max instrs) ↔
      (∀ c ∈ instrs, c ≠ 0) ∨ ∃ c ∈ instrs, 0 < c ∧ c < max := by
  constructor
  · intro same
    by_contra neither
    obtain ⟨idle, notBelow⟩ := not_or.mp neither
    have hasIdle : 0 ∈ instrs := by
      by_contra absent
      exact idle fun c member zero => absent (zero ▸ member)
    have reached : max ≤ least := Nat.le_of_not_lt fun less =>
      notBelow ⟨least, isLeast.1.1, isLeast.1.2, less⟩
    -- the idle core comes first
    have idleFirst := same (0 :: instrs.erase 0) (List.perm_cons_erase hasIdle).symm
    have notReached : ¬ max ≤ 0 := by omega
    rw [reached_of_leastBusy front isLeast, minInstrsReached, minInstrs_cons_zero, Option.map_some,
      decide_eq_false notReached, decide_eq_true reached] at idleFirst
    cases idleFirst
  · rintro (allBusy | below) other perm
    · have frontBusy : other.head? ≠ some 0 := fun isFront =>
        allBusy 0 (perm.mem_iff.mp (List.mem_of_head? isFront)) rfl
      rw [reached_of_leastBusy front isLeast, reached_of_leastBusy frontBusy (isLeast.perm perm)]
    · have nonempty : instrs ≠ [] := fun isNil => by
        rw [isNil] at isLeast
        exact List.not_mem_nil isLeast.1.1
      have nonempty' : other ≠ [] := fun isNil => nonempty (isNil ▸ perm).nil_eq.symm
      obtain ⟨c, member, isBelow⟩ := below
      rw [not_reached nonempty ⟨c, member, isBelow⟩,
        not_reached nonempty' ⟨c, perm.mem_iff.mpr member, isBelow⟩]

/-- The minimum is over the busy cores, and the decision does not depend on their numbering, exactly
if core 0 is busy and there are no idle ones or a busy one is below the maximum. -/
theorem min_over_busy_iff (busy : ∃ c ∈ instrs, 0 < c) (limited : max ≠ 0) :
    ((∃ least, minInstrs instrs = some least ∧ LeastBusy instrs least) ∧
      ∀ other : List Nat, other.Perm instrs →
        minInstrsReached max other = minInstrsReached max instrs) ↔
    instrs.head? ≠ some 0 ∧ ((∀ c ∈ instrs, c ≠ 0) ∨ ∃ c ∈ instrs, 0 < c ∧ c < max) := by
  rw [minInstrs_eq_some_iff busy]
  apply and_congr_right
  intro front
  obtain ⟨least, -, isLeast⟩ := (minInstrs_eq_some_iff busy).mpr front
  exact same_decision_iff isLeast front limited

theorem min_over_busy_iff_idle_last :
    (∃ least, minInstrs [7, 5, 0] = some least ∧ LeastBusy [7, 5, 0] least) ∧
      ∀ other : List Nat, other.Perm [7, 5, 0] → minInstrsReached 6 other = minInstrsReached 6 [7, 5, 0] :=
  (min_over_busy_iff ⟨7, by decide, by decide⟩ (by decide)).mpr
    ⟨by decide, .inr ⟨5, by decide, by decide, by decide⟩⟩

/-- With an idle core 0 the run does not terminate, although the only busy core has reached the maximum. -/
theorem idle_first_core : minInstrs [0, 5] = some 0 ∧ LeastBusy [0, 5] 5 ∧
    minInstrsReached 5 [0, 5] = some false ∧ minInstrsReached 5 [5, 0] = some true := by
  refine ⟨rfl, ⟨⟨by decide, by decide⟩, ?_⟩, by decide, by decide⟩
  rintro c ⟨member, busy⟩
  rcases List.mem_cons.mp member with rfl | member
  · exact absurd busy (Nat.lt_irrefl 0)
  · exact Nat.le_of_eq (List.mem_singleton.mp member).symm

end Zsim.Termination
