import Mathlib.Data.List.Count
import Mathlib.Logic.Function.Basic
import Zsim.Lib.Machine
import Zsim.Lib.Word

/-!
# The reorder buffer

`ReorderBuffer::markRetire` of ooo_core.h.  `curCycleRetires` is the number of instructions that
retire in the current cycle if the buffer has come to it by an advance, one more at the start, and
one less after a full bundle.
-/

set_option autoImplicit false

namespace Zsim.OOO

structure ReorderBuffer where
  buf : Nat → Nat
  curRetireCycle : Nat
  curCycleRetires : Nat
  idx : Nat

namespace ReorderBuffer

variable (SZ W : Nat)

def init : ReorderBuffer := ⟨fun _ => 0, 0, 1, 0⟩

def minAllocCycle (b : ReorderBuffer) : Nat := b.buf b.idx

/-- The retire cycle of an instruction, and how many retire in it so far. -/
def bundle (b : ReorderBuffer) (minRetireCycle : Nat) : Nat × Nat :=
  if minRetireCycle ≤ b.curRetireCycle then  -- retire with bundle
    if b.curCycleRetires = W then (u64 (b.curRetireCycle + 1), 0)
    else (b.curRetireCycle, b.curCycleRetires + 1)
  else (minRetireCycle, 1)  -- advance

def markRetire (b : ReorderBuffer) (minRetireCycle : Nat) : ReorderBuffer where
  buf := Function.update b.buf b.idx (b.bundle W minRetireCycle).1
  curRetireCycle := (b.bundle W minRetireCycle).1
  curCycleRetires := (b.bundle W minRetireCycle).2
  idx := if b.idx + 1 = SZ then 0 else b.idx + 1

end ReorderBuffer

/-- An instruction and the cycle that was recorded for it. -/
structure Retirement where
  minRetireCycle : Nat
  retireCycle : Nat
  deriving DecidableEq

namespace Retirement

variable (W : Nat)

def inCycle (done : List Retirement) (c : Nat) : Nat := done.countP fun e => e.retireCycle = c

/-- The next instruction may retire at `c`: in order, not early and not as one too many. -/
structure Allowed (done : List Retirement) (minRetireCycle c : Nat) : Prop where
  notEarly : minRetireCycle ≤ c
  inOrder : ∀ e ∈ done, e.retireCycle ≤ c
  width : inCycle done c < W

/-- What a buffer of width `W` should have recorded, the last instruction first. -/
structure Proper (done : List Retirement) : Prop where
  inOrder : done.Pairwise fun later earlier => earlier.retireCycle ≤ later.retireCycle
  notEarly : ∀ e ∈ done, e.minRetireCycle ≤ e.retireCycle
  width : ∀ c, inCycle done c ≤ W
  earliest : ∀ later e earlier, done = later ++ e :: earlier →
    ∀ c, Allowed W earlier e.minRetireCycle c → e.retireCycle ≤ c

variable {W} {done : List Retirement} {e : Retirement}

theorem inCycle_cons (c : Nat) :
    inCycle (e :: done) c = inCycle done c + if e.retireCycle = c then 1 else 0 := by
  simp [inCycle, List.countP_cons]

theorem exists_of_inCycle {c : Nat} (pos : 0 < inCycle done c) : ∃ e ∈ done, e.retireCycle = c := by
  obtain ⟨e, member, here⟩ := List.countP_pos_iff.mp pos
  exact ⟨e, member, of_decide_eq_true here⟩

theorem inCycle_of_lt {c : Nat} (before : ∀ e ∈ done, e.retireCycle < c) : inCycle done c = 0 := by
  apply List.countP_eq_zero.mpr
  intro e member here
  exact absurd (of_decide_eq_true here) (Nat.ne_of_lt (before e member))

theorem Proper.nil : Proper W [] where
  inOrder := List.Pairwise.nil
  notEarly := nofun
  width _ := Nat.zero_le W
  earliest := by
    intro later e earlier split
    simp at split

theorem proper_cons_iff : Proper W (e :: done) ↔
    Proper W done ∧ Allowed W done e.minRetireCycle e.retireCycle ∧
      ∀ c, Allowed W done e.minRetireCycle c → e.retireCycle ≤ c := by
  constructor
  · intro proper
    obtain ⟨last, inOrder⟩ := List.pairwise_cons.mp proper.inOrder
    refine ⟨⟨inOrder, fun e member => proper.notEarly e (List.mem_cons_of_mem _ member), ?_, ?_⟩,
      ⟨proper.notEarly e List.mem_cons_self, last, ?_⟩, ?_⟩
    · intro c
      have width := proper.width c
      rw [inCycle_cons] at width
      omega
    · intro later other earlier split
      apply proper.earliest (e :: later) other earlier
      rw [split, List.cons_append]
    · have width := proper.width e.retireCycle
      rw [inCycle_cons, if_pos rfl] at width
      exact width
    · exact proper.earliest [] e done rfl
  · rintro ⟨proper, allowed, least⟩
    refine ⟨List.pairwise_cons.mpr ⟨allowed.inOrder, proper.inOrder⟩, ?_, ?_, ?_⟩
    · intro other member
      rcases List.mem_cons.mp member with rfl | member
      · exact allowed.notEarly
      · exact proper.notEarly other member
    · intro c
      rw [inCycle_cons]
      split
      next here =>
        subst here
        exact allowed.width
      next => exact proper.width c
    · intro later other earlier split
      cases later with
      | nil =>
          cases split
          exact least
      | cons first later =>
          cases split
          exact proper.earliest later other earlier rfl

theorem Proper.of_suffix {later : List Retirement} (proper : Proper W later)
    (suffix : done <:+ later) : Proper W done := by
  obtain ⟨added, rfl⟩ := suffix
  induction added with
  | nil => exact proper
  | cons e added ih => exact ih (proper_cons_iff.mp proper).1

end Retirement

/-! ## Runs -/

/-- A buffer, the instructions it has retired, the last one first, and whether its current cycle
directly follows a full bundle. -/
structure Retiring where
  rob : ReorderBuffer
  done : List Retirement
  rolled : Bool

namespace Retiring

variable (SZ W : Nat)

def init : Retiring := ⟨ReorderBuffer.init, [], false⟩

open Retirement

def markRetire (s : Retiring) (minRetireCycle : Nat) : Retiring where
  rob := s.rob.markRetire SZ W minRetireCycle
  done := ⟨minRetireCycle, (s.rob.markRetire SZ W minRetireCycle).curRetireCycle⟩ :: s.done
  rolled := if minRetireCycle ≤ s.rob.curRetireCycle then
    if s.rob.curCycleRetires = W then true else s.rolled
  else false

def machine : Machine Retiring Nat where
  legal _ minRetireCycle := minRetireCycle < 2 ^ 64
  step s minRetireCycle := some (s.markRetire SZ W minRetireCycle)

instance decidableLegal (s : Retiring) (minRetireCycle : Nat) :
    Decidable ((machine SZ W).legal s minRetireCycle) :=
  inferInstanceAs (Decidable (_ < _))

/-- An instruction that comes no later than the current cycle does not find the bundle of cycle 0
or of the last cycle full, and does not fill one that follows a full bundle. -/
def Fits (s : Retiring) (minRetireCycle : Nat) : Prop :=
  minRetireCycle ≤ s.rob.curRetireCycle →
    (s.rob.curCycleRetires = W → s.rob.curRetireCycle ≠ 0 ∧ s.rob.curRetireCycle + 1 < 2 ^ 64) ∧
      (s.rolled = true → s.rob.curCycleRetires + 1 ≠ W)

instance decidableFits (s : Retiring) (minRetireCycle : Nat) : Decidable (s.Fits W minRetireCycle) :=
  inferInstanceAs (Decidable (_ → _))

/-- How the counter of the current cycle relates to what has retired in it. -/
structure Inv (s : Retiring) : Prop where
  proper : Proper W s.done
  le_current : ∀ e ∈ s.done, e.retireCycle ≤ s.rob.curRetireCycle
  count : inCycle s.done s.rob.curRetireCycle + (if s.rob.curRetireCycle = 0 then 1 else 0) =
    s.rob.curCycleRetires + if s.rolled = true then 1 else 0
  full : s.rob.curCycleRetires ≤ W
  rolled : s.rolled = true → s.rob.curRetireCycle ≠ 0 ∧ s.rob.curCycleRetires < W
  started : s.rolled = false → 0 < s.rob.curCycleRetires
  word : s.rob.curRetireCycle < 2 ^ 64

variable {SZ W} {s : Retiring} {minRetireCycle : Nat}

theorem Inv.init (pos : 1 ≤ W) : Inv W init where
  proper := Proper.nil
  le_current := nofun
  count := rfl
  full := pos
  rolled := nofun
  started _ := Nat.one_pos
  word := by decide

theorem Inv.current_le (inv : Inv W s) {c : Nat} (allowed : Allowed W s.done minRetireCycle c) :
    s.rob.curRetireCycle ≤ c := by
  rcases Nat.eq_zero_or_pos (inCycle s.done s.rob.curRetireCycle) with none | some
  · -- nothing has retired in the current cycle, so it is the first one
    have count := inv.count
    rw [none] at count
    cases rolled : s.rolled with
    | true =>
        have started := inv.rolled rolled
        rw [rolled, if_pos rfl, if_neg started.1] at count
        omega
    | false =>
        have started := inv.started rolled
        rw [rolled] at count
        split at count
        next zero => omega
        next => simp at count; omega
  · obtain ⟨e, member, here⟩ := exists_of_inCycle some
    rw [← here]
    exact allowed.inOrder e member

theorem Inv.advance (inv : Inv W s) (pos : 1 ≤ W) (later : s.rob.curRetireCycle < minRetireCycle)
    (word : minRetireCycle < 2 ^ 64) : Inv W (s.markRetire SZ W minRetireCycle) := by
  have fresh : inCycle s.done minRetireCycle = 0 :=
    inCycle_of_lt fun e member => Nat.lt_of_le_of_lt (inv.le_current e member) later
  have marked : s.markRetire SZ W minRetireCycle =
      ⟨⟨Function.update s.rob.buf s.rob.idx minRetireCycle, minRetireCycle, 1,
        if s.rob.idx + 1 = SZ then 0 else s.rob.idx + 1⟩,
        ⟨minRetireCycle, minRetireCycle⟩ :: s.done, false⟩ := by
    simp only [markRetire, ReorderBuffer.markRetire, ReorderBuffer.bundle,
      if_neg (Nat.not_le_of_gt later)]
  rw [marked]
  have notZero : minRetireCycle ≠ 0 := Nat.ne_of_gt (Nat.zero_lt_of_lt later)
  exact {
    proper := proper_cons_iff.mpr ⟨inv.proper,
      ⟨Nat.le_refl _, fun e member => Nat.le_trans (inv.le_current e member) (Nat.le_of_lt later),
        by rw [fresh]; exact pos⟩,
      fun c allowed => allowed.notEarly⟩
    le_current := by
      intro e member
      rcases List.mem_cons.mp member with rfl | member
      · exact Nat.le_refl _
      · exact Nat.le_trans (inv.le_current e member) (Nat.le_of_lt later)
    count := by simp [inCycle_cons, fresh, notZero]
    full := pos
    rolled := nofun
    started := fun _ => Nat.one_pos
    word := word }

theorem markRetire_join (notLater : minRetireCycle ≤ s.rob.curRetireCycle)
    (notFull : s.rob.curCycleRetires ≠ W) : s.markRetire SZ W minRetireCycle =
      ⟨⟨Function.update s.rob.buf s.rob.idx s.rob.curRetireCycle, s.rob.curRetireCycle,
        s.rob.curCycleRetires + 1, if s.rob.idx + 1 = SZ then 0 else s.rob.idx + 1⟩,
        ⟨minRetireCycle, s.rob.curRetireCycle⟩ :: s.done, s.rolled⟩ := by
  simp only [markRetire, ReorderBuffer.markRetire, ReorderBuffer.bundle, if_pos notLater,
    if_neg notFull]

theorem Inv.join (inv : Inv W s) (notLater : minRetireCycle ≤ s.rob.curRetireCycle)
    (notFull : s.rob.curCycleRetires ≠ W) (fits : s.Fits W minRetireCycle) :
    Inv W (s.markRetire SZ W minRetireCycle) := by
  have count := inv.count
  have full := inv.full
  have room : s.rolled = true → s.rob.curCycleRetires + 1 < W := by
    intro rolled
    have fits := (fits notLater).2 rolled
    omega
  have width : inCycle s.done s.rob.curRetireCycle < W := by
    cases rolled : s.rolled with
    | true =>
        have room := room rolled
        rw [rolled, if_pos rfl] at count
        omega
    | false =>
        rw [rolled] at count
        simp only [Bool.false_eq_true, if_false] at count
        omega
  rw [markRetire_join notLater notFull]
  exact {
    proper := proper_cons_iff.mpr ⟨inv.proper, ⟨notLater, inv.le_current, width⟩,
      fun c allowed => inv.current_le allowed⟩
    le_current := by
      intro e member
      rcases List.mem_cons.mp member with rfl | member
      · exact Nat.le_refl _
      · exact inv.le_current e member
    count := by
      rw [inCycle_cons, if_pos rfl]
      dsimp only
      omega
    full := Nat.lt_of_le_of_ne full notFull
    rolled := fun rolled => ⟨(inv.rolled rolled).1, room rolled⟩
    started := fun _ => Nat.succ_pos _
    word := inv.word }

theorem markRetire_roll (notLater : minRetireCycle ≤ s.rob.curRetireCycle)
    (isFull : s.rob.curCycleRetires = W) : s.markRetire SZ W minRetireCycle =
      ⟨⟨Function.update s.rob.buf s.rob.idx (u64 (s.rob.curRetireCycle + 1)),
        u64 (s.rob.curRetireCycle + 1), 0, if s.rob.idx + 1 = SZ then 0 else s.rob.idx + 1⟩,
        ⟨minRetireCycle, u64 (s.rob.curRetireCycle + 1)⟩ :: s.done, true⟩ := by
  simp only [markRetire, ReorderBuffer.markRetire, ReorderBuffer.bundle, if_pos notLater,
    if_pos isFull]

theorem Inv.inCycle_of_full (inv : Inv W s) (isFull : s.rob.curCycleRetires = W) :
    inCycle s.done s.rob.curRetireCycle + (if s.rob.curRetireCycle = 0 then 1 else 0) = W := by
  have count := inv.count
  cases rolled : s.rolled with
  | true =>
      have notFull := (inv.rolled rolled).2
      omega
  | false =>
      rw [rolled] at count
      simp only [Bool.false_eq_true, if_false] at count
      omega

theorem Inv.roll (inv : Inv W s) (pos : 1 ≤ W) (notLater : minRetireCycle ≤ s.rob.curRetireCycle)
    (isFull : s.rob.curCycleRetires = W) (fits : s.Fits W minRetireCycle) :
    Inv W (s.markRetire SZ W minRetireCycle) := by
  obtain ⟨notZero, word⟩ := (fits notLater).1 isFull
  have count := inv.inCycle_of_full isFull
  rw [if_neg notZero] at count
  have fresh : inCycle s.done (s.rob.curRetireCycle + 1) = 0 :=
    inCycle_of_lt fun e member => Nat.lt_succ_of_le (inv.le_current e member)
  rw [markRetire_roll notLater isFull, u64_of_lt word]
  exact {
    proper := by
      refine proper_cons_iff.mpr ⟨inv.proper, ⟨Nat.le_succ_of_le notLater, ?_, ?_⟩, ?_⟩
      · exact fun e member => Nat.le_succ_of_le (inv.le_current e member)
      · rw [fresh]
        exact pos
      · intro c allowed
        have le := inv.current_le allowed
        have width := allowed.width
        have other : c ≠ s.rob.curRetireCycle := by
          rintro rfl
          omega
        show s.rob.curRetireCycle + 1 ≤ c
        omega
    le_current := by
      intro e member
      rcases List.mem_cons.mp member with rfl | member
      · exact Nat.le_refl _
      · exact Nat.le_succ_of_le (inv.le_current e member)
    count := by simp [inCycle_cons, fresh]
    full := Nat.zero_le W
    rolled := fun _ => ⟨Nat.succ_ne_zero _, pos⟩
    started := nofun
    word := word }

theorem Inv.fits (inv : Inv W s) (pos : 1 ≤ W) (word : minRetireCycle < 2 ^ 64)
    (fits : s.Fits W minRetireCycle) : Inv W (s.markRetire SZ W minRetireCycle) := by
  rcases Nat.lt_or_ge s.rob.curRetireCycle minRetireCycle with later | notLater
  · exact inv.advance pos later word
  · by_cases isFull : s.rob.curCycleRetires = W
    · exact inv.roll pos notLater isFull fits
    · exact inv.join notLater isFull fits

/-- Any other instruction is recorded with a wrong cycle. -/
theorem Inv.not_proper (inv : Inv W s) (misfit : ¬ s.Fits W minRetireCycle) :
    ¬ Proper W (s.markRetire SZ W minRetireCycle).done := by
  have word := inv.word
  obtain ⟨notLater, misfit⟩ := Classical.not_imp.mp misfit
  by_cases isFull : s.rob.curCycleRetires = W
  · have count := inv.inCycle_of_full isFull
    have notRolled : s.rolled = true → s.rob.curCycleRetires + 1 ≠ W := fun _ => by omega
    rw [markRetire_roll notLater isFull, proper_cons_iff]
    rintro ⟨-, allowed, least⟩
    by_cases zero : s.rob.curRetireCycle = 0
    · -- at the start the counter is one too high, and cycle 0 still has room
      rw [if_pos zero] at count
      have room : Allowed W s.done minRetireCycle s.rob.curRetireCycle :=
        ⟨notLater, inv.le_current, by omega⟩
      have le : u64 (s.rob.curRetireCycle + 1) ≤ s.rob.curRetireCycle := least _ room
      rw [zero] at le
      exact absurd le (by decide)
    · have last : s.rob.curRetireCycle + 1 = 2 ^ 64 := by
        by_contra other
        exact misfit ⟨fun _ => ⟨zero, by omega⟩, notRolled⟩
      have le : s.rob.curRetireCycle ≤ u64 (s.rob.curRetireCycle + 1) := inv.current_le allowed
      rw [last] at le
      have wrapped : u64 (2 ^ 64) = 0 := by decide
      omega
  · have rolled : s.rolled = true ∧ s.rob.curCycleRetires + 1 = W := by
      by_contra other
      refine misfit ⟨fun same => absurd same isFull, fun rolled last => other ⟨rolled, last⟩⟩
    have count := inv.count
    rw [rolled.1, if_pos rfl, if_neg (inv.rolled rolled.1).1] at count
    rw [markRetire_join notLater isFull, proper_cons_iff]
    rintro ⟨-, allowed, -⟩
    have width : inCycle s.done s.rob.curRetireCycle < W := allowed.width
    omega

theorem done_suffix {mins : List Nat} {final : Retiring}
    (run : (machine SZ W).exec mins s = some final) : s.done <:+ final.done := by
  induction mins generalizing s with
  | nil =>
      cases Option.some.inj run
      exact List.suffix_refl _
  | cons minRetireCycle rest ih =>
      exact (List.suffix_cons _ _).trans (ih run)

theorem Inv.proper_iff (inv : Inv W s) (pos : 1 ≤ W) {mins : List Nat}
    (legal : (machine SZ W).LegalRun mins s) {final : Retiring}
    (run : (machine SZ W).exec mins s = some final) :
    Proper W final.done ↔ (machine SZ W).Along (Fits W) mins s := by
  induction mins generalizing s with
  | nil =>
      cases Option.some.inj run
      exact ⟨fun _ => trivial, fun _ => inv.proper⟩
  | cons minRetireCycle rest ih =>
      by_cases fits : s.Fits W minRetireCycle
      · have later := ih (inv.fits pos legal.1 fits) (legal.2 _ rfl) run
        rw [later]
        refine ⟨fun along => ⟨fits, fun next step => ?_⟩, fun along => along.2 _ rfl⟩
        cases Option.some.inj step
        exact along
      · refine ⟨fun proper => ?_, fun along => absurd along.1 fits⟩
        have suffix : (s.markRetire SZ W minRetireCycle).done <:+ final.done := done_suffix run
        exact absurd (proper.of_suffix suffix) (inv.not_proper fits)

/-! ## The buffer -/

/-- The buffer holds the cycles of the last `SZ` instructions. -/
structure Recorded (SZ : Nat) (s : Retiring) : Prop where
  idx_lt : s.rob.idx < SZ
  buf_eq : ∀ k < SZ, s.rob.buf ((s.rob.idx + SZ - 1 - k) % SZ) =
    (s.done[k]?.map Retirement.retireCycle).getD 0

theorem Recorded.init (pos : 0 < SZ) : Recorded SZ init where
  idx_lt := pos
  buf_eq _ _ := rfl

theorem Recorded.markRetire (recorded : Recorded SZ s) :
    Recorded SZ (s.markRetire SZ W minRetireCycle) := by
  have idx_lt := recorded.idx_lt
  -- the index wraps at the end of the buffer
  have idx : (s.markRetire SZ W minRetireCycle).rob.idx = (s.rob.idx + 1) % SZ := by
    show (if s.rob.idx + 1 = SZ then 0 else s.rob.idx + 1) = _
    split
    next last => rw [last, Nat.mod_self]
    next => rw [Nat.mod_eq_of_lt (by omega)]
  refine ⟨by rw [idx]; exact Nat.mod_lt _ (by omega), fun k lt => ?_⟩
  have slot : ((s.markRetire SZ W minRetireCycle).rob.idx + SZ - 1 - k) % SZ =
      (s.rob.idx + SZ - k) % SZ := by
    rw [idx]
    rcases Nat.lt_or_ge (s.rob.idx + 1) SZ with inside | last
    · rw [Nat.mod_eq_of_lt inside]
      congr 1
      omega
    · rw [show s.rob.idx + 1 = SZ by omega, Nat.mod_self, show s.rob.idx + SZ - k = 0 + SZ - 1 - k + SZ by omega,
        Nat.add_mod_right]
  rw [slot]
  show Function.update s.rob.buf s.rob.idx _ _ = _
  cases k with
  | zero =>
      rw [Nat.sub_zero, Nat.add_mod_right, Nat.mod_eq_of_lt idx_lt, Function.update_self]
      rfl
  | succ k =>
      have other : (s.rob.idx + SZ - (k + 1)) % SZ ≠ s.rob.idx := by
        rcases Nat.lt_or_ge s.rob.idx (k + 1) with wraps | inside
        · rw [Nat.mod_eq_of_lt (by omega)]
          omega
        · rw [show s.rob.idx + SZ - (k + 1) = s.rob.idx - (k + 1) + SZ by omega, Nat.add_mod_right,
            Nat.mod_eq_of_lt (by omega)]
          omega
      rw [Function.update_of_ne other, show s.rob.idx + SZ - (k + 1) = s.rob.idx + SZ - 1 - k by omega,
        recorded.buf_eq k (by omega)]
      rfl

theorem recorded_throughout {mins : List Nat} {final : Retiring} (recorded : Recorded SZ s)
    (run : (machine SZ W).exec mins s = some final) : Recorded SZ final := by
  induction mins generalizing s with
  | nil =>
      cases Option.some.inj run
      exact recorded
  | cons minRetireCycle rest ih => exact ih recorded.markRetire run

/-- In every run an instruction is allocated when the one `SZ` before it has retired. -/
theorem minAllocCycle_eq (pos : 0 < SZ) {mins : List Nat} {final : Retiring}
    (run : (machine SZ W).exec mins init = some final) :
    final.rob.minAllocCycle = (final.done[SZ - 1]?.map Retirement.retireCycle).getD 0 := by
  have recorded := recorded_throughout (Recorded.init pos) run
  have idx_lt := recorded.idx_lt
  have last := recorded.buf_eq (SZ - 1) (by omega)
  rw [show final.rob.idx + SZ - 1 - (SZ - 1) = final.rob.idx by omega, Nat.mod_eq_of_lt idx_lt] at last
  exact last

/-! ## The retire cycles -/

theorem exec_total (mins : List Nat) (s : Retiring) :
    ∃ final, (machine SZ W).exec mins s = some final := by
  induction mins generalizing s with
  | nil => exact ⟨s, rfl⟩
  | cons minRetireCycle rest ih => exact ih (s.markRetire SZ W minRetireCycle)

/-- A run records what it should exactly if no bundle is overfilled or left short: the bundle of
cycle 0 has one place less, and one that follows a full bundle has one more. -/
theorem retires_properly_iff (pos : 1 ≤ W) {mins : List Nat}
    (legal : (machine SZ W).LegalRun mins init) :
    ∃ final, (machine SZ W).exec mins init = some final ∧
      (Proper W final.done ↔ (machine SZ W).Along (Fits W) mins init) := by
  obtain ⟨final, run⟩ : ∃ final, (machine SZ W).exec mins init = some final := exec_total mins init
  exact ⟨final, run, (Inv.init pos).proper_iff pos legal run⟩

/-- Five instructions retire in the cycle after the full bundle of cycle 1. -/
theorem five_retire_after_bundle :
    ∃ final, (machine 128 4).exec (List.replicate 9 1) init = some final ∧
      inCycle final.done 2 = 5 ∧ ¬ Proper 4 final.done := by
  refine ⟨_, rfl, by decide, fun proper => ?_⟩
  exact absurd (proper.width 2) (by decide)

theorem retires_properly_iff_stalls :
    1 ≤ 4 ∧ (machine 128 4).LegalRun [3, 1, 7, 7] init ∧
      ∃ final, (machine 128 4).exec [3, 1, 7, 7] init = some final ∧
        (Proper 4 final.done ↔ (machine 128 4).Along (Fits 4) [3, 1, 7, 7] init) :=
  have legal : (machine 128 4).LegalRun [3, 1, 7, 7] init := by decide
  ⟨by decide, legal, retires_properly_iff (by decide) legal⟩

end Retiring

end Zsim.OOO
