import Mathlib.Data.List.Basic
import Mathlib.Order.MinMax
import Zsim.Lib.Machine
import Zsim.Lib.Word

/-!
# The tag port of a timing cache

`highPrioAccess` and `tryLowPrioAccess` of timing_cache.cpp.  The port remembers its last access
and one free slot before it.  0 stands for no free slot, and cycle 0 has no slot before it, so the
first cycles are not like the others.
-/

set_option autoImplicit false

namespace Zsim.TimingCache

structure TagPort where
  lastAccCycle : Nat
  lastFreeCycle : Nat
  deriving DecidableEq

namespace TagPort

def init : TagPort := ⟨0, 0⟩

def highPrioAccess (p : TagPort) (cycle : Nat) : Option (Nat × TagPort) :=
  if p.lastFreeCycle ≤ cycle then
    let lookupCycle := max cycle (u64 (p.lastAccCycle + 1))
    -- record last free run
    let lastFreeCycle :=
      if p.lastAccCycle < u64Sub cycle 1 then u64Sub cycle 1 else p.lastFreeCycle
    some (lookupCycle, ⟨lookupCycle, lastFreeCycle⟩)
  else none

/-- Grants the slot before `cycle`; the callers take 0 for a denial. -/
def tryLowPrioAccess (p : TagPort) (cycle : Nat) : Nat × TagPort :=
  if p.lastAccCycle < u64Sub cycle 1 ∨ p.lastFreeCycle = u64Sub cycle 1 then
    (cycle, ⟨max (u64Sub cycle 1) p.lastAccCycle, 0⟩)
  else (0, p)

end TagPort

inductive Access
  | high (cycle : Nat)
  | low (cycle : Nat)
  deriving DecidableEq

def Access.cycle : Access → Nat
  | .high cycle => cycle
  | .low cycle => cycle

/-- The port, what was asked of it and the slots that it has granted, the last ones first. -/
structure Usage where
  port : TagPort
  accesses : List Access
  slots : List Nat

namespace Usage

def init : Usage := ⟨TagPort.init, [], []⟩

def high (u : Usage) (cycle : Nat) : Option Usage :=
  (u.port.highPrioAccess cycle).map fun granted =>
    ⟨granted.2, .high cycle :: u.accesses, granted.1 :: u.slots⟩

def low (u : Usage) (cycle : Nat) : Usage where
  port := (u.port.tryLowPrioAccess cycle).2
  accesses := .low cycle :: u.accesses
  slots :=
    if (u.port.tryLowPrioAccess cycle).1 = 0 then u.slots else (cycle - 1) :: u.slots

def step (u : Usage) : Access → Option Usage
  | .high cycle => u.high cycle
  | .low cycle => some (u.low cycle)

def legal (u : Usage) (a : Access) : Prop :=
  a.cycle < 2 ^ 64 ∧ ∀ earlier ∈ u.accesses, earlier.cycle ≤ a.cycle

def machine : Machine Usage Access := ⟨legal, step⟩

instance decidableLegal (u : Usage) (a : Access) : Decidable (machine.legal u a) :=
  inferInstanceAs (Decidable (_ ∧ ∀ earlier ∈ u.accesses, _))

/-- A high-priority access is not granted too early, and a denied low-priority one does nothing. -/
def Honest (u : Usage) : Access → Prop
  | .high cycle => ∀ lookupCycle port,
      u.port.highPrioAccess cycle = some (lookupCycle, port) → cycle ≤ lookupCycle
  | .low cycle =>
    (u.port.tryLowPrioAccess cycle).1 = 0 → (u.port.tryLowPrioAccess cycle).2 = u.port

/-- No slot is granted twice, no assertion fails and every access is answered honestly. -/
def Exclusive (accesses : List Access) (u : Usage) : Prop :=
  (∃ final, machine.exec accesses u = some final ∧ final.slots.Nodup) ∧
    machine.Along Honest accesses u

/-- A high-priority access at cycle 0 has stored the wrapped cycle before it, and nothing has
replaced that. -/
def Wrapped (u : Usage) : Prop := .high 0 ∈ u.accesses ∧ ∀ a ∈ u.accesses, a.cycle < 3

instance decidableWrapped (u : Usage) : Decidable u.Wrapped :=
  inferInstanceAs (Decidable (_ ∧ ∀ a ∈ u.accesses, _))

def Regular (u : Usage) : Access → Prop
  | .high cycle => u.port.lastAccCycle + 1 < 2 ^ 64 ∧ (u.Wrapped → cycle + 1 = 2 ^ 64)
  | .low cycle => cycle ≠ 0 ∧ (cycle = 1 → .low 1 ∈ u.accesses → .high 0 ∈ u.accesses)

instance decidableRegular (u : Usage) : ∀ a, Decidable (u.Regular a)
  | .high _ => inferInstanceAs (Decidable (_ ∧ _))
  | .low _ => inferInstanceAs (Decidable (_ ∧ (_ → _)))

/-- What the two words say of the slots granted so far. -/
structure Inv (u : Usage) : Prop where
  nodup : u.slots.Nodup
  word : u.port.lastAccCycle < 2 ^ 64
  slot_le : ∀ slot ∈ u.slots, slot ≤ u.port.lastAccCycle
  /-- from the last access on, the slots up to the last one granted are all in use -/
  full : ∀ slot, (∀ a ∈ u.accesses, a.cycle ≤ slot) → 0 < slot → slot ≤ u.port.lastAccCycle →
    slot ∈ u.slots
  zero : 0 ∈ u.slots ↔ .low 1 ∈ u.accesses ∧ .high 0 ∉ u.accesses
  notZero : .low 0 ∉ u.accesses
  start : u.accesses = [] → u.port = TagPort.init
  wrapped : u.Wrapped → u.port = ⟨1, 2 ^ 64 - 1⟩
  free : ¬ u.Wrapped → u.port.lastFreeCycle = 0 ∨ u.port.lastFreeCycle ∉ u.slots ∧
    u.port.lastFreeCycle < u.port.lastAccCycle ∧ ∃ a ∈ u.accesses, u.port.lastFreeCycle < a.cycle

theorem Inv.init : Inv init where
  nodup := List.nodup_nil
  word := by decide
  slot_le := nofun
  full := by
    intro slot _ pos le
    exact absurd le (Nat.not_le_of_gt pos)
  zero := by simp [Usage.init]
  notZero := nofun
  start _ := rfl
  wrapped h := nomatch h.1
  free _ := Or.inl rfl

variable {u : Usage}

theorem Inv.atZero (inv : u.Inv) (early : ∀ a ∈ u.accesses, a.cycle ≤ 0) :
    u.accesses = [] ∨ u.Wrapped := by
  cases h : u.accesses with
  | nil => exact Or.inl rfl
  | cons a rest =>
      refine Or.inr ⟨?_, fun b member => Nat.lt_of_le_of_lt (early b member) (by decide)⟩
      have member : a ∈ u.accesses := by simp [h]
      have zero := Nat.le_zero.mp (early a member)
      cases a with
      | high cycle => exact zero ▸ member
      | low cycle => exact absurd (zero ▸ member) inv.notZero

theorem Inv.lastAccCycle_atZero (inv : u.Inv) (early : ∀ a ∈ u.accesses, a.cycle ≤ 0) :
    u.port.lastAccCycle ≤ 1 := by
  rcases inv.atZero early with empty | wrapped
  · rw [inv.start empty]
    exact Nat.zero_le 1
  · rw [inv.wrapped wrapped]

theorem Inv.lastFreeCycle_atOne (inv : u.Inv) (notWrapped : ¬ u.Wrapped)
    (early : ∀ a ∈ u.accesses, a.cycle ≤ 1) : u.port.lastFreeCycle = 0 := by
  rcases inv.free notWrapped with zero | ⟨-, -, a, member, lt⟩
  · exact zero
  · have le := early a member
    omega

theorem u64Sub_one {cycle : Nat} (pos : 0 < cycle) (lt : cycle < 2 ^ 64) :
    u64Sub cycle 1 = cycle - 1 :=
  u64Sub_of_le lt pos

/-! ## High-priority accesses -/

theorem Inv.highAtZero (inv : u.Inv) (legal : machine.legal u (.high 0))
    (notWrapped : ¬ u.Wrapped) : ∃ next, step u (.high 0) = some next ∧ next.Inv := by
  have empty := (inv.atZero legal.2).resolve_right notWrapped
  have port := inv.start empty
  have unused : ∀ slot, slot ∉ u.slots := by
    intro slot member
    have le := inv.slot_le slot member
    rw [port] at le
    cases Nat.le_zero.mp le
    simpa [empty] using inv.zero.mp member
  refine ⟨⟨⟨1, 2 ^ 64 - 1⟩, .high 0 :: u.accesses, 1 :: u.slots⟩, ?_, ?_⟩
  · have granted : TagPort.init.highPrioAccess 0 = some (1, ⟨1, 2 ^ 64 - 1⟩) := by decide
    simp only [step, high, port, granted, Option.map_some]
  · have wrapped : Wrapped ⟨⟨1, 2 ^ 64 - 1⟩, .high 0 :: u.accesses, 1 :: u.slots⟩ := by
      refine ⟨List.mem_cons_self, fun a member => ?_⟩
      rw [empty] at member
      cases List.mem_singleton.mp member
      decide
    exact {
      nodup := List.nodup_cons.mpr ⟨unused 1, inv.nodup⟩
      word := Nat.one_lt_two_pow (by decide)
      slot_le := by
        intro slot member
        rcases List.mem_cons.mp member with rfl | member
        · exact Nat.le_refl 1
        · exact absurd member (unused slot)
      full := by
        intro slot _ pos le
        rw [show slot = 1 from Nat.le_antisymm le pos]
        exact List.mem_cons_self
      zero := by simp [unused, empty]
      notZero := by simp [empty]
      start := fun empty => absurd empty (List.cons_ne_nil _ _)
      wrapped := fun _ => rfl
      free := fun other => absurd wrapped other }

def afterHigh (u : Usage) (cycle : Nat) : Usage where
  port.lastAccCycle := max cycle (u.port.lastAccCycle + 1)
  port.lastFreeCycle :=
    if u.port.lastAccCycle < cycle - 1 then cycle - 1 else u.port.lastFreeCycle
  accesses := .high cycle :: u.accesses
  slots := max cycle (u.port.lastAccCycle + 1) :: u.slots

theorem Inv.highAfterZero (inv : u.Inv) {cycle : Nat} (pos : 0 < cycle)
    (legal : machine.legal u (.high cycle)) (regular : u.Regular (.high cycle)) :
    ∃ next, step u (.high cycle) = some next ∧ next.Inv := by
  obtain ⟨fits, only⟩ : u.port.lastAccCycle + 1 < 2 ^ 64 ∧ (u.Wrapped → cycle + 1 = 2 ^ 64) := regular
  obtain ⟨lt, later⟩ : cycle < 2 ^ 64 ∧ ∀ earlier ∈ u.accesses, earlier.cycle ≤ cycle := legal
  have passes : u.port.lastFreeCycle ≤ cycle := by
    by_cases wrapped : u.Wrapped
    · rw [inv.wrapped wrapped]
      have last := only wrapped
      show 2 ^ 64 - 1 ≤ cycle
      omega
    · rcases inv.free wrapped with zero | ⟨-, -, a, member, before⟩
      · omega
      · have le := later a member
        omega
  -- once the last cycle is used, the wrapped cycle is gone
  have notWrapped : ¬ (u.afterHigh cycle).Wrapped := by
    rintro ⟨member, small⟩
    have here : cycle < 3 := small _ List.mem_cons_self
    have zero : Access.high 0 ∈ u.accesses := by
      rcases List.mem_cons.mp member with same | member
      · cases same
        exact absurd pos (Nat.lt_irrefl 0)
      · exact member
    have last := only ⟨zero, fun a member => small a (List.mem_cons_of_mem _ member)⟩
    omega
  refine ⟨u.afterHigh cycle, ?_, ?_⟩
  · simp only [step, high, TagPort.highPrioAccess, if_pos passes, u64Sub_one pos lt, u64_of_lt fits,
      Option.map_some, afterHigh]
  · exact {
      nodup := by
        refine List.nodup_cons.mpr ⟨fun member => ?_, inv.nodup⟩
        have le := inv.slot_le _ member
        omega
      word := Nat.max_lt.mpr ⟨lt, fits⟩
      slot_le := by
        intro slot member
        rcases List.mem_cons.mp member with rfl | member
        · exact Nat.le_refl _
        · exact Nat.le_trans (inv.slot_le slot member) (le_max_of_le_right (Nat.le_succ _))
      full := by
        intro slot after slotPos le
        have here : cycle ≤ slot := after _ List.mem_cons_self
        have le : slot ≤ max cycle (u.port.lastAccCycle + 1) := le
        by_cases used : slot ≤ u.port.lastAccCycle
        · apply List.mem_cons_of_mem
          exact inv.full slot (fun a member => after a (List.mem_cons_of_mem _ member)) slotPos used
        · rw [show slot = max cycle (u.port.lastAccCycle + 1) by omega]
          exact List.mem_cons_self
      zero := by
        have other : 0 ≠ max cycle (u.port.lastAccCycle + 1) := by omega
        have notHere : 0 ≠ cycle := Nat.ne_of_lt pos
        simp [afterHigh, other, notHere, inv.zero]
      notZero := by simp [afterHigh, inv.notZero]
      start := fun empty => absurd empty (List.cons_ne_nil _ _)
      wrapped := fun wrapped => absurd wrapped notWrapped
      free := by
        intro _
        by_cases gap : u.port.lastAccCycle < cycle - 1
        · have free : (u.afterHigh cycle).port.lastFreeCycle = cycle - 1 := if_pos gap
          rw [free]
          refine Or.inr ⟨fun member => ?_, ?_, .high cycle, List.mem_cons_self, ?_⟩
          · rcases List.mem_cons.mp member with same | member
            · omega
            · have le := inv.slot_le _ member
              omega
          · exact lt_max_of_lt_left (by omega)
          · exact Nat.sub_lt pos Nat.one_pos
        · have free : (u.afterHigh cycle).port.lastFreeCycle = u.port.lastFreeCycle := if_neg gap
          rw [free]
          have before : ¬ u.Wrapped := by
            intro wrapped
            have last := only wrapped
            have one : u.port.lastAccCycle = 1 := by rw [inv.wrapped wrapped]
            omega
          rcases inv.free before with zero | ⟨unused, below, a, member, lt⟩
          · exact Or.inl zero
          · refine Or.inr ⟨fun inSlots => ?_, ?_, a, List.mem_cons_of_mem _ member, lt⟩
            · rcases List.mem_cons.mp inSlots with same | inSlots
              · omega
              · exact unused inSlots
            · exact lt_max_of_lt_right (Nat.lt_succ_of_lt below) }

theorem Inv.high (inv : u.Inv) {cycle : Nat} (legal : machine.legal u (.high cycle))
    (regular : u.Regular (.high cycle)) : ∃ next, step u (.high cycle) = some next ∧ next.Inv := by
  rcases Nat.eq_zero_or_pos cycle with rfl | pos
  · apply inv.highAtZero legal
    intro wrapped
    have last := regular.2 wrapped
    omega
  · exact inv.highAfterZero pos legal regular

theorem highPrioAccess_honest (p : TagPort) (cycle : Nat) {granted : Nat × TagPort}
    (access : p.highPrioAccess cycle = some granted) : cycle ≤ granted.1 := by
  unfold TagPort.highPrioAccess at access
  split at access
  · cases access
    exact Nat.le_max_left _ _
  · cases access

/-! ## Low-priority accesses -/

/-- The slot before `cycle` is known to be free. -/
def Free (u : Usage) (cycle : Nat) : Prop :=
  u.port.lastAccCycle < cycle - 1 ∨ u.port.lastFreeCycle = cycle - 1

theorem low_of_free {cycle : Nat} (pos : 0 < cycle) (lt : cycle < 2 ^ 64) (isFree : u.Free cycle) :
    u.low cycle = ⟨⟨max (cycle - 1) u.port.lastAccCycle, 0⟩, .low cycle :: u.accesses,
      (cycle - 1) :: u.slots⟩ := by
  have granted : u.port.tryLowPrioAccess cycle = (cycle, ⟨max (cycle - 1) u.port.lastAccCycle, 0⟩) := by
    rw [TagPort.tryLowPrioAccess, u64Sub_one pos lt]
    exact if_pos isFree
  simp only [low, granted, if_neg (Nat.ne_of_gt pos)]

theorem tryLowPrioAccess_denied {cycle : Nat} (pos : 0 < cycle) (lt : cycle < 2 ^ 64)
    (used : ¬ u.Free cycle) : u.port.tryLowPrioAccess cycle = (0, u.port) := by
  rw [Free, ← u64Sub_one pos lt] at used
  rw [TagPort.tryLowPrioAccess, if_neg used]

theorem Inv.notMem_of_free (inv : u.Inv) {cycle : Nat} (isFree : u.Free cycle)
    (later : 1 < cycle) : cycle - 1 ∉ u.slots := by
  intro member
  have le := inv.slot_le _ member
  rcases isFree with above | remembered
  · omega
  · by_cases wrapped : u.Wrapped
    · rw [inv.wrapped wrapped] at le remembered
      change cycle - 1 ≤ 1 at le
      change 2 ^ 64 - 1 = cycle - 1 at remembered
      omega
    · rcases inv.free wrapped with zero | ⟨unused, -⟩
      · omega
      · exact unused (remembered ▸ member)

/-- The slot before cycle 1 is taken for free unless a wrapped cycle is remembered. -/
theorem Inv.free_one_iff (inv : u.Inv) (early : ∀ a ∈ u.accesses, a.cycle ≤ 1) :
    u.Free 1 ↔ .high 0 ∉ u.accesses := by
  have same : u.Wrapped ↔ .high 0 ∈ u.accesses :=
    ⟨fun wrapped => wrapped.1,
      fun member => ⟨member, fun a m => Nat.lt_of_le_of_lt (early a m) (by decide)⟩⟩
  rw [← same]
  constructor
  · intro isFree wrapped
    rw [Free, inv.wrapped wrapped] at isFree
    rcases isFree with above | remembered
    · exact absurd above (by decide)
    · exact absurd remembered (by decide)
  · intro notWrapped
    exact Or.inr (inv.lastFreeCycle_atOne notWrapped early)

theorem Inv.low_granted (inv : u.Inv) {cycle : Nat} (legal : machine.legal u (.low cycle))
    (regular : u.Regular (.low cycle)) (isFree : u.Free cycle) : (u.low cycle).Inv := by
  obtain ⟨notZero, once⟩ :
      cycle ≠ 0 ∧ (cycle = 1 → Access.low 1 ∈ u.accesses → Access.high 0 ∈ u.accesses) := regular
  obtain ⟨lt, later⟩ : cycle < 2 ^ 64 ∧ ∀ earlier ∈ u.accesses, earlier.cycle ≤ cycle := legal
  have pos := Nat.pos_of_ne_zero notZero
  have one : cycle = 1 → .high 0 ∉ u.accesses := by
    rintro rfl
    exact (inv.free_one_iff later).mp isFree
  have fresh : cycle - 1 ∉ u.slots := by
    by_cases first : cycle = 1
    · have before := one first
      subst first
      rw [inv.zero]
      exact fun both => before (once rfl both.1)
    · exact inv.notMem_of_free isFree (by omega)
  rw [low_of_free pos lt isFree]
  exact {
    nodup := List.nodup_cons.mpr ⟨fresh, inv.nodup⟩
    word := Nat.max_lt.mpr ⟨by omega, inv.word⟩
    slot_le := by
      intro slot member
      rcases List.mem_cons.mp member with rfl | member
      · exact Nat.le_max_left _ _
      · exact Nat.le_trans (inv.slot_le slot member) (Nat.le_max_right _ _)
    full := by
      intro slot after slotPos le
      have here : cycle ≤ slot := after _ List.mem_cons_self
      have le : slot ≤ max (cycle - 1) u.port.lastAccCycle := le
      apply List.mem_cons_of_mem
      exact inv.full slot (fun a member => after a (List.mem_cons_of_mem _ member)) slotPos
        (by omega)
    zero := by
      by_cases first : cycle = 1
      · simp [first, one first]
      · have other : 0 ≠ cycle - 1 := by omega
        simp [other, Ne.symm first, inv.zero]
    notZero := by simp [inv.notZero, Ne.symm notZero]
    start := fun empty => absurd empty (List.cons_ne_nil _ _)
    wrapped := by
      rintro ⟨member, small⟩
      have here : cycle < 3 := small _ List.mem_cons_self
      have wrapped : u.Wrapped :=
        ⟨by simpa using member, fun a member => small a (List.mem_cons_of_mem _ member)⟩
      rw [Free, inv.wrapped wrapped] at isFree
      change 1 < cycle - 1 ∨ 2 ^ 64 - 1 = cycle - 1 at isFree
      omega
    free := fun _ => Or.inl rfl }

theorem Inv.low_denied (inv : u.Inv) {cycle : Nat} (legal : machine.legal u (.low cycle))
    (notZero : cycle ≠ 0) (used : ¬ u.Free cycle) : (u.low cycle).Inv := by
  obtain ⟨lt, later⟩ : cycle < 2 ^ 64 ∧ ∀ earlier ∈ u.accesses, earlier.cycle ≤ cycle := legal
  have pos := Nat.pos_of_ne_zero notZero
  have first : cycle = 1 → .high 0 ∈ u.accesses := by
    rintro rfl
    rw [inv.free_one_iff later] at used
    exact not_not.mp used
  have same : u.low cycle = ⟨u.port, .low cycle :: u.accesses, u.slots⟩ := by
    simp only [low, tryLowPrioAccess_denied pos lt used, if_true]
  have wrapped_of : Wrapped ⟨u.port, .low cycle :: u.accesses, u.slots⟩ → u.Wrapped :=
    fun wrapped => ⟨by simpa using wrapped.1, fun a member => wrapped.2 a (List.mem_cons_of_mem _ member)⟩
  rw [same]
  exact {
    nodup := inv.nodup
    word := inv.word
    slot_le := inv.slot_le
    full := fun slot after =>
      inv.full slot fun a member => after a (List.mem_cons_of_mem _ member)
    zero := by
      by_cases isFirst : cycle = 1
      · simp [inv.zero, first isFirst]
      · simp [inv.zero, Ne.symm isFirst]
    notZero := by simp [inv.notZero, Ne.symm notZero]
    start := fun empty => absurd empty (List.cons_ne_nil _ _)
    wrapped := fun wrapped => inv.wrapped (wrapped_of wrapped)
    free := by
      intro other
      have before : ¬ u.Wrapped := by
        intro wrapped
        apply other
        refine ⟨List.mem_cons_of_mem _ wrapped.1, fun a member => ?_⟩
        rcases List.mem_cons.mp member with rfl | member
        · rw [Free, inv.wrapped wrapped] at used
          change ¬ (1 < cycle - 1 ∨ 2 ^ 64 - 1 = cycle - 1) at used
          show cycle < 3
          omega
        · exact wrapped.2 a member
      rcases inv.free before with zero | ⟨unused, below, a, member, lt⟩
      · exact Or.inl zero
      · exact Or.inr ⟨unused, below, a, List.mem_cons_of_mem _ member, lt⟩ }

/-! ## Runs -/

theorem Inv.step (inv : u.Inv) {a : Access} (legal : machine.legal u a) (regular : u.Regular a) :
    ∃ next, step u a = some next ∧ next.Inv ∧ u.Honest a := by
  cases a with
  | high cycle =>
      obtain ⟨next, step, kept⟩ := inv.high legal regular
      exact ⟨next, step, kept, fun _ _ access => highPrioAccess_honest _ _ access⟩
  | low cycle =>
      have pos := Nat.pos_of_ne_zero regular.1
      by_cases isFree : u.Free cycle
      · refine ⟨_, rfl, inv.low_granted legal regular isFree, fun denied => ?_⟩
        rw [Free, ← u64Sub_one pos legal.1] at isFree
        rw [TagPort.tryLowPrioAccess, if_pos isFree] at denied
        exact absurd denied regular.1
      · refine ⟨_, rfl, inv.low_denied legal regular.1 isFree, fun _ => ?_⟩
        rw [tryLowPrioAccess_denied pos legal.1 isFree]

/-- A high-priority access that wraps the last cycle is given a slot that is in use. -/
theorem Inv.irregular_high (inv : u.Inv) {cycle : Nat} (legal : machine.legal u (.high cycle))
    (irregular : ¬ u.Regular (.high cycle)) {next : Usage} (step : u.high cycle = some next) :
    ¬ next.slots.Nodup := by
  obtain ⟨lt, later⟩ : cycle < 2 ^ 64 ∧ ∀ earlier ∈ u.accesses, earlier.cycle ≤ cycle := legal
  have word := inv.word
  obtain ⟨granted, access, rfl⟩ := Option.map_eq_some_iff.mp step
  unfold TagPort.highPrioAccess at access
  split at access
  next passes =>
    cases access
    have notWrapped : u.Wrapped → cycle + 1 = 2 ^ 64 := by
      intro wrapped
      rw [inv.wrapped wrapped] at passes
      change 2 ^ 64 - 1 ≤ cycle at passes
      omega
    have last : u.port.lastAccCycle + 1 = 2 ^ 64 := by
      by_contra fits
      exact irregular ⟨by omega, notWrapped⟩
    have pos : 0 < cycle := by
      by_contra zero
      have one := inv.lastAccCycle_atZero fun a member => Nat.le_trans (later a member) (by omega)
      omega
    have again : max cycle (u64 (u.port.lastAccCycle + 1)) = cycle := by
      rw [last]
      exact Nat.max_zero cycle
    have used := inv.full cycle later pos (by omega)
    show ¬ (max cycle (u64 (u.port.lastAccCycle + 1)) :: u.slots).Nodup
    rw [again]
    exact fun nodup => (List.nodup_cons.mp nodup).1 used
  next => cases access

theorem Inv.irregular_low (inv : u.Inv) {cycle : Nat} (legal : machine.legal u (.low cycle))
    (irregular : ¬ u.Regular (.low cycle)) (honest : u.Honest (.low cycle)) :
    ¬ (u.low cycle).slots.Nodup := by
  obtain ⟨lt, later⟩ : cycle < 2 ^ 64 ∧ ∀ earlier ∈ u.accesses, earlier.cycle ≤ cycle := legal
  rcases Nat.eq_zero_or_pos cycle with rfl | pos
  · -- at cycle 0 a grant looks like a denial
    have one := inv.lastAccCycle_atZero later
    have gap : u.port.lastAccCycle < u64Sub 0 1 := Nat.lt_of_le_of_lt one (by decide)
    have granted : u.port.tryLowPrioAccess 0 = (0, ⟨max (u64Sub 0 1) u.port.lastAccCycle, 0⟩) :=
      if_pos (Or.inl gap)
    have unchanged : (u.port.tryLowPrioAccess 0).1 = 0 → (u.port.tryLowPrioAccess 0).2 = u.port :=
      honest
    rw [granted] at unchanged
    have same := congrArg TagPort.lastAccCycle (unchanged rfl)
    change max (u64Sub 0 1) u.port.lastAccCycle = u.port.lastAccCycle at same
    omega
  · have twice : cycle = 1 ∧ Access.low 1 ∈ u.accesses ∧ Access.high 0 ∉ u.accesses := by
      by_contra other
      refine irregular ⟨Nat.ne_of_gt pos, fun first before => ?_⟩
      by_contra notHigh
      exact other ⟨first, before, notHigh⟩
    obtain ⟨rfl, before⟩ := twice
    have isFree := (inv.free_one_iff later).mpr before.2
    rw [low_of_free pos lt isFree]
    exact fun nodup => (List.nodup_cons.mp nodup).1 (inv.zero.mpr before)

theorem Inv.irregular (inv : u.Inv) {a : Access} (legal : machine.legal u a)
    (irregular : ¬ u.Regular a) {next : Usage} (step : Usage.step u a = some next)
    (honest : u.Honest a) : ¬ next.slots.Nodup := by
  cases a with
  | high cycle => exact inv.irregular_high legal irregular step
  | low cycle =>
      have same : u.low cycle = next := Option.some.inj step
      subst same
      exact inv.irregular_low legal irregular honest

theorem slots_suffix_step {a : Access} {next : Usage} (step : Usage.step u a = some next) :
    u.slots <:+ next.slots := by
  cases a with
  | high cycle =>
      obtain ⟨granted, -, rfl⟩ := Option.map_eq_some_iff.mp step
      exact List.suffix_cons _ _
  | low cycle =>
      have same : u.low cycle = next := Option.some.inj step
      subst same
      unfold low
      dsimp only
      split
      · exact List.suffix_refl _
      · exact List.suffix_cons _ _

theorem slots_suffix {accesses : List Access} {final : Usage}
    (run : machine.exec accesses u = some final) : u.slots <:+ final.slots := by
  induction accesses generalizing u with
  | nil =>
      cases Option.some.inj run
      exact List.suffix_refl _
  | cons a rest ih =>
      obtain ⟨next, step, run⟩ := Option.bind_eq_some_iff.mp run
      exact (slots_suffix_step step).trans (ih run)

theorem Inv.exclusive_iff (inv : u.Inv) {accesses : List Access}
    (legal : machine.LegalRun accesses u) :
    Exclusive accesses u ↔ machine.Along Regular accesses u := by
  induction accesses generalizing u with
  | nil => exact ⟨fun _ => trivial, fun _ => ⟨⟨u, rfl, inv.nodup⟩, trivial⟩⟩
  | cons a rest ih =>
      by_cases regular : u.Regular a
      · obtain ⟨next, step, kept, honest⟩ := inv.step legal.1 regular
        have later := ih kept (legal.2 next step)
        have only : ∀ other, machine.step u a = some other → other = next := fun other stepped =>
          Option.some.inj (stepped.symm.trans step)
        have same : machine.exec (a :: rest) u = machine.exec rest next := by
          rw [Machine.exec_cons, show machine.step u a = some next from step, Option.bind_some]
        constructor
        · rintro ⟨unique, honest, others⟩
          rw [same] at unique
          refine ⟨regular, fun other stepped => ?_⟩
          rw [only other stepped]
          exact later.mp ⟨unique, others next step⟩
        · rintro ⟨-, others⟩
          obtain ⟨unique, along⟩ := later.mpr (others next step)
          refine ⟨by rw [same]; exact unique, honest, fun other stepped => ?_⟩
          rw [only other stepped]
          exact along
      · refine ⟨fun exclusive => ?_, fun along => absurd along.1 regular⟩
        obtain ⟨⟨final, run, nodup⟩, honest, -⟩ := exclusive
        obtain ⟨next, step, run⟩ := Option.bind_eq_some_iff.mp run
        exact absurd (nodup.sublist (slots_suffix run).sublist)
          (inv.irregular legal.1 regular step honest)

/-- The port is sound exactly in the runs in which no low-priority access is tried at cycle 0 and
at most one at cycle 1, or any number if a high-priority access at cycle 0 came before them, no
high-priority access follows one at cycle 0 before cycle 3, and none follows the last cycle. -/
theorem exclusive_iff_regular {accesses : List Access} (legal : machine.LegalRun accesses init) :
    Exclusive accesses init ↔ machine.Along Regular accesses init :=
  Inv.init.exclusive_iff legal

/-- Slot 0 is granted twice, and the wrapped cycle makes the assertion fail. -/
theorem exclusive_fails :
    (machine.LegalRun [.low 1, .low 1] init ∧ ¬ Exclusive [.low 1, .low 1] init ∧
      (machine.exec [.low 1, .low 1] init).map slots = some [0, 0]) ∧
    machine.LegalRun [.high 0, .high 0] init ∧ ¬ Exclusive [.high 0, .high 0] init ∧
      machine.exec [.high 0, .high 0] init = none := by
  refine ⟨⟨by decide, ?_, by decide⟩, by decide, ?_, by decide⟩
  · rintro ⟨⟨final, run, nodup⟩, -⟩
    have slots : some final.slots = some [0, 0] := by
      rw [← Option.map_some, ← run]
      decide
    rw [Option.some.inj slots] at nodup
    exact absurd nodup (by decide)
  · rintro ⟨⟨final, run, -⟩, -⟩
    have none : machine.exec [.high 0, .high 0] init = none := by decide
    rw [none] at run
    cases run

/-- A high-priority access that waits for its slot, and low-priority ones that take free slots. -/
theorem exclusive_iff_regular_mixed :
    machine.LegalRun [.high 5, .low 5, .low 5, .high 5] init ∧
      (Exclusive [.high 5, .low 5, .low 5, .high 5] init ↔
        machine.Along Regular [.high 5, .low 5, .low 5, .high 5] init) :=
  have legal : machine.LegalRun [.high 5, .low 5, .low 5, .high 5] init := by decide
  ⟨legal, exclusive_iff_regular legal⟩

end Usage

end Zsim.TimingCache
