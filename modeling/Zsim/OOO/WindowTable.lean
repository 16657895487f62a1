import Mathlib.Data.List.Count
import Zsim.Lib.Reservations
import Zsim.OOO.Window

/-!
# What the window stands for

One unbounded table of the eight ports, in which every uop gets the first cycle it can have.
`pos` is the position of the current cycle in its array; the calls do not depend on it.
-/

set_option autoImplicit false

namespace Zsim.OOO

/-- A uop: when it was scheduled, for what, in which table, and the cycle it was given. -/
structure Grant where
  now : Nat
  asked : Nat
  portMask : BitVec 8
  before : Reservations 8
  cycle : Nat

/-- The first cycle, not before the one asked for and the current one, with a port of the mask. -/
def Grant.Earliest (g : Grant) : Prop :=
  IsLeast {c | g.asked ≤ c ∧ g.now ≤ c ∧ g.before.free g.portMask c ≠ 0} g.cycle

structure Table where
  now : Nat
  pos : Nat
  res : Reservations 8
  grants : List Grant
  slots : List (Nat × Nat)

namespace Table

variable (H WSZ : Nat)

def init : Table := ⟨0, 0, .empty, [], []⟩

/-- The uops that are scheduled for `c` or later. -/
def waiting (t : Table) (c : Nat) : Nat := t.grants.countP fun g => c ≤ g.cycle

def advance (t : Table) (cycles : Nat) : Table :=
  { t with now := t.now + cycles, pos := (t.pos + cycles) % H }

/-- Up to the first cycle that is not busy; at the bound of the table no uop waits. -/
def advanceWhile (busy : Nat → Nat → Prop) [∀ occupancy cycle, Decidable (busy occupancy cycle)]
    (t : Table) : Table :=
  t.advance H (search (fun i => ¬ busy (t.waiting (t.now + i)) (t.now + i)) (t.res.bound - t.now) 0)

def earliest (t : Table) (portMask : BitVec 8) (asked : Nat) : Nat :=
  t.res.earliest portMask (max t.now asked)

/-- The port that is taken at the earliest cycle. -/
def port (t : Table) (portMask : BitVec 8) (asked : Nat) : Nat :=
  lowest (t.res.free portMask (t.earliest portMask asked))

def uop (t : Table) (portMask : BitVec 8) (asked : Nat) : Table :=
  { t with
    res := t.res.reserve (1#8 <<< t.port portMask asked) (t.earliest portMask asked)
    grants := ⟨t.now, asked, portMask, t.res, t.earliest portMask asked⟩ :: t.grants
    slots := (t.earliest portMask asked, t.port portMask asked) :: t.slots }

/-- All ports of the mask are taken at the earliest cycle, for no uop. -/
def shadow (t : Table) (portMask : BitVec 8) (asked : Nat) : Table :=
  { t with res := t.res.reserve portMask (t.earliest portMask asked) }

def extraSlot (t : Table) (portMask : BitVec 8) (asked : Nat) : Table :=
  { t.shadow portMask asked with
    slots := (t.earliest portMask asked, t.port portMask asked) :: t.slots }

def extra (portMask : BitVec 8) : Nat → Nat → Table → Table
  | 0, _, t => t
  | left + 1, asked, t =>
    extra portMask left (t.earliest portMask asked + 1) (t.extraSlot portMask asked)

/-- The table when there is room for another uop. -/
def stalled (t : Table) : Table := t.advanceWhile H fun occupancy _ => occupancy = WSZ

def schedule (t : Table) (asked : Nat) (portMask : BitVec 8) (extraSlots : Nat) : Table :=
  let t := t.stalled H WSZ
  extra (1#8 <<< t.port portMask asked) extraSlots (t.earliest portMask asked + 1) (t.uop portMask asked)

/-- The table when all uops have been passed, or the target is reached. -/
def drained (t : Table) (targetCycle : Nat) : Table :=
  t.advanceWhile H fun occupancy cycle => occupancy ≠ 0 ∧ cycle < targetCycle

def longAdvance (t : Table) (targetCycle : Nat) : Table :=
  { t.drained H targetCycle with now := targetCycle }

/-- Cycle after cycle up to the target, and the first one that is free from there on. -/
def poisonFrom (targetCycle : Nat) (portMask : BitVec 8) : Nat → Nat → Table → Table
  | 0, _, t => t
  | left + 1, asked, t =>
    if asked < targetCycle then
      poisonFrom targetCycle portMask left (t.earliest portMask asked) (t.shadow portMask asked)
    else t

def poisonRange (t : Table) (targetCycle : Nat) (portMask : BitVec 8) : Table :=
  poisonFrom targetCycle portMask (targetCycle - t.now + 1) t.now t

def call (t : Table) : WindowCall → Table
  | .schedule schedCycle portMask extraSlots => t.schedule H WSZ schedCycle portMask extraSlots
  | .advancePos => t.advance H 1
  | .longAdvance targetCycle => t.longAdvance H targetCycle
  | .poisonRange targetCycle portMask => t.poisonRange targetCycle portMask

def machine : Machine Table WindowCall where
  legal t call := call.Legal t.now
  step t call := some (t.call H WSZ call)

instance decidableLegal (t : Table) (call : WindowCall) :
    Decidable ((machine H WSZ).legal t call) :=
  inferInstanceAs (Decidable (call.Legal t.now))

/-! ## When the window follows -/

/-- The position that is asked for is a `uint32_t`. -/
def Short (t : Table) (asked : Nat) : Prop := t.pos + (asked - t.now) < 2 ^ 32

instance decidableShort (t : Table) (asked : Nat) : Decidable (t.Short asked) :=
  inferInstanceAs (Decidable (_ < _))

def ExtraShort (portMask : BitVec 8) : Nat → Nat → Table → Prop
  | 0, _, _ => True
  | left + 1, asked, t =>
    t.Short asked ∧
      ExtraShort portMask left (t.earliest portMask asked + 1) (t.extraSlot portMask asked)

instance decidableExtraShort (portMask : BitVec 8) :
    ∀ left asked t, Decidable (ExtraShort portMask left asked t)
  | 0, _, _ => .isTrue trivial
  | left + 1, asked, t =>
    have := decidableExtraShort portMask left (t.earliest portMask asked + 1)
      (t.extraSlot portMask asked)
    inferInstanceAs (Decidable (_ ∧ _))

def PoisonShort (targetCycle : Nat) (portMask : BitVec 8) : Nat → Nat → Table → Prop
  | 0, _, _ => True
  | left + 1, asked, t =>
    asked < targetCycle → t.Short asked ∧
      PoisonShort targetCycle portMask left (t.earliest portMask asked) (t.shadow portMask asked)

instance decidablePoisonShort (targetCycle : Nat) (portMask : BitVec 8) :
    ∀ left asked t, Decidable (PoisonShort targetCycle portMask left asked t)
  | 0, _, _ => .isTrue trivial
  | left + 1, asked, t =>
    have := decidablePoisonShort targetCycle portMask left (t.earliest portMask asked)
      (t.shadow portMask asked)
    inferInstanceAs (Decidable (_ → _))

/-- Nothing is reserved from the current cycle up to the end of the arrays after the jump. -/
def Jumps (t : Table) (targetCycle : Nat) : Prop :=
  t.now < targetCycle → ∀ c, c < targetCycle + 2 * H - t.pos → t.now ≤ c → t.res.taken c = 0

instance decidableJumps (t : Table) (targetCycle : Nat) : Decidable (t.Jumps H targetCycle) :=
  inferInstanceAs (Decidable (_ → _))

/-- Positions are not truncated, and the clock jumps over nothing. -/
def Fits (t : Table) : WindowCall → Prop
  | .schedule schedCycle portMask extraSlots =>
    let t := t.stalled H WSZ
    t.Short schedCycle ∧ ExtraShort (1#8 <<< t.port portMask schedCycle) extraSlots
      (t.earliest portMask schedCycle + 1) (t.uop portMask schedCycle)
  | .advancePos => True
  | .longAdvance targetCycle => (t.drained H targetCycle).Jumps H targetCycle
  | .poisonRange targetCycle portMask =>
    PoisonShort targetCycle portMask (targetCycle - t.now + 1) t.now t

instance decidableFits (t : Table) : ∀ call, Decidable (t.Fits H WSZ call)
  | .schedule _ _ _ => inferInstanceAs (Decidable (_ ∧ _))
  | .advancePos => .isTrue trivial
  | .longAdvance _ => inferInstanceAs (Decidable (Jumps _ _ _))
  | .poisonRange _ _ => inferInstanceAs (Decidable (PoisonShort _ _ _ _ _))

/-- No cycle of the call comes within two windows of the last one that is a `uint64_t`. -/
def Words (t : Table) (call : WindowCall) : Prop :=
  (t.call H WSZ call).now + 2 * H < 2 ^ 64 ∧ (t.call H WSZ call).res.bound < 2 ^ 64

instance decidableWords (t : Table) (call : WindowCall) : Decidable (t.Words H WSZ call) :=
  inferInstanceAs (Decidable (_ ∧ _))

/-! ## Times and uops -/

section
variable {H WSZ} {t : Table} {portMask : BitVec 8} {asked c d : Nat}

/-- The uops that are scheduled for `c`. -/
def scheduled (t : Table) (c : Nat) : Nat := t.grants.countP fun g => g.cycle = c

theorem waiting_eq (t : Table) (c : Nat) : t.waiting c = t.scheduled c + t.waiting (c + 1) := by
  unfold waiting scheduled
  induction t.grants with
  | nil => rfl
  | cons g rest ih =>
      simp only [List.countP_cons, decide_eq_true_eq]
      by_cases here : g.cycle = c
      · have notAfter : ¬ c + 1 ≤ c := by omega
        simp [here, notAfter, ih]
        omega
      · by_cases later : c ≤ g.cycle
        · have after : c + 1 ≤ g.cycle := by omega
          simp [here, later, after, ih]
          omega
        · have before : ¬ c + 1 ≤ g.cycle := by omega
          simp [here, later, before, ih]

theorem waiting_le (le : c ≤ d) : t.waiting d ≤ t.waiting c :=
  List.countP_mono_left fun _ _ later => decide_eq_true (Nat.le_trans le (of_decide_eq_true later))

theorem scheduled_eq_zero (none : t.waiting c = 0) (later : c ≤ d) : t.scheduled d = 0 := by
  have split := t.waiting_eq d
  have atMost := waiting_le (t := t) later
  omega

theorem le_earliest : max t.now asked ≤ t.earliest portMask asked := Reservations.le_earliest

theorem waiting_uop : (t.uop portMask asked).waiting t.now = t.waiting t.now + 1 := by
  apply List.countP_cons_of_pos
  exact decide_eq_true (Nat.le_trans (Nat.le_max_left _ _) le_earliest)

section
variable (t asked)

theorem isLeast_earliest (some : portMask ≠ 0) :
    IsLeast {c | max t.now asked ≤ c ∧ t.res.free portMask c ≠ 0} (t.earliest portMask asked) :=
  Reservations.isLeast_earliest some

theorem getLsbD_port (some : portMask ≠ 0) :
    (t.res.free portMask (t.earliest portMask asked)).getLsbD (t.port portMask asked) = true :=
  getLsbD_lowest (isLeast_earliest t asked some).1.2

theorem port_lt (some : portMask ≠ 0) : t.port portMask asked < 8 :=
  lowest_lt (isLeast_earliest t asked some).1.2

theorem portBit_ne_zero (some : portMask ≠ 0) : 1#8 <<< t.port portMask asked ≠ 0 := by
  have lt := port_lt t asked some
  intro zero
  have isSet : (1#8 <<< t.port portMask asked).getLsbD (t.port portMask asked) = true := by
    simp [lt]
  rw [zero] at isSet
  simp at isSet

end

/-- How many rounds an advance takes, and what was found on the way. -/
theorem advanceWhile_spec {busy : Nat → Nat → Prop}
    [∀ occupancy cycle, Decidable (busy occupancy cycle)]
    (stops : ∀ c, t.res.bound ≤ c → ¬ busy (t.waiting c) c) :
    ∃ cycles, t.advanceWhile H busy = t.advance H cycles ∧ cycles ≤ t.res.bound - t.now ∧
      (∀ i, i < cycles → busy (t.waiting (t.now + i)) (t.now + i)) ∧
      ¬ busy (t.waiting (t.now + cycles)) (t.now + cycles) := by
  have least := isLeast_search (p := fun i => ¬ busy (t.waiting (t.now + i)) (t.now + i))
    (Nat.zero_le (t.res.bound - t.now)) (Nat.le_of_eq (Nat.zero_add _).symm) (stops _ (by omega))
  refine ⟨_, rfl, least.2 ⟨Nat.zero_le _, stops _ (by omega)⟩, fun i before => ?_, least.1.2⟩
  exact Classical.not_not.mp (not_of_lt_search (p := fun i => ¬ busy (t.waiting (t.now + i)) (t.now + i))
    (Nat.zero_le i) before)

end

/-! ## What the calls keep -/

structure Inv (t : Table) : Prop where
  reserved : ∀ s ∈ t.slots, (t.res.taken s.1).getLsbD s.2 = true
  nodup : t.slots.Nodup
  earliest : ∀ g ∈ t.grants, g.Earliest
  bound : ∀ g ∈ t.grants, g.cycle < t.res.bound
  width : t.waiting t.now ≤ WSZ

section
variable {H WSZ} {t : Table} {portMask : BitVec 8} {asked c d : Nat}

theorem Inv.init : Inv WSZ init where
  reserved := nofun
  nodup := List.Pairwise.nil
  earliest := nofun
  bound := nofun
  width := Nat.zero_le WSZ

theorem Inv.waiting_bound (inv : Inv WSZ t) (beyond : t.res.bound ≤ c) : t.waiting c = 0 := by
  apply List.countP_eq_zero.mpr
  intro g member later
  have := inv.bound g member
  have := of_decide_eq_true later
  omega

theorem Inv.advance (inv : Inv WSZ t) (cycles : Nat) : Inv WSZ (t.advance H cycles) where
  reserved := inv.reserved
  nodup := inv.nodup
  earliest := inv.earliest
  bound := inv.bound
  width := Nat.le_trans (waiting_le (Nat.le_add_right _ _)) inv.width

theorem Inv.jump (inv : Inv WSZ t) (later : t.now ≤ c) : Inv WSZ { t with now := c } where
  reserved := inv.reserved
  nodup := inv.nodup
  earliest := inv.earliest
  bound := inv.bound
  width := Nat.le_trans (waiting_le later) inv.width

theorem Inv.shadow (inv : Inv WSZ t) : Inv WSZ (t.shadow portMask asked) where
  reserved s member := Reservations.getLsbD_reserve (inv.reserved s member)
  nodup := inv.nodup
  earliest := inv.earliest
  bound g member := Nat.lt_of_lt_of_le (inv.bound g member) Reservations.bound_le_reserve
  width := inv.width

theorem Inv.fresh (inv : Inv WSZ t) (some : portMask ≠ 0) :
    (t.earliest portMask asked, t.port portMask asked) ∉ t.slots := by
  intro member
  have isTaken := inv.reserved _ member
  rw [(Reservations.not_taken_of_free (getLsbD_port t asked some)).1] at isTaken
  cases isTaken

theorem Inv.extraSlot (inv : Inv WSZ t) (some : portMask ≠ 0) :
    Inv WSZ (t.extraSlot portMask asked) where
  reserved := by
    intro s member
    rcases List.mem_cons.mp member with rfl | member
    · have isPort := (Reservations.not_taken_of_free (getLsbD_port t asked some)).2
      show ((t.res.reserve portMask _).taken _).getLsbD _ = true
      rw [Reservations.taken_reserve_self, BitVec.getLsbD_or, isPort, Bool.or_true]
    · exact Reservations.getLsbD_reserve (inv.reserved s member)
  nodup := List.nodup_cons.mpr ⟨inv.fresh some, inv.nodup⟩
  earliest := inv.earliest
  bound g member := Nat.lt_of_lt_of_le (inv.bound g member) Reservations.bound_le_reserve
  width := inv.width

theorem Inv.uop (inv : Inv WSZ t) (some : portMask ≠ 0) (room : t.waiting t.now < WSZ) :
    Inv WSZ (t.uop portMask asked) where
  reserved := by
    intro s member
    rcases List.mem_cons.mp member with rfl | member
    · have lt := port_lt t asked some
      show ((t.res.reserve _ _).taken _).getLsbD _ = true
      rw [Reservations.taken_reserve_self, BitVec.getLsbD_or]
      simp [lt]
    · exact Reservations.getLsbD_reserve (inv.reserved s member)
  nodup := List.nodup_cons.mpr ⟨inv.fresh some, inv.nodup⟩
  earliest := by
    intro g member
    rcases List.mem_cons.mp member with rfl | member
    · have least := isLeast_earliest t asked some
      refine ⟨⟨?_, ?_, least.1.2⟩, fun c earlier => least.2 ⟨?_, earlier.2.2⟩⟩
      · exact Nat.le_trans (Nat.le_max_right _ _) least.1.1
      · exact Nat.le_trans (Nat.le_max_left _ _) least.1.1
      · exact Nat.max_le.mpr ⟨earlier.2.1, earlier.1⟩
    · exact inv.earliest g member
  bound := by
    intro g member
    rcases List.mem_cons.mp member with rfl | member
    · exact Reservations.lt_bound_reserve
    · exact Nat.lt_of_lt_of_le (inv.bound g member) Reservations.bound_le_reserve
  width := by
    show (t.uop portMask asked).waiting t.now ≤ WSZ
    rw [waiting_uop]
    exact room

theorem Inv.extra (some : portMask ≠ 0) (extraSlots : Nat) (inv : Inv WSZ t) :
    Inv WSZ (extra portMask extraSlots asked t) := by
  induction extraSlots generalizing asked t with
  | zero => exact inv
  | succ left ih => exact ih (inv.extraSlot some)

theorem Inv.poisonFrom {targetCycle left : Nat} (inv : Inv WSZ t) :
    Inv WSZ (poisonFrom targetCycle portMask left asked t) := by
  induction left generalizing asked t with
  | zero => exact inv
  | succ left ih =>
      rw [Table.poisonFrom]
      split
      next => exact ih inv.shadow
      next => exact inv

theorem Inv.stalled_spec (inv : Inv WSZ t) (pos : 1 ≤ WSZ) :
    ∃ cycles, t.stalled H WSZ = t.advance H cycles ∧ cycles ≤ t.res.bound - t.now ∧
      (∀ i, i < cycles → t.waiting (t.now + i) = WSZ) ∧ t.waiting (t.now + cycles) ≠ WSZ := by
  apply advanceWhile_spec
  intro c beyond full
  rw [inv.waiting_bound beyond] at full
  omega

theorem Inv.drained_spec (inv : Inv WSZ t) (targetCycle : Nat) :
    ∃ cycles, t.drained H targetCycle = t.advance H cycles ∧ cycles ≤ t.res.bound - t.now ∧
      (∀ i, i < cycles → t.waiting (t.now + i) ≠ 0 ∧ t.now + i < targetCycle) ∧
      ¬ (t.waiting (t.now + cycles) ≠ 0 ∧ t.now + cycles < targetCycle) := by
  apply advanceWhile_spec
  intro c beyond busy
  exact busy.1 (inv.waiting_bound beyond)

theorem Inv.stalled (inv : Inv WSZ t) (pos : 1 ≤ WSZ) :
    Inv WSZ (t.stalled H WSZ) ∧ (t.stalled H WSZ).waiting (t.stalled H WSZ).now < WSZ := by
  obtain ⟨cycles, isAdvance, -, -, notFull⟩ := inv.stalled_spec (H := H) pos
  rw [isAdvance]
  have kept := inv.advance (H := H) cycles
  exact ⟨kept, Nat.lt_of_le_of_ne kept.width notFull⟩

theorem now_drained_le (inv : Inv WSZ t) {targetCycle : Nat} (le : t.now ≤ targetCycle) :
    (t.drained H targetCycle).now ≤ targetCycle := by
  obtain ⟨cycles, isAdvance, -, busy, -⟩ := inv.drained_spec (H := H) targetCycle
  rw [isAdvance]
  show t.now + cycles ≤ targetCycle
  cases cycles with
  | zero => exact le
  | succ cycles =>
      have := (busy cycles (Nat.lt_succ_self cycles)).2
      omega

theorem Inv.longAdvance (inv : Inv WSZ t) {targetCycle : Nat} (le : t.now ≤ targetCycle) :
    Inv WSZ (t.longAdvance H targetCycle) := by
  have drained : Inv WSZ (t.drained H targetCycle) := by
    obtain ⟨cycles, isAdvance, -⟩ := inv.drained_spec (H := H) targetCycle
    rw [isAdvance]
    exact inv.advance cycles
  exact drained.jump (now_drained_le inv le)

theorem Inv.call (pos : 1 ≤ WSZ) (inv : Inv WSZ t) {call : WindowCall} (legal : call.Legal t.now) :
    Inv WSZ (t.call H WSZ call) := by
  cases call with
  | schedule schedCycle mask extraSlots =>
      obtain ⟨stalled, room⟩ := inv.stalled (H := H) pos
      exact Inv.extra (portBit_ne_zero _ _ legal.2) extraSlots (stalled.uop legal.2 room)
  | advancePos => exact inv.advance 1
  | longAdvance targetCycle => exact inv.longAdvance legal.1
  | poisonRange targetCycle mask => exact inv.poisonFrom

end

end Table

end Zsim.OOO
