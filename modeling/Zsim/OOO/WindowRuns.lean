import Zsim.OOO.WindowStores
import Zsim.OOO.WindowTable

/-!
# Runs of the window

The window follows the table call by call, as long as no position is truncated and the clock does
not jump over slots that are reserved for no uop.
-/

set_option autoImplicit false

namespace Zsim.OOO

namespace Table

variable {t : Table} {portMask : BitVec 8} {asked c : Nat}

def cells (t : Table) (c : Nat) : WinCycle := ⟨t.res.taken c, t.scheduled c⟩

theorem cells_uop : (t.uop portMask asked).cells = Function.update t.cells (t.earliest portMask asked)
    ((t.cells (t.earliest portMask asked)).take true portMask) := by
  funext d
  by_cases here : d = t.earliest portMask asked
  · subst here
    have counted : (t.uop portMask asked).scheduled (t.earliest portMask asked) =
        t.scheduled (t.earliest portMask asked) + 1 := List.countP_cons_of_pos (decide_eq_true rfl)
    have taken : (t.uop portMask asked).res.taken (t.earliest portMask asked) = _ :=
      Reservations.taken_reserve_self
    rw [Function.update_self, cells, counted, taken]
    rfl
  · have counted : (t.uop portMask asked).scheduled d = t.scheduled d :=
      List.countP_cons_of_neg (by simpa using fun same => here same.symm)
    have taken : (t.uop portMask asked).res.taken d = t.res.taken d :=
      Reservations.taken_reserve_of_ne here
    rw [Function.update_of_ne here, cells, counted, taken]
    rfl

theorem cells_shadow : (t.shadow portMask asked).cells =
    Function.update t.cells (t.earliest portMask asked)
      ((t.cells (t.earliest portMask asked)).take false portMask) := by
  funext d
  by_cases here : d = t.earliest portMask asked
  · subst here
    have taken : (t.shadow portMask asked).res.taken (t.earliest portMask asked) = _ :=
      Reservations.taken_reserve_self
    rw [Function.update_self, cells, taken]
    rfl
  · have taken : (t.shadow portMask asked).res.taken d = t.res.taken d :=
      Reservations.taken_reserve_of_ne here
    rw [Function.update_of_ne here, cells, taken]
    rfl

/-! ### What extra and poisoned slots leave alone -/

/-- Reservations for no uop. -/
structure Shadowed (t next : Table) : Prop where
  now : next.now = t.now
  grants : next.grants = t.grants
  bound : t.res.bound ≤ next.res.bound

theorem Shadowed.refl (t : Table) : Shadowed t t := ⟨rfl, rfl, Nat.le_refl _⟩

theorem Shadowed.trans {first second : Table} (a : Shadowed t first) (b : Shadowed first second) :
    Shadowed t second :=
  ⟨b.now.trans a.now, b.grants.trans a.grants, Nat.le_trans a.bound b.bound⟩

theorem shadowed_extraSlot : Shadowed t (t.extraSlot portMask asked) :=
  ⟨rfl, rfl, Reservations.bound_le_reserve⟩

theorem shadowed_extra (left : Nat) : Shadowed t (extra portMask left asked t) := by
  induction left generalizing asked t with
  | zero => exact .refl t
  | succ left ih => exact shadowed_extraSlot.trans ih

theorem shadowed_poisonFrom (targetCycle left : Nat) :
    Shadowed t (poisonFrom targetCycle portMask left asked t) := by
  induction left generalizing asked t with
  | zero => exact .refl t
  | succ left ih =>
      rw [poisonFrom]
      split
      next =>
        have first : Shadowed t (t.shadow portMask asked) := ⟨rfl, rfl, Reservations.bound_le_reserve⟩
        exact first.trans ih
      next => exact .refl t

theorem slots_poisonFrom (targetCycle left : Nat) :
    (poisonFrom targetCycle portMask left asked t).slots = t.slots := by
  induction left generalizing asked t with
  | zero => rfl
  | succ left ih =>
      rw [poisonFrom]
      split
      next => exact ih
      next => rfl

end Table

open WindowStructure Table

structure Follows (H : Nat) (w : WindowStructure) (t : Table) : Prop where
  stores : Stores H w t.cells
  cycle : w.curCycle = t.now
  pos : w.curPos = t.pos
  occupancy : w.occupancy = t.waiting t.now

section
variable {H WSZ : Nat} {w : WindowStructure} {t : Table} {portMask : BitVec 8} {asked : Nat}

theorem Follows.init (pos : 1 ≤ H) : Follows H .init .init where
  stores := Stores.init pos
  cycle := rfl
  pos := rfl
  occupancy := rfl

theorem bounded_cells (bound : t.res.bound < 2 ^ 64) :
    ∀ c, (t.cells c).occUnits ≠ 0 → c + 1 < 2 ^ 64 := by
  intro c isTaken
  have lt : c < t.res.bound := Reservations.lt_bound isTaken
  omega

theorem Follows.advancePos (follows : Follows H w t) (size : 2 * H < 2 ^ 32)
    (word : t.now + 1 + 2 * H < 2 ^ 64) (bound : t.res.bound < 2 ^ 64)
    (few : t.waiting t.now < 2 ^ 32) :
    ∃ next, w.advancePos H = some next ∧ Follows H next (t.advance H 1) := by
  have cycle := follows.cycle
  obtain ⟨next, run, stores, later, pos, occupancy⟩ := follows.stores.advancePos size (by omega)
    fun c isTaken => Nat.lt_of_succ_lt (bounded_cells bound c isTaken)
  refine ⟨next, run, stores, by rw [later, cycle]; rfl, by rw [pos, follows.pos]; rfl, ?_⟩
  have counted : (t.cells w.curCycle).count = t.scheduled t.now := by rw [cycle]; rfl
  have split := t.waiting_eq t.now
  rw [occupancy, follows.occupancy, counted, u32Sub_of_le few (by omega)]
  show t.waiting t.now - t.scheduled t.now = t.waiting (t.now + 1)
  omega

theorem Follows.advanceWhile {busy : Nat → Nat → Prop}
    [∀ occupancy cycle, Decidable (busy occupancy cycle)] {cycles fuel : Nat}
    (follows : Follows H w t) (size : 2 * H < 2 ^ 32) (word : t.now + cycles + 2 * H < 2 ^ 64)
    (bound : t.res.bound < 2 ^ 64) (few : t.waiting t.now < 2 ^ 32) (enough : cycles < fuel)
    (isBusy : ∀ i, i < cycles → busy (t.waiting (t.now + i)) (t.now + i))
    (stops : ¬ busy (t.waiting (t.now + cycles)) (t.now + cycles)) :
    ∃ next, w.advanceWhile H busy fuel = some next ∧ Follows H next (t.advance H cycles) := by
  induction cycles generalizing w t fuel with
  | zero =>
      obtain ⟨fuel, rfl⟩ := Nat.exists_eq_add_of_lt enough
      have lt := follows.stores.pos_lt
      have pos := follows.pos
      rw [Nat.add_zero] at stops
      have same : t.advance H 0 = t := by
        rw [advance, Nat.add_zero, Nat.add_zero, Nat.mod_eq_of_lt (by omega)]
      rw [same, WindowStructure.advanceWhile, follows.occupancy, follows.cycle, if_neg stops]
      exact ⟨w, rfl, follows⟩
  | succ cycles ih =>
      obtain ⟨fuel, rfl⟩ : ∃ left, fuel = left + 1 := ⟨fuel - 1, by omega⟩
      obtain ⟨mid, run, followsMid⟩ := follows.advancePos size (by omega) bound few
      have shift : ∀ i, t.now + 1 + i = t.now + (i + 1) := by omega
      have now : (t.advance H 1).now = t.now + 1 := rfl
      have waiting : ∀ c, (t.advance H 1).waiting c = t.waiting c := fun _ => rfl
      obtain ⟨next, rest, followsNext⟩ := ih followsMid (by rw [now, shift]; exact word) bound
        (Nat.lt_of_le_of_lt (waiting_le (Nat.le_add_right t.now 1)) few)
        (Nat.lt_of_succ_lt_succ enough)
        (fun i lt => by rw [now, waiting, shift]; exact isBusy (i + 1) (by omega))
        (by rw [now, waiting, shift]; exact stops)
      have twice : (t.advance H 1).advance H cycles = t.advance H (cycles + 1) := by
        simp only [advance, Nat.mod_add_mod, Nat.add_assoc, Nat.add_comm 1 cycles]
      have first : busy w.occupancy w.curCycle := by
        rw [follows.occupancy, follows.cycle]
        exact isBusy 0 (Nat.succ_pos cycles)
      rw [WindowStructure.advanceWhile, if_pos first, run, Option.bind_some]
      exact ⟨next, rest, twice ▸ followsNext⟩

theorem Follows.place (follows : Follows H w t) (some : portMask ≠ 0) (size : 2 * H < 2 ^ 32)
    (short : t.Short asked) (word : t.now + 2 * H < 2 ^ 64) (wordAsked : asked < 2 ^ 64)
    (bound : t.res.bound < 2 ^ 64) (touchOccupancy : Bool) :
    ∃ next, w.place H touchOccupancy asked portMask =
        Option.some (next, t.earliest portMask asked, t.port portMask asked) ∧
      Placed H w t.cells touchOccupancy portMask (max t.now asked) (t.earliest portMask asked) next := by
  have cycle := follows.cycle
  have pos := follows.pos
  have short : w.curPos + (asked - w.curCycle) < 2 ^ 32 := by
    rw [pos, cycle]
    exact short
  obtain ⟨next, c, run, placed⟩ := follows.stores.place touchOccupancy some size
    short (by omega) wordAsked (bounded_cells bound)
  rw [cycle] at placed
  have isEarliest : t.earliest portMask asked = c :=
    Reservations.earliest_eq some placed.notBefore placed.free placed.passed
  rw [port, isEarliest]
  exact ⟨next, run, placed⟩

theorem Follows.shadow {next : WindowStructure} (follows : Follows H w t)
    (placed : Placed H w t.cells false portMask (max t.now asked) (t.earliest portMask asked) next) :
    Follows H next (t.extraSlot portMask asked) ∧ Follows H next (t.shadow portMask asked) := by
  have stores := placed.stores
  rw [← cells_shadow] at stores
  have cycle := placed.curCycle.trans follows.cycle
  have pos := placed.curPos.trans follows.pos
  have occupancy := placed.occupancy.trans follows.occupancy
  exact ⟨⟨stores, cycle, pos, occupancy⟩, stores, cycle, pos, occupancy⟩

theorem Follows.extra {left : Nat} {slots old : List (Nat × Nat)} (follows : Follows H w t)
    (some : portMask ≠ 0) (size : 2 * H < 2 ^ 32) (short : ExtraShort portMask left asked t)
    (word : t.now + 2 * H < 2 ^ 64) (wordAsked : asked < 2 ^ 64)
    (bound : (extra portMask left asked t).res.bound < 2 ^ 64) (isSlots : slots ++ old = t.slots) :
    ∃ next taken, scheduleExtra H portMask left w asked slots = Option.some (next, taken) ∧
      Follows H next (extra portMask left asked t) ∧
      taken ++ old = (extra portMask left asked t).slots := by
  induction left generalizing asked slots w t with
  | zero => exact ⟨w, slots, rfl, follows, isSlots⟩
  | succ left ih =>
      have grows : (t.extraSlot portMask asked).res.bound < 2 ^ 64 :=
        Nat.lt_of_le_of_lt (shadowed_extra left).bound bound
      have before : t.res.bound ≤ (t.extraSlot portMask asked).res.bound := shadowed_extraSlot.bound
      have inside : t.earliest portMask asked < (t.extraSlot portMask asked).res.bound :=
        Reservations.lt_bound_reserve
      obtain ⟨mid, run, placed⟩ := follows.place some size short.1 word wordAsked (by omega) false
      have isSlots : (t.earliest portMask asked, t.port portMask asked) :: slots ++ old =
          (t.extraSlot portMask asked).slots := congrArg (_ :: ·) isSlots
      obtain ⟨next, taken, rest, kept⟩ :=
        ih (follows.shadow placed).1 short.2 word (by omega) bound isSlots
      rw [scheduleExtra, run]
      simp only [Option.bind_eq_bind, Option.bind_some]
      rw [u64_of_lt (by omega)]
      exact ⟨next, taken, rest, kept⟩

theorem Follows.stalled {fuel : Nat} (follows : Follows H w t) (inv : t.Inv WSZ)
    (size : 2 * H < 2 ^ 32) (pos : 1 ≤ WSZ) (sizeW : WSZ < 2 ^ 32) (enough : t.res.bound < fuel)
    (word : (t.stalled H WSZ).now + 2 * H < 2 ^ 64) (bound : t.res.bound < 2 ^ 64) :
    ∃ next, w.advanceWhile H (fun occupancy _ => occupancy = WSZ) fuel = some next ∧
      Follows H next (t.stalled H WSZ) := by
  obtain ⟨cycles, isAdvance, atMost, full, notFull⟩ := inv.stalled_spec (H := H) pos
  rw [isAdvance] at word ⊢
  have few := inv.width
  exact follows.advanceWhile size word bound (by omega) (by omega) full notFull

theorem Follows.drained {fuel : Nat} (follows : Follows H w t) (inv : t.Inv WSZ) (targetCycle : Nat)
    (size : 2 * H < 2 ^ 32) (sizeW : WSZ < 2 ^ 32) (enough : t.res.bound < fuel)
    (word : (t.drained H targetCycle).now + 2 * H < 2 ^ 64) (bound : t.res.bound < 2 ^ 64) :
    ∃ next, w.advanceWhile H (fun occupancy cycle => occupancy ≠ 0 ∧ cycle < targetCycle) fuel =
        some next ∧ Follows H next (t.drained H targetCycle) := by
  obtain ⟨cycles, isAdvance, atMost, busy, stops⟩ := inv.drained_spec (H := H) targetCycle
  rw [isAdvance] at word ⊢
  have few := inv.width
  exact follows.advanceWhile size word bound (by omega) (by omega) busy stops

/-- The uop is placed after the stall, and then counts. -/
theorem Follows.uop {next : WindowStructure} (follows : Follows H w t) (lastPort : Nat)
    (room : t.waiting t.now < WSZ) (sizeW : WSZ < 2 ^ 32)
    (placed : Placed H w t.cells true portMask (max t.now asked) (t.earliest portMask asked) next) :
    Follows H { next with lastPort := lastPort, occupancy := u32 (next.occupancy + 1) }
      (t.uop portMask asked) where
  stores := by
    have stores := placed.stores
    rw [← cells_uop] at stores
    exact ⟨stores.pos_lt, stores.agree, stores.past, stores.sorted, stores.far, stores.used⟩
  cycle := placed.curCycle.trans follows.cycle
  pos := placed.curPos.trans follows.pos
  occupancy := by
    show u32 (next.occupancy + 1) = (t.uop portMask asked).waiting t.now
    rw [waiting_uop, placed.occupancy, follows.occupancy, u32_of_lt (by omega)]

theorem Follows.schedule {fuel extraSlots : Nat} (follows : Follows H w t) (inv : t.Inv WSZ)
    (size : 2 * H < 2 ^ 32) (pos : 1 ≤ WSZ) (sizeW : WSZ < 2 ^ 32) (enough : t.res.bound < fuel)
    (legal : (WindowCall.schedule asked portMask extraSlots).Legal t.now)
    (fits : t.Fits H WSZ (.schedule asked portMask extraSlots))
    (words : t.Words H WSZ (.schedule asked portMask extraSlots)) :
    ∃ next cycle taken, w.schedule H WSZ fuel asked portMask extraSlots = some (next, cycle, taken) ∧
      Follows H next (t.schedule H WSZ asked portMask extraSlots) ∧
      (t.schedule H WSZ asked portMask extraSlots).grants.map Grant.cycle =
        cycle :: t.grants.map Grant.cycle ∧
      taken ++ t.slots = (t.schedule H WSZ asked portMask extraSlots).slots := by
  have kept : (t.schedule H WSZ asked portMask extraSlots).Inv WSZ := inv.call pos legal
  obtain ⟨wordAsked, some⟩ := legal
  obtain ⟨word, bound⟩ := words
  change (t.schedule H WSZ asked portMask extraSlots).now + 2 * H < 2 ^ 64 at word
  change (t.schedule H WSZ asked portMask extraSlots).res.bound < 2 ^ 64 at bound
  have shadowed : Shadowed ((t.stalled H WSZ).uop portMask asked)
      (t.schedule H WSZ asked portMask extraSlots) := shadowed_extra extraSlots
  have now : (t.schedule H WSZ asked portMask extraSlots).now = (t.stalled H WSZ).now := shadowed.now
  have uopBound : t.res.bound ≤ ((t.stalled H WSZ).uop portMask asked).res.bound :=
    Reservations.bound_le_reserve
  have inside : (t.stalled H WSZ).earliest portMask asked <
      ((t.stalled H WSZ).uop portMask asked).res.bound := Reservations.lt_bound_reserve
  have atMost := shadowed.bound
  obtain ⟨mid, stall, followsMid⟩ := follows.stalled inv size pos sizeW enough (by omega) (by omega)
  have stalledBound : (t.stalled H WSZ).res.bound = t.res.bound := rfl
  have room := (inv.stalled (H := H) pos).2
  obtain ⟨placedMid, place, placed⟩ := followsMid.place some size fits.1 (by omega) wordAsked
    (by omega) true
  obtain ⟨port, isPort⟩ : ∃ port, (t.stalled H WSZ).port portMask asked = port := ⟨_, rfl⟩
  rw [isPort] at place
  have followsUop := fun lastPort => followsMid.uop lastPort room sizeW placed
  have uop : w.scheduleUop H WSZ fuel (extraSlots ≠ 0) asked portMask =
      Option.some ({ placedMid with
          lastPort := if decide (extraSlots ≠ 0) then port else placedMid.lastPort
          occupancy := u32 (placedMid.occupancy + 1) },
        (t.stalled H WSZ).earliest portMask asked, port) := by
    rw [scheduleUop, stall]
    simp only [Option.bind_eq_bind, Option.bind_some, place]
  have isSlots : [((t.stalled H WSZ).earliest portMask asked, port)] ++ t.slots =
      ((t.stalled H WSZ).uop portMask asked).slots := by
    rw [← isPort]
    rfl
  have isSchedule : t.schedule H WSZ asked portMask extraSlots = Table.extra (1#8 <<< port) extraSlots
      ((t.stalled H WSZ).earliest portMask asked + 1) ((t.stalled H WSZ).uop portMask asked) := by
    rw [← isPort]
    rfl
  have wordUop : ((t.stalled H WSZ).uop portMask asked).now + 2 * H < 2 ^ 64 := by
    rw [← shadowed.now]
    exact word
  have wordExtra : (t.stalled H WSZ).earliest portMask asked + 1 < 2 ^ 64 := by omega
  -- without extra slots the port is not recorded, and not used
  have extra : ∃ next taken, scheduleExtra H (1#8 <<< if decide (extraSlots ≠ 0) then port
        else placedMid.lastPort) extraSlots
      { placedMid with
        lastPort := if decide (extraSlots ≠ 0) then port else placedMid.lastPort
        occupancy := u32 (placedMid.occupancy + 1) }
      ((t.stalled H WSZ).earliest portMask asked + 1)
      [((t.stalled H WSZ).earliest portMask asked, port)] = Option.some (next, taken) ∧
      Follows H next (t.schedule H WSZ asked portMask extraSlots) ∧
      taken ++ t.slots = (t.schedule H WSZ asked portMask extraSlots).slots := by
    rw [isSchedule]
    cases extraSlots with
    | zero => exact ⟨_, _, rfl, followsUop _, isSlots⟩
    | succ left =>
        have recorded : decide (left + 1 ≠ 0) = true := decide_eq_true (Nat.succ_ne_zero left)
        have isBit : 1#8 <<< port ≠ 0 := by
          rw [← isPort]
          exact portBit_ne_zero _ _ some
        have short := fits.2
        rw [isPort] at short
        rw [isSchedule] at bound
        rw [if_pos recorded]
        exact (followsUop port).extra isBit size short wordUop wordExtra bound isSlots
  obtain ⟨next, taken, run, followsNext, slots⟩ := extra
  have few := kept.width
  rw [WindowStructure.schedule, uop]
  simp only [Option.bind_eq_bind, Option.bind_some]
  rw [u64_of_lt (by omega), run, Option.bind_some]
  dsimp only
  rw [if_pos (by rw [followsNext.occupancy]; exact few)]
  refine ⟨next, _, taken, rfl, followsNext, ?_, slots⟩
  rw [shadowed.grants]
  rfl

theorem Follows.longAdvance {fuel targetCycle : Nat} (follows : Follows H w t) (inv : t.Inv WSZ)
    (size : 2 * H < 2 ^ 32) (sizeW : WSZ < 2 ^ 32) (enough : t.res.bound < fuel)
    (later : t.now ≤ targetCycle) (fits : t.Fits H WSZ (.longAdvance targetCycle))
    (words : t.Words H WSZ (.longAdvance targetCycle)) :
    ∃ next, w.longAdvance H fuel targetCycle = some next ∧
      Follows H next (t.longAdvance H targetCycle) := by
  have notLater : (t.drained H targetCycle).now ≤ targetCycle := now_drained_le inv later
  have word : targetCycle + 2 * H < 2 ^ 64 := words.1
  have bound : t.res.bound < 2 ^ 64 := words.2
  obtain ⟨mid, drain, followsMid⟩ := follows.drained inv targetCycle size sizeW enough (by omega) bound
  obtain ⟨cycles, isAdvance, -, -, stops⟩ := inv.drained_spec (H := H) targetCycle
  change (t.drained H targetCycle).Jumps H targetCycle at fits
  have cycle := followsMid.cycle
  have pos := followsMid.pos
  have occupancy := followsMid.occupancy
  rw [WindowStructure.longAdvance, if_pos (by rw [follows.cycle]; exact later), drain]
  simp only [Option.bind_eq_bind, Option.bind_some]
  rw [isAdvance] at notLater cycle occupancy fits pos followsMid
  change mid.occupancy = t.waiting (t.now + cycles) at occupancy
  change mid.curCycle = t.now + cycles at cycle
  change t.now + cycles ≤ targetCycle at notLater
  have jumped : t.longAdvance H targetCycle = { t.advance H cycles with now := targetCycle } := by
    rw [Table.longAdvance, isAdvance]
  rw [jumped]
  by_cases waits : mid.occupancy ≠ 0
  · have reached : t.now + cycles = targetCycle := by
      rw [occupancy] at waits
      by_contra before
      exact stops ⟨waits, by omega⟩
    rw [if_pos waits, if_pos (cycle.trans reached), ← reached]
    exact ⟨mid, rfl, followsMid⟩
  · have drained : t.waiting (t.now + cycles) = 0 := occupancy.symm.trans (Classical.not_not.mp waits)
    rw [if_neg waits, if_pos (by rw [cycle]; exact notLater)]
    refine ⟨_, rfl, ?_, rfl, pos, ?_⟩
    · rcases Nat.eq_or_lt_of_le notLater with reached | before
      · rw [← reached, ← cycle]
        exact followsMid.stores
      · apply followsMid.stores.jump (by rw [cycle]; exact notLater)
        intro c from' upTo
        rw [pos] at upTo
        rw [cycle] at from'
        have untaken : t.res.taken c = 0 := fits before c upTo from'
        show (⟨t.res.taken c, t.scheduled c⟩ : WinCycle) = .clear
        rw [untaken, scheduled_eq_zero drained from']
        rfl
    · have none : t.waiting targetCycle = 0 :=
        Nat.eq_zero_of_le_zero (drained ▸ waiting_le notLater)
      exact (Classical.not_not.mp waits).trans none.symm

theorem Follows.poisonFrom {fuel targetCycle left : Nat} (follows : Follows H w t)
    (some : portMask ≠ 0) (size : 2 * H < 2 ^ 32) (wordTarget : targetCycle < 2 ^ 64)
    (fits : PoisonShort targetCycle portMask left asked t) (word : t.now + 2 * H < 2 ^ 64)
    (bound : (poisonFrom targetCycle portMask left asked t).res.bound < 2 ^ 64)
    (from' : t.now ≤ asked) (enough : left < fuel)
    (rounds : targetCycle < asked + left ∨
      targetCycle ≤ asked + left ∧ t.res.free portMask asked = 0) :
    ∃ next, WindowStructure.poisonFrom H targetCycle portMask fuel w asked = Option.some next ∧
      Follows H next (poisonFrom targetCycle portMask left asked t) := by
  induction left generalizing asked w t fuel with
  | zero =>
      obtain ⟨fuel, rfl⟩ : ∃ less, fuel = less + 1 := ⟨fuel - 1, by omega⟩
      rw [WindowStructure.poisonFrom, if_neg (by omega)]
      exact ⟨w, rfl, follows⟩
  | succ left ih =>
      obtain ⟨fuel, rfl⟩ : ∃ less, fuel = less + 1 := ⟨fuel - 1, by omega⟩
      rw [Table.poisonFrom] at bound ⊢
      rw [WindowStructure.poisonFrom]
      by_cases before : asked < targetCycle
      · rw [if_pos before] at bound ⊢
        rw [if_pos before]
        obtain ⟨short, fits⟩ := fits before
        have grows : t.res.bound ≤ (t.shadow portMask asked).res.bound := Reservations.bound_le_reserve
        have later : (t.shadow portMask asked).res.bound ≤ (Table.poisonFrom targetCycle portMask left
            (t.earliest portMask asked) (t.shadow portMask asked)).res.bound :=
          (shadowed_poisonFrom targetCycle left).bound
        obtain ⟨mid, place, placed⟩ := follows.place some size short word (by omega) (by omega) false
        have least := isLeast_earliest t asked some
        have notBefore := least.1.1
        -- the slot that was taken is not free for the next round
        have taken : (t.shadow portMask asked).res.free portMask (t.earliest portMask asked) = 0 :=
          Reservations.free_reserve_self
        have progress : targetCycle ≤ t.earliest portMask asked + left := by
          rcases rounds with most | ⟨atMost, full⟩
          · omega
          · have moved : t.earliest portMask asked ≠ asked := by
              intro same
              have free := least.1.2
              rw [same] at free
              exact free full
            omega
        have from' : (t.shadow portMask asked).now ≤ t.earliest portMask asked :=
          Nat.le_trans (Nat.le_max_left _ _) notBefore
        obtain ⟨next, rest, kept⟩ := ih (follows.shadow placed).2 fits word bound from'
          (Nat.lt_of_succ_lt_succ enough) (.inr ⟨progress, taken⟩)
        rw [place]
        exact ⟨next, rest, kept⟩
      · rw [if_neg before, if_neg before]
        exact ⟨w, rfl, follows⟩

end

/-! ## Runs -/

/-- The rounds that the loops of a call may take. -/
def Table.rounds (t : Table) : WindowCall → Nat
  | .poisonRange targetCycle _ => targetCycle + 2
  | _ => t.res.bound + 1

/-- A run of the window and one of the table after the same calls. -/
structure Together (H WSZ : Nat) (t : Table) (r : WindowRun) : Prop where
  follows : Follows H r.win t
  inv : t.Inv WSZ
  returned : r.returned = t.grants.map Grant.cycle
  slots : r.slots = t.slots

/-- What the window has done right. -/
structure Refines (H WSZ : Nat) (t : Table) (r : WindowRun) : Prop where
  curCycle : r.win.curCycle = t.now
  cells : ∀ c, t.now ≤ c → r.win.cell H c = ⟨t.res.taken c, r.returned.count c⟩
  returned : r.returned = t.grants.map Grant.cycle
  earliest : ∀ g ∈ t.grants, g.Earliest
  slots : r.slots = t.slots ∧ r.slots.Nodup
  occupancy : r.win.occupancy = r.returned.countP fun c => r.win.curCycle ≤ c
  width : r.win.occupancy ≤ WSZ

section
variable {H WSZ : Nat} {t : Table} {r : WindowRun}

theorem Together.start (pos : 1 ≤ H) : Together H WSZ .init .init where
  follows := Follows.init pos
  inv := Inv.init
  returned := rfl
  slots := rfl

theorem Together.refines (together : Together H WSZ t r) : Refines H WSZ t r where
  curCycle := together.follows.cycle
  cells := by
    intro c later
    have counted : r.returned.count c = t.scheduled c := by
      rw [together.returned, List.count_eq_countP, List.countP_map]
      rfl
    rw [together.follows.stores.agree c (by rw [together.follows.cycle]; exact later), counted]
    rfl
  returned := together.returned
  earliest := together.inv.earliest
  slots := ⟨together.slots, by rw [together.slots]; exact together.inv.nodup⟩
  occupancy := by
    rw [together.follows.occupancy, together.returned, together.follows.cycle, List.countP_map]
    rfl
  width := by
    rw [together.follows.occupancy]
    exact together.inv.width

/-- One call: the window does what the table says and no assertion fails. -/
theorem Together.step (sizes : (1 ≤ H ∧ 2 * H < 2 ^ 32) ∧ 1 ≤ WSZ ∧ WSZ < 2 ^ 32)
    (together : Together H WSZ t r) {fuel : Nat} {call : WindowCall} (legal : call.Legal t.now)
    (fits : t.Fits H WSZ call) (words : t.Words H WSZ call) (enough : t.rounds call ≤ fuel) :
    ∃ next, r.step H WSZ fuel call = some next ∧ Together H WSZ (t.call H WSZ call) next := by
  obtain ⟨⟨-, size⟩, pos, sizeW⟩ := sizes
  have follows := together.follows
  have inv := together.inv.call (H := H) pos legal
  cases call with
  | schedule schedCycle portMask extraSlots =>
      obtain ⟨win, cycle, taken, run, kept, grants, slots⟩ :=
        follows.schedule together.inv size pos sizeW enough legal fits words
      rw [WindowRun.step, run]
      exact ⟨_, rfl, kept, inv, (congrArg (cycle :: ·) together.returned).trans grants.symm,
        (congrArg (taken ++ ·) together.slots).trans slots⟩
  | advancePos =>
      have few := together.inv.width
      obtain ⟨win, run, kept⟩ := follows.advancePos size words.1 words.2 (by omega)
      rw [WindowRun.step, run]
      exact ⟨_, rfl, kept, inv, together.returned, together.slots⟩
  | longAdvance targetCycle =>
      obtain ⟨win, run, kept⟩ := follows.longAdvance together.inv size sizeW enough legal.1 fits words
      rw [WindowRun.step, run]
      exact ⟨_, rfl, kept, inv, together.returned, together.slots⟩
  | poisonRange targetCycle portMask =>
      have shadowed : Shadowed t (t.poisonRange targetCycle portMask) := shadowed_poisonFrom _ _
      have word : t.now + 2 * H < 2 ^ 64 := by
        rw [← shadowed.now]
        exact words.1
      have enough : targetCycle + 2 ≤ fuel := enough
      have rounds : targetCycle - t.now + 1 < fuel := by omega
      obtain ⟨win, run, kept⟩ := follows.poisonFrom legal.2 size legal.1 fits word words.2
        (Nat.le_refl _) rounds (.inl (by omega))
      rw [WindowRun.step, WindowStructure.poisonRange, follows.cycle, run]
      refine ⟨_, rfl, kept, inv, ?_, ?_⟩
      · exact together.returned.trans (congrArg (List.map Grant.cycle) shadowed.grants.symm)
      · exact together.slots.trans (slots_poisonFrom _ _).symm

/-- The window is the table it stands for, in every run whose calls fit. -/
theorem window_refines_table (sizes : (1 ≤ H ∧ 2 * H < 2 ^ 32) ∧ 1 ≤ WSZ ∧ WSZ < 2 ^ 32)
    {calls : List WindowCall} (legal : (Table.machine H WSZ).LegalRun calls .init)
    (meets : (Table.machine H WSZ).Along (fun t call => t.Fits H WSZ call ∧ t.Words H WSZ call)
      calls .init) :
    ∃ enough, ∀ fuel, enough ≤ fuel → ∃ t r, (Table.machine H WSZ).exec calls .init = some t ∧
      (WindowRun.machine H WSZ fuel).exec calls .init = some r ∧ Refines H WSZ t r := by
  obtain ⟨enough, bounded⟩ := (Table.machine H WSZ).exists_along_le Table.rounds calls .init
  refine ⟨enough, fun fuel le => ?_⟩
  have related : ∀ (call : WindowCall) (t : Table) (r : WindowRun), Together H WSZ t r →
      (Table.machine H WSZ).legal t call →
      (t.Fits H WSZ call ∧ t.Words H WSZ call) ∧ t.rounds call ≤ enough →
      ∃ next next', (Table.machine H WSZ).step t call = some next ∧
        (WindowRun.machine H WSZ fuel).step r call = some next' ∧ Together H WSZ next next' := by
    intro call t r together legal meets
    obtain ⟨next, run, kept⟩ := together.step sizes legal meets.1.1 meets.1.2 (Nat.le_trans meets.2 le)
    exact ⟨t.call H WSZ call, next, rfl, run, kept⟩
  obtain ⟨t, r, table, window, together⟩ :=
    legal.simulates related (Together.start sizes.1.1) (meets.and bounded)
  exact ⟨t, r, table, window, together.refines⟩

end

/-- A uop with an extra slot, a second one on two ports, a poisoned port and a drained window. -/
def windowCalls : List WindowCall :=
  [.schedule 0 1 1, .schedule 1 3 0, .advancePos, .poisonRange 3 4, .schedule 3 4 0, .longAdvance 5,
    .schedule 9 1 0]

theorem window_refines_table_drained :
    ∃ enough, ∀ fuel, enough ≤ fuel → ∃ t r, (Table.machine 2 2).exec windowCalls .init = some t ∧
      (WindowRun.machine 2 2 fuel).exec windowCalls .init = some r ∧ Refines 2 2 t r :=
  window_refines_table (by decide) (by decide) (by decide)

/-- `longAdvance` takes extra slots along when it jumps, and port 0 seems taken at cycle 5.  Those in
the map stay behind, and the next rebase fails. -/
theorem jump_shifts_extra_slots :
    (Table.machine 4 2).LegalRun [.schedule 0 1 2, .longAdvance 5, .schedule 5 1 0] .init ∧
      ((Table.machine 4 2).exec [.schedule 0 1 2, .longAdvance 5, .schedule 5 1 0] .init).map
        (fun t => t.grants.map Grant.cycle) = some [5, 0] ∧
      ((WindowRun.machine 4 2 4).exec [.schedule 0 1 2, .longAdvance 5, .schedule 5 1 0] .init).map
        (fun r => r.returned) = some [7, 0] ∧
      (Table.machine 2 2).LegalRun [.schedule 0 1 6, .longAdvance 100, .advancePos] .init ∧
      ((WindowRun.machine 2 2 4).exec [.schedule 0 1 6, .longAdvance 100] .init).isSome ∧
      ((WindowRun.machine 2 2 4).exec [.schedule 0 1 6, .longAdvance 100, .advancePos] .init).isNone := by
  decide

end Zsim.OOO
