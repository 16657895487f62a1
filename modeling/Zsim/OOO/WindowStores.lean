import Zsim.OOO.Window

/-!
# The stores of the window

The two arrays and the map hold one function from cycles to `WinCycle`, as seen from the current
cycle on: a rebase and a reservation are an identity and a point update of it.
-/

set_option autoImplicit false

namespace Zsim.OOO.WindowStructure

variable (H : Nat)

/-- What is held for a cycle that has not passed. -/
def cell (w : WindowStructure) (c : Nat) : WinCycle :=
  if w.curPos + (c - w.curCycle) < H then w.curWin (w.curPos + (c - w.curCycle))
  else if w.curPos + (c - w.curCycle) < 2 * H then w.nextWin (w.curPos + (c - w.curCycle) - H)
  else (OrderedMap.get c w.ubWin).getD .clear

structure Stores (w : WindowStructure) (cells : Nat → WinCycle) : Prop where
  pos_lt : w.curPos < H
  agree : ∀ c, w.curCycle ≤ c → w.cell H c = cells c
  past : ∀ p, p < w.curPos → w.curWin p = .clear
  sorted : OrderedMap.Sorted w.ubWin
  far : ∀ e ∈ w.ubWin, w.curCycle + 2 * H ≤ e.1 + w.curPos
  used : ∀ e ∈ w.ubWin, (cells e.1).occUnits ≠ 0

variable {H} {w : WindowStructure} {cells : Nat → WinCycle} {c bound : Nat}

theorem Stores.init (pos : 1 ≤ H) : Stores H init fun _ => .clear where
  pos_lt := pos
  agree c _ := by simp [cell, WindowStructure.init, OrderedMap.get]
  past _ _ := rfl
  sorted := List.Pairwise.nil
  far := nofun
  used := nofun

/-! ## Advancing -/

theorem moveIn_spec (nextWin : Nat → WinCycle) {m : List (Nat × WinCycle)} {now : Nat}
    (sorted : OrderedMap.Sorted m) (far : ∀ e ∈ m, now + H ≤ e.1) (word : ∀ e ∈ m, e.1 < 2 ^ 64)
    (size : 2 * H < 2 ^ 32) :
    ∃ win rest, moveIn H now (now + 2 * H) m nextWin = some (win, rest) ∧
      (∀ p, p < H → win p = (OrderedMap.get (now + H + p) m).getD (nextWin p)) ∧
      OrderedMap.Sorted rest ∧ (∀ e ∈ rest, e ∈ m ∧ now + 2 * H ≤ e.1) ∧
      ∀ c, now + 2 * H ≤ c → OrderedMap.get c rest = OrderedMap.get c m := by
  induction m generalizing nextWin with
  | nil =>
      refine ⟨nextWin, [], rfl, fun _ _ => rfl, sorted, ?_, fun _ _ => rfl⟩
      exact fun e member => absurd member List.not_mem_nil
  | cons e rest ih =>
      obtain ⟨smaller, sortedRest⟩ := List.pairwise_cons.mp sorted
      have farE := far e List.mem_cons_self
      have wordE := word e List.mem_cons_self
      rw [moveIn]
      by_cases before : e.1 < now + 2 * H
      · have position : u32 (u64Sub (u64Sub e.1 H) now) = e.1 - H - now := by
          rw [u64Sub_of_le wordE (by omega), u64Sub_of_le (by omega) (by omega), u32_of_lt (by omega)]
        have fits : e.1 - H - now < H := by omega
        rw [if_pos before, position, if_pos fits]
        obtain ⟨win, left, run, moved, sortedLeft, inLeft, same⟩ :=
          ih (Function.update nextWin (e.1 - H - now) e.2) sortedRest
            (fun f member => far f (List.mem_cons_of_mem e member))
            (fun f member => word f (List.mem_cons_of_mem e member))
        refine ⟨win, left, run, fun p lt => ?_, sortedLeft, fun f member => ?_, fun c beyond => ?_⟩
        · rw [moved p lt, OrderedMap.get]
          by_cases here : e.1 = now + H + p
          · have isP : e.1 - H - now = p := by omega
            have absent : OrderedMap.get (now + H + p) rest = none := by
              apply OrderedMap.get_eq_none
              intro f member
              rw [← here]
              exact (Nat.ne_of_lt (smaller f member)).symm
            rw [if_pos here, absent, isP, Option.getD_none, Option.getD_some, Function.update_self]
          · rw [if_neg here, Function.update_of_ne (by omega)]
        · exact ⟨List.mem_cons_of_mem e (inLeft f member).1, (inLeft f member).2⟩
        · rw [same c beyond, OrderedMap.get, if_neg (by omega)]
      · rw [if_neg before]
        refine ⟨nextWin, e :: rest, rfl, fun p lt => ?_, sorted, fun f member => ⟨member, ?_⟩,
          fun _ _ => rfl⟩
        · rw [OrderedMap.get_eq_none, Option.getD_none]
          intro f member
          rcases List.mem_cons.mp member with rfl | member
          · omega
          · have := smaller f member
            omega
        · rcases List.mem_cons.mp member with rfl | member
          · omega
          · have := smaller f member
            omega

/-- What `advancePos` has done to the window before a rebase. -/
def drop (w : WindowStructure) : WindowStructure :=
  { w with
    occupancy := u32Sub w.occupancy (w.curWin w.curPos).count
    curWin := Function.update w.curWin w.curPos .clear
    curPos := w.curPos + 1
    curCycle := u64 (w.curCycle + 1) }

theorem advancePos_eq :
    w.advancePos H = if w.curPos + 1 = H then w.drop.rebase H else some w.drop := rfl

theorem Stores.current (stores : Stores H w cells) : w.curWin w.curPos = cells w.curCycle := by
  rw [← stores.agree w.curCycle (Nat.le_refl _), cell, Nat.sub_self, Nat.add_zero, if_pos stores.pos_lt]

theorem Stores.drop (stores : Stores H w cells) (inside : w.curPos + 1 ≠ H)
    (word : w.curCycle + 1 < 2 ^ 64) : Stores H w.drop cells := by
  have lt := stores.pos_lt
  have cycle : w.drop.curCycle = w.curCycle + 1 := u64_of_lt word
  have pos : w.drop.curPos = w.curPos + 1 := rfl
  have win : w.drop.curWin = Function.update w.curWin w.curPos .clear := rfl
  exact {
    pos_lt := by omega
    agree := by
      intro c later
      rw [cycle] at later
      have same : w.drop.curPos + (c - w.drop.curCycle) = w.curPos + (c - w.curCycle) := by omega
      rw [← stores.agree c (by omega), cell, cell, same, win, Function.update_of_ne (by omega)]
      rfl
    past := by
      intro p before
      rw [win]
      by_cases last : p = w.curPos
      · rw [last, Function.update_self]
      · rw [Function.update_of_ne last]
        exact stores.past p (by omega)
    sorted := stores.sorted
    far := by
      intro e member
      have far := stores.far e member
      omega
    used := stores.used }

theorem Stores.rebase (stores : Stores H w cells) (last : w.curPos + 1 = H) (size : 2 * H < 2 ^ 32)
    (word : w.curCycle + 1 + 2 * H < 2 ^ 64) (bounded : ∀ c, (cells c).occUnits ≠ 0 → c < 2 ^ 64) :
    ∃ next, w.drop.rebase H = some next ∧ Stores H next cells ∧ next.curCycle = w.curCycle + 1 ∧
      next.curPos = 0 ∧ next.occupancy = w.drop.occupancy := by
  have cycle : w.drop.curCycle = w.curCycle + 1 := u64_of_lt (by omega)
  have horizon : u64 (w.curCycle + 1 + u32 (2 * H)) = w.curCycle + 1 + 2 * H := by
    rw [u32_of_lt size, u64_of_lt word]
  have far : ∀ e ∈ w.ubWin, w.curCycle + 1 + H ≤ e.1 := by
    intro e member
    have far := stores.far e member
    omega
  obtain ⟨win, rest, run, moved, sorted, inRest, same⟩ :=
    moveIn_spec w.drop.curWin stores.sorted far
      (fun e member => bounded e.1 (stores.used e member)) size
  -- what was in the first array has passed
  have passed : ∀ p, p < H → w.drop.curWin p = .clear := by
    intro p lt
    show Function.update w.curWin w.curPos WinCycle.clear p = .clear
    by_cases here : p = w.curPos
    · rw [here, Function.update_self]
    · rw [Function.update_of_ne here]
      exact stores.past p (by omega)
  refine ⟨⟨w.nextWin, win, rest, w.drop.occupancy, 0, w.lastPort, w.curCycle + 1⟩, ?_, ?_, rfl, rfl, rfl⟩
  · rw [WindowStructure.rebase, cycle, horizon]
    show (moveIn H (w.curCycle + 1) (w.curCycle + 1 + 2 * H) w.ubWin w.drop.curWin).map _ = _
    rw [run, Option.map_some, ← cycle]
    rfl
  · exact {
      pos_lt := by
        show 0 < H
        omega
      agree := by
        intro c later
        change w.curCycle + 1 ≤ c at later
        have old : w.curPos + (c - w.curCycle) = H + (c - (w.curCycle + 1)) := by omega
        rw [← stores.agree c (by omega), cell, cell, old]
        dsimp only
        rw [Nat.zero_add, if_neg (Nat.not_lt.mpr (Nat.le_add_right H (c - (w.curCycle + 1))))]
        rcases Nat.lt_or_ge (c - (w.curCycle + 1)) H with near | notNear
        · have inNext : H + (c - (w.curCycle + 1)) < 2 * H := by omega
          rw [if_pos near, if_pos inNext, Nat.add_sub_cancel_left]
        · have beyondNext : ¬ H + (c - (w.curCycle + 1)) < 2 * H := by omega
          rw [if_neg (Nat.not_lt.mpr notNear), if_neg beyondNext]
          rcases Nat.lt_or_ge (c - (w.curCycle + 1)) (2 * H) with inNext | beyond
          · have place : w.curCycle + 1 + H + (c - (w.curCycle + 1) - H) = c := by omega
            rw [if_pos inNext, moved _ (by omega), place, passed _ (by omega)]
          · rw [if_neg (Nat.not_lt.mpr beyond), same c (by omega)]
      past := fun p none => absurd none (Nat.not_lt_zero p)
      sorted := sorted
      far := fun e member => (inRest e member).2
      used := fun e member => stores.used e (inRest e member).1 }

theorem Stores.advancePos (stores : Stores H w cells) (size : 2 * H < 2 ^ 32)
    (word : w.curCycle + 1 + 2 * H < 2 ^ 64) (bounded : ∀ c, (cells c).occUnits ≠ 0 → c < 2 ^ 64) :
    ∃ next, w.advancePos H = some next ∧ Stores H next cells ∧ next.curCycle = w.curCycle + 1 ∧
      next.curPos = (w.curPos + 1) % H ∧
      next.occupancy = u32Sub w.occupancy (cells w.curCycle).count := by
  have lt := stores.pos_lt
  have occupancy : w.drop.occupancy = u32Sub w.occupancy (cells w.curCycle).count := by
    rw [← stores.current]
    rfl
  rw [advancePos_eq]
  by_cases last : w.curPos + 1 = H
  · obtain ⟨next, run, kept, cycle, pos, same⟩ := stores.rebase last size word bounded
    rw [if_pos last, last, Nat.mod_self]
    exact ⟨next, run, kept, cycle, pos, same.trans occupancy⟩
  · rw [if_neg last, Nat.mod_eq_of_lt (by omega)]
    exact ⟨w.drop, rfl, stores.drop last (by omega), u64_of_lt (by omega), rfl, occupancy⟩

/-! ## Reserving -/

section
variable {win : Nat → WinCycle} {portMask : BitVec 8} {start pos : Nat}

theorem availMask_clear (some : portMask ≠ 0) : WinCycle.clear.availMask portMask ≠ 0 := by
  have all : WinCycle.clear.availMask portMask = portMask := by
    rw [WinCycle.availMask, WinCycle.clear, BitVec.ofNat_eq_ofNat, BitVec.not_zero, BitVec.allOnes_and]
  rw [all]
  exact some

theorem le_seek : pos ≤ seek H win portMask pos := le_search

theorem full_of_lt_seek {p : Nat} (from' : pos ≤ p) (before : p < seek H win portMask pos) :
    (win p).availMask portMask = 0 := by
  by_contra free
  exact not_of_lt_search from' before free

theorem free_seek (found : seek H win portMask pos < H) :
    (win (seek H win portMask pos)).availMask portMask ≠ 0 := by
  have le : pos ≤ seek H win portMask pos := le_seek
  have early : seek H win portMask pos < pos + (H - pos) := by omega
  exact search_of_lt early

theorem seek_of_ge (notFound : H ≤ seek H win portMask pos) :
    seek H win portMask pos = max pos H := by
  have le : pos ≤ seek H win portMask pos := le_seek
  have atMost : seek H win portMask pos ≤ pos + (H - pos) := search_le
  omega

theorem ubSeek_spec (start : Nat) {m : List (Nat × WinCycle)} (sorted : OrderedMap.Sorted m)
    (notBefore : ∀ e ∈ m, start ≤ e.1) (word : ∀ e ∈ m, e.1 + 1 < 2 ^ 64) (some : portMask ≠ 0) :
    start ≤ ubSeek portMask m start ∧
      (∀ d, start ≤ d → d < ubSeek portMask m start →
        ((OrderedMap.get d m).getD .clear).availMask portMask = 0) ∧
      ((OrderedMap.get (ubSeek portMask m start) m).getD .clear).availMask portMask ≠ 0 := by
  induction m generalizing start with
  | nil =>
      refine ⟨Nat.le_refl _, fun d from' before => ?_, availMask_clear some⟩
      exact absurd before (Nat.not_lt_of_le from')
  | cons e rest ih =>
      obtain ⟨smaller, sortedRest⟩ := List.pairwise_cons.mp sorted
      have first := notBefore e List.mem_cons_self
      have nothing : ∀ d, start ≤ d → d < start →
          ((OrderedMap.get d (e :: rest)).getD .clear).availMask portMask = 0 :=
        fun d from' before => absurd before (Nat.not_lt_of_le from')
      rw [ubSeek]
      by_cases gap : e.1 ≠ start
      · rw [if_pos gap]
        refine ⟨Nat.le_refl _, nothing, ?_⟩
        have absent : OrderedMap.get start (e :: rest) = none := by
          apply OrderedMap.get_eq_none
          intro f member
          rcases List.mem_cons.mp member with rfl | member
          · exact gap
          · have := smaller f member
            omega
        rw [absent]
        exact availMask_clear some
      · have here : e.1 = start := Classical.not_not.mp gap
        rw [if_neg gap]
        by_cases free : e.2.availMask portMask ≠ 0
        · rw [if_pos free]
          refine ⟨Nat.le_refl _, nothing, ?_⟩
          rw [OrderedMap.get, if_pos here]
          exact free
        · have next : u64 (start + 1) = start + 1 := by
            have := word e List.mem_cons_self
            rw [u64_of_lt (by omega)]
          rw [if_neg free, next]
          obtain ⟨notBefore', passed, found⟩ := ih (start + 1) sortedRest
            (fun f member => by have := smaller f member; omega)
            (fun f member => word f (List.mem_cons_of_mem e member))
          refine ⟨Nat.le_of_succ_le notBefore', fun d from' before => ?_, ?_⟩
          · rw [OrderedMap.get]
            by_cases isFirst : e.1 = d
            · rw [if_pos isFirst]
              exact Classical.not_not.mp free
            · rw [if_neg isFirst]
              exact passed d (by omega) before
          · rw [OrderedMap.get, if_neg (by omega)]
            exact found

theorem occUnits_take {touchOccupancy : Bool} {wc : WinCycle} (free : wc.availMask portMask ≠ 0) :
    (wc.take touchOccupancy portMask).occUnits ≠ 0 := by
  have isFree := getLsbD_lowest free
  have isPort : portMask.getLsbD (lowest (wc.availMask portMask)) = true := by
    rw [WinCycle.availMask, BitVec.getLsbD_and, Bool.and_eq_true] at isFree
    exact isFree.2
  have lt := lowest_lt free
  have isTaken : (wc.take touchOccupancy portMask).occUnits.getLsbD
      (lowest (wc.availMask portMask)) = true := by
    cases touchOccupancy
    · simp [WinCycle.take, isPort]
    · simp [WinCycle.take, lt]
  intro zero
  rw [zero] at isTaken
  simp at isTaken

theorem used_update {m : List (Nat × WinCycle)} {wc : WinCycle}
    (used : ∀ e ∈ m, e.1 ≠ c → (cells e.1).occUnits ≠ 0) (some : wc.occUnits ≠ 0) :
    ∀ e ∈ m, (Function.update cells c wc e.1).occUnits ≠ 0 := by
  intro e member
  by_cases here : e.1 = c
  · rw [here, Function.update_self]
    exact some
  · rw [Function.update_of_ne here]
    exact used e member here

theorem Stores.setCur (stores : Stores H w cells) {p : Nat} {wc : WinCycle} (from' : w.curPos ≤ p)
    (lt : p < H) (isCycle : c = w.curCycle + (p - w.curPos)) (used : wc.occUnits ≠ 0) :
    Stores H { w with curWin := Function.update w.curWin p wc } (Function.update cells c wc) where
  pos_lt := stores.pos_lt
  agree := by
    intro d later
    change w.curCycle ≤ d at later
    have agree := stores.agree d later
    rw [cell] at agree ⊢
    dsimp only
    by_cases here : d = c
    · have isP : w.curPos + (d - w.curCycle) = p := by omega
      rw [here] at isP ⊢
      rw [isP, if_pos lt, Function.update_self, Function.update_self]
    · rw [Function.update_of_ne here, ← agree]
      by_cases near : w.curPos + (d - w.curCycle) < H
      · rw [if_pos near, if_pos near, Function.update_of_ne (by omega)]
      · rw [if_neg near, if_neg near]
  past := by
    intro q before
    change q < w.curPos at before
    show Function.update w.curWin p wc q = _
    rw [Function.update_of_ne (by omega)]
    exact stores.past q before
  sorted := stores.sorted
  far := stores.far
  used := used_update (fun e member _ => stores.used e member) used

theorem Stores.setNext (stores : Stores H w cells) {p : Nat} {wc : WinCycle}
    (lt : p < H) (isCycle : c = w.curCycle + (p + H - w.curPos)) (used : wc.occUnits ≠ 0) :
    Stores H { w with nextWin := Function.update w.nextWin p wc } (Function.update cells c wc) where
  pos_lt := stores.pos_lt
  agree := by
    intro d later
    change w.curCycle ≤ d at later
    have inside := stores.pos_lt
    have agree := stores.agree d later
    rw [cell] at agree ⊢
    dsimp only
    by_cases here : d = c
    · have isP : w.curPos + (d - w.curCycle) = p + H := by omega
      rw [here] at isP ⊢
      rw [isP, if_neg (Nat.not_lt.mpr (Nat.le_add_left H p)), if_pos (by omega), Nat.add_sub_cancel,
        Function.update_self, Function.update_self]
    · rw [Function.update_of_ne here, ← agree]
      by_cases near : w.curPos + (d - w.curCycle) < H
      · rw [if_pos near, if_pos near]
      · rw [if_neg near, if_neg near, Function.update_of_ne (by omega)]
  past := stores.past
  sorted := stores.sorted
  far := stores.far
  used := used_update (fun e member _ => stores.used e member) used

theorem Stores.setUb (stores : Stores H w cells) {wc : WinCycle}
    (far : w.curCycle + 2 * H ≤ c + w.curPos) (used : wc.occUnits ≠ 0) :
    Stores H { w with ubWin := OrderedMap.put c wc w.ubWin } (Function.update cells c wc) where
  pos_lt := stores.pos_lt
  agree := by
    intro d later
    change w.curCycle ≤ d at later
    have inside := stores.pos_lt
    have agree := stores.agree d later
    rw [cell] at agree ⊢
    dsimp only
    by_cases here : d = c
    · subst here
      rw [if_neg (by omega), if_neg (by omega), OrderedMap.get_put_self, Option.getD_some,
        Function.update_self]
    · rw [Function.update_of_ne here, ← agree, OrderedMap.get_put_of_ne here]
  past := stores.past
  sorted := stores.sorted.put
  far := by
    intro e member
    rcases OrderedMap.mem_put member with rfl | member
    · exact far
    · exact stores.far e member
  used := by
    refine used_update (fun e member other => ?_) used
    rcases OrderedMap.mem_put member with rfl | member
    · exact absurd rfl other
    · exact stores.used e member

theorem Stores.curWin_eq (stores : Stores H w cells) {d : Nat} (later : w.curCycle ≤ d)
    (near : w.curPos + (d - w.curCycle) < H) : w.curWin (w.curPos + (d - w.curCycle)) = cells d := by
  rw [← stores.agree d later, cell, if_pos near]

theorem Stores.nextWin_eq (stores : Stores H w cells) {d : Nat} (later : w.curCycle ≤ d)
    (notNear : H ≤ w.curPos + (d - w.curCycle)) (inNext : w.curPos + (d - w.curCycle) < 2 * H) :
    w.nextWin (w.curPos + (d - w.curCycle) - H) = cells d := by
  rw [← stores.agree d later, cell, if_neg (Nat.not_lt.mpr notNear), if_pos inNext]

theorem Stores.ubWin_eq (stores : Stores H w cells) {d : Nat} (later : w.curCycle ≤ d)
    (far : 2 * H ≤ w.curPos + (d - w.curCycle)) :
    (OrderedMap.get d w.ubWin).getD .clear = cells d := by
  rw [← stores.agree d later, cell, if_neg (by omega), if_neg (Nat.not_lt.mpr far)]

/-- What a reservation gives: the first cycle with a port for us, where it is written. -/
structure Placed (H : Nat) (w : WindowStructure) (cells : Nat → WinCycle) (touchOccupancy : Bool)
    (portMask : BitVec 8) (start c : Nat) (next : WindowStructure) : Prop where
  notBefore : start ≤ c
  free : (cells c).availMask portMask ≠ 0
  passed : ∀ d, start ≤ d → d < c → (cells d).availMask portMask = 0
  stores : Stores H next (Function.update cells c ((cells c).take touchOccupancy portMask))
  curCycle : next.curCycle = w.curCycle
  curPos : next.curPos = w.curPos
  occupancy : next.occupancy = w.occupancy

variable {asked : Nat} {touchOccupancy : Bool}

/-- Where the loop through the first array stops, without the wrapping of its start. -/
def curStop (H : Nat) (w : WindowStructure) (portMask : BitVec 8) (asked : Nat) : Nat :=
  seek H w.curWin portMask (w.curPos + (asked - w.curCycle))

/-- Where the loop through the second array stops. -/
def nextStop (H : Nat) (w : WindowStructure) (portMask : BitVec 8) (asked : Nat) : Nat :=
  seek H w.nextWin portMask (curStop H w portMask asked - H)

/-- `place` if the position that is asked for is a `uint32_t`. -/
theorem place_eq (short : w.curPos + (asked - w.curCycle) < 2 ^ 32) :
    w.place H touchOccupancy asked portMask =
      let p := curStop H w portMask asked
      let q := nextStop H w portMask asked
      let cycle := u64 (w.curCycle + u32Sub (u32 (q + H)) w.curPos)
      if p < H then
        let wc := w.curWin p
        some ({ w with curWin := Function.update w.curWin p (wc.take touchOccupancy portMask) },
          u64 (w.curCycle + u32Sub p w.curPos), lowest (wc.availMask portMask))
      else if q < H then
        let wc := w.nextWin q
        some ({ w with nextWin := Function.update w.nextWin q (wc.take touchOccupancy portMask) },
          cycle, lowest (wc.availMask portMask))
      else
        let cycle := ubSeek portMask (w.ubWin.dropWhile fun e => e.1 < cycle) cycle
        let wc := (OrderedMap.get cycle w.ubWin).getD .clear
        if wc.availMask portMask = 0 then none
        else
          some ({ w with ubWin := OrderedMap.put cycle (wc.take touchOccupancy portMask) w.ubWin },
            cycle, lowest (wc.availMask portMask)) := by
  have delay : (if w.curCycle < asked then u32 (asked - w.curCycle) else 0) = asked - w.curCycle := by
    split
    next => exact u32_of_lt (by omega)
    next => omega
  rw [place, delay, u32_of_lt short]
  rfl

variable (portMask asked) in
theorem Stores.full_of_lt_curStop (stores : Stores H w cells) (d : Nat)
    (from' : max w.curCycle asked ≤ d) (near : w.curPos + (d - w.curCycle) < H)
    (before : w.curPos + (d - w.curCycle) < curStop H w portMask asked) :
    (cells d).availMask portMask = 0 := by
  rw [← stores.curWin_eq (by omega) near]
  exact full_of_lt_seek (by omega) before

theorem Stores.full_of_lt_nextStop (stores : Stores H w cells) (d : Nat)
    (notFound : H ≤ curStop H w portMask asked)
    (from' : max w.curCycle asked ≤ d) (inNext : w.curPos + (d - w.curCycle) < 2 * H)
    (before : w.curPos + (d - w.curCycle) < nextStop H w portMask asked + H) :
    (cells d).availMask portMask = 0 := by
  rcases Nat.lt_or_ge (w.curPos + (d - w.curCycle)) H with near | notNear
  · exact stores.full_of_lt_curStop portMask asked d from' near (by omega)
  · have stop : curStop H w portMask asked = max (w.curPos + (asked - w.curCycle)) H :=
      seek_of_ge notFound
    rw [← stores.nextWin_eq (by omega) notNear inNext]
    have fromStop : curStop H w portMask asked - H ≤ w.curPos + (d - w.curCycle) - H := by omega
    have beforeStop : w.curPos + (d - w.curCycle) - H < nextStop H w portMask asked := by omega
    exact full_of_lt_seek fromStop beforeStop

theorem Stores.place_cur (stores : Stores H w cells) (size : 2 * H < 2 ^ 32)
    (short : w.curPos + (asked - w.curCycle) < 2 ^ 32) (word : w.curCycle + 2 * H < 2 ^ 64)
    (found : curStop H w portMask asked < H) :
    ∃ next c, w.place H touchOccupancy asked portMask =
        some (next, c, lowest ((cells c).availMask portMask)) ∧
      Placed H w cells touchOccupancy portMask (max w.curCycle asked) c next := by
  rw [place_eq short]
  dsimp only
  rw [if_pos found]
  have isFree : (w.curWin (curStop H w portMask asked)).availMask portMask ≠ 0 := free_seek found
  have passed := stores.full_of_lt_curStop portMask asked
  have from' : w.curPos + (asked - w.curCycle) ≤ curStop H w portMask asked := le_seek
  obtain ⟨p, isP⟩ : ∃ p, curStop H w portMask asked = p := ⟨_, rfl⟩
  rw [isP] at found isFree passed from' ⊢
  have place : w.curPos + (w.curCycle + (p - w.curPos) - w.curCycle) = p := by omega
  have holds : w.curWin p = cells (w.curCycle + (p - w.curPos)) := by
    rw [← stores.curWin_eq (Nat.le_add_right _ _) (by omega), place]
  rw [holds] at isFree
  rw [u32Sub_of_le (by omega) (by omega), u64_of_lt (by omega), holds]
  exact ⟨_, _, rfl, {
    notBefore := by omega
    free := isFree
    passed := fun d from' before => passed d from' (by omega) (by omega)
    stores := stores.setCur (by omega) found rfl (occUnits_take isFree)
    curCycle := rfl
    curPos := rfl
    occupancy := rfl }⟩

theorem Stores.place_next (stores : Stores H w cells) (size : 2 * H < 2 ^ 32)
    (short : w.curPos + (asked - w.curCycle) < 2 ^ 32) (word : w.curCycle + 2 * H < 2 ^ 64)
    (notFound : H ≤ curStop H w portMask asked) (found : nextStop H w portMask asked < H) :
    ∃ next c, w.place H touchOccupancy asked portMask =
        some (next, c, lowest ((cells c).availMask portMask)) ∧
      Placed H w cells touchOccupancy portMask (max w.curCycle asked) c next := by
  have inside := stores.pos_lt
  rw [place_eq short]
  dsimp only
  rw [if_neg (Nat.not_lt.mpr notFound), if_pos found]
  have isFree : (w.nextWin (nextStop H w portMask asked)).availMask portMask ≠ 0 := free_seek found
  have passed := fun d => stores.full_of_lt_nextStop d notFound
  have stop : curStop H w portMask asked = max (w.curPos + (asked - w.curCycle)) H :=
    seek_of_ge notFound
  have from' : curStop H w portMask asked - H ≤ nextStop H w portMask asked := le_seek
  obtain ⟨p, isP⟩ : ∃ p, nextStop H w portMask asked = p := ⟨_, rfl⟩
  rw [isP] at found isFree passed from' ⊢
  have place : w.curPos + (w.curCycle + (p + H - w.curPos) - w.curCycle) - H = p := by omega
  have holds : w.nextWin p = cells (w.curCycle + (p + H - w.curPos)) := by
    rw [← stores.nextWin_eq (Nat.le_add_right _ _) (by omega) (by omega), place]
  rw [holds] at isFree
  rw [u32_of_lt (by omega), u32Sub_of_le (by omega) (by omega), u64_of_lt (by omega), holds]
  exact ⟨_, _, rfl, {
    notBefore := by omega
    free := isFree
    passed := fun d from' before => passed d from' (by omega) (by omega)
    stores := stores.setNext found rfl (occUnits_take isFree)
    curCycle := rfl
    curPos := rfl
    occupancy := rfl }⟩

theorem Stores.place_ub (stores : Stores H w cells) (some : portMask ≠ 0) (size : 2 * H < 2 ^ 32)
    (short : w.curPos + (asked - w.curCycle) < 2 ^ 32) (word : w.curCycle + 2 * H < 2 ^ 64)
    (wordAsked : asked < 2 ^ 64) (bounded : ∀ c, (cells c).occUnits ≠ 0 → c + 1 < 2 ^ 64)
    (notCur : H ≤ curStop H w portMask asked) (notNext : H ≤ nextStop H w portMask asked) :
    ∃ next c, w.place H touchOccupancy asked portMask =
        Option.some (next, c, lowest ((cells c).availMask portMask)) ∧
      Placed H w cells touchOccupancy portMask (max w.curCycle asked) c next := by
  have inside := stores.pos_lt
  rw [place_eq short]
  dsimp only
  rw [if_neg (Nat.not_lt.mpr notCur), if_neg (Nat.not_lt.mpr notNext)]
  have passedArrays := fun d => stores.full_of_lt_nextStop d notCur
  have stopCur : curStop H w portMask asked = max (w.curPos + (asked - w.curCycle)) H :=
    seek_of_ge notCur
  have stopNext : nextStop H w portMask asked = max (curStop H w portMask asked - H) H :=
    seek_of_ge notNext
  obtain ⟨p, isP⟩ : ∃ p, nextStop H w portMask asked = p := ⟨_, rfl⟩
  rw [isP] at passedArrays stopNext ⊢
  rw [u32_of_lt (by omega), u32Sub_of_le (by omega) (by omega), u64_of_lt (by omega)]
  obtain ⟨far, isFar⟩ : ∃ far, w.curCycle + (p + H - w.curPos) = far := ⟨_, rfl⟩
  obtain ⟨m, isM⟩ : ∃ m, (w.ubWin.dropWhile fun e => e.1 < far) = m := ⟨_, rfl⟩
  have inMap : ∀ d, far ≤ d → (OrderedMap.get d m).getD .clear = cells d := by
    intro d from'
    rw [← isM, OrderedMap.get_dropWhile from']
    exact stores.ubWin_eq (by omega) (by omega)
  have suffix : m <:+ w.ubWin := by
    rw [← isM]
    exact List.dropWhile_suffix _
  obtain ⟨from', passed, isFree⟩ := ubSeek_spec far
    (List.Pairwise.sublist suffix.sublist stores.sorted)
    (fun e member => OrderedMap.le_of_mem_dropWhile stores.sorted (by rw [isM]; exact member))
    (fun e member => bounded e.1 (stores.used e (suffix.subset member))) some
  rw [isFar, isM]
  obtain ⟨c, isC⟩ : ∃ c, ubSeek portMask m far = c := ⟨_, rfl⟩
  rw [isC] at from' passed isFree ⊢
  rw [inMap c from'] at isFree
  rw [stores.ubWin_eq (by omega) (by omega), if_neg isFree]
  exact ⟨_, _, rfl, {
    notBefore := by omega
    free := isFree
    passed := by
      intro d start before
      rcases Nat.lt_or_ge d far with early | late
      · exact passedArrays d start (by omega) (by omega)
      · rw [← inMap d late]
        exact passed d late before
    stores := stores.setUb (by omega) (occUnits_take isFree)
    curCycle := rfl
    curPos := rfl
    occupancy := rfl }⟩

variable (touchOccupancy) in
theorem Stores.place (stores : Stores H w cells) (some : portMask ≠ 0) (size : 2 * H < 2 ^ 32)
    (short : w.curPos + (asked - w.curCycle) < 2 ^ 32) (word : w.curCycle + 2 * H < 2 ^ 64)
    (wordAsked : asked < 2 ^ 64) (bounded : ∀ c, (cells c).occUnits ≠ 0 → c + 1 < 2 ^ 64) :
    ∃ next c, w.place H touchOccupancy asked portMask =
        Option.some (next, c, lowest ((cells c).availMask portMask)) ∧
      Placed H w cells touchOccupancy portMask (max w.curCycle asked) c next := by
  rcases Nat.lt_or_ge (curStop H w portMask asked) H with foundCur | notCur
  · exact stores.place_cur size short word foundCur
  · rcases Nat.lt_or_ge (nextStop H w portMask asked) H with foundNext | notNext
    · exact stores.place_next size short word notCur foundNext
    · exact stores.place_ub some size short word wordAsked bounded notCur notNext

end

/-! ## Jumping -/

/-- The clock may jump if there is nothing from now up to the end of the arrays after the jump. -/
theorem Stores.jump (stores : Stores H w cells) {targetCycle : Nat} (later : w.curCycle ≤ targetCycle)
    (nothing : ∀ c, w.curCycle ≤ c → c < targetCycle + 2 * H - w.curPos → cells c = .clear) :
    Stores H { w with curCycle := targetCycle } cells where
  pos_lt := stores.pos_lt
  agree := by
    intro c from'
    change targetCycle ≤ c at from'
    have inside := stores.pos_lt
    rw [cell]
    dsimp only
    by_cases inArrays : w.curPos + (c - targetCycle) < 2 * H
    · have moved := stores.agree (w.curCycle + (c - targetCycle)) (Nat.le_add_right _ _)
      rw [cell, Nat.add_sub_cancel_left, nothing (w.curCycle + (c - targetCycle)) (by omega) (by omega)]
        at moved
      rw [nothing c (by omega) (by omega), ← moved]
      by_cases near : w.curPos + (c - targetCycle) < H
      · rw [if_pos near, if_pos near]
      · rw [if_neg near, if_neg near, if_pos inArrays, if_pos inArrays]
    · rw [if_neg (by omega), if_neg inArrays]
      exact stores.ubWin_eq (by omega) (by omega)
  past := stores.past
  sorted := stores.sorted
  far := by
    intro e member
    change targetCycle + 2 * H ≤ e.1 + w.curPos
    by_contra early
    have inside := stores.pos_lt
    have far := stores.far e member
    have isClear := nothing e.1 (by omega) (by omega)
    have used := stores.used e member
    rw [isClear] at used
    exact used rfl
  used := stores.used

end Zsim.OOO.WindowStructure
