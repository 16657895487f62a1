import Zsim.Lib.Machine
import Zsim.Lib.OrderedMap
import Zsim.Lib.Search
import Zsim.Lib.Word
import Mathlib.Logic.Function.Basic

/-!
# The instruction window

`WindowStructure` of ooo_core.h.  Every call takes the core's `curCycle` by reference; it is kept
with the window.  The loops that move the window have a bound on their rounds.
-/

set_option autoImplicit false

namespace Zsim.OOO

structure WinCycle where
  occUnits : BitVec 8
  count : Nat
  deriving DecidableEq

namespace WinCycle

def clear : WinCycle := ⟨0, 0⟩

def availMask (wc : WinCycle) (portMask : BitVec 8) : BitVec 8 := ~~~wc.occUnits &&& portMask

/-- `trySchedule` of a cycle where a port is available; it changes no other cycle. -/
def take (wc : WinCycle) (touchOccupancy : Bool) (portMask : BitVec 8) : WinCycle :=
  if touchOccupancy then ⟨wc.occUnits ||| 1#8 <<< lowest (wc.availMask portMask), wc.count + 1⟩
  else ⟨wc.occUnits ||| portMask, wc.count⟩

end WinCycle

structure WindowStructure where
  curWin : Nat → WinCycle
  nextWin : Nat → WinCycle
  ubWin : List (Nat × WinCycle)
  occupancy : Nat
  curPos : Nat
  lastPort : Nat
  curCycle : Nat

namespace WindowStructure

variable (H WSZ : Nat)

/-- The constructor leaves `lastPort` alone, which is written before it is read. -/
def init : WindowStructure := ⟨fun _ => .clear, fun _ => .clear, [], 0, 0, 0, 0⟩

/-- The entries before the horizon move into the window, each to a position inside it. -/
def moveIn (curCycle nextWinHorizon : Nat) : List (Nat × WinCycle) → (Nat → WinCycle) →
    Option ((Nat → WinCycle) × List (Nat × WinCycle))
  | [], nextWin => some (nextWin, [])
  | e :: rest, nextWin =>
    if e.1 < nextWinHorizon then
      let nextWinPos := u32 (u64Sub (u64Sub e.1 H) curCycle)
      if nextWinPos < H then moveIn curCycle nextWinHorizon rest (Function.update nextWin nextWinPos e.2)
      else none
    else some (nextWin, e :: rest)

def rebase (w : WindowStructure) : Option WindowStructure :=
  (moveIn H w.curCycle (u64 (w.curCycle + u32 (2 * H))) w.ubWin w.curWin).map fun (nextWin, ubWin) =>
    { w with curWin := w.nextWin, nextWin := nextWin, ubWin := ubWin, curPos := 0 }

def advancePos (w : WindowStructure) : Option WindowStructure :=
  let w := { w with
    occupancy := u32Sub w.occupancy (w.curWin w.curPos).count
    curWin := Function.update w.curWin w.curPos .clear
    curPos := w.curPos + 1
    curCycle := u64 (w.curCycle + 1) }
  if w.curPos = H then w.rebase H else some w

def advanceWhile (busy : Nat → Nat → Prop) [∀ occupancy cycle, Decidable (busy occupancy cycle)] :
    Nat → WindowStructure → Option WindowStructure
  | 0, _ => none
  | fuel + 1, w =>
    if busy w.occupancy w.curCycle then (w.advancePos H).bind (advanceWhile busy fuel) else some w

/-- The position at which the loop through a window stops, `H` or more if no cycle was found. -/
def seek (win : Nat → WinCycle) (portMask : BitVec 8) (pos : Nat) : Nat :=
  search (fun pos => (win pos).availMask portMask ≠ 0) (H - pos) pos

/-- The loop through the unbounded window, up to a cycle that has no entry or a port for us. -/
def ubSeek (portMask : BitVec 8) : List (Nat × WinCycle) → Nat → Nat
  | [], schedCycle => schedCycle
  | it :: rest, schedCycle =>
    if it.1 ≠ schedCycle then schedCycle
    else if it.2.availMask portMask ≠ 0 then schedCycle
    else ubSeek portMask rest (u64 (schedCycle + 1))

/-- `scheduleInternal` between its stall and the occupancy, which is all of it if
`touchOccupancy` is off, with the cycle it gives and the port that was taken. -/
def place (w : WindowStructure) (touchOccupancy : Bool) (schedCycle : Nat) (portMask : BitVec 8) :
    Option (WindowStructure × Nat × Nat) :=
  let delay := if w.curCycle < schedCycle then u32 (schedCycle - w.curCycle) else 0
  let curWinPos := seek H w.curWin portMask (u32 (w.curPos + delay))
  if curWinPos < H then
    let wc := w.curWin curWinPos
    some ({ w with curWin := Function.update w.curWin curWinPos (wc.take touchOccupancy portMask) },
      u64 (w.curCycle + u32Sub curWinPos w.curPos), lowest (wc.availMask portMask))
  else
    let nextWinPos := seek H w.nextWin portMask (curWinPos - H)
    let cycle := u64 (w.curCycle + u32Sub (u32 (nextWinPos + H)) w.curPos)
    if nextWinPos < H then
      let wc := w.nextWin nextWinPos
      some ({ w with nextWin := Function.update w.nextWin nextWinPos (wc.take touchOccupancy portMask) },
        cycle, lowest (wc.availMask portMask))
    else
      let cycle := ubSeek portMask (w.ubWin.dropWhile fun e => e.1 < cycle) cycle
      let wc := (OrderedMap.get cycle w.ubWin).getD .clear
      if wc.availMask portMask = 0 then none  -- assert(success)
      else
        some ({ w with ubWin := OrderedMap.put cycle (wc.take touchOccupancy portMask) w.ubWin },
          cycle, lowest (wc.availMask portMask))

/-- `scheduleInternal<true, recordPort>`. -/
def scheduleUop (w : WindowStructure) (fuel : Nat) (recordPort : Bool) (schedCycle : Nat)
    (portMask : BitVec 8) : Option (WindowStructure × Nat × Nat) := do
  let w ← w.advanceWhile H (fun occupancy _ => occupancy = WSZ) fuel
  let (w, cycle, port) ← w.place H true schedCycle portMask
  let w := { w with
    lastPort := if recordPort then port else w.lastPort
    occupancy := u32 (w.occupancy + 1) }
  some (w, cycle, port)

def scheduleExtra (portMask : BitVec 8) : Nat → WindowStructure → Nat → List (Nat × Nat) →
    Option (WindowStructure × List (Nat × Nat))
  | 0, w, _, slots => some (w, slots)
  | left + 1, w, extraSlotCycle, slots => do
    let (w, cycle, port) ← w.place H false extraSlotCycle portMask
    scheduleExtra portMask left w (u64 (cycle + 1)) ((cycle, port) :: slots)

/-- With the cycle that is returned in `schedCycle`, and the slots, the last one first. -/
def schedule (w : WindowStructure) (fuel schedCycle : Nat) (portMask : BitVec 8) (extraSlots : Nat) :
    Option (WindowStructure × Nat × List (Nat × Nat)) := do
  let (w, cycle, port) ← w.scheduleUop H WSZ fuel (extraSlots ≠ 0) schedCycle portMask
  let (w, slots) ← scheduleExtra H (1#8 <<< w.lastPort) extraSlots w (u64 (cycle + 1)) [(cycle, port)]
  if w.occupancy ≤ WSZ then some (w, cycle, slots) else none

def longAdvance (w : WindowStructure) (fuel targetCycle : Nat) : Option WindowStructure :=
  if w.curCycle ≤ targetCycle then do
    let w ← w.advanceWhile H (fun occupancy cycle => occupancy ≠ 0 ∧ cycle < targetCycle) fuel
    if w.occupancy ≠ 0 then
      if w.curCycle = targetCycle then some w else none
    else
      -- with zero occupancy, we can just jump to it
      if w.curCycle ≤ targetCycle then some { w with curCycle := targetCycle } else none
  else none

/-- The loop of `poisonRange`, which starts with the current cycle as `poisonCycle`. -/
def poisonFrom (targetCycle : Nat) (portMask : BitVec 8) :
    Nat → WindowStructure → Nat → Option WindowStructure
  | 0, _, _ => none
  | fuel + 1, w, poisonCycle =>
    if poisonCycle < targetCycle then do
      let (w, poisonCycle, _) ← w.place H false poisonCycle portMask
      poisonFrom targetCycle portMask fuel w poisonCycle
    else some w

def poisonRange (w : WindowStructure) (fuel targetCycle : Nat) (portMask : BitVec 8) :
    Option WindowStructure :=
  poisonFrom H targetCycle portMask fuel w w.curCycle

end WindowStructure

/-! ## Runs -/

inductive WindowCall where
  | schedule (schedCycle : Nat) (portMask : BitVec 8) (extraSlots : Nat)
  | advancePos
  | longAdvance (targetCycle : Nat)
  | poisonRange (targetCycle : Nat) (portMask : BitVec 8)

namespace WindowCall

/-- What is promised of a call at cycle `now`: uops have a port, and time goes on. -/
def Legal (now : Nat) : WindowCall → Prop
  | schedule schedCycle portMask _ => schedCycle < 2 ^ 64 ∧ portMask ≠ 0
  | advancePos => True
  | longAdvance targetCycle => now ≤ targetCycle ∧ targetCycle < 2 ^ 64
  | poisonRange targetCycle portMask => targetCycle < 2 ^ 64 ∧ portMask ≠ 0

instance decidableLegal (now : Nat) : ∀ call : WindowCall, Decidable (call.Legal now)
  | schedule _ _ _ => inferInstanceAs (Decidable (_ ∧ _))
  | advancePos => inferInstanceAs (Decidable True)
  | longAdvance _ => inferInstanceAs (Decidable (_ ∧ _))
  | poisonRange _ _ => inferInstanceAs (Decidable (_ ∧ _))

end WindowCall

/-- A window with what `schedule` has returned, and with the (cycle, port) pairs it has
reserved, the last ones first. -/
structure WindowRun where
  win : WindowStructure
  returned : List Nat
  slots : List (Nat × Nat)

namespace WindowRun

variable (H WSZ fuel : Nat)

def init : WindowRun := ⟨.init, [], []⟩

def step (r : WindowRun) : WindowCall → Option WindowRun
  | .schedule schedCycle portMask extraSlots =>
    (r.win.schedule H WSZ fuel schedCycle portMask extraSlots).map fun (win, cycle, slots) =>
      ⟨win, cycle :: r.returned, slots ++ r.slots⟩
  | .advancePos => (r.win.advancePos H).map fun win => { r with win := win }
  | .longAdvance targetCycle =>
    (r.win.longAdvance H fuel targetCycle).map fun win => { r with win := win }
  | .poisonRange targetCycle portMask =>
    (r.win.poisonRange H fuel targetCycle portMask).map fun win => { r with win := win }

def machine : Machine WindowRun WindowCall where
  legal r call := call.Legal r.win.curCycle
  step := step H WSZ fuel

end WindowRun

end Zsim.OOO
