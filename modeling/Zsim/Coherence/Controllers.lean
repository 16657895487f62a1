import Zsim.Lib.Count
import Zsim.Lib.Loop

/-!
# The MESI controllers

`MESIBottomCC`, `MESITopCC` and `CheckForMESIRace` of coherence_ctrls.h and
coherence_ctrls.cpp, for one line of one cache.  The bottom controller is cut where it
calls the parent; the top controller calls `children[c]->invalidate` through a
parameter.  `none` is a failed assertion or a panic.  Cycles and counters are left out.
-/

set_option autoImplicit false

namespace Zsim.Coherence

abbrev Address := Nat

inductive AccessType
  | GETS | GETX | PUTS | PUTX
  deriving DecidableEq, Repr

inductive InvType
  | INV | INVX | FWD
  deriving DecidableEq, Repr

inductive MESIState
  | I | S | E | M
  deriving DecidableEq, Repr

structure Flags where
  ifetch : Bool := false
  noExcl : Bool := false
  nonInclWB : Bool := false
  putxKeepExcl : Bool := false
  prefetch : Bool := false
  deriving DecidableEq, Repr

/-- Whether to skip the access, and its type, which may change. -/
def checkForMESIRace (type : AccessType) (state initialState : MESIState) :
    Option (AccessType × Bool) :=
  if state ≠ initialState then
    match type with
    | .PUTS | .PUTX =>
      if state = .I then some (type, true)
      -- we were downgraded, and what was a PUTX is a PUTS now
      else if state = .S then some (.PUTS, false)
      else none
    | .GETX => if initialState = .S ∧ state = .I then some (type, false) else none
    | .GETS => none
  else some (type, false)

/-! ## The bottom controller -/

namespace MESIState

/-- `MESIBottomCC::isExclusive`, which says E or M. -/
def isExclusive (state : MESIState) : Bool := state = .E || state = .M

end MESIState

namespace MESIBottomCC

/-- `processEviction` up to the request it sends to the parent, if any. -/
def evict (state : MESIState) (lowerLevelWriteback : Bool) :
    Option (MESIState × Option AccessType) := do
  let state ←
    if lowerLevelWriteback then
      if state.isExclusive then some MESIState.M else none
    else some state
  match state with
  | .I => some (state, none)
  | .S | .E => some (state, some .PUTS)
  | .M => some (state, some .PUTX)

/-- `processAccess` up to the request it sends to the parent, if any. -/
def access (type : AccessType) (state : MESIState) : Option (MESIState × Option AccessType) :=
  match type with
  | .PUTS => if state ≠ .I then some (state, none) else none
  | .PUTX => if state.isExclusive then some (.M, none) else none
  | .GETS => if state = .I then some (state, some .GETS) else some (state, none)
  | .GETX =>
    if state = .I ∨ state = .S then some (state, some .GETX) else some (.M, none)

/-- What `processAccess` asserts of the state in the end. -/
def accessDone (type : AccessType) (missed : Bool) (state : MESIState) : Bool :=
  match type with
  | .GETS => !missed || state = .S || state = .E
  | .GETX => state = .M
  | .PUTS | .PUTX => true

def processWritebackOnAccess (state : MESIState) : Option MESIState :=
  if state.isExclusive then some .M else none

/-- The new state and whether the line was dirty, which raises `reqWriteback`. -/
def processInval (type : InvType) (state : MESIState) : Option (MESIState × Bool) :=
  if state = .I then none
  else
    match type with
    | .INVX => if state.isExclusive then some (.S, state = .M) else none
    | .INV => some (.I, state = .M)
    | .FWD => if state = .S then some (state, false) else none

end MESIBottomCC

/-! ## The top controller -/

structure Entry where
  numSharers : Nat
  sharers : Nat → Bool
  exclusive : Bool

namespace Entry

def clear : Entry := ⟨0, fun _ => false, false⟩

def isEmpty (e : Entry) : Bool := e.numSharers = 0

def isExclusive (e : Entry) : Bool := e.numSharers = 1 && e.exclusive

def setSharer (e : Entry) (c : Nat) (present : Bool) : Entry :=
  { e with sharers := Function.update e.sharers c present }

end Entry

namespace MESITopCC

variable {σ : Type} (numChildren : Nat) (invalidate : InvType → Nat → σ → Option σ)

/-- One round of the loop over the children; the counter is `sentInvs`.  The children do
not touch the entry of their parent. -/
def sendInvalidate (type : InvType) (loop : Entry × Nat × σ) (c : Nat) :
    Option (Entry × Nat × σ) := do
  let (e, sentInvs, s) := loop
  if e.sharers c then
    let s ← invalidate type c s
    some (if type = .INV then e.setSharer c false else e, sentInvs + 1, s)
  else some (e, sentInvs, s)

def sendInvalidates (type : InvType) (e : Entry) (s : σ) : Option (Entry × σ) :=
  -- don't propagate downgrades if sharers are not exclusive
  if type = .INVX ∧ e.isExclusive = false then some (e, s)
  else if e.isEmpty then some (e, s)
  else do
    let (e, sentInvs, s) ←
      (List.range numChildren).foldlM (sendInvalidate invalidate type) (e, 0, s)
    if sentInvs = e.numSharers then
      if type = .INV then some ({ e with numSharers := 0 }, s)
      else if e.exclusive ∧ e.numSharers = 1 then some ({ e with exclusive := false }, s)
      else none
    else none

def processEviction (e : Entry) (s : σ) : Option (Entry × σ) :=
  sendInvalidates numChildren invalidate .INV e s

/-- The PUTS case, into which PUTX falls through. -/
def relinquish (childId : Nat) (e : Entry) (s : σ) : Option (Entry × MESIState × σ) :=
  if e.sharers childId then
    some ({ e.setSharer childId false with numSharers := e.numSharers - 1 }, .I, s)
  else none

/-- The new entry and the new state of the requesting child. -/
def processAccess (type : AccessType) (childId : Nat) (haveExclusive : Bool) (flags : Flags)
    (e : Entry) (childState : MESIState) (s : σ) : Option (Entry × MESIState × σ) :=
  match type with
  | .PUTX =>
    if e.isExclusive then
      if flags.putxKeepExcl then
        if e.sharers childId ∧ childState = .M then some (e, .E, s) else none
      else relinquish childId e s
    else none
  | .PUTS => relinquish childId e s
  | .GETS =>
    if e.isEmpty ∧ haveExclusive ∧ flags.noExcl = false then
      some ({ e.setSharer childId true with exclusive := true, numSharers := 1 }, .E, s)
    else if e.sharers childId = false then do
      let (e, s) ←
        if e.isExclusive then sendInvalidates numChildren invalidate .INVX e s else some (e, s)
      if e.isExclusive then none
      else
        some ({ e.setSharer childId true with
          exclusive := false, numSharers := e.numSharers + 1 }, .S, s)
    else none
  | .GETX =>
    if haveExclusive then do
      -- an upgrade miss takes the child out first
      let e ←
        if e.sharers childId then
          if e.isExclusive then none
          else some { e.setSharer childId false with numSharers := e.numSharers - 1 }
        else some e
      let (e, s) ← sendInvalidates numChildren invalidate .INV e s
      let e := { e.setSharer childId true with exclusive := true, numSharers := e.numSharers + 1 }
      if e.numSharers = 1 then some (e, .M, s) else none
    else none

def processInval (type : InvType) (e : Entry) (s : σ) : Option (Entry × σ) :=
  match type with
  | .FWD => some (e, s)
  | _ => sendInvalidates numChildren invalidate type e s

end MESITopCC

end Zsim.Coherence
