import Zsim.Coherence.Directory
import Zsim.Lib.Machine

/-!
# Races on a line

A parent, its children and what the parent's own parent does, for one line.  A child that
asks gives up its bottom lock until it is served, and so does the parent when it asks in
turn, with its top lock held.  Each step is a section in which the bottom locks of the
caches it touches are held; `none` is a failed assertion or a panic.
-/

set_option autoImplicit false

namespace Zsim.Coherence.Races

/-- A request that waits for the parent's locks. -/
structure Pending where
  type : AccessType
  initialState : MESIState
  flags : Flags
  deriving DecidableEq

structure Child where
  state : MESIState
  pending : Option Pending
  deriving DecidableEq

/-- What the parent waits for with its top lock held. -/
inductive Upstream where
  /-- a GET on behalf of child `c` -/
  | get (c : Nat) (type : AccessType) (flags : Flags) (initialState : MESIState)
  /-- the PUT of its own eviction -/
  | put (type : AccessType) (initialState : MESIState)
  deriving DecidableEq

structure State where
  /-- the line in the bottom controller of the parent -/
  own : MESIState
  entry : Entry
  child : Nat → Child
  upstream : Option Upstream

def init : State := ⟨.I, .clear, fun _ => ⟨.I, none⟩, none⟩

def State.setChild (sys : State) (c : Nat) (child : Child) : State :=
  { sys with child := Function.update sys.child c child }

/-! ## The children -/

/-- `processAccess` of the bottom controller of a child, up to its request. -/
def accessChild (c : Nat) (type : AccessType) (flags : Flags) (sys : State) : Option State := do
  let (state, asks) ← MESIBottomCC.access type (sys.child c).state
  some (sys.setChild c ⟨state, asks.map fun type => ⟨type, state, flags⟩⟩)

/-- `processEviction` of the bottom controller of a child, up to its request. -/
def evictChild (c : Nat) (lowerLevelWriteback : Bool) (sys : State) : Option State := do
  let (state, asks) ← MESIBottomCC.evict (sys.child c).state lowerLevelWriteback
  some (sys.setChild c ⟨state, asks.map fun type => ⟨type, state, {}⟩⟩)

/-- What the bottom controller of a child asserts when it has been served. -/
def childDone (type : AccessType) (state : MESIState) : Bool :=
  match type with
  | .PUTS | .PUTX => state = .I
  | _ => MESIBottomCC.accessDone type true state

def invalidateChild (type : InvType) (c : Nat) (s : (Nat → Child) × Bool) :
    Option ((Nat → Child) × Bool) := do
  let (child, reqWriteback) := s
  let (state, dirty) ← MESIBottomCC.processInval type (child c).state
  some (Function.update child c { child c with state }, reqWriteback || dirty)

/-! ## The parent -/

section
variable (kids : Nat)

def complete (c : Nat) (type : AccessType) (flags : Flags) (sys : State) : Option State := do
  let (e, state, child, lowerLevelWriteback) ←
    MESITopCC.processAccess kids invalidateChild type c sys.own.isExclusive flags sys.entry
      (sys.child c).state (sys.child, false)
  let own ←
    if lowerLevelWriteback then MESIBottomCC.processWritebackOnAccess sys.own else some sys.own
  if childDone type state then
    some { sys with own := own, entry := e, child := Function.update child c ⟨state, none⟩ }
  else none

/-- `access` of the parent by child `c`, up to its own request if it has one. -/
def serve (c : Nat) (sys : State) : Option State :=
  match (sys.child c).pending with
  | none => none
  | some r => do
    let (type, skipAccess) ← checkForMESIRace r.type (sys.child c).state r.initialState
    if skipAccess then
      if childDone r.type (sys.child c).state then
        some (sys.setChild c ⟨(sys.child c).state, none⟩)
      else none
    -- can only be a non-inclusive wback
    else if (type = .PUTS ∨ type = .PUTX) ∧ sys.own = .I then none
    else
      let (own, asks) ← MESIBottomCC.access type sys.own
      match asks with
      | some asked => some { sys with own := own, upstream := some (.get c asked r.flags own) }
      | none => complete kids c type r.flags { sys with own := own }

/-- The parent's own request is served, and leaves its line in state `given`. -/
def grant (given : MESIState) (sys : State) : Option State :=
  match sys.upstream with
  | none => none
  | some (.get c type flags initialState) => do
    let (_, skipAccess) ← checkForMESIRace type sys.own initialState
    let own := if skipAccess then sys.own else given
    if MESIBottomCC.accessDone type true own then
      complete kids c type flags { sys with own := own, upstream := none }
    else none
  | some (.put type initialState) => do
    let (_, skipAccess) ← checkForMESIRace type sys.own initialState
    let own := if skipAccess then sys.own else given
    if own = .I then some { sys with own := own, upstream := none } else none

def invalidate (type : InvType) (sys : State) : Option State := do
  let (e, child, _) ← MESITopCC.processInval kids invalidateChild type sys.entry (sys.child, false)
  let (own, _) ← MESIBottomCC.processInval type sys.own
  some { sys with own := own, entry := e, child := child }

def evict (sys : State) : Option State := do
  let (e, child, lowerLevelWriteback) ←
    MESITopCC.processEviction kids invalidateChild sys.entry (sys.child, false)
  let (own, asks) ← MESIBottomCC.evict sys.own lowerLevelWriteback
  some { sys with
    own := own, entry := e, child := child, upstream := asks.map fun type => .put type own }

/-! ## The machine -/

inductive Op where
  | accessChild (c : Nat) (type : AccessType) (flags : Flags)
  | evictChild (c : Nat) (lowerLevelWriteback : Bool)
  | serve (c : Nat)
  | grant (given : MESIState)
  | invalidate (type : InvType)
  | evict
  deriving DecidableEq

def step (sys : State) : Op → Option State
  | .accessChild c type flags => accessChild c type flags sys
  | .evictChild c lowerLevelWriteback => evictChild c lowerLevelWriteback sys
  | .serve c => serve kids c sys
  | .grant given => grant kids given sys
  | .invalidate type => invalidate kids type sys
  | .evict => evict kids sys

/-- A child with a request out does not start another; its top controller, exact like that
of the parent, passes on PUTs of lines the child has and writebacks of lines it may write.
A request is served when the parent's top lock is free.  The parent's own parent sends
invalidations that suit the line and answers with what was asked for. -/
def legal (sys : State) : Op → Prop
  | .accessChild c type flags => c < kids ∧ (sys.child c).pending = none ∧
      (type = .PUTS → (sys.child c).state ≠ .I) ∧
      (type = .PUTX → (sys.child c).state.isExclusive = true) ∧ flags.prefetch = false
  | .evictChild c lowerLevelWriteback => c < kids ∧ (sys.child c).pending = none ∧
      (lowerLevelWriteback = true → (sys.child c).state.isExclusive = true)
  | .serve c => sys.upstream = none ∧ (sys.child c).pending ≠ none
  | .grant given => ∃ up, sys.upstream = some up ∧
      match up with
      | .get _ type _ _ => Grants type given
      | .put .. => given = .I
  | .invalidate type => Suits type sys.own
  | .evict => sys.upstream = none

def machine : Machine State Op := ⟨legal kids, step kids⟩

end

end Zsim.Coherence.Races
