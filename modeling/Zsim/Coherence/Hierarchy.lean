import Zsim.Arrays.CacheArray
import Zsim.Coherence.Lines
import Zsim.Lib.Machine

/-!
# A tree of caches

`Cache` of cache.cpp with `MESICC` and `MESITerminalCC` of coherence_ctrls.h, in a tree
of any depth and fan-out over a memory.  The caches are inclusive.  An access runs to its
end before the next one starts; `none` is a failed assertion or a panic.
-/

set_option autoImplicit false

namespace Zsim.Coherence


structure Hierarchy where
  /-- a cache without children is terminal -/
  kids : Node → Nat
  height : Nat
  bounded : ∀ n, height ≤ n.length → kids n = 0
  array : Node → CacheArray
  /-- `SimpleMemory` and most others give S to a GETS with NOEXCL, `DetailedMemory` does not -/
  noExclShared : Bool

structure MemReq where
  lineAddr : Address
  type : AccessType
  childId : Nat
  /-- the line id in the child, or a variable of the core or prefetcher -/
  state : Option (Node × Nat)
  initialState : MESIState
  flags : Flags

namespace Hierarchy

variable (h : Hierarchy)

structure Sys where
  array : (n : Node) → (h.array n).State
  /-- `MESIBottomCC::array` -/
  mesi : Node → Nat → MESIState
  /-- `MESITopCC::array` -/
  dir : Node → Nat → Entry
  /-- what memory was asked for, the latest request first -/
  memory : List (AccessType × Address)

def init : Sys h where
  array n := (h.array n).init
  mesi _ _ := .I
  dir _ _ := .clear
  memory := []

namespace Sys

variable {h}

def setArray (sys : Sys h) (n : Node) (array : (h.array n).State) : Sys h :=
  { sys with array := Function.update sys.array n array }

def setMesi (sys : Sys h) (n : Node) (id : Nat) (state : MESIState) : Sys h :=
  { sys with mesi := Function.update sys.mesi n (Function.update (sys.mesi n) id state) }

def setDir (sys : Sys h) (n : Node) (id : Nat) (e : Entry) : Sys h :=
  { sys with dir := Function.update sys.dir n (Function.update (sys.dir n) id e) }

/-- `*req.state`; the variable of a core or prefetcher is I. -/
def load (sys : Sys h) : Option (Node × Nat) → MESIState
  | some (n, id) => sys.mesi n id
  | none => .I

def store (sys : Sys h) (cell : Option (Node × Nat)) (state : MESIState) : Sys h :=
  match cell with
  | some (n, id) => sys.setMesi n id state
  | none => sys

end Sys

variable {h}

/-! ## invalidate -/

/-- `Cache::finishInvalidate`; `top` is what the top controller does, if there is one. -/
def finishInvalidate (n : Node) (lineAddr : Address) (type : InvType)
    (top : Entry → Sys h × Bool → Option (Entry × Sys h × Bool)) (s : Sys h × Bool) :
    Option (Sys h × Bool) := do
  let (sys, reqWriteback) := s
  match (h.array n).lookup (sys.array n) lineAddr with
  | some (some id) =>
    let (e, sys, reqWriteback) ← top (sys.dir n id) (sys, reqWriteback)
    let sys := sys.setDir n id e
    let (state, dirty) ← MESIBottomCC.processInval type (sys.mesi n id)
    some (sys.setMesi n id state, reqWriteback || dirty)
  | _ => none

/-- `Cache::invalidate` of a node with at most `levels` levels below. -/
def invalidate (lineAddr : Address) : Nat → InvType → Node → Sys h × Bool → Option (Sys h × Bool)
  | 0, type, n => finishInvalidate n lineAddr type fun e s => some (e, s)
  | levels + 1, type, n => finishInvalidate n lineAddr type fun e s =>
    if h.kids n = 0 then some (e, s)
    else
      MESITopCC.processInval (h.kids n)
        (fun type c => invalidate lineAddr levels type (c :: n)) type e s

def invalidateChild (n : Node) (lineAddr : Address) (type : InvType) (c : Nat) (s : Sys h × Bool) :
    Option (Sys h × Bool) :=
  invalidate lineAddr h.height type (c :: n) s

/-! ## access -/

def selfId (n : Node) : Nat := n.headD 0

section
variable (parent : MemReq → Sys h → Option (Sys h)) (n : Node)

/-- A request of the bottom controller, if it has one, on behalf of line `id`. -/
def request (lineAddr : Address) (id : Nat) (flags : Flags) (type : Option AccessType) (sys : Sys h) :
    Option (Sys h) :=
  match type with
  | none => some sys
  | some type => parent {
      lineAddr := lineAddr
      type := type
      childId := selfId n
      state := some (n, id)
      initialState := sys.mesi n id
      flags := flags } sys

/-- `processEviction` of the bottom controller. -/
def bottomEviction (wbLineAddr : Address) (id : Nat) (lowerLevelWriteback : Bool) (sys : Sys h) :
    Option (Sys h) := do
  let (state, type) ← MESIBottomCC.evict (sys.mesi n id) lowerLevelWriteback
  let sys ← request parent n wbLineAddr id {} type (sys.setMesi n id state)
  if sys.mesi n id = .I then some sys else none

/-- `processEviction` of `MESICC` and `MESITerminalCC`. -/
def processEviction (wbLineAddr : Address) (id : Nat) (sys : Sys h) : Option (Sys h) := do
  if h.kids n = 0 then bottomEviction parent n wbLineAddr id false sys
  else
    let (e, sys, lowerLevelWriteback) ←
      MESITopCC.processEviction (h.kids n) (invalidateChild n wbLineAddr) (sys.dir n id) (sys, false)
    bottomEviction parent n wbLineAddr id lowerLevelWriteback (sys.setDir n id e)

/-- `processAccess` of the bottom controller. -/
def bottomAccess (lineAddr : Address) (id : Nat) (type : AccessType) (flags : Flags) (sys : Sys h) :
    Option (Sys h) := do
  let (state, asks) ← MESIBottomCC.access type (sys.mesi n id)
  let sys ← request parent n lineAddr id flags asks (sys.setMesi n id state)
  if MESIBottomCC.accessDone type asks.isSome (sys.mesi n id) then some sys else none

/-- The part of `MESICC::processAccess` on the directory. -/
def topAccess (req : MemReq) (type : AccessType) (id : Nat) (flags : Flags) (sys : Sys h) :
    Option (Sys h) := do
  let (e, childState, sys, lowerLevelWriteback) ←
    MESITopCC.processAccess (h.kids n) (invalidateChild n req.lineAddr) type req.childId
      (sys.mesi n id).isExclusive flags (sys.dir n id) (sys.load req.state) (sys, false)
  let sys := (sys.setDir n id e).store req.state childState
  if lowerLevelWriteback then
    let state ← MESIBottomCC.processWritebackOnAccess (sys.mesi n id)
    some (sys.setMesi n id state)
  else some sys

/-- `processAccess` of `MESICC` and `MESITerminalCC`. -/
def processAccess (req : MemReq) (type : AccessType) (id : Nat) (sys : Sys h) : Option (Sys h) := do
  if h.kids n = 0 then bottomAccess parent n req.lineAddr id type req.flags sys
  -- can only be a non-inclusive wback
  else if (type = .PUTS ∨ type = .PUTX) ∧ sys.mesi n id = .I then none
  else if req.flags.prefetch ∧ type ≠ .GETS then none
  else
    let flags := { req.flags with prefetch := false }
    let sys ← bottomAccess parent n req.lineAddr id type flags sys
    -- prefetches only touch bcc
    if req.flags.prefetch then some sys else topAccess n req type id flags sys

/-- Make space for a new line; gives its id. -/
def insert (rp : RankCands) (lineAddr : Address) (sys : Sys h) : Option (Nat × Sys h) := do
  let (array, id, wbLineAddr) ← (h.array n).preinsert (sys.array n) lineAddr rp
  let sys ← processEviction parent n wbLineAddr id (sys.setArray n array)
  let array ← (h.array n).postinsert (sys.array n) lineAddr id
  some (id, sys.setArray n array)

/-- `Cache::access`. -/
def cacheAccess (rp : RankCands) (req : MemReq) (sys : Sys h) : Option (Sys h) := do
  if h.kids n = 0 ∧ (req.type = .PUTS ∨ req.type = .PUTX) then none
  else
    let (type, skipAccess) ← checkForMESIRace req.type (sys.load req.state) req.initialState
    if skipAccess then some sys
    else
      match (h.array n).lookup (sys.array n) req.lineAddr with
      | none => none
      | some (some id) => processAccess parent n req type id sys
      | some none =>
        if type = .GETS ∨ type = .GETX then
          let (id, sys) ← insert parent n rp req.lineAddr sys
          processAccess parent n req type id sys
        -- we lost inclusion on this line
        else none

end

def memoryAccess (req : MemReq) (sys : Sys h) : Option (Sys h) :=
  let given : MESIState :=
    match req.type with
    | .PUTS | .PUTX => .I
    | .GETS => if req.flags.noExcl ∧ h.noExclShared then .S else .E
    | .GETX => .M
  some { sys.store req.state given with memory := (req.type, req.lineAddr) :: sys.memory }

/-- An access to cache `n`; `rp n` is what its replacement policy answers. -/
def access (rp : Node → RankCands) : (n : Node) → MemReq → Sys h → Option (Sys h)
  | [] => cacheAccess memoryAccess [] (rp [])
  | c :: p => cacheAccess (access rp p) (c :: p) (rp (c :: p))

/-! ## The machine -/

inductive Op where
  /-- an access of a core to its terminal cache -/
  | core (rp : Node → RankCands) (leaf : Node) (type : AccessType) (lineAddr : Address) (flags : Flags)
  /-- an access of a prefetcher that sits below `n` -/
  | prefetch (rp : Node → RankCands) (n : Node) (childId : Nat) (lineAddr : Address) (flags : Flags)

def step (sys : Sys h) : Op → Option (Sys h)
  | .core rp leaf type lineAddr flags => access rp leaf ⟨lineAddr, type, 0, none, .I, flags⟩ sys
  | .prefetch rp n childId lineAddr flags =>
      access rp n ⟨lineAddr, .GETS, childId, none, .I, { flags with prefetch := true }⟩ sys

def IsCache (h : Hierarchy) : Node → Prop
  | [] => True
  | c :: p => c < h.kids p ∧ IsCache h p

def Addressable (h : Hierarchy) (lineAddr : Address) : Prop :=
  ∀ n, (h.array n).Addressable lineAddr

def legal (h : Hierarchy) (_ : Sys h) : Op → Prop
  | .core _ leaf type lineAddr _ =>
      h.IsCache leaf ∧ h.kids leaf = 0 ∧ (type = .GETS ∨ type = .GETX) ∧ h.Addressable lineAddr
  | .prefetch _ n _ lineAddr _ => h.IsCache n ∧ h.kids n ≠ 0 ∧ h.Addressable lineAddr

def machine (h : Hierarchy) : Machine (Sys h) Op := ⟨h.legal, step⟩

end Hierarchy

end Zsim.Coherence
