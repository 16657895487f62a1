import Zsim.Arrays.CacheArray
import Zsim.Coherence.Directory
import Zsim.Lib.Machine

/-!
# Trace replay

`TraceDriver` of trace_driver.h and trace_driver.cpp with the inclusive cache above its proxies:
`Cache` of cache.cpp with `MESICC` of coherence_ctrls.h.  What is above that cache is not known; it
answers requests, and it may at any time invalidate or downgrade lines that the cache holds.
Skews, latencies and the output trace are left out.  `none` is a failed assertion or a panic.
-/

set_option autoImplicit false

namespace Zsim.Trace

open Coherence

/-- `children[c].cStore` of every child. -/
abbrev Stores := Nat → Address → Option MESIState

namespace Stores

def write (stores : Stores) (c : Nat) (a : Address) (value : Option MESIState) : Stores :=
  Function.update stores c (Function.update (stores c) a value)

/-- The state of a line in a child; it is I without an entry. -/
def held (stores : Stores) (a : Address) (c : Nat) : MESIState := (stores c a).getD .I

end Stores

/-- `TraceDriver::invalidate`; the flag is `*reqWriteback`. -/
def invalidate (numChildren : Nat) (lineAddr : Address) (type : InvType) (childId : Nat)
    (s : Stores × Bool) : Option (Stores × Bool) :=
  if childId < numChildren then
    match s.1 childId lineAddr with
    | none => none
    | some state =>
      let left := if type = .INVX then some MESIState.S else none
      some (s.1.write childId lineAddr left, state = .M)
  else none

structure AccessRecord where
  lineAddr : Address
  childId : Nat
  type : AccessType
  deriving Repr

structure Config where
  numChildren : Nat
  playPuts : Bool
  playAllGets : Bool
  /-- the array of the cache -/
  array : CacheArray

structure Replay (d : Config) where
  array : d.array.State
  /-- `MESIBottomCC::array` -/
  mesi : Nat → MESIState
  /-- `MESITopCC::array` -/
  dir : Nat → Entry
  stores : Stores
  /-- the requests of the driver, each with the state of the line in the child, the latest first -/
  sent : List (AccessType × MESIState)

/-- What the caches above do while they serve a request. -/
structure Above where
  /-- whether a GETS is given E -/
  excl : Bool
  invals : List (InvType × Address)

/-- What an access depends on apart from the state. -/
structure Env where
  rp : RankCands
  evict : Above
  get : Above

namespace Replay

variable {d : Config}

def init (d : Config) : Replay d where
  array := d.array.init
  mesi _ := .I
  dir _ := .clear
  stores _ _ := none
  sent := []

def setMesi (s : Replay d) (id : Nat) (state : MESIState) : Replay d :=
  { s with mesi := Function.update s.mesi id state }

def setDir (s : Replay d) (id : Nat) (e : Entry) : Replay d :=
  { s with dir := Function.update s.dir id e }

def setStores (s : Replay d) (stores : Stores) : Replay d := { s with stores := stores }

def setArray (s : Replay d) (array : d.array.State) : Replay d := { s with array := array }

def log (s : Replay d) (type : AccessType) (state : MESIState) : Replay d :=
  { s with sent := (type, state) :: s.sent }

def find (s : Replay d) (a : Address) : Option Nat := (d.array.lookup s.array a).join

/-- The line in the cache; where the array does not find it, it is invalid. -/
def own (s : Replay d) (a : Address) : MESIState := (s.find a).elim .I s.mesi

def entry (s : Replay d) (a : Address) : Entry := (s.find a).elim .clear s.dir

/-! ## Requests from and to above -/

/-- `Cache::invalidate`. -/
def invalidateLine (type : InvType) (lineAddr : Address) (s : Replay d) : Option (Replay d) := do
  match d.array.lookup s.array lineAddr with
  | some (some id) =>
    let (e, stores, _) ← MESITopCC.processInval d.numChildren
      (Trace.invalidate d.numChildren lineAddr) type (s.dir id) (s.stores, false)
    let (state, _) ← MESIBottomCC.processInval type (s.mesi id)
    some (((s.setStores stores).setDir id e).setMesi id state)
  | _ => none

instance (type : InvType) (state : MESIState) : Decidable (Suits type state) :=
  inferInstanceAs (Decidable (_ ∨ _))

/-- The cache above knows what it has given: it invalidates what is held, and downgrades what is
held exclusively. -/
def fromAbove (type : InvType) (a : Address) (s : Replay d) : Option (Replay d) :=
  if Suits type (s.own a) then s.invalidateLine type a else some s

def grant (excl : Bool) : AccessType → MESIState
  | .PUTS | .PUTX => .I
  | .GETS => if excl then .E else .S
  | .GETX => .M

/-- A request of the bottom controller, if it has one, on behalf of line `id`.  It may cost other
lines; that of the request itself is safe until it is served. -/
def request (lineAddr : Address) (id : Nat) (above : Above) (type : Option AccessType)
    (s : Replay d) : Option (Replay d) :=
  match type with
  | none => some s
  | some type => do
    let s ← above.invals.foldlM
      (fun s (type, a) => if a = lineAddr then some s else s.fromAbove type a) s
    some (s.setMesi id (grant above.excl type))

/-! ## access -/

/-- `processEviction` of the bottom controller. -/
def bottomEviction (wbLineAddr : Address) (id : Nat) (lowerLevelWriteback : Bool) (above : Above)
    (s : Replay d) : Option (Replay d) := do
  let (state, type) ← MESIBottomCC.evict (s.mesi id) lowerLevelWriteback
  let s ← (s.setMesi id state).request wbLineAddr id above type
  if s.mesi id = .I then some s else none

/-- `MESICC::processEviction`. -/
def processEviction (wbLineAddr : Address) (id : Nat) (above : Above) (s : Replay d) :
    Option (Replay d) := do
  let (e, stores, lowerLevelWriteback) ← MESITopCC.processEviction d.numChildren
    (Trace.invalidate d.numChildren wbLineAddr) (s.dir id) (s.stores, false)
  ((s.setStores stores).setDir id e).bottomEviction wbLineAddr id lowerLevelWriteback above

def insert (env : Env) (lineAddr : Address) (s : Replay d) : Option (Nat × Replay d) := do
  let (array, id, wbLineAddr) ← d.array.preinsert s.array lineAddr env.rp
  let s ← (s.setArray array).processEviction wbLineAddr id env.evict
  let array ← d.array.postinsert s.array lineAddr id
  some (id, s.setArray array)

/-- `processAccess` of the bottom controller. -/
def bottomAccess (lineAddr : Address) (id : Nat) (type : AccessType) (above : Above) (s : Replay d) :
    Option (Replay d) := do
  let (state, asks) ← MESIBottomCC.access type (s.mesi id)
  let s ← (s.setMesi id state).request lineAddr id above asks
  if MESIBottomCC.accessDone type asks.isSome (s.mesi id) then some s else none

/-- The part of `MESICC::processAccess` on the directory; gives `*req.state`. -/
def topAccess (acc : AccessRecord) (childState : MESIState) (id : Nat) (s : Replay d) :
    Option (MESIState × Replay d) := do
  let (e, childState, stores, lowerLevelWriteback) ← MESITopCC.processAccess d.numChildren
    (Trace.invalidate d.numChildren acc.lineAddr) acc.type acc.childId (s.mesi id).isExclusive {}
    (s.dir id) childState (s.stores, false)
  let s := (s.setStores stores).setDir id e
  if lowerLevelWriteback then
    let state ← MESIBottomCC.processWritebackOnAccess (s.mesi id)
    some (childState, s.setMesi id state)
  else some (childState, s)

def processAccess (env : Env) (acc : AccessRecord) (childState : MESIState) (id : Nat)
    (s : Replay d) : Option (MESIState × Replay d) :=
  -- can only be a non-inclusive wback
  if (acc.type = .PUTS ∨ acc.type = .PUTX) ∧ s.mesi id = .I then none
  else do
    let s ← s.bottomAccess acc.lineAddr id acc.type env.get
    s.topAccess acc childState id

/-- `Cache::access` for a request of the driver with `*req.state` and `initialState` alike. -/
def access (env : Env) (acc : AccessRecord) (childState : MESIState) (s : Replay d) :
    Option (MESIState × Replay d) := do
  let s := s.log acc.type (s.stores.held acc.lineAddr acc.childId)
  let (type, skipAccess) ← checkForMESIRace acc.type childState childState
  if skipAccess then some (childState, s)
  else
    match d.array.lookup s.array acc.lineAddr with
    | none => none
    | some (some id) => s.processAccess env { acc with type := type } childState id
    | some none =>
      if type = .GETS ∨ type = .GETX then
        let (id, s) ← s.insert env acc.lineAddr
        s.processAccess env { acc with type := type } childState id
      -- we lost inclusion on this line
      else none

/-! ## executeAccess -/

/-- A PUT; the proxy's cell must be I behind it. -/
def put (env : Env) (acc : AccessRecord) (held : MESIState) (s : Replay d) : Option (Replay d) := do
  let (state, s) ← s.access env acc held
  if state = .I then some (s.setStores (s.stores.write acc.childId acc.lineAddr (some .I))) else none

/-- A GET with the local variable `state`, which then goes to the store. -/
def get (env : Env) (acc : AccessRecord) (state : MESIState) (s : Replay d) : Option (Replay d) := do
  let (state, s) ← s.access env acc state
  if state ≠ .I then some (s.setStores (s.stores.write acc.childId acc.lineAddr (some state)))
  else none

def executeAccess (env : Env) (acc : AccessRecord) (s : Replay d) : Option (Replay d) :=
  if acc.childId < d.numChildren then
    match acc.type with
    | .PUTS | .PUTX =>
      if d.playPuts then
        match s.stores acc.childId acc.lineAddr with
        | none => some s  -- we don't currently have this line, skip
        | some held => do
          let s ← s.put env acc held
          some (s.setStores (s.stores.write acc.childId acc.lineAddr none))
      else some s
    | .GETS | .GETX =>
      match s.stores acc.childId acc.lineAddr with
      | none => s.get env acc .I
      | some held =>
        if held = .S ∧ acc.type = .GETX then s.get env acc held
        -- not an upgrade miss, we can't replay this access directly
        else if d.playAllGets then do
          let s ← s.put env { acc with type := if held = .M then .PUTX else .PUTS } held
          s.get env acc .I
        else some s
  else none

/-! ## The machine -/

inductive Input where
  | record (env : Env) (acc : AccessRecord)
  /-- between two records -/
  | above (type : InvType) (lineAddr : Address)

def legal (_ : Replay d) : Input → Prop
  | .record _ acc => acc.childId < d.numChildren ∧ d.array.Addressable acc.lineAddr
  | .above _ _ => True

def step (s : Replay d) : Input → Option (Replay d)
  | .record env acc => s.executeAccess env acc
  | .above type a => s.fromAbove type a

def machine (d : Config) : Machine (Replay d) Input := ⟨legal, step⟩

end Replay

end Zsim.Trace
