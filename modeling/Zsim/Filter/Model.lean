import Mathlib.Algebra.Group.Nat.Defs
import Zsim.Coherence.Controllers
import Zsim.Filter.LRU
import Zsim.Lib.Machine

/-!
# The L1 and its filter

`Cache::access` and `finishInvalidate` of cache.cpp for a terminal cache, `FilterCache`
of filter_cache.h over it, and the thread that runs on the core.  An access is cut where
it releases its locks to call the parent: there the caches above may invalidate lines of
this one.  Cycles and counters are left out.
-/

set_option autoImplicit false

namespace Zsim.Filter

open Coherence

/-- What init.cpp accepts for a terminal cache: a set-associative array without hashing,
under LRU.  Lines are `2 ^ lineBits` bytes. -/
structure L1Config where
  setBits : Nat
  assoc : Nat
  lineBits : Nat
  assocPos : 0 < assoc
  setBitsWord : setBits < 32
  -- with lines of one byte, the shift that makes procMask would be undefined
  lineBitsPos : 0 < lineBits
  lineBitsWord : lineBits < 32

namespace L1Config

variable (c : L1Config)

def array : SetAssocConfig where
  numSets := 2 ^ c.setBits
  assoc := c.assoc
  hash := id
  isPow2 := by
    refine ⟨(Nat.two_pow_pos c.setBits).ne', ?_⟩
    rw [Nat.and_two_pow_sub_one_eq_mod, Nat.mod_self]
  assocPos := c.assocPos

def setMask : Nat := 2 ^ c.setBits - 1

/-- `procMask` of the process with an index. -/
def procMask (procIdx : Nat) : Nat := u64 (procIdx <<< (64 - c.lineBits))

end L1Config

/-! ## The cache -/

/-- The tags, the replacement policy and the states of `MESIBottomCC`. -/
structure L1 where
  tags : SetAssocArray
  rp : LRUReplPolicy
  states : Nat → MESIState

inductive Stage
  | evicting | fetching
  deriving DecidableEq, Repr

/-- An access that has called the parent, with the line it evicts or for the line it
wants. -/
structure Miss where
  type : AccessType
  lineAddr : Nat
  id : Nat
  stage : Stage
  deriving DecidableEq, Repr

namespace L1

def init : L1 := ⟨fun _ => 0, .init, fun _ => .I⟩

def isValid (s : L1) (id : Nat) : Bool := s.states id ≠ .I

def setState (s : L1) (id : Nat) (state : MESIState) : L1 :=
  { s with states := Function.update s.states id state }

/-- `processAccess` up to the request, if any. -/
def processAccess (type : AccessType) (lineAddr id : Nat) (s : L1) : Option (L1 × Option Miss) := do
  let (state, get) ← MESIBottomCC.access type (s.states id)
  if get.isSome then some (s.setState id state, some ⟨type, lineAddr, id, .fetching⟩)
  else if MESIBottomCC.accessDone type false state then some (s.setState id state, none)
  else none

/-- From the end of `processEviction` on. -/
def allocate (type : AccessType) (lineAddr id : Nat) (s : L1) : Option (L1 × Option Miss) :=
  if s.states id = .I then
    processAccess type lineAddr id
      { s with
        tags := SetAssocConfig.postinsert s.tags lineAddr id
        rp := (s.rp.replaced id).update id }
  else none

def access (c : L1Config) (type : AccessType) (lineAddr : Nat) (s : L1) :
    Option (L1 × Option Miss) :=
  match c.array.lookup s.tags lineAddr with
  | some id => processAccess type lineAddr id { s with rp := s.rp.update id }
  | none => do
    let id := (c.array.preinsert s.tags lineAddr (s.rp.rankCands s.isValid)).1
    let (state, put) ← MESIBottomCC.evict (s.states id) false
    if put.isSome then some (s.setState id state, some ⟨type, lineAddr, id, .evicting⟩)
    else allocate type lineAddr id (s.setState id state)

/-- The parent has taken the line. -/
def putDone (m : Miss) (s : L1) : Option (L1 × Option Miss) :=
  allocate m.type m.lineAddr m.id (s.setState m.id .I)

/-- The parent has answered with a state. -/
def granted (m : Miss) (state : MESIState) (s : L1) : Option L1 :=
  if MESIBottomCC.accessDone m.type true state then some (s.setState m.id state) else none

def finishInvalidate (c : L1Config) (type : InvType) (lineAddr : Nat) (s : L1) : Option L1 := do
  let id ← c.array.lookup s.tags lineAddr
  let (state, _) ← MESIBottomCC.processInval type (s.states id)
  some (s.setState id state)

end L1

/-! ## A core without the filter -/

inductive Op
  | load (vAddr : Nat)
  | store (vAddr : Nat)
  /-- the parent has taken the evicted line -/
  | putDone
  /-- the parent has answered the request -/
  | granted (state : MESIState)
  /-- by a thread of the process with the index -/
  | invalidate (procIdx lineAddr : Nat) (type : InvType)
  | contextSwitch (procIdx : Nat)
  deriving DecidableEq, Repr

/-- The cache, the access that waits for the parent, and the `procMask` of the thread
that runs on the core. -/
structure Plain where
  cache : L1
  miss : Option Miss
  procMask : Nat

namespace Plain

variable (c : L1Config)

def init : Plain := ⟨L1.init, none, 0⟩

/-- The thread waits while a miss is open, and its addresses are words. -/
def legal (s : Plain) : Op → Prop
  | .load vAddr | .store vAddr =>
    s.miss.isNone = true ∧ vAddr < 2 ^ 64 ∧ vAddr >>> c.lineBits ≠ 0
  | .contextSwitch _ => s.miss.isNone = true
  | .putDone | .granted _ | .invalidate .. => True

def access (type : AccessType) (vAddr : Nat) (s : Plain) : Option Plain := do
  let (cache, miss) ← s.cache.access c type (s.procMask ||| vAddr >>> c.lineBits)
  some { s with cache := cache, miss := miss }

def putDone (s : Plain) : Option Plain := do
  let m ← s.miss
  if m.stage = .evicting then
    let (cache, miss) ← s.cache.putDone m
    some { s with cache := cache, miss := miss }
  else none

def granted (state : MESIState) (s : Plain) : Option Plain := do
  let m ← s.miss
  if m.stage = .fetching then
    let cache ← s.cache.granted m state
    some { s with cache := cache, miss := none }
  else none

def invalidate (lineAddr : Nat) (type : InvType) (s : Plain) : Option Plain := do
  let cache ← s.cache.finishInvalidate c type lineAddr
  some { s with cache := cache }

/-- Every load and store goes through `Cache::access`. -/
def step (s : Plain) : Op → Option Plain
  | .load vAddr => s.access c .GETS vAddr
  | .store vAddr => s.access c .GETX vAddr
  | .putDone => s.putDone
  | .granted state => s.granted state
  | .invalidate _ lineAddr type => s.invalidate c lineAddr type
  | .contextSwitch procIdx => some { s with procMask := c.procMask procIdx }

end Plain

instance Plain.decidableLegal (c : L1Config) (s : Plain) : ∀ op, Decidable (s.legal c op)
  | .load _ | .store _ => inferInstanceAs (Decidable (_ ∧ _ ∧ _))
  | .contextSwitch _ => inferInstanceAs (Decidable (_ = _))
  | .putDone | .granted _ | .invalidate .. => .isTrue trivial

def plain (c : L1Config) : Machine Plain Op := ⟨Plain.legal c, Plain.step c⟩

/-! ## A core with the filter -/

structure FilterEntry where
  rdAddr : Nat
  wrAddr : Nat
  deriving DecidableEq, Repr

namespace FilterEntry

/-- -1L -/
def invalid : Nat := 2 ^ 64 - 1

def clear : FilterEntry := ⟨0, 0⟩

end FilterEntry

/-- `vLineAddr` and `isLoad` are the variables of the `replace` that waits. -/
structure Filtered extends Plain where
  filterArray : Nat → FilterEntry
  vLineAddr : Nat
  isLoad : Bool

namespace Filtered

variable (c : L1Config)

def init : Filtered := { Plain.init with filterArray := fun _ => .clear, vLineAddr := 0, isLoad := true }

/-- `replace` from the end of the access on. -/
def fill (s : Filtered) : Filtered :=
  { s with
    filterArray := Function.update s.filterArray (s.vLineAddr &&& c.setMask)
      ⟨s.vLineAddr, if s.isLoad then FilterEntry.invalid else s.vLineAddr⟩ }

/-- Where the access waits, so does `replace`. -/
def accessed (cache : L1) (miss : Option Miss) (s : Filtered) : Filtered :=
  let s := { s with cache := cache, miss := miss }
  if miss.isNone then s.fill c else s

def replace (vLineAddr : Nat) (isLoad : Bool) (s : Filtered) : Option Filtered := do
  let pLineAddr := s.procMask ||| vLineAddr
  let (cache, miss) ← s.cache.access c (if isLoad then .GETS else .GETX) pLineAddr
  some ({ s with vLineAddr := vLineAddr, isLoad := isLoad }.accessed c cache miss)

def loadHits (s : Filtered) (vLineAddr : Nat) : Prop :=
  vLineAddr = (s.filterArray (vLineAddr &&& c.setMask)).rdAddr

def storeHits (s : Filtered) (vLineAddr : Nat) : Prop :=
  vLineAddr = (s.filterArray (vLineAddr &&& c.setMask)).wrAddr

instance (s : Filtered) (vLineAddr : Nat) : Decidable (s.loadHits c vLineAddr) :=
  inferInstanceAs (Decidable (_ = _))

instance (s : Filtered) (vLineAddr : Nat) : Decidable (s.storeHits c vLineAddr) :=
  inferInstanceAs (Decidable (_ = _))

def load (vAddr : Nat) (s : Filtered) : Option Filtered :=
  let vLineAddr := vAddr >>> c.lineBits
  if s.loadHits c vLineAddr then some s else s.replace c vLineAddr true

def store (vAddr : Nat) (s : Filtered) : Option Filtered :=
  let vLineAddr := vAddr >>> c.lineBits
  if s.storeHits c vLineAddr then some s else s.replace c vLineAddr false

def putDone (s : Filtered) : Option Filtered := do
  let m ← s.miss
  if m.stage = .evicting then
    let (cache, miss) ← s.cache.putDone m
    some (s.accessed c cache miss)
  else none

def granted (state : MESIState) (s : Filtered) : Option Filtered := do
  let m ← s.miss
  if m.stage = .fetching then
    let cache ← s.cache.granted m state
    some (s.accessed c cache none)
  else none

/-- The `procMask` is that of the thread that invalidates. -/
def invalidate (procMask lineAddr : Nat) (type : InvType) (s : Filtered) : Option Filtered := do
  let idx := lineAddr &&& c.setMask
  let filterArray :=
    if (s.filterArray idx).rdAddr ||| procMask = lineAddr then
      Function.update s.filterArray idx ⟨FilterEntry.invalid, FilterEntry.invalid⟩
    else s.filterArray
  let cache ← s.cache.finishInvalidate c type lineAddr
  some { s with cache := cache, filterArray := filterArray }

/-- The core clears the filter when it deschedules a thread. -/
def contextSwitch (procMask : Nat) (s : Filtered) : Filtered :=
  { s with procMask := procMask, filterArray := fun _ => .clear }

def step (s : Filtered) : Op → Option Filtered
  | .load vAddr => s.load c vAddr
  | .store vAddr => s.store c vAddr
  | .putDone => s.putDone c
  | .granted state => s.granted c state
  | .invalidate procIdx lineAddr type => s.invalidate c (c.procMask procIdx) lineAddr type
  | .contextSwitch procIdx => some (s.contextSwitch (c.procMask procIdx))

end Filtered

def filtered (c : L1Config) : Machine Filtered Op := ⟨fun s => s.toPlain.legal c, Filtered.step c⟩

instance (c : L1Config) (s : Filtered) (op : Op) : Decidable ((filtered c).legal s op) :=
  s.toPlain.decidableLegal c op

end Zsim.Filter
