import Mathlib.Algebra.GroupWithZero.Nat
import Zsim.Config.Mask

/-!
# The system that is built

`InitSystem` of init.cpp with `BuildCacheGroup`: the cache groups of a configuration are read, built
and connected to each other, to the memory controllers and to the cores.  An object is known by its
place, and what it is told by `setParents` and `setChildren` is recorded.
-/

set_option autoImplicit false

namespace Zsim.System

abbrev Name := List Char

/-! ## Configurations -/

structure CacheGroupConfig where
  name : Name
  children : List Char := []
  isPrefetcher : Bool := false
  prefetchers : Nat := 1
  /-- the type is "TraceDriven" -/
  isProxy : Bool := false
  size : Nat := 64 * 1024
  banks : Nat := 1
  caches : Nat := 1

inductive CoreType
  | simple | timing | ooo | null | other
  deriving DecidableEq

structure CoreGroupConfig where
  name : Name
  cores : Nat := 1
  type : CoreType := .simple
  icache : Option Name := none
  dcache : Option Name := none

structure SystemConfig where
  caches : List CacheGroupConfig
  cores : List CoreGroupConfig := []
  controllers : Nat := 1
  splitAddrs : Bool := true
  traceDriven : Bool := false

/-- What `config.get` finds of a group, the defaults if there is none. -/
def SystemConfig.group (cfg : SystemConfig) (name : Name) : CacheGroupConfig :=
  (cfg.caches.find? fun g => g.name = name).getD { name := name }

def SystemConfig.numCores (cfg : SystemConfig) : Nat := (cfg.cores.map CoreGroupConfig.cores).sum

inductive Kind
  | cache | filter | proxy | prefetcher
  deriving DecidableEq

structure BaseCache where
  group : Name
  cache : Nat
  bank : Nat
  kind : Kind
  deriving DecidableEq

inductive MemObject
  | cache (bank : BaseCache)
  | controller (i : Nat)
  | splitter
  deriving DecidableEq

abbrev CacheGroup := List (List BaseCache)

/-! ## Failures -/

/-- Panics, failed assertions and accesses to what is not there. -/
inductive Failure
  | unparsable (token : List Char)
  | memGroup
  | duplicateGroup (group : Name)
  | twoParents (child : Name)
  | invalidChild (child : Name)
  | lastLevels (groups : List Name)
  | zeroBanks (group : Name)
  | bankSize (group : Name)
  | proxyCache (group : Name)
  | loop (group : Name)
  | llcCaches
  | noControllers
  | nullGroup (group : Name)
  | noCaches (group : Name)
  | noChildren (group : Name)
  | interleaved (child : Name)
  | nonDivisible (group : Name)
  | oneParent (bank : BaseCache)
  | oneChild (bank : BaseCache)
  | maxChildren (bank : BaseCache)
  | terminal (bank : BaseCache)
  | terminalBanks (group : Name)
  | coreGroup (group : Name)
  | coreType (group : Name)
  | noIcache (group : Name)
  | noDcache (group : Name)
  | fullyUsed (group : Name)
  | notFilter (group : Name)
  | notConnected (group : Name)
  | notProxy (group : Name)
  | numCores
  | outOfFuel
  deriving DecidableEq

def require (p : Prop) [Decidable p] (failure : Failure) : Except Failure Unit :=
  if p then .ok () else .error failure

def ofOption {α : Type} (failure : Failure) : Option α → Except Failure α
  | some a => .ok a
  | none => .error failure

/-! ## Reading the groups -/

/-- `ss >> x` for a `string` -/
def extractString (token : List Char) : Except Failure Name := do
  let x := (token.dropWhile Config.isSpace).takeWhile fun c => !Config.isSpace c
  require (x ≠ []) (.unparsable token)
  return x

/-- `ParseList<string>` -/
def parseList (listStr delimiters : List Char) : Except Failure (List Name) :=
  ((Config.tokenize delimiters listStr).filter (· ≠ [])).mapM extractString

/-- The outer lists are concatenated, the inner ones interleaved. -/
def parseChildren (children : List Char) : Except Failure (List (List Name)) := do
  let concatGroups ← parseList children [' ']
  concatGroups.mapM fun cg => parseList cg ['|']

structure Maps where
  childMap : List (Name × List (List Name))
  /-- child and parent -/
  parentMap : List (Name × Name)

def Maps.names (maps : Maps) : List Name := maps.childMap.map Prod.fst

def Maps.children (maps : Maps) (group : Name) : List (List Name) := (maps.childMap.lookup group).getD []

def Maps.kids (maps : Maps) (group : Name) : List Name := (maps.children group).flatten

def Maps.isTerminal (maps : Maps) (group : Name) : Bool := (maps.children group).length = 0

def addChild (group : Name) (parentMap : List (Name × Name)) (child : Name) :
    Except Failure (List (Name × Name)) := do
  require (child ∉ parentMap.map Prod.fst) (.twoParents child)
  return parentMap ++ [(child, group)]

def addGroup (maps : Maps) (g : CacheGroupConfig) : Except Failure Maps := do
  require (g.name ≠ ['m', 'e', 'm']) .memGroup
  require (g.name ∉ maps.names) (.duplicateGroup g.name)
  let children ← parseChildren g.children
  let parentMap ← children.flatten.foldlM (addChild g.name) maps.parentMap
  return ⟨maps.childMap ++ [(g.name, children)], parentMap⟩

def readGroups (cfg : SystemConfig) : Except Failure Maps := cfg.caches.foldlM addGroup ⟨[], []⟩

/-- Every child must be another group. -/
def checkChildren (maps : Maps) : Except Failure Unit :=
  match (maps.parentMap.map Prod.fst).find? (· ∉ maps.names) with
  | some child => .error (.invalidChild child)
  | none => .ok ()

def lastLevel (maps : Maps) : Except Failure Name :=
  match maps.names.filter (· ∉ maps.parentMap.map Prod.fst) with
  | [llc] => .ok llc
  | groups => .error (.lastLevels groups)

/-! ## Building the groups -/

def grid (g : CacheGroupConfig) (caches banks : Nat) (kind : Kind) : CacheGroup :=
  (List.range caches).map fun i => (List.range banks).map fun j => ⟨g.name, i, j, kind⟩

def buildCacheGroup (traceDriven isTerminal : Bool) (g : CacheGroupConfig) : Except Failure CacheGroup :=
  if g.isPrefetcher then .ok (grid g g.prefetchers 1 .prefetcher)
  else do
    require (g.banks ≠ 0) (.zeroBanks g.name)
    require (g.size % g.banks = 0) (.bankSize g.name)
    -- `BuildCacheBank`, if there is a bank to build
    require (g.isProxy → 0 < g.caches → traceDriven ∧ isTerminal) (.proxyCache g.name)
    return grid g g.caches g.banks (if g.isProxy then .proxy else if isTerminal then .filter else .cache)

abbrev GroupMap := Name → Option CacheGroup

/-- The loop over `fringe`, which is first in, first out. -/
def buildGroups (cfg : SystemConfig) (maps : Maps) : Nat → List Name → GroupMap → Except Failure GroupMap
  | 0, _, _ => .error .outOfFuel
  | _ + 1, [], cMap => .ok cMap
  | fuel + 1, group :: fringe, cMap => do
    require (cMap group = none) (.loop group)
    let cg ← buildCacheGroup cfg.traceDriven (maps.isTerminal group) (cfg.group group)
    buildGroups cfg maps fuel (fringe ++ maps.kids group) (Function.update cMap group (some cg))

/-- `*cMap[group]` -/
def getGroup (cMap : GroupMap) (group : Name) : Except Failure CacheGroup :=
  ofOption (.nullGroup group) (cMap group)

def buildMemory (cfg : SystemConfig) : Except Failure (List MemObject) := do
  require (0 < cfg.controllers) .noControllers
  return if 1 < cfg.controllers ∧ cfg.splitAddrs then [.splitter]
    else (List.range cfg.controllers).map .controller

/-! ## Connecting them -/

/-- The calls of `setParents` and of `setChildren`. -/
structure Wiring where
  parents : List (BaseCache × Nat × List MemObject)
  children : List (BaseCache × List BaseCache)

namespace Wiring

def setParents (w : Wiring) (bank : BaseCache) (childId : Nat) (parents : List MemObject) :
    Except Failure Wiring := do
  require (bank.kind = .prefetcher ∨ bank.kind = .proxy → parents.length = 1) (.oneParent bank)
  return { w with parents := w.parents ++ [(bank, childId, parents)] }

def setChildren (w : Wiring) (bank : BaseCache) (children : List BaseCache) : Except Failure Wiring := do
  require (bank.kind = .prefetcher → children.length = 1) (.oneChild bank)
  require (bank.kind = .cache → children.length ≤ 256) (.maxChildren bank)
  require (bank.kind ≠ .filter ∧ bank.kind ≠ .proxy) (.terminal bank)
  return { w with children := w.children ++ [(bank, children)] }

/-- The children of one parent, which get the ids 0, 1, 2 and so on. -/
def setAllParents (w : Wiring) (banks : List BaseCache) (parents : List MemObject) : Except Failure Wiring :=
  banks.zipIdx.foldlM (fun w (bank, childId) => w.setParents bank childId parents) w

def setAllChildren (w : Wiring) (banks children : List BaseCache) : Except Failure Wiring :=
  banks.foldlM (fun w bank => w.setChildren bank children) w

end Wiring

/-- An interleaved group. -/
def interleave (cMap : GroupMap) : List Name → Except Failure CacheGroup
  | [] => .ok []
  | first :: rest => do
    let vec ← getGroup cMap first
    let groups ← (first :: rest).mapM fun child => do
      let cg ← getGroup cMap child
      require (cg.length = vec.length) (.interleaved child)
      return cg
    return (List.range vec.length).flatMap fun i => groups.map fun cg => cg.getD i []

/-- The child caches that are left go to the parents that are left, as many to each. -/
def connectParents (childrenPerParent : Nat) : CacheGroup → CacheGroup → Wiring → Except Failure Wiring
  | [], _, w => .ok w
  | banks :: parentCaches, childCaches, w => do
    let childrenVec := (childCaches.take childrenPerParent).flatten
    let w ← w.setAllParents childrenVec (banks.map .cache)
    let w ← w.setAllChildren banks childrenVec
    connectParents childrenPerParent parentCaches (childCaches.drop childrenPerParent) w

def connectGroup (maps : Maps) (cMap : GroupMap) (w : Wiring) (group : Name) : Except Failure Wiring :=
  if maps.isTerminal group then .ok w
  else do
    let parentCaches ← getGroup cMap group
    require (parentCaches.length ≠ 0) (.noCaches group)
    let childCaches ← (maps.children group).mapM (interleave cMap)
    let childCaches := childCaches.flatten
    require (childCaches.length ≠ 0) (.noChildren group)
    require (childCaches.length % parentCaches.length = 0) (.nonDivisible group)
    connectParents (childCaches.length / parentCaches.length) parentCaches childCaches w

/-- The LLC, and then the rest of the caches. -/
def connect (maps : Maps) (cMap : GroupMap) (mems : List MemObject) (llc : Name) : Except Failure Wiring := do
  let cg ← getGroup cMap llc
  require (cg.length = 1) .llcCaches
  let w ← Wiring.setAllParents ⟨[], []⟩ cg.flatten mems
  maps.names.foldlM (connectGroup maps cMap) w

def checkTerminal (maps : Maps) (cMap : GroupMap) (group : Name) : Except Failure Unit :=
  if maps.isTerminal group then do
    let cg ← getGroup cMap group
    let banks ← ofOption (.noCaches group) cg.head?
    require (banks.length = 1) (.terminalBanks group)
  else .ok ()

/-! ## The cores -/

/-- How many caches of a terminal group have been given to cores. -/
abbrev Assigned := Name → Option Nat

structure Cores where
  assigned : Assigned
  /-- the caches of each core, which a NullCore has none of -/
  cores : List (List BaseCache)

/-- The next cache of a group goes to the core that is being built. -/
def takeCache (cMap : GroupMap) (failure : Failure) (s : Assigned × List BaseCache) (group : Name) :
    Except Failure (Assigned × List BaseCache) := do
  let next ← ofOption failure (s.1 group)
  let cg ← getGroup cMap group
  let banks ← ofOption (.fullyUsed group) cg[next]?
  let bank ← ofOption (.noCaches group) banks.head?
  require (bank.kind = .filter) (.notFilter group)
  return (Function.update s.1 group (some (next + 1)), s.2 ++ [bank])

def buildCore (cMap : GroupMap) (icache dcache : Name) (c : Cores) : Except Failure Cores := do
  let s ← takeCache cMap (.noIcache icache) (c.assigned, []) icache
  let s ← takeCache cMap (.noDcache dcache) s dcache
  return ⟨s.1, c.cores ++ [s.2]⟩

def buildCoreGroup (maps : Maps) (cMap : GroupMap) (c : Cores) (g : CoreGroupConfig) : Except Failure Cores := do
  require (g.name ∉ maps.parentMap.map Prod.fst) (.coreGroup g.name)
  require (g.type ≠ .other) (.coreType g.name)
  if g.type = .null then return { c with cores := c.cores ++ List.replicate g.cores [] }
  else do
    let icache ← ofOption (.noIcache g.name) g.icache
    let dcache ← ofOption (.noDcache g.name) g.dcache
    require (c.assigned icache ≠ none) (.noIcache g.name)
    require (c.assigned dcache ≠ none) (.noDcache g.name)
    (List.range g.cores).foldlM (fun c _ => buildCore cMap icache dcache c) c

def checkAssigned (maps : Maps) (cMap : GroupMap) (assigned : Assigned) (group : Name) : Except Failure Unit :=
  if maps.isTerminal group then do
    let cg ← getGroup cMap group
    require (assigned group = some cg.length) (.notConnected group)
  else .ok ()

def buildCores (cfg : SystemConfig) (maps : Maps) (cMap : GroupMap) :
    Except Failure (List (List BaseCache)) := do
  let unassigned : Assigned := fun group => if group ∈ maps.names ∧ maps.isTerminal group then some 0 else none
  let c ← cfg.cores.foldlM (buildCoreGroup maps cMap) ⟨unassigned, []⟩
  maps.names.forM (checkAssigned maps cMap c.assigned)
  require (cfg.numCores = c.cores.length) .numCores
  return c.cores

/-- A proxy stands for each terminal cache. -/
def proxies (maps : Maps) (cMap : GroupMap) (group : Name) : Except Failure (List BaseCache) :=
  if maps.isTerminal group then do
    let cg ← getGroup cMap group
    cg.mapM fun banks => do
      require (banks.length = 1) (.notProxy group)
      let bank ← ofOption (.notProxy group) banks.head?
      require (bank.kind = .proxy) (.notProxy group)
      return bank
  else .ok []

/-! ## InitSystem -/

structure BuiltSystem where
  maps : Maps
  llc : Name
  cMap : GroupMap
  mems : List MemObject
  wiring : Wiring
  /-- the caches of each core; the driver of a trace has all its proxies -/
  cores : List (List BaseCache)

def initSystem (cfg : SystemConfig) : Except Failure BuiltSystem := do
  let maps ← readGroups cfg
  checkChildren maps
  let llc ← lastLevel maps
  let cMap ← buildGroups cfg maps (maps.names.length + 1) [llc] fun _ => none
  let mems ← buildMemory cfg
  let wiring ← connect maps cMap mems llc
  maps.names.forM (checkTerminal maps cMap)
  if cfg.traceDriven then do
    let proxies ← maps.names.mapM (proxies maps cMap)
    return ⟨maps, llc, cMap, mems, wiring, [proxies.flatten]⟩
  else do
    let cores ← buildCores cfg maps cMap
    return ⟨maps, llc, cMap, mems, wiring, cores⟩

end Zsim.System
