import Mathlib.Data.Fintype.Basic
import Mathlib.Logic.Function.Basic
import Zsim.Lib.Machine
import Zsim.Lib.Word

/-!
# The stream prefetcher

`StreamPrefetcher` of prefetcher.h and prefetcher.cpp, for reads (GETS).  The positions are
`uint32_t` and the strides `int32_t`, words of the same width: a division of a position by a stride
is unsigned.  The answers of the parent come with the access.
-/

set_option autoImplicit false

namespace Zsim.Prefetcher

def pageAddr (lineAddr : BitVec 64) : BitVec 64 := lineAddr >>> 6

def posOf (lineAddr : BitVec 64) : BitVec 32 := (lineAddr &&& 63).setWidth 32

structure Entry where
  stride : BitVec 32
  conf : Nat
  respCycle : BitVec 32 → Nat
  valid : BitVec 32 → Bool
  lastPos : BitVec 32
  lastLastPos : BitVec 32
  lastPrefetchPos : BitVec 32
  lastCycle : Nat
  ts : Nat
  /-- whether `alloc` has been called -/
  allocated : Bool

/-- A read, the cycle of the parent's answer to it, and of those to the prefetches that it may
cause. -/
structure Access where
  lineAddr : BitVec 64
  cycle : Nat
  respCycle : Nat
  pfRespCycle : Nat
  doubleRespCycle : Nat

namespace Entry

/-- SatCounter<3, 2, 1> -/
def inc (e : Entry) : Entry := { e with conf := min (e.conf + 1) 3 }

def dec (e : Entry) : Entry := { e with conf := e.conf - 1 }

def pred (e : Entry) : Bool := 2 ≤ e.conf

def alloc (e : Entry) (curCycle : Nat) : Entry :=
  { e with
    stride := 1
    lastPos := 0
    lastLastPos := 0
    lastPrefetchPos := 0
    conf := 1
    valid := fun _ => false
    lastCycle := curCycle
    allocated := true }

def fill (e : Entry) (pos : BitVec 32) (respCycle : Nat) : Entry :=
  { e with
    valid := Function.update e.valid pos true
    respCycle := Function.update e.respCycle pos respCycle }

/-- Did we prefetch-hit?  Returns whether the prefetch was short, and the cycle of the response. -/
def consume (e : Entry) (pos : BitVec 32) (respCycle : Nat) : Bool × Nat × Entry :=
  if e.valid pos then
    let pfRespCycle := e.respCycle pos
    (respCycle < pfRespCycle, max pfRespCycle respCycle,
      { e with
        valid := Function.update e.valid pos false
        lastCycle := max (max pfRespCycle respCycle) e.lastCycle })
  else (false, respCycle, e)

/-- `(e.lastPrefetchPos - e.lastPos)/stride` -/
def fetchDepth (e : Entry) (stride : BitVec 32) : BitVec 32 := (e.lastPrefetchPos - e.lastPos) / stride

def prefetchPos (e : Entry) (pos stride : BitVec 32) : BitVec 32 :=
  if (e.fetchDepth stride).slt 1 then pos + stride else e.lastPrefetchPos + stride

/-- The prefetches of an access in a stream: their positions, and the entry with them. -/
def issue (e : Entry) (a : Access) (stride : BitVec 32) (shortPrefetch : Bool) :
    List (BitVec 64) × Entry :=
  let pos := posOf a.lineAddr
  let prefetchPos := e.prefetchPos pos stride
  let fetchDepth := if (e.fetchDepth stride).slt 1 then 1 else e.fetchDepth stride
  if prefetchPos < 64 ∧ e.valid prefetchPos = false then
    let lineAddr := a.lineAddr + prefetchPos.setWidth 64 - pos.setWidth 64
    let e := e.fill prefetchPos a.pfRespCycle
    if shortPrefetch = true ∧ fetchDepth.slt 8 = true ∧ prefetchPos + stride < 64 ∧
        e.valid (prefetchPos + stride) = false then
      ([lineAddr, lineAddr + stride.signExtend 64],
        { e.fill (prefetchPos + stride) a.doubleRespCycle with lastPrefetchPos := prefetchPos + stride })
    else ([lineAddr], { e with lastPrefetchPos := prefetchPos })
  else ([], e)

def switch (e : Entry) (pos stride : BitVec 32) : Entry :=
  let e := e.dec
  let e :=
    if e.pred = false ∧ stride ≠ 0 ∧ stride ≠ e.stride ∧ stride = e.lastPos - e.lastLastPos then
      { e with conf := 1, stride := stride }
    else e
  { e with lastPrefetchPos := pos }

/-- Updates the predictor and issues prefetches; `none` is a division by zero. -/
def train (e : Entry) (a : Access) (shortPrefetch : Bool) : Option (List (BitVec 64) × Entry) :=
  let pos := posOf a.lineAddr
  let stride := pos - e.lastPos
  if e.stride = stride then
    if e.inc.pred then if stride = 0 then none else some (e.inc.issue a stride shortPrefetch)
    else some ([], e.inc)
  else some ([], e.switch pos stride)

def advance (e : Entry) (pos : BitVec 32) : Entry := { e with lastLastPos := e.lastPos, lastPos := pos }

/-- An access to the page of the entry: the response, the prefetches and the entry afterwards. -/
def hit (e : Entry) (a : Access) : Option (Nat × List (BitVec 64) × Entry) :=
  let consumed := e.consume (posOf a.lineAddr) a.respCycle
  (consumed.2.2.train a consumed.1).map fun trained =>
    (consumed.2.1, trained.1, trained.2.advance (posOf a.lineAddr))

end Entry

structure StreamPrefetcher where
  timestamp : Nat
  tag : Fin 16 → BitVec 64
  array : Fin 16 → Entry

namespace StreamPrefetcher

/-- The constructor, which leaves the tags and most of an entry as they are in memory. -/
def init (tag : Fin 16 → BitVec 64) (memory : Fin 16 → Entry) : StreamPrefetcher where
  timestamp := 0
  tag := tag
  array := fun i => { memory i with conf := 1, valid := fun _ => false, allocated := false }

/-- The last entry with the tag. -/
def find (s : StreamPrefetcher) (page : BitVec 64) : Option (Fin 16) :=
  (List.finRange 16).foldl (fun idx i => if page = s.tag i then some i else idx) none

/-- The least recently used entry of those that have no warm prefetches, and its time. -/
def candidate (s : StreamPrefetcher) (reqCycle : Nat) : Option (Fin 16) × Nat :=
  (List.finRange 16).foldl
    (fun best i =>
      if u64 (reqCycle + 500) < (s.array i).lastCycle then best
      else if (s.array i).ts < best.2 then (some i, (s.array i).ts) else best)
    (none, 2 ^ 64 - 1)

def allocate (s : StreamPrefetcher) (idx : Fin 16) (a : Access) : StreamPrefetcher where
  timestamp := u64 (s.timestamp + 1)
  tag := Function.update s.tag idx (pageAddr a.lineAddr)
  array := Function.update s.array idx
    { (s.array idx).alloc a.cycle with lastPos := posOf a.lineAddr, ts := s.timestamp }

/-- The response, the lines that are prefetched and the prefetcher afterwards. -/
def access (s : StreamPrefetcher) (a : Access) : Option (Nat × List (BitVec 64) × StreamPrefetcher) :=
  match s.find (pageAddr a.lineAddr) with
  | none =>
    match (s.candidate a.cycle).1 with
    | some idx => some (a.respCycle, [], s.allocate idx a)
    | none => some (a.respCycle, [], s)
  | some idx =>
    (({ s.array idx with ts := s.timestamp } : Entry).hit a).map fun served =>
      (served.1, served.2.1,
        { s with
          timestamp := u64 (s.timestamp + 1)
          array := Function.update s.array idx served.2.2 })

end StreamPrefetcher

/-! ## Runs -/

inductive Event
  /-- a read, and whether its page has an entry -/
  | demand (lineAddr : BitVec 64) (found : Bool)
  | prefetch (lineAddr : BitVec 64)
  deriving DecidableEq

/-- The prefetcher and what it has done, the last event first. -/
structure History where
  prefetcher : StreamPrefetcher
  events : List Event

namespace History

def init (tag : Fin 16 → BitVec 64) (memory : Fin 16 → Entry) : History := ⟨.init tag memory, []⟩

def demanded (h : History) (a : Access) : List Event :=
  .demand a.lineAddr (h.prefetcher.find (pageAddr a.lineAddr)).isSome :: h.events

def step (h : History) (a : Access) : Option History :=
  (h.prefetcher.access a).map fun served =>
    ⟨served.2.2, (served.2.1.map Event.prefetch).reverse ++ h.demanded a⟩

def prefetches (h : History) (a : Access) : List (BitVec 64) :=
  ((h.prefetcher.access a).map fun served => served.2.1).getD []

end History

def machine : Machine History Access := ⟨fun _ _ => True, History.step⟩

end Zsim.Prefetcher
