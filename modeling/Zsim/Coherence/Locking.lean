import Mathlib.Tactic.Common
import Zsim.Lib.LockOrder

/-!
# The locks of the cache hierarchy

What `Cache::access`, `Cache::invalidate` and the coherence controllers lock and unlock, with
every branch that data decide as an input: whether an access is skipped after a race, which
children are invalidated, which requests go up.  A request on its way up unlocks the child it
comes from and locks it again before it returns; an invalidation locks hand over hand on its
way down.  The caches need not form a tree: a cache may have several parents, one for each
bank.  A trace driver, which is alone and passes no lock of its own, is left out.
-/

set_option autoImplicit false

namespace Zsim.Coherence.Locking

open LockOp

universe u v

/-- The classes of caches; a filter cache is the one with a terminal controller. -/
inductive CacheKind
  | filter | cache | tracing
  deriving DecidableEq, Repr

inductive Lock (ι : Type u) (μ : Type v)
  /-- `filterLock` of a filter cache -/
  | filterLock (c : ι)
  /-- `ccLock` of a cache's top controller -/
  | top (c : ι)
  /-- `ccLock` of a cache's bottom controller -/
  | bottom (c : ι)
  /-- `traceLock` of a tracing cache -/
  | traceLock (c : ι)
  /-- `updateLock` of an M/D/1 memory -/
  | updateLock (m : μ)
  deriving DecidableEq, Repr

structure Caches (ι : Type u) where
  kind : ι → CacheKind
  level : ι → Nat
  height : Nat
  level_lt : ∀ c, level c < height

/-- The invalidations that a controller sends, each with those that the child sends on. -/
inductive Invals (ι : Type u)
  | none
  | send (child : ι) (below : Invals ι) (rest : Invals ι)

mutual

/-- What an access meets at the cache or memory it goes to. -/
inductive Access (ι : Type u) (μ : Type v)
  /-- a memory, which may be the first to notice that a phase is over -/
  | memory (m : μ) (update : Bool)
  /-- a cache that skips the access after a race -/
  | skipped (c : ι)
  /-- a cache that evicts a line (or none), which invalidates the `victims` and sends `put` up,
  that fetches the line with `fetch` (or has it), and takes it from the `others` -/
  | served (c : ι) (victims : Invals ι) (put fetch : Requests ι μ) (others : Invals ι)

/-- The requests that a controller sends up one after the other: of a stream prefetcher
between the two the prefetches come after the request. -/
inductive Requests (ι : Type u) (μ : Type v)
  | none
  | send (first : Access ι μ) (rest : Requests ι μ)

end

variable {ι : Type u} {μ : Type v} (h : Caches ι)

/-! ## The calls -/

/-- `children[c]->invalidate`, for the children that share the line.  The bottom controller
is unlocked by `processInv`, in a filter cache before the filter's own lock. -/
def sendInvalidates : Invals ι → List (LockOp (Lock ι μ))
  | .none => []
  | .send child below rest =>
    (if h.kind child = .filter then
      [lock (.bottom child), lock (.filterLock child), unlock (.bottom child), unlock (.filterLock child)]
    else
      lock (.bottom child) :: (sendInvalidates below ++ [unlock (.bottom child)])) ++ sendInvalidates rest

/-- `startAccess` of the cache's controller: a terminal one has no top part. -/
def startAccess (c : ι) (childLock : Lock ι μ) : List (LockOp (Lock ι μ)) :=
  if h.kind c = .filter then [unlock childLock, lock (.bottom c)]
  else [unlock childLock, lock (.top c), lock (.bottom c)]

/-- `endAccess` locks the child again before it unlocks its own cache. -/
def endAccess (c : ι) (childLock : Lock ι μ) : List (LockOp (Lock ι μ)) :=
  if h.kind c = .filter then [lock childLock, unlock (.bottom c)]
  else [lock childLock, unlock (.bottom c), unlock (.top c)]

/-- A tracing cache writes its record after `Cache::access`. -/
def record (c : ι) : List (LockOp (Lock ι μ)) :=
  if h.kind c = .tracing then [lock (.traceLock c), unlock (.traceLock c)] else []

/-- The top controller's part; a filter cache has no children. -/
def invalidateBelow (c : ι) (invals : Invals ι) : List (LockOp (Lock ι μ)) :=
  if h.kind c = .filter then [] else sendInvalidates h invals

mutual

def access (childLock : Lock ι μ) : Access ι μ → List (LockOp (Lock ι μ))
  | .memory m update => if update then [lock (.updateLock m), unlock (.updateLock m)] else []
  | .skipped c => startAccess h c childLock ++ (endAccess h c childLock ++ record h c)
  | .served c victims put fetch others =>
    startAccess h c childLock ++
      (invalidateBelow h c victims ++ (requests (.bottom c) put ++ (requests (.bottom c) fetch ++
        (invalidateBelow h c others ++ (endAccess h c childLock ++ record h c)))))

def requests (childLock : Lock ι μ) : Requests ι μ → List (LockOp (Lock ι μ))
  | .none => []
  | .send first rest => access childLock first ++ requests childLock rest

end

/-- The calls of a core on its filter cache that take a lock; a hit takes none. -/
inductive Call (ι : Type u) (μ : Type v)
  /-- a load or store that misses in the filter -/
  | replace (c : ι) (found : Access ι μ)
  | contextSwitch (c : ι)

def Call.ops : Call ι μ → List (LockOp (Lock ι μ))
  | .replace c found => lock (.filterLock c) :: (access h (.filterLock c) found ++ [unlock (.filterLock c)])
  | .contextSwitch c => [lock (.filterLock c), unlock (.filterLock c)]

/-! ## Where requests and invalidations go -/

def Invals.Fits (under : Nat) : Invals ι → Prop
  | .none => True
  | .send child below rest => h.level child < under ∧ below.Fits (h.level child) ∧ rest.Fits under

mutual

/-- The access goes to a memory, or to a cache of level `lowest` or higher, and so on from there. -/
def Access.Fits (lowest : Nat) : Access ι μ → Prop
  | .memory _ _ => True
  | .skipped c => lowest ≤ h.level c
  | .served c victims put fetch others => lowest ≤ h.level c ∧ victims.Fits h (h.level c) ∧
      put.Fits (h.level c + 1) ∧ fetch.Fits (h.level c + 1) ∧ others.Fits h (h.level c)

def Requests.Fits (lowest : Nat) : Requests ι μ → Prop
  | .none => True
  | .send first rest => first.Fits lowest ∧ rest.Fits lowest

end

def Call.Fits : Call ι μ → Prop
  | .replace _ found => found.Fits h 0
  | .contextSwitch _ => True

/-! ## The order -/

/-- Top controllers upwards, then bottom controllers downwards, then the filters; what a thread
locks last it holds alone. -/
def rank : Lock ι μ → Nat
  | .top c => h.level c
  | .bottom c => 2 * h.height - h.level c
  | .filterLock _ => 2 * h.height + 1
  | .traceLock _ => 2 * h.height + 2
  | .updateLock _ => 2 * h.height + 2

@[simp] theorem rank_top (c : ι) : rank h (.top c : Lock ι μ) = h.level c := rfl

@[simp] theorem rank_bottom (c : ι) : rank h (.bottom c : Lock ι μ) = 2 * h.height - h.level c := rfl

@[simp] theorem rank_filterLock (c : ι) : rank h (.filterLock c : Lock ι μ) = 2 * h.height + 1 := rfl

variable [DecidableEq ι] [DecidableEq μ]

theorem sendInvalidates_ordered (invals : Invals ι) {under : Nat} (fits : invals.Fits h under)
    (low : under ≤ h.height) {held : Finset (Lock ι μ)}
    (above : ∀ l ∈ held, rank h l ≤ 2 * h.height - under) :
    Ordered (rank h) (sendInvalidates h invals) held held := by
  induction invals generalizing under held with
  | none => exact rfl
  | send child below rest ihBelow ihRest =>
      obtain ⟨lower, fitsBelow, fitsRest⟩ := fits
      have higher : ∀ l ∈ held, rank h l < rank h (.bottom child : Lock ι μ) := by
        intro l member
        have le := above l member
        simp only [rank_bottom]
        omega
      have fresh : Lock.bottom child ∉ held := fun member => lt_irrefl _ (higher _ member)
      have here : ∀ l ∈ insert (.bottom child) held, rank h l ≤ 2 * h.height - h.level child := by
        intro l member
        rcases Finset.mem_insert.mp member with rfl | member
        · exact le_refl _
        · exact le_of_lt (higher l member)
      have rest := ihRest fitsRest low above
      refine Ordered.append ?_ rest
      by_cases filter : h.kind child = .filter
      · rw [if_pos filter]
        have topmost : ∀ l ∈ insert (.bottom child) held, rank h l < rank h (.filterLock child : Lock ι μ) := by
          intro l member
          have le := here l member
          simp only [rank_filterLock]
          omega
        have out : Lock.filterLock child ∉ held := fun member =>
          lt_irrefl _ (topmost _ (Finset.mem_insert_of_mem member))
        have apart : Lock.filterLock child ≠ (Lock.bottom child : Lock ι μ) := nofun
        refine ⟨higher, topmost, Finset.mem_insert_of_mem (Finset.mem_insert_self _ _), ?_, ?_⟩
        · rw [Finset.erase_insert_of_ne apart, Finset.erase_insert fresh]
          exact Finset.mem_insert_self _ _
        · rw [Finset.erase_insert_of_ne apart, Finset.erase_insert fresh, Finset.erase_insert out]
          exact rfl
      · rw [if_neg filter]
        refine ⟨higher, Ordered.append (ihBelow fitsBelow (le_of_lt (h.level_lt child)) here) ?_⟩
        exact ⟨Finset.mem_insert_self _ _, Finset.erase_insert fresh⟩

/-- What a thread holds when it sends a request to a cache of level `lowest` or higher: the child
that the request comes from, and besides it only top controllers of lower levels. -/
structure Coming (lowest : Nat) (held : Finset (Lock ι μ)) (childLock : Lock ι μ) : Prop where
  child : childLock ∈ held
  childAbove : 2 * h.height - lowest < rank h childLock
  childBelow : rank h childLock < 2 * h.height + 2
  others : ∀ l ∈ held.erase childLock, rank h l < lowest
  inside : lowest ≤ h.height

variable {h}

theorem Coming.lt_leaf {lowest : Nat} {held : Finset (Lock ι μ)} {childLock : Lock ι μ}
    (coming : Coming h lowest held childLock) : ∀ l ∈ held, rank h l < 2 * h.height + 2 := by
  intro l member
  by_cases same : l = childLock
  · rw [same]
    exact coming.childBelow
  · have lt := coming.others l (Finset.mem_erase.mpr ⟨same, member⟩)
    have inside := coming.inside
    omega

theorem Coming.record {lowest : Nat} {held : Finset (Lock ι μ)} {childLock : Lock ι μ}
    (coming : Coming h lowest held childLock) (c : ι) : Ordered (rank h) (record h c) held held := by
  unfold Locking.record
  by_cases tracing : h.kind c = .tracing
  · rw [if_pos tracing]
    exact ordered_pair coming.lt_leaf
  · rw [if_neg tracing]
    exact rfl

variable (h) in
/-- The locks of a cache that serves an access, besides those of the caches below it. -/
def own (c : ι) : Finset (Lock ι μ) :=
  if h.kind c = .filter then {.bottom c} else {.top c, .bottom c}

theorem bottom_mem_own (c : ι) : (.bottom c : Lock ι μ) ∈ own h c := by
  unfold own
  split <;> simp

/-- Between `startAccess` and `endAccess` the child is unlocked. -/
theorem Coming.startAccess {lowest : Nat} {held : Finset (Lock ι μ)} {childLock : Lock ι μ}
    (coming : Coming h lowest held childLock) {c : ι} (fits : lowest ≤ h.level c) :
    Ordered (rank h) (startAccess h c childLock) held (own h c ∪ held.erase childLock) := by
  have level := h.level_lt c
  have aboveTop : ∀ l ∈ held.erase childLock, rank h l < rank h (.top c : Lock ι μ) := fun l member =>
    lt_of_lt_of_le (coming.others l member) fits
  have aboveBottom : ∀ l ∈ held.erase childLock, rank h l < rank h (.bottom c : Lock ι μ) := by
    intro l member
    have lt := coming.others l member
    simp only [rank_bottom]
    omega
  have between : rank h (.top c : Lock ι μ) < rank h (.bottom c : Lock ι μ) := by
    simp only [rank_top, rank_bottom]
    omega
  unfold Locking.startAccess own
  by_cases filter : h.kind c = .filter
  · rw [if_pos filter, if_pos filter]
    exact ⟨coming.child, aboveBottom, rfl⟩
  · rw [if_neg filter, if_neg filter]
    refine ⟨coming.child, aboveTop, fun l member => ?_, ?_⟩
    · rcases Finset.mem_insert.mp member with rfl | member
      · exact between
      · exact aboveBottom l member
    · rw [Finset.insert_union, Finset.singleton_union]
      exact Finset.insert_comm _ _ _

theorem Coming.own_lt {lowest : Nat} {held : Finset (Lock ι μ)} {childLock : Lock ι μ}
    (coming : Coming h lowest held childLock) {c : ι} (fits : lowest ≤ h.level c) :
    ∀ l ∈ own h c ∪ held.erase childLock, rank h l ≤ rank h (.bottom c : Lock ι μ) := by
  have level := h.level_lt c
  intro l member
  rcases Finset.mem_union.mp member with mine | other
  · unfold own at mine
    by_cases filter : h.kind c = .filter
    · rw [if_pos filter, Finset.mem_singleton] at mine
      rw [mine]
    · rw [if_neg filter, Finset.mem_insert, Finset.mem_singleton] at mine
      rcases mine with rfl | rfl
      · simp only [rank_top, rank_bottom]
        omega
      · exact le_refl _
  · have lt := coming.others l other
    simp only [rank_bottom]
    omega

theorem Coming.endAccess {lowest : Nat} {held : Finset (Lock ι μ)} {childLock : Lock ι μ}
    (coming : Coming h lowest held childLock) {c : ι} (fits : lowest ≤ h.level c) :
    Ordered (rank h) (endAccess h c childLock) (own h c ∪ held.erase childLock) held := by
  have level := h.level_lt c
  have child := coming.childAbove
  have bottomLt : rank h (.bottom c : Lock ι μ) < rank h childLock := by
    simp only [rank_bottom]
    omega
  have higher : ∀ l ∈ own h c ∪ held.erase childLock, rank h l < rank h childLock := fun l member =>
    lt_of_le_of_lt (coming.own_lt fits l member) bottomLt
  have notBottom : Lock.bottom c ∉ held := by
    intro member
    by_cases same : Lock.bottom c = childLock
    · exact absurd bottomLt (by rw [same]; exact lt_irrefl _)
    · have lt := coming.others _ (Finset.mem_erase.mpr ⟨same, member⟩)
      simp only [rank_bottom] at lt
      omega
  have notTop : Lock.top c ∉ held := by
    intro member
    by_cases same : Lock.top c = childLock
    · rw [← same] at child
      simp only [rank_top] at child
      omega
    · have lt := coming.others _ (Finset.mem_erase.mpr ⟨same, member⟩)
      simp only [rank_top] at lt
      omega
  have back : insert childLock (own h c ∪ held.erase childLock) = own h c ∪ held := by
    rw [← Finset.union_insert, Finset.insert_erase coming.child]
  unfold Locking.endAccess
  by_cases filter : h.kind c = .filter
  · have mine : own h c = ({.bottom c} : Finset (Lock ι μ)) := if_pos filter
    rw [if_pos filter]
    refine ⟨higher, ?_, ?_⟩
    · rw [back]
      exact Finset.mem_union_left _ (bottom_mem_own c)
    · rw [back, mine, Finset.singleton_union]
      exact Finset.erase_insert notBottom
  · have mine : own h c = ({.top c, .bottom c} : Finset (Lock ι μ)) := if_neg filter
    have apart : Lock.top c ≠ (Lock.bottom c : Lock ι μ) := nofun
    have freed : (insert (Lock.top c) (insert (Lock.bottom c) held)).erase (Lock.bottom c) =
        insert (Lock.top c) held := by
      rw [Finset.erase_insert_of_ne apart, Finset.erase_insert notBottom]
    rw [if_neg filter]
    refine ⟨higher, ?_, ?_⟩
    · rw [back]
      exact Finset.mem_union_left _ (bottom_mem_own c)
    · rw [back, mine, Finset.insert_union, Finset.singleton_union, freed]
      exact ⟨Finset.mem_insert_self _ _, Finset.erase_insert notTop⟩

theorem Coming.up {lowest : Nat} {held : Finset (Lock ι μ)} {childLock : Lock ι μ}
    (coming : Coming h lowest held childLock) {c : ι} (fits : lowest ≤ h.level c) :
    Coming h (h.level c + 1) (own h c ∪ held.erase childLock) (.bottom c) where
  child := Finset.mem_union_left _ (bottom_mem_own c)
  childAbove := by
    have level := h.level_lt c
    simp only [rank_bottom]
    omega
  childBelow := by
    simp only [rank_bottom]
    omega
  others := by
    intro l member
    obtain ⟨other, member⟩ := Finset.mem_erase.mp member
    rcases Finset.mem_union.mp member with mine | before
    · unfold own at mine
      by_cases filter : h.kind c = .filter
      · rw [if_pos filter, Finset.mem_singleton] at mine
        exact absurd mine other
      · rw [if_neg filter, Finset.mem_insert, Finset.mem_singleton] at mine
        rw [mine.resolve_right other]
        exact Nat.lt_succ_self _
    · have lt := coming.others l before
      omega
  inside := h.level_lt c

theorem Coming.invalidateBelow {lowest : Nat} {held : Finset (Lock ι μ)} {childLock : Lock ι μ}
    (coming : Coming h lowest held childLock) {c : ι} (fits : lowest ≤ h.level c) {invals : Invals ι}
    (lower : invals.Fits h (h.level c)) :
    Ordered (rank h) (invalidateBelow h c invals) (own h c ∪ held.erase childLock)
      (own h c ∪ held.erase childLock) := by
  unfold Locking.invalidateBelow
  by_cases filter : h.kind c = .filter
  · rw [if_pos filter]
    exact rfl
  · rw [if_neg filter]
    exact sendInvalidates_ordered h invals lower (le_of_lt (h.level_lt c)) (coming.own_lt fits)

mutual

theorem access_ordered (found : Access ι μ) {lowest : Nat} (fits : found.Fits h lowest)
    {held : Finset (Lock ι μ)} {childLock : Lock ι μ} (coming : Coming h lowest held childLock) :
    Ordered (rank h) (access h childLock found) held held := by
  cases found with
  | memory m update =>
      rw [access]
      by_cases due : update = true
      · rw [if_pos due]
        exact ordered_pair coming.lt_leaf
      · rw [if_neg due]
        exact rfl
  | skipped c =>
      rw [Access.Fits] at fits
      rw [access]
      exact (coming.startAccess fits).append ((coming.endAccess fits).append (coming.record c))
  | served c victims put fetch others =>
      rw [Access.Fits] at fits
      obtain ⟨fits, fitsVictims, fitsPut, fitsFetch, fitsOthers⟩ := fits
      rw [access]
      refine (coming.startAccess fits).append ?_
      refine (coming.invalidateBelow fits fitsVictims).append ?_
      refine (requests_ordered put fitsPut (coming.up fits)).append ?_
      refine (requests_ordered fetch fitsFetch (coming.up fits)).append ?_
      refine (coming.invalidateBelow fits fitsOthers).append ?_
      exact (coming.endAccess fits).append (coming.record c)

theorem requests_ordered (sent : Requests ι μ) {lowest : Nat} (fits : sent.Fits h lowest)
    {held : Finset (Lock ι μ)} {childLock : Lock ι μ} (coming : Coming h lowest held childLock) :
    Ordered (rank h) (requests h childLock sent) held held := by
  cases sent with
  | none =>
      rw [requests]
      exact rfl
  | send first rest =>
      rw [Requests.Fits] at fits
      rw [requests]
      exact (access_ordered first fits.1 coming).append (requests_ordered rest fits.2 coming)

end

theorem Call.ordered (call : Call ι μ) (fits : call.Fits h) : Ordered (rank h) (call.ops h) ∅ ∅ := by
  cases call with
  | replace c found =>
      have alone : Coming h 0 ({.filterLock c} : Finset (Lock ι μ)) (.filterLock c) :=
        { child := Finset.mem_singleton_self _
          childAbove := by
            simp only [rank_filterLock]
            omega
          childBelow := by
            simp only [rank_filterLock]
            omega
          others := fun l member => absurd (Finset.mem_singleton.mp (Finset.mem_of_mem_erase member))
            (Finset.ne_of_mem_erase member)
          inside := Nat.zero_le _ }
      refine ⟨fun l member => absurd member (Finset.notMem_empty l), ?_⟩
      refine (access_ordered found fits alone).append ⟨Finset.mem_singleton_self _, ?_⟩
      exact Finset.erase_singleton _
  | contextSwitch c => exact ordered_pair fun l member => absurd member (Finset.notMem_empty l)

variable (h)

def program (calls : List (Call ι μ)) : List (LockOp (Lock ι μ)) := calls.flatMap (Call.ops h)

variable {h}

theorem program_ordered {calls : List (Call ι μ)} (fits : ∀ call ∈ calls, call.Fits h) :
    Ordered (rank h) (program h calls) ∅ ∅ := by
  induction calls with
  | nil => exact rfl
  | cons call rest ih =>
      rw [program, List.flatMap_cons]
      have first := call.ordered (fits call List.mem_cons_self)
      exact first.append (ih fun other member => fits other (List.mem_cons_of_mem _ member))

/-- Threads that access the caches and invalidate lines of each other: whatever each call meets, and
however their calls interleave, no lock has two holders, some thread can always go on, and the
threads can finish, with every lock free at the end; no run has more turns than they have calls. -/
theorem accesses_finish {τ : Type*} [Fintype τ] [DecidableEq τ] {calls : τ → List (Call ι μ)}
    (fits : ∀ t, ∀ call ∈ calls t, call.Fits h) {turns : List τ}
    (legal : (Threads.machine τ (Lock ι μ)).LegalRun turns (.start fun t => program h (calls t))) :
    ∃ mid, (Threads.machine τ (Lock ι μ)).exec turns (.start fun t => program h (calls t)) = some mid ∧
      mid.Exclusive ∧ (mid.Done ∨ ∃ t, mid.Ready t) ∧
      mid.remaining + turns.length = ∑ t, (program h (calls t)).length ∧
      ∃ more final, (Threads.machine τ (Lock ι μ)).LegalRun more mid ∧
        (Threads.machine τ (Lock ι μ)).exec more mid = some final ∧ final.Done := by
  have ordered : ∀ t, Ordered (rank h) (program h (calls t)) ∅ ∅ := fun t => program_ordered (fits t)
  exact Threads.runs_finish ordered legal

/-- Two filter caches, and the cache above them. -/
def twoCores : Caches (Option Bool) where
  kind c := if c.isSome then .filter else .cache
  level c := if c.isSome then 0 else 1
  height := 2
  level_lt c := by
    split <;> omega

/-- A core writes a line that the other one has, and the memory has the next phase to note. -/
def crossing (core : Bool) : Call (Option Bool) Unit :=
  .replace (some core) (.served (some core) .none .none
    (.send (.served none .none .none (.send (.memory () true) .none) (.send (some !core) .none .none))
      .none) .none)

theorem accesses_finish_crossing :
    ∃ mid, (Threads.machine Bool (Lock (Option Bool) Unit)).exec [false, true]
        (.start fun t => program twoCores [crossing t]) = some mid ∧
      mid.Exclusive ∧ (mid.Done ∨ ∃ t, mid.Ready t) ∧
      mid.remaining + 2 = ∑ t, (program twoCores [crossing t]).length ∧
      ∃ more final, (Threads.machine Bool (Lock (Option Bool) Unit)).LegalRun more mid ∧
        (Threads.machine Bool (Lock (Option Bool) Unit)).exec more mid = some final ∧ final.Done := by
  refine accesses_finish (fun t call member => ?_) ?_
  · cases List.mem_singleton.mp member
    simp [crossing, Call.Fits, Access.Fits, Requests.Fits, Invals.Fits, twoCores]
  · refine ⟨fun u => Finset.notMem_empty _, fun next step => ⟨?_, fun _ _ => trivial⟩⟩
    cases Option.some.inj step
    intro u
    cases u with
    | false => decide
    | true => decide

end Zsim.Coherence.Locking
