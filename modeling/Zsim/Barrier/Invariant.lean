import Zsim.Lib.Count
import Zsim.Lib.Machine
import Zsim.Barrier.Model
import Mathlib.Logic.Equiv.Basic

/-!
# The representation invariant of the barrier

`Inv` is what the run list, the indices stored in the threads and the counters
satisfy between two operations.  Every function of the barrier is shown to keep
it and to pass its own assertions.
-/

set_option autoImplicit false

namespace Zsim.Barrier

/-! ## Reading through a write -/

@[simp] theorem stateOf_setThread (b : Barrier) (tid u : Nat) (info : ThreadSyncInfo) :
    (b.setThread tid info).stateOf u = if u = tid then info.state else b.stateOf u := by
  unfold stateOf setThread
  by_cases same : u = tid
  · simp [same]
  · simp [same]

@[simp] theorem lastIdxOf_setThread (b : Barrier) (tid u : Nat) (info : ThreadSyncInfo) :
    (b.setThread tid info).lastIdxOf u = if u = tid then info.lastIdx else b.lastIdxOf u := by
  unfold lastIdxOf setThread
  by_cases same : u = tid
  · simp [same]
  · simp [same]

@[simp] theorem futexWordOf_setThread (b : Barrier) (tid u : Nat) (info : ThreadSyncInfo) :
    (b.setThread tid info).futexWordOf u =
      if u = tid then info.futexWord else b.futexWordOf u := by
  unfold futexWordOf setThread
  by_cases same : u = tid
  · simp [same]
  · simp [same]

@[simp] theorem stateOf_setState (b : Barrier) (tid u : Nat) (state : State) :
    (b.setState tid state).stateOf u = if u = tid then state else b.stateOf u :=
  stateOf_setThread b tid u _

@[simp] theorem lastIdxOf_setState (b : Barrier) (tid u : Nat) (state : State) :
    (b.setState tid state).lastIdxOf u = b.lastIdxOf u := by
  rw [setState, lastIdxOf_setThread]
  split
  · rename_i same; rw [same]; rfl
  · rfl

@[simp] theorem futexWordOf_setState (b : Barrier) (tid u : Nat) (state : State) :
    (b.setState tid state).futexWordOf u = b.futexWordOf u := by
  rw [setState, futexWordOf_setThread]
  split
  · rename_i same; rw [same]; rfl
  · rfl

@[simp] theorem stateOf_setLastIdx (b : Barrier) (tid idx u : Nat) :
    (b.setLastIdx tid idx).stateOf u = b.stateOf u := by
  rw [setLastIdx, stateOf_setThread]
  split
  · rename_i same; rw [same]; rfl
  · rfl

@[simp] theorem lastIdxOf_setLastIdx (b : Barrier) (tid idx u : Nat) :
    (b.setLastIdx tid idx).lastIdxOf u = if u = tid then idx else b.lastIdxOf u :=
  lastIdxOf_setThread b tid u _

@[simp] theorem futexWordOf_setLastIdx (b : Barrier) (tid idx u : Nat) :
    (b.setLastIdx tid idx).futexWordOf u = b.futexWordOf u := by
  rw [setLastIdx, futexWordOf_setThread]
  split
  · rename_i same; rw [same]; rfl
  · rfl

@[simp] theorem stateOf_setWaiting (b : Barrier) (tid u : Nat) :
    (b.setWaiting tid).stateOf u = if u = tid then .waiting else b.stateOf u :=
  stateOf_setThread b tid u _

@[simp] theorem lastIdxOf_setWaiting (b : Barrier) (tid u : Nat) :
    (b.setWaiting tid).lastIdxOf u = b.lastIdxOf u := by
  rw [setWaiting, lastIdxOf_setThread]
  split
  · rename_i same; rw [same]; rfl
  · rfl

@[simp] theorem futexWordOf_setWaiting (b : Barrier) (tid u : Nat) :
    (b.setWaiting tid).futexWordOf u = if u = tid then 1 else b.futexWordOf u :=
  futexWordOf_setThread b tid u _

@[simp] theorem stateOf_setRunList (b : Barrier) (idx tid u : Nat) :
    (b.setRunList idx tid).stateOf u = b.stateOf u := rfl

@[simp] theorem runList_setRunList (b : Barrier) (idx tid i : Nat) :
    (b.setRunList idx tid).runList i = if i = idx then tid else b.runList i := by
  unfold setRunList
  by_cases same : i = idx
  · simp [same]
  · simp [same]

/-! ## The invariant -/

/-- The number of threads in a state, over the whole thread list. -/
def countOf (b : Barrier) (state : State) : Nat :=
  countIn (Finset.range maxThreads) b.threadList fun info => info.state = state

/-- The run list and the thread list describe the same set of threads. -/
structure ListInv (b : Barrier) : Prop where
  bounded : ∀ t, b.stateOf t ≠ .offline → t < maxThreads
  distinct : ∀ i j, i < b.runListSize → j < b.runListSize → b.runList i = b.runList j → i = j
  listed : ∀ i, i < b.runListSize → b.stateOf (b.runList i) ≠ .offline
  present : ∀ t, b.stateOf t ≠ .offline → ∃ i, i < b.runListSize ∧ b.runList i = t
  indexed : ∀ t, b.stateOf t = .left ∨ b.stateOf t = .running →
    b.lastIdxOf t < b.runListSize ∧ b.runList (b.lastIdxOf t) = t

structure Inv (b : Barrier) : Prop extends ListInv b where
  positive : 0 < b.parallelThreads
  running : b.runningThreads = b.countOf .running
  limited : b.runningThreads ≤ b.parallelThreads
  left : b.leftThreads = b.countOf .left
  cursor : b.curThreadIdx ≤ b.runListSize
  blocked : ∀ t, b.stateOf t = .waiting → b.futexWordOf t = 1

theorem Inv.init {parallelThreads : Nat} (positive : 0 < parallelThreads) (lastIdx : Nat → Nat) :
    Inv (init parallelThreads lastIdx) where
  bounded t h := absurd rfl h
  distinct i _ hi := absurd hi (Nat.not_lt_zero i)
  listed i hi := absurd hi (Nat.not_lt_zero i)
  present t h := absurd rfl h
  indexed t h := by rcases h with h | h <;> cases h
  positive := positive
  running := (countIn_eq_zero _ _ _ fun _ _ h => by cases h).symm
  limited := Nat.zero_le _
  left := (countIn_eq_zero _ _ _ fun _ _ h => by cases h).symm
  cursor := Nat.le_refl _
  blocked t h := by cases h

theorem countOf_setThread (b : Barrier) {tid : Nat} (bound : tid < maxThreads)
    (info : ThreadSyncInfo) (state : State) :
    (b.setThread tid info).countOf state + (if b.stateOf tid = state then 1 else 0) =
      b.countOf state + (if info.state = state then 1 else 0) :=
  countIn_update (Finset.range maxThreads) b.threadList (fun i => i.state = state)
    (Finset.mem_range.mpr bound) info

theorem countOf_congr {b c : Barrier} (state : State) (same : ∀ t, c.stateOf t = b.stateOf t) :
    c.countOf state = b.countOf state :=
  countIn_congr _ _ _ fun t _ => by
    show c.stateOf t = state ↔ b.stateOf t = state
    rw [same t]

/-! ## Exchanging two list positions -/

theorem runList_swap (b : Barrier) (i j k : Nat) :
    (b.swap i j).runList k = b.runList (Equiv.swap i j k) := by
  show ((b.setRunList i (b.runList j)).setRunList j (b.runList i)).runList k = _
  rw [runList_setRunList, runList_setRunList, Equiv.swap_apply_def]
  by_cases hj : k = j
  · by_cases hi : k = i
    · simp [← hi, ← hj]
    · rw [if_pos hj, if_neg hi, if_pos hj]
  · by_cases hi : k = i
    · rw [if_neg hj, if_pos hi, if_pos hi]
    · rw [if_neg hj, if_neg hi, if_neg hi, if_neg hj]

@[simp] theorem stateOf_swap (b : Barrier) (i j t : Nat) :
    (b.swap i j).stateOf t = b.stateOf t := by
  simp [swap]

@[simp] theorem futexWordOf_swap (b : Barrier) (i j t : Nat) :
    (b.swap i j).futexWordOf t = b.futexWordOf t := by
  simp only [swap, futexWordOf_setLastIdx]
  rfl

theorem lastIdxOf_swap (b : Barrier) (i j t : Nat) :
    (b.swap i j).lastIdxOf t =
      if t = b.runList j then i else if t = b.runList i then j else b.lastIdxOf t := by
  simp only [swap, lastIdxOf_setLastIdx]
  rfl

theorem swap_lt {i j k size : Nat} (hi : i < size) (hj : j < size) (hk : k < size) :
    Equiv.swap i j k < size := by
  rw [Equiv.swap_apply_def]
  split_ifs <;> assumption

theorem ListInv.swap {b : Barrier} (inv : ListInv b) {i j : Nat} (hi : i < b.runListSize)
    (hj : j < b.runListSize) : ListInv (b.swap i j) where
  bounded t h := inv.bounded t (by simpa using h)
  distinct p q hp hq same := by
    rw [runList_swap, runList_swap] at same
    exact (Equiv.swap i j).injective
      (inv.distinct _ _ (swap_lt hi hj hp) (swap_lt hi hj hq) same)
  listed p hp := by
    rw [runList_swap, stateOf_swap]
    exact inv.listed _ (swap_lt hi hj hp)
  present t h := by
    rw [stateOf_swap] at h
    obtain ⟨k, hk, here⟩ := inv.present t h
    refine ⟨Equiv.swap i j k, swap_lt hi hj hk, ?_⟩
    rw [runList_swap, Equiv.swap_apply_self]
    exact here
  indexed t h := by
    rw [stateOf_swap] at h
    obtain ⟨hk, here⟩ := inv.indexed t h
    rw [lastIdxOf_swap, runList_swap]
    by_cases atJ : t = b.runList j
    · rw [if_pos atJ, Equiv.swap_apply_left]
      exact ⟨hi, atJ.symm⟩
    · rw [if_neg atJ]
      by_cases atI : t = b.runList i
      · rw [if_pos atI, Equiv.swap_apply_right]
        exact ⟨hj, atI.symm⟩
      · rw [if_neg atI]
        have offI : b.lastIdxOf t ≠ i := fun e => atI (by rw [← e]; exact here.symm)
        have offJ : b.lastIdxOf t ≠ j := fun e => atJ (by rw [← e]; exact here.symm)
        rw [Equiv.swap_apply_of_ne_of_ne offI offJ]
        exact ⟨hk, here⟩

theorem Inv.swap {b : Barrier} (inv : Inv b) {i j : Nat} (hi : i < b.runListSize)
    (hj : j < b.runListSize) : Inv (b.swap i j) where
  toListInv := inv.toListInv.swap hi hj
  positive := inv.positive
  running := inv.running.trans (countOf_congr _ (stateOf_swap b i j)).symm
  limited := inv.limited
  left := inv.left.trans (countOf_congr _ (stateOf_swap b i j)).symm
  cursor := inv.cursor
  blocked t h := by
    rw [futexWordOf_swap]
    exact inv.blocked t (by simpa using h)

theorem Inv.shuffleFrom {rand : Nat → Nat} (i : Nat) {b : Barrier} (inv : Inv b)
    (bound : i < b.runListSize) : Inv (b.shuffleFrom rand i) := by
  induction i generalizing b with
  | zero => exact inv
  | succ i ih =>
      have inRange : rand (i + 1) % (i + 2) < b.runListSize := by
        have := Nat.mod_lt (rand (i + 1)) (show 0 < i + 2 by omega)
        omega
      exact ih (inv.swap bound inRange) (by
        show i < b.runListSize
        omega)

theorem Inv.shuffle (rand : Nat → Nat) {b : Barrier} (inv : Inv b) : Inv (b.shuffle rand) := by
  unfold Barrier.shuffle
  split
  · rename_i more
    exact inv.shuffleFrom _ (by omega)
  · exact inv

theorem stateOf_shuffleFrom (rand : Nat → Nat) (i : Nat) (b : Barrier) (t : Nat) :
    (b.shuffleFrom rand i).stateOf t = b.stateOf t := by
  induction i generalizing b with
  | zero => rfl
  | succ i ih => exact (ih _).trans (stateOf_swap b _ _ t)

theorem stateOf_shuffle (rand : Nat → Nat) (b : Barrier) (t : Nat) :
    (b.shuffle rand).stateOf t = b.stateOf t := by
  unfold Barrier.shuffle
  split
  · exact stateOf_shuffleFrom rand _ b t
  · rfl

theorem shuffleFrom_frame (rand : Nat → Nat) (i : Nat) (b : Barrier) :
    (b.shuffleFrom rand i).curThreadIdx = b.curThreadIdx ∧
      (b.shuffleFrom rand i).runningThreads = b.runningThreads ∧
      (b.shuffleFrom rand i).parallelThreads = b.parallelThreads := by
  induction i generalizing b with
  | zero => exact ⟨rfl, rfl, rfl⟩
  | succ i ih => exact ih (b.swap (i + 1) (rand (i + 1) % (i + 2)))

theorem shuffle_frame (rand : Nat → Nat) (b : Barrier) :
    (b.shuffle rand).curThreadIdx = b.curThreadIdx ∧
      (b.shuffle rand).runningThreads = b.runningThreads ∧
      (b.shuffle rand).parallelThreads = b.parallelThreads := by
  unfold Barrier.shuffle
  split
  · exact shuffleFrom_frame rand _ b
  · exact ⟨rfl, rfl, rfl⟩

/-! ## The cleanup pass -/

/-- One step of the cleanup pass, with the shorter list made explicit. -/
def removeSlot (b : Barrier) (idx newSize : Nat) : Barrier :=
  ((b.setState (b.runList idx) .offline).setRunList idx (b.runList (newSize - 1))).setLastIdx
    (b.runList (newSize - 1)) idx

/-- The list as the cleanup pass sees it once `newSize` entries are left. -/
def withSize (b : Barrier) (newSize : Nat) : Barrier := { b with runListSize := newSize }

@[simp] theorem stateOf_withSize (b : Barrier) (newSize t : Nat) :
    (b.withSize newSize).stateOf t = b.stateOf t := rfl

@[simp] theorem stateOf_removeSlot (b : Barrier) (idx newSize t : Nat) :
    (b.removeSlot idx newSize).stateOf t =
      if t = b.runList idx then .offline else b.stateOf t := by
  simp [removeSlot]

@[simp] theorem runList_removeSlot (b : Barrier) (idx newSize i : Nat) :
    (b.removeSlot idx newSize).runList i =
      if i = idx then b.runList (newSize - 1) else b.runList i := by
  show ((b.setState (b.runList idx) .offline).setRunList idx (b.runList (newSize - 1))).runList i = _
  rw [runList_setRunList]
  rfl

theorem lastIdxOf_removeSlot (b : Barrier) (idx newSize t : Nat) :
    (b.removeSlot idx newSize).lastIdxOf t =
      if t = b.runList (newSize - 1) then idx else b.lastIdxOf t := by
  rw [removeSlot, lastIdxOf_setLastIdx]
  split
  · rfl
  · exact lastIdxOf_setState b (b.runList idx) t .offline

@[simp] theorem futexWordOf_removeSlot (b : Barrier) (idx newSize t : Nat) :
    (b.removeSlot idx newSize).futexWordOf t = b.futexWordOf t := by
  rw [removeSlot, futexWordOf_setLastIdx]
  exact futexWordOf_setState b (b.runList idx) t .offline

theorem ListInv.removeSlot {b : Barrier} {idx newSize : Nat}
    (inv : ListInv (b.withSize newSize)) (bound : idx < newSize) :
    ListInv ((b.removeSlot idx newSize).withSize (newSize - 1)) := by
  have distinct : ∀ i j, i < newSize → j < newSize → b.runList i = b.runList j → i = j :=
    inv.distinct
  refine ⟨?_, ?_, ?_, ?_, ?_⟩
  · intro t h
    rw [stateOf_withSize, stateOf_removeSlot] at h
    split at h
    · exact absurd rfl h
    · exact inv.bounded t h
  · intro i j hi hj same
    change i < newSize - 1 at hi
    change j < newSize - 1 at hj
    change (b.removeSlot idx newSize).runList i = (b.removeSlot idx newSize).runList j at same
    rw [runList_removeSlot, runList_removeSlot] at same
    split at same <;> split at same
    · omega
    · have := distinct _ _ (by omega) (by omega) same
      omega
    · have := distinct _ _ (by omega) (by omega) same
      omega
    · exact distinct _ _ (by omega) (by omega) same
  · intro i hi
    change i < newSize - 1 at hi
    rw [stateOf_withSize, stateOf_removeSlot]
    change (if (b.removeSlot idx newSize).runList i = b.runList idx then State.offline
      else b.stateOf ((b.removeSlot idx newSize).runList i)) ≠ .offline
    rw [runList_removeSlot]
    split
    · rename_i here
      rw [if_neg fun same => by
        have := distinct _ _ (by omega) bound same
        omega]
      exact inv.listed (newSize - 1) (by show newSize - 1 < newSize; omega)
    · rename_i away
      rw [if_neg fun same => away (distinct _ _ (by omega) bound same)]
      exact inv.listed i (by show i < newSize; omega)
  · intro t h
    rw [stateOf_withSize, stateOf_removeSlot] at h
    by_cases removed : t = b.runList idx
    · rw [if_pos removed] at h
      exact absurd rfl h
    · rw [if_neg removed] at h
      obtain ⟨k, hk, here⟩ := inv.present t h
      change k < newSize at hk
      change b.runList k = t at here
      have off : k ≠ idx := fun e => removed (by rw [← here, e])
      by_cases last : k = newSize - 1
      · refine ⟨idx, by show idx < newSize - 1; omega, ?_⟩
        show (b.removeSlot idx newSize).runList idx = t
        rw [runList_removeSlot, if_pos rfl, ← last, here]
      · refine ⟨k, by show k < newSize - 1; omega, ?_⟩
        show (b.removeSlot idx newSize).runList k = t
        rw [runList_removeSlot, if_neg off, here]
  · intro t h
    rw [stateOf_withSize, stateOf_removeSlot] at h
    by_cases removed : t = b.runList idx
    · rw [if_pos removed] at h
      rcases h with h | h <;> cases h
    · rw [if_neg removed] at h
      obtain ⟨hk, here⟩ := inv.indexed t h
      change b.lastIdxOf t < newSize at hk
      change b.runList (b.lastIdxOf t) = t at here
      have off : b.lastIdxOf t ≠ idx := fun e => removed (by rw [← e, here])
      show (b.removeSlot idx newSize).lastIdxOf t < newSize - 1 ∧
        (b.removeSlot idx newSize).runList ((b.removeSlot idx newSize).lastIdxOf t) = t
      rw [lastIdxOf_removeSlot]
      by_cases moved : t = b.runList (newSize - 1)
      · have : idx ≠ newSize - 1 := fun e => removed (by rw [moved, e])
        rw [if_pos moved, runList_removeSlot, if_pos rfl]
        exact ⟨by omega, moved.symm⟩
      · have : b.lastIdxOf t ≠ newSize - 1 := fun e => moved (by rw [← e, here])
        rw [if_neg moved, runList_removeSlot, if_neg off]
        exact ⟨by omega, here⟩

/-- What the cleanup pass leaves alone. -/
structure CleanupFrame (before after : Barrier) : Prop where
  parallelThreads : after.parallelThreads = before.parallelThreads
  curThreadIdx : after.curThreadIdx = before.curThreadIdx
  runningThreads : after.runningThreads = before.runningThreads
  leftThreads : after.leftThreads = before.leftThreads
  futexWord : ∀ t, after.futexWordOf t = before.futexWordOf t
  state : ∀ t, after.stateOf t = before.stateOf t ∨
    (before.stateOf t = .left ∧ after.stateOf t = .offline)

theorem CleanupFrame.refl (b : Barrier) : CleanupFrame b b :=
  ⟨rfl, rfl, rfl, rfl, fun _ => rfl, fun _ => .inl rfl⟩

theorem CleanupFrame.trans {a b c : Barrier} (first : CleanupFrame a b)
    (second : CleanupFrame b c) : CleanupFrame a c where
  parallelThreads := second.parallelThreads.trans first.parallelThreads
  curThreadIdx := second.curThreadIdx.trans first.curThreadIdx
  runningThreads := second.runningThreads.trans first.runningThreads
  leftThreads := second.leftThreads.trans first.leftThreads
  futexWord t := (second.futexWord t).trans (first.futexWord t)
  state t := by
    rcases first.state t with same | ⟨was, now⟩
    · rcases second.state t with again | ⟨was, now⟩
      · exact .inl (again.trans same)
      · exact .inr ⟨same ▸ was, now⟩
    · rcases second.state t with again | ⟨wasLeft, _⟩
      · exact .inr ⟨was, again.trans now⟩
      · rw [now] at wasLeft
        cases wasLeft

theorem CleanupFrame.removeSlot {b : Barrier} {idx newSize : Nat}
    (gone : b.stateOf (b.runList idx) = .left) : CleanupFrame b (b.removeSlot idx newSize) where
  parallelThreads := rfl
  curThreadIdx := rfl
  runningThreads := rfl
  leftThreads := rfl
  futexWord t := futexWordOf_removeSlot b idx newSize t
  state t := by
    rw [stateOf_removeSlot]
    split
    · rename_i here
      exact .inr ⟨here ▸ gone, rfl⟩
    · exact .inl rfl

theorem countOf_removeSlot {b : Barrier} {idx : Nat} (newSize : Nat) (gone : b.stateOf (b.runList idx) = .left)
    (bound : b.runList idx < maxThreads) :
    (b.removeSlot idx newSize).countOf .left + 1 = b.countOf .left := by
  have counted := countOf_setThread b bound
    { b.threadList (b.runList idx) with state := .offline } .left
  have same : (b.removeSlot idx newSize).countOf .left =
      (b.setState (b.runList idx) .offline).countOf .left :=
    countOf_congr .left fun t => by simp [Barrier.removeSlot]
  rw [gone] at counted
  simpa [same, setState] using counted

theorem cleanupFrom_spec (fuel : Nat) {b : Barrier} {idx newSize : Nat}
    (inv : ListInv (b.withSize newSize)) (enough : newSize ≤ fuel + idx) (start : idx ≤ newSize)
    (checked : ∀ k, k < idx → b.stateOf (b.runList k) ≠ .left)
    {final : Barrier} {size : Nat} (run : b.cleanupFrom fuel idx newSize = (final, size)) :
    ListInv (final.withSize size) ∧ CleanupFrame b final ∧ size ≤ newSize ∧
      final.countOf .left + newSize = b.countOf .left + size ∧
      ∀ k, k < size → final.stateOf (final.runList k) ≠ .left := by
  induction fuel generalizing b idx newSize with
  | zero =>
      cases run
      exact ⟨inv, .refl _, Nat.le_refl _, rfl, fun k hk => checked k (by omega)⟩
  | succ fuel ih =>
      rw [cleanupFrom] at run
      by_cases more : idx < newSize
      · rw [if_pos more] at run
        by_cases gone : b.stateOf (b.runList idx) = .left
        · simp only [if_pos gone] at run
          change (b.removeSlot idx newSize).cleanupFrom fuel idx (newSize - 1) = (final, size) at run
          have bound : b.runList idx < maxThreads := inv.bounded _ (by simp [gone])
          have stillChecked : ∀ k, k < idx →
              (b.removeSlot idx newSize).stateOf ((b.removeSlot idx newSize).runList k) ≠ .left := by
            intro k hk
            rw [runList_removeSlot, if_neg (by omega), stateOf_removeSlot]
            split
            · simp
            · exact checked k hk
          obtain ⟨list, frame, le, count, clean⟩ :=
            ih (inv.removeSlot more) (by omega) (by omega) stillChecked run
          have counted := countOf_removeSlot newSize gone bound
          exact ⟨list, (CleanupFrame.removeSlot gone).trans frame, by omega, by omega, clean⟩
        · simp only [if_neg gone] at run
          refine ih inv (by omega) more (fun k hk => ?_) run
          by_cases here : k = idx
          · rw [here]
            exact gone
          · exact checked k (by omega)
      · rw [if_neg more] at run
        cases run
        exact ⟨inv, .refl _, Nat.le_refl _, rfl, fun k hk => checked k (by omega)⟩

/-- The whole pass: its assertions hold, every LEFT thread is OFFLINE afterwards
and no other thread has changed its state. -/
theorem Inv.cleanup {b : Barrier} (inv : Inv b) (rewound : b.curThreadIdx = 0)
    (nonempty : 0 < b.runListSize) :
    ∃ final, b.cleanup = some final ∧ Inv final ∧ final.curThreadIdx = 0 ∧
      (∀ t, final.stateOf t = if b.stateOf t = .left then .offline else b.stateOf t) ∧
      final.parallelThreads = b.parallelThreads ∧ final.runningThreads = b.runningThreads := by
  cases run : b.cleanupFrom b.runListSize 0 b.runListSize with
  | mk final size =>
    obtain ⟨list, frame, le, count, clean⟩ := cleanupFrom_spec b.runListSize inv.toListInv
      (by omega) (Nat.zero_le _) (fun k hk => absurd hk (Nat.not_lt_zero k)) run
    have noneLeft : ∀ t, final.stateOf t ≠ .left := by
      intro t h
      obtain ⟨k, hk, here⟩ := list.present t (by rw [stateOf_withSize, h]; simp)
      exact clean k hk (by rw [show final.runList k = t from here]; exact h)
    have zero : final.countOf .left = 0 := countIn_eq_zero _ _ _ fun t _ => noneLeft t
    have removed : b.runListSize - size = b.leftThreads := by
      have := inv.left
      omega
    have states : ∀ t, final.stateOf t = if b.stateOf t = .left then .offline else b.stateOf t := by
      intro t
      rcases frame.state t with same | ⟨was, now⟩
      · rw [same, if_neg (by rw [← same]; exact noneLeft t)]
      · rw [if_pos was, now]
    refine ⟨{ final with leftThreads := 0, runListSize := size }, ?_, ?_,
      frame.curThreadIdx.trans rewound, states, frame.parallelThreads, frame.runningThreads⟩
    · simp only [Barrier.cleanup, if_pos nonempty, run, if_pos removed]
    · refine ⟨⟨list.bounded, list.distinct, list.listed, list.present, list.indexed⟩,
        ?_, ?_, ?_, ?_, ?_, ?_⟩
      · exact frame.parallelThreads ▸ inv.positive
      · have sameCount : final.countOf .running = b.countOf .running := by
          apply countIn_congr
          intro t _
          show final.stateOf t = .running ↔ b.stateOf t = .running
          rw [states t]
          split
          · rename_i was
            rw [was]
            simp
          · exact Iff.rfl
        exact (frame.runningThreads.trans inv.running).trans sameCount.symm
      · exact (frame.runningThreads.trans_le inv.limited).trans_eq frame.parallelThreads.symm
      · exact zero.symm
      · show final.curThreadIdx ≤ size
        rw [frame.curThreadIdx, rewound]
        exact Nat.zero_le _
      · intro t h
        change final.stateOf t = .waiting at h
        have was : b.stateOf t = .waiting := by
          rcases frame.state t with same | ⟨_, now⟩
          · exact same ▸ h
          · rw [now] at h
            cases h
        exact (frame.futexWord t).trans (inv.blocked t was)

end Zsim.Barrier
