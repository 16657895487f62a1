import Zsim.Barrier.Invariant

/-!
# The barrier's operations keep the invariant

`Walk` is what `checkRunList` does, and `Outcome` what `tryWakeNext` does; the
functions are shown to produce one from every state that satisfies `Inv`.
-/

set_option autoImplicit false

namespace Zsim.Barrier

/-! ## Waking threads -/

def advance (b : Barrier) : Barrier := { b with curThreadIdx := b.curThreadIdx + 1 }

def MayWake (b : Barrier) : Prop :=
  b.runningThreads < b.parallelThreads ∧ b.curThreadIdx < b.runListSize

instance (b : Barrier) : Decidable b.MayWake :=
  inferInstanceAs (Decidable (_ ∧ _))

theorem checkRunListFrom_succ (fuel : Nat) (b : Barrier) :
    b.checkRunListFrom (fuel + 1) =
      if b.MayWake then
        if b.stateOf (b.runList b.curThreadIdx) = .waiting then
          if b.futexWordOf (b.runList b.curThreadIdx) = 1 then
            ((b.advance.wakeThread (b.runList b.curThreadIdx)
              b.curThreadIdx).checkRunListFrom fuel).bind fun (final, woken) =>
                some (final, b.runList b.curThreadIdx :: woken)
          else none
        else b.advance.checkRunListFrom fuel
      else some (b, []) := rfl

/-- A thread of the list is woken at every waiting entry until `MayWake` ends. -/
inductive Walk : Barrier → List Nat → Barrier → Prop
  | stop {b : Barrier} (stopped : ¬ b.MayWake) : Walk b [] b
  | skip {b final : Barrier} {woken : List Nat} (more : b.MayWake)
      (away : b.stateOf (b.runList b.curThreadIdx) ≠ .waiting)
      (rest : Walk b.advance woken final) : Walk b woken final
  | wake {b final : Barrier} {woken : List Nat} (more : b.MayWake)
      (waits : b.stateOf (b.runList b.curThreadIdx) = .waiting)
      (rest : Walk (b.advance.wakeThread (b.runList b.curThreadIdx) b.curThreadIdx) woken final) :
      Walk b (b.runList b.curThreadIdx :: woken) final

@[simp] theorem stateOf_wakeThread (b : Barrier) (wtid idx u : Nat) :
    (b.wakeThread wtid idx).stateOf u = if u = wtid then .running else b.stateOf u :=
  stateOf_setThread b wtid u _

@[simp] theorem stateOf_advance (b : Barrier) (u : Nat) : b.advance.stateOf u = b.stateOf u := rfl

theorem Inv.advance {b : Barrier} (inv : Inv b) (more : b.curThreadIdx < b.runListSize) :
    Inv b.advance where
  toListInv := ⟨inv.bounded, inv.distinct, inv.listed, inv.present, inv.indexed⟩
  positive := inv.positive
  running := inv.running
  limited := inv.limited
  left := inv.left
  cursor := more
  blocked := inv.blocked

theorem Inv.wakeThread {b : Barrier} (inv : Inv b) (idx : Nat) (bound : idx < b.runListSize)
    (waits : b.stateOf (b.runList idx) = .waiting) (room : b.runningThreads < b.parallelThreads) :
    Inv (b.wakeThread (b.runList idx) idx) := by
  have known : b.runList idx < maxThreads := inv.bounded _ (by simp [waits])
  have counts := countOf_setThread b known { state := .running, futexWord := 0, lastIdx := idx }
  refine ⟨⟨?_, inv.distinct, ?_, ?_, ?_⟩, inv.positive, ?_, room, ?_, inv.cursor, ?_⟩
  · intro t h
    rw [stateOf_wakeThread] at h
    split at h
    · rename_i here
      exact here ▸ known
    · exact inv.bounded t h
  · intro i hi
    rw [stateOf_wakeThread]
    split
    · simp
    · exact inv.listed i hi
  · intro t h
    rw [stateOf_wakeThread] at h
    split at h
    · rename_i here
      exact ⟨idx, bound, here.symm⟩
    · exact inv.present t h
  · intro t h
    rw [stateOf_wakeThread] at h
    show ((b.setThread (b.runList idx) _).lastIdxOf t) < b.runListSize ∧
      b.runList ((b.setThread (b.runList idx) _).lastIdxOf t) = t
    rw [lastIdxOf_setThread]
    by_cases here : t = b.runList idx
    · rw [if_pos here]
      exact ⟨bound, here.symm⟩
    · rw [if_neg here] at h ⊢
      exact inv.indexed t h
  · have := counts .running
    have := inv.running
    simp only [waits, reduceCtorEq, if_false, if_true] at *
    show b.runningThreads + 1 = (b.setThread (b.runList idx) _).countOf .running
    omega
  · have := counts .left
    have := inv.left
    simp only [waits, reduceCtorEq, if_false] at *
    show b.leftThreads = (b.setThread (b.runList idx) _).countOf .left
    omega
  · intro t h
    rw [stateOf_wakeThread] at h
    show (b.setThread (b.runList idx) _).futexWordOf t = 1
    rw [futexWordOf_setThread]
    by_cases here : t = b.runList idx
    · rw [if_pos here] at h
      cases h
    · rw [if_neg here] at h ⊢
      exact inv.blocked t h

theorem checkRunListFrom_walk (fuel : Nat) {b : Barrier} (inv : Inv b)
    (enough : b.runListSize ≤ fuel + b.curThreadIdx) :
    ∃ final woken, b.checkRunListFrom fuel = some (final, woken) ∧ Walk b woken final ∧ Inv final := by
  induction fuel generalizing b with
  | zero =>
      have stopped : ¬ b.MayWake := fun more => by
        have := more.2
        omega
      exact ⟨b, [], rfl, .stop stopped, inv⟩
  | succ fuel ih =>
      by_cases more : b.MayWake
      · have advanced := inv.advance more.2
        by_cases waits : b.stateOf (b.runList b.curThreadIdx) = .waiting
        · have awake := advanced.wakeThread b.curThreadIdx more.2 waits more.1
          obtain ⟨final, woken, run, walk, holds⟩ := ih awake (by
            show b.runListSize ≤ fuel + (b.curThreadIdx + 1)
            omega)
          refine ⟨final, _, ?_, .wake more waits walk, holds⟩
          rw [checkRunListFrom_succ, if_pos more, if_pos waits, if_pos (inv.blocked _ waits)]
          exact Option.bind_eq_some_iff.mpr ⟨(final, woken), run, rfl⟩
        · obtain ⟨final, woken, run, walk, holds⟩ := ih advanced (by
            show b.runListSize ≤ fuel + (b.curThreadIdx + 1)
            omega)
          refine ⟨final, woken, ?_, .skip more waits walk, holds⟩
          rw [checkRunListFrom_succ, if_pos more, if_neg waits]
          exact run
      · exact ⟨b, [], by rw [checkRunListFrom_succ, if_neg more], .stop more, inv⟩

theorem checkRunList_walk {b : Barrier} (inv : Inv b) :
    ∃ final woken, b.checkRunList = some (final, woken) ∧ Walk b woken final ∧ Inv final :=
  checkRunListFrom_walk _ inv (by
    have := inv.cursor
    omega)

theorem checkRunList_of_stopped {b : Barrier} (stopped : ¬ b.MayWake) :
    b.checkRunList = some (b, []) := by
  unfold checkRunList
  cases b.runListSize - b.curThreadIdx with
  | zero => rfl
  | succ fuel => rw [checkRunListFrom_succ, if_neg stopped]

theorem Walk.stopped {b final : Barrier} {woken : List Nat} (walk : Walk b woken final) :
    ¬ final.MayWake := by
  induction walk with
  | stop stopped => exact stopped
  | skip _ _ _ ih => exact ih
  | wake _ _ _ ih => exact ih

theorem Walk.inv {b final : Barrier} {woken : List Nat} (walk : Walk b woken final) (inv : Inv b) :
    Inv final := by
  induction walk with
  | stop => exact inv
  | skip more _ _ ih => exact ih (inv.advance more.2)
  | @wake b _ _ more waits _ ih =>
      exact ih ((inv.advance more.2).wakeThread b.curThreadIdx more.2 waits more.1)

/-! ## The end of a phase -/

/-- A phase ends with a thread still on the list that has not left. -/
theorem Inv.size_pos {b : Barrier} (inv : Inv b) (ended : b.endOfPhase) : 0 < b.runListSize := by
  by_contra empty
  have noThread : ∀ t, b.stateOf t = .offline := by
    intro t
    by_contra h
    obtain ⟨k, hk, _⟩ := inv.present t h
    omega
  have none : b.countOf .left = 0 := countIn_eq_zero _ _ _ fun t _ h => by
    have := noThread t
    change b.stateOf t = .left at h
    rw [this] at h
    cases h
  have := inv.left
  have := ended.2.2
  omega

/-- Rewinding passes its assertions.  The cursor is back at the front, and no
state has changed but that a thread which left may now be OFFLINE. -/
theorem Inv.rewind (rand : Nat → Nat) {b : Barrier} (inv : Inv b) (ended : b.endOfPhase) :
    ∃ next, b.rewind rand = some next ∧ Inv next ∧ next.curThreadIdx = 0 ∧
      next.runningThreads = 0 ∧ next.parallelThreads = b.parallelThreads ∧
      ∀ t, next.stateOf t = b.stateOf t ∨ (b.stateOf t = .left ∧ next.stateOf t = .offline) := by
  let rewound : Barrier :=
    { b with curThreadIdx := 0, phaseCount := (b.phaseCount + 1) % 2 ^ 32 }
  have rewoundInv : Inv rewound :=
    ⟨⟨inv.bounded, inv.distinct, inv.listed, inv.present, inv.indexed⟩, inv.positive, inv.running,
      inv.limited, inv.left, Nat.zero_le _, inv.blocked⟩
  by_cases due : b.phaseCount % 32 = 0
  · obtain ⟨cleaned, run, cleanedInv, cursor, states, parallel, running⟩ :=
      rewoundInv.cleanup rfl (inv.size_pos ended)
    refine ⟨cleaned.shuffle rand, ?_, cleanedInv.shuffle rand,
      (shuffle_frame rand cleaned).1.trans cursor,
      (shuffle_frame rand cleaned).2.1.trans (running.trans ended.2.1),
      (shuffle_frame rand cleaned).2.2.trans parallel, ?_⟩
    · simp only [Barrier.rewind, if_pos due]
      exact Option.bind_eq_some_iff.mpr ⟨cleaned, run, rfl⟩
    · intro t
      rw [stateOf_shuffle rand cleaned t, states t]
      by_cases gone : b.stateOf t = .left
      · exact .inr ⟨gone, if_pos gone⟩
      · exact .inl (if_neg gone)
  · refine ⟨rewound.shuffle rand, ?_, rewoundInv.shuffle rand, (shuffle_frame rand rewound).1,
      (shuffle_frame rand rewound).2.1.trans ended.2.1, (shuffle_frame rand rewound).2.2,
      fun t => .inl (stateOf_shuffle rand rewound t)⟩
    simp only [Barrier.rewind, if_neg due]
    rfl

/-- What `tryWakeNext` does to the barrier, and whether it ends the phase. -/
inductive Outcome (rand : Nat → Nat) (b : Barrier) : Bool → Barrier → List Event → Prop
  | same {final : Barrier} {woken : List Nat} (walk : Walk b woken final)
      (going : ¬ final.endOfPhase) : Outcome rand b false final (woken.map .wake)
  | ended {mid next final : Barrier} {first second : List Nat} (walk : Walk b first mid)
      (ended : mid.endOfPhase) (rewound : mid.rewind rand = some next)
      (again : Walk next second final) :
      Outcome rand b true final (first.map .wake ++ [.phaseEnd mid] ++ second.map .wake)

/-- `tryWakeNext` panics only if the callback does. -/
theorem tryWakeNext_outcome (rand : Nat → Nat) {b : Barrier} (inv : Inv b) :
    ∃ ended final events, Outcome rand b ended final events ∧ Inv final ∧
      ∀ {σ : Type} (callback : σ → Option σ) (s : σ),
        b.tryWakeNext callback rand s =
          (if ended then callback s else some s).map fun s => (final, s, events) := by
  obtain ⟨mid, first, run, walk, midInv⟩ := checkRunList_walk inv
  by_cases phaseEnds : mid.endOfPhase
  · obtain ⟨next, rewound, nextInv, -⟩ := midInv.rewind rand phaseEnds
    obtain ⟨final, second, runAgain, again, finalInv⟩ := checkRunList_walk nextInv
    refine ⟨true, final, _, .ended walk phaseEnds rewound again, finalInv, ?_⟩
    intro σ callback s
    cases called : callback s with
    | none => simp [tryWakeNext, run, checkEndPhase, phaseEnds, called]
    | some s' => simp [tryWakeNext, run, checkEndPhase, phaseEnds, called, rewound, runAgain]
  · refine ⟨false, mid, _, .same walk phaseEnds, midInv, ?_⟩
    intro σ callback s
    simp [tryWakeNext, run, checkEndPhase, phaseEnds, checkRunList_of_stopped walk.stopped]

/-! ## join, leave and sync before they wake anyone -/

theorem ListInv.setWaiting {b : Barrier} (inv : ListInv b) (tid : Nat)
    (known : b.stateOf tid ≠ .offline) : ListInv (b.setWaiting tid) where
  bounded t h := by
    rw [stateOf_setWaiting] at h
    split at h
    · rename_i here
      exact here ▸ inv.bounded tid known
    · exact inv.bounded t h
  distinct := inv.distinct
  listed i hi := by
    rw [stateOf_setWaiting]
    split
    · simp
    · exact inv.listed i hi
  present t h := by
    rw [stateOf_setWaiting] at h
    split at h
    · rename_i here
      exact here ▸ inv.present tid known
    · exact inv.present t h
  indexed t h := by
    rw [stateOf_setWaiting] at h
    rw [lastIdxOf_setWaiting]
    split at h
    · rcases h with h | h <;> cases h
    · exact inv.indexed t h

theorem countOf_setWaiting {b : Barrier} {tid : Nat} (known : tid < maxThreads) (state : State) :
    (b.setWaiting tid).countOf state + (if b.stateOf tid = state then 1 else 0) =
      b.countOf state + (if State.waiting = state then 1 else 0) :=
  countOf_setThread b known { b.threadList tid with state := .waiting, futexWord := 1 } state

/-- The thread list of `append`, which does not store the new slot. -/
theorem Inv.append {b : Barrier} (inv : Inv b) {tid : Nat} (bound : tid < maxThreads)
    (gone : b.stateOf tid = .offline) : Inv ((b.append tid).setWaiting tid) := by
  have absent : ∀ i, i < b.runListSize → b.runList i ≠ tid := by
    intro i hi here
    exact inv.listed i hi (here ▸ gone)
  have slot : ∀ i, ((b.append tid).setWaiting tid).runList i =
      if i = b.runListSize then tid else b.runList i := fun i =>
    runList_setRunList b b.runListSize tid i
  have state : ∀ t, ((b.append tid).setWaiting tid).stateOf t =
      if t = tid then .waiting else b.stateOf t := fun t =>
    stateOf_setWaiting (b.append tid) tid t
  have running := countOf_setWaiting (b := b) bound .running
  have left := countOf_setWaiting (b := b) bound .left
  rw [gone] at running left
  simp only [reduceCtorEq, if_false] at running left
  refine ⟨⟨?_, ?_, ?_, ?_, ?_⟩, inv.positive, ?_, inv.limited, ?_, ?_, ?_⟩
  · intro t h
    rw [state] at h
    split at h
    · rename_i here
      exact here ▸ bound
    · exact inv.bounded t h
  · intro i j hi hj same
    change i < b.runListSize + 1 at hi
    change j < b.runListSize + 1 at hj
    rw [slot, slot] at same
    split at same <;> split at same
    · omega
    · exact absurd same.symm (absent j (by omega))
    · exact absurd same (absent i (by omega))
    · exact inv.distinct i j (by omega) (by omega) same
  · intro i hi
    change i < b.runListSize + 1 at hi
    rw [state, slot]
    by_cases last : i = b.runListSize
    · simp [last]
    · rw [if_neg last]
      split
      · simp
      · exact inv.listed i (by omega)
  · intro t h
    rw [state] at h
    by_cases here : t = tid
    · exact ⟨b.runListSize, Nat.lt_succ_self _, by rw [slot, if_pos rfl, here]⟩
    · rw [if_neg here] at h
      obtain ⟨i, hi, at_i⟩ := inv.present t h
      exact ⟨i, Nat.lt_succ_of_lt hi, by rw [slot, if_neg (by omega), at_i]⟩
  · intro t h
    rw [state] at h
    by_cases here : t = tid
    · rw [if_pos here] at h
      rcases h with h | h <;> cases h
    · rw [if_neg here] at h
      obtain ⟨bound, at_t⟩ := inv.indexed t h
      rw [lastIdxOf_setWaiting, slot]
      change b.lastIdxOf t < b.runListSize + 1 ∧
        (if b.lastIdxOf t = b.runListSize then tid else b.runList (b.lastIdxOf t)) = t
      rw [if_neg (by omega)]
      exact ⟨by omega, at_t⟩
  · have := inv.running
    show b.runningThreads = (b.setWaiting tid).countOf .running
    omega
  · have := inv.left
    show b.leftThreads = (b.setWaiting tid).countOf .left
    omega
  · exact Nat.le_succ_of_le inv.cursor
  · intro t h
    rw [state] at h
    rw [futexWordOf_setWaiting]
    by_cases here : t = tid
    · rw [if_pos here]
    · rw [if_neg here] at h ⊢
      exact inv.blocked t h

/-- The barrier of a thread that joins again: its slot is moved in front of the
cursor if the cursor has already passed it. -/
def rejoined (b : Barrier) (tid : Nat) : Barrier :=
  if b.lastIdxOf tid < b.curThreadIdx then
    { b with
      leftThreads := b.leftThreads - 1
      curThreadIdx := b.curThreadIdx - 1 }.swap (b.curThreadIdx - 1) (b.lastIdxOf tid)
  else { b with leftThreads := b.leftThreads - 1 }

theorem setRunList_comm (b : Barrier) {i j : Nat} (apart : i ≠ j) (x y : Nat) :
    (b.setRunList i x).setRunList j y = (b.setRunList j y).setRunList i x := by
  unfold setRunList
  simp only [Function.update_comm apart]

theorem exchange_eq_swap (b : Barrier) (i j tid : Nat) (here : b.runList i = tid) :
    (((b.setRunList i (b.runList j)).setRunList j tid).setLastIdx (b.runList j) i).setLastIdx tid j =
      b.swap j i := by
  unfold swap
  simp only [here]
  by_cases same : i = j
  · subst same
    rw [here]
  · rw [setRunList_comm _ same]

/-- The assertion of `join` is that `lastIdx` is the thread's own slot. -/
theorem rejoin_eq {b : Barrier} {tid : Nat} (indexed : b.runList (b.lastIdxOf tid) = tid) :
    b.rejoin tid = some (b.rejoined tid) := by
  unfold rejoined
  by_cases passed : b.lastIdxOf tid < b.curThreadIdx
  · have exchange := exchange_eq_swap
      { b with leftThreads := b.leftThreads - 1, curThreadIdx := b.curThreadIdx - 1 }
      (b.lastIdxOf tid) (b.curThreadIdx - 1) tid indexed
    rw [if_pos passed, ← exchange]
    exact (if_pos passed).trans (if_pos indexed.symm)
  · rw [if_neg passed]
    exact if_neg passed

@[simp] theorem stateOf_rejoined (b : Barrier) (tid t : Nat) :
    (b.rejoined tid).stateOf t = b.stateOf t := by
  unfold rejoined
  split
  · exact stateOf_swap _ _ _ t
  · rfl

@[simp] theorem futexWordOf_rejoined (b : Barrier) (tid t : Nat) :
    (b.rejoined tid).futexWordOf t = b.futexWordOf t := by
  unfold rejoined
  split
  · exact futexWordOf_swap _ _ _ t
  · rfl

theorem rejoined_frame (b : Barrier) (tid : Nat) :
    (b.rejoined tid).parallelThreads = b.parallelThreads ∧
      (b.rejoined tid).runningThreads = b.runningThreads ∧
      (b.rejoined tid).leftThreads = b.leftThreads - 1 ∧
      (b.rejoined tid).runListSize = b.runListSize ∧
      (b.rejoined tid).curThreadIdx ≤ b.curThreadIdx := by
  unfold rejoined
  split
  · exact ⟨rfl, rfl, rfl, rfl, Nat.sub_le _ _⟩
  · exact ⟨rfl, rfl, rfl, rfl, Nat.le_refl _⟩

theorem Inv.rejoined {b : Barrier} (inv : Inv b) {tid : Nat} (gone : b.stateOf tid = .left) :
    Inv ((b.rejoined tid).setWaiting tid) := by
  obtain ⟨inUse, -⟩ := inv.indexed tid (.inl gone)
  have known : tid < maxThreads := inv.bounded tid (by simp [gone])
  have list : ListInv (b.rejoined tid) := by
    unfold Barrier.rejoined
    split
    · rename_i passed
      have cursor := inv.cursor
      exact ListInv.swap (b := { b with
        leftThreads := b.leftThreads - 1
        curThreadIdx := b.curThreadIdx - 1 })
        ⟨inv.bounded, inv.distinct, inv.listed, inv.present, inv.indexed⟩
        (by show b.curThreadIdx - 1 < b.runListSize; omega) inUse
    · exact ⟨inv.bounded, inv.distinct, inv.listed, inv.present, inv.indexed⟩
  obtain ⟨parallel, running, left, size, cursor⟩ := rejoined_frame b tid
  have sameCount (state : State) : (b.rejoined tid).countOf state = b.countOf state :=
    countOf_congr state (stateOf_rejoined b tid)
  have running' := countOf_setWaiting (b := b.rejoined tid) known .running
  have left' := countOf_setWaiting (b := b.rejoined tid) known .left
  rw [sameCount, stateOf_rejoined, gone] at running' left'
  simp only [reduceCtorEq, if_false, if_true] at running' left'
  refine ⟨list.setWaiting tid (by simp [gone]), ?_, ?_, ?_, ?_, ?_, ?_⟩
  · exact parallel ▸ inv.positive
  · have := inv.running
    show (b.rejoined tid).runningThreads = _
    omega
  · exact (running.trans_le inv.limited).trans_eq parallel.symm
  · have := inv.left
    show (b.rejoined tid).leftThreads = _
    omega
  · have bound := inv.cursor
    show (b.rejoined tid).curThreadIdx ≤ (b.rejoined tid).runListSize
    omega
  · intro t h
    rw [stateOf_setWaiting] at h
    rw [futexWordOf_setWaiting]
    split at h
    · rename_i here
      rw [if_pos here]
    · rename_i away
      rw [if_neg away, futexWordOf_rejoined]
      exact inv.blocked t (by simpa using h)

/-- The barrier just after a thread has left. -/
def departed (b : Barrier) (tid : Nat) : Barrier :=
  { b.setState tid .left with leftThreads := b.leftThreads + 1 }

@[simp] theorem stateOf_departed (b : Barrier) (tid t : Nat) :
    (b.departed tid).stateOf t = if t = tid then .left else b.stateOf t :=
  stateOf_setState b tid t .left

theorem ListInv.departed {b : Barrier} (inv : ListInv b) {tid : Nat}
    (known : b.stateOf tid ≠ .offline)
    (indexed : b.lastIdxOf tid < b.runListSize ∧ b.runList (b.lastIdxOf tid) = tid) :
    ListInv (b.departed tid) where
  bounded t h := by
    rw [stateOf_departed] at h
    split at h
    · rename_i here
      exact here ▸ inv.bounded tid known
    · exact inv.bounded t h
  distinct := inv.distinct
  listed i hi := by
    rw [stateOf_departed]
    split
    · simp
    · exact inv.listed i hi
  present t h := by
    rw [stateOf_departed] at h
    split at h
    · rename_i here
      exact here ▸ inv.present tid known
    · exact inv.present t h
  indexed t h := by
    rw [stateOf_departed] at h
    show (b.setState tid .left).lastIdxOf t < b.runListSize ∧
      b.runList ((b.setState tid .left).lastIdxOf t) = t
    rw [lastIdxOf_setState]
    by_cases here : t = tid
    · exact here ▸ indexed
    · rw [if_neg here] at h
      exact inv.indexed t h

theorem countOf_departed {b : Barrier} {tid : Nat} (known : tid < maxThreads) (state : State) :
    (b.departed tid).countOf state + (if b.stateOf tid = state then 1 else 0) =
      b.countOf state + (if State.left = state then 1 else 0) :=
  countOf_setThread b known { b.threadList tid with state := .left } state

theorem Inv.leave_running {b : Barrier} (inv : Inv b) {tid : Nat} (runs : b.stateOf tid = .running) :
    Inv { b.departed tid with runningThreads := b.runningThreads - 1 } := by
  have known : tid < maxThreads := inv.bounded tid (by simp [runs])
  have list := inv.toListInv.departed (by simp [runs]) (inv.indexed tid (.inr runs))
  have left := countOf_departed (b := b) known .left
  have running := countOf_departed (b := b) known .running
  rw [runs] at left running
  simp only [reduceCtorEq, if_false, if_true] at left running
  have := inv.left
  have := inv.running
  have := inv.limited
  refine ⟨⟨list.bounded, list.distinct, list.listed, list.present, list.indexed⟩, inv.positive,
    ?_, ?_, ?_, inv.cursor, ?_⟩
  · show b.runningThreads - 1 = (b.departed tid).countOf .running
    omega
  · show b.runningThreads - 1 ≤ b.parallelThreads
    omega
  · show b.leftThreads + 1 = (b.departed tid).countOf .left
    omega
  · intro t h
    change (b.departed tid).stateOf t = .waiting at h
    rw [stateOf_departed] at h
    split at h
    · cases h
    · exact (futexWordOf_setState b tid t .left).trans (inv.blocked t h)

/-- A thread that leaves while WAITING keeps the invariant only if its `lastIdx`
is current: this branch does not set it. -/
theorem Inv.leave_waiting {b : Barrier} (inv : Inv b) {tid : Nat} (waits : b.stateOf tid = .waiting)
    (indexed : b.lastIdxOf tid < b.runListSize ∧ b.runList (b.lastIdxOf tid) = tid) :
    Inv (b.departed tid) := by
  have known : tid < maxThreads := inv.bounded tid (by simp [waits])
  have list := inv.toListInv.departed (by simp [waits]) indexed
  have left := countOf_departed (b := b) known .left
  have running := countOf_departed (b := b) known .running
  rw [waits] at left running
  simp only [reduceCtorEq, if_false, if_true] at left running
  have := inv.left
  have := inv.running
  refine ⟨list, inv.positive, ?_, inv.limited, ?_, inv.cursor, ?_⟩
  · show b.runningThreads = (b.departed tid).countOf .running
    omega
  · show b.leftThreads + 1 = (b.departed tid).countOf .left
    omega
  · intro t h
    rw [stateOf_departed] at h
    split at h
    · cases h
    · exact (futexWordOf_setState b tid t .left).trans (inv.blocked t h)

theorem Inv.sync_running {b : Barrier} (inv : Inv b) {tid : Nat} (runs : b.stateOf tid = .running) :
    Inv { b.setWaiting tid with runningThreads := b.runningThreads - 1 } := by
  have known : tid < maxThreads := inv.bounded tid (by simp [runs])
  have list := inv.toListInv.setWaiting tid (by simp [runs])
  have left := countOf_setWaiting (b := b) known .left
  have running := countOf_setWaiting (b := b) known .running
  rw [runs] at left running
  simp only [reduceCtorEq, if_false, if_true] at left running
  have := inv.left
  have := inv.running
  have := inv.limited
  refine ⟨⟨list.bounded, list.distinct, list.listed, list.present, list.indexed⟩, inv.positive,
    ?_, ?_, ?_, inv.cursor, ?_⟩
  · show b.runningThreads - 1 = (b.setWaiting tid).countOf .running
    omega
  · show b.runningThreads - 1 ≤ b.parallelThreads
    omega
  · show b.leftThreads = (b.setWaiting tid).countOf .left
    omega
  · intro t h
    change (b.setWaiting tid).stateOf t = .waiting at h
    show (b.setWaiting tid).futexWordOf t = 1
    rw [stateOf_setWaiting] at h
    rw [futexWordOf_setWaiting]
    by_cases here : t = tid
    · rw [if_pos here]
    · rw [if_neg here] at h ⊢
      exact inv.blocked t h

end Zsim.Barrier
