import Zsim.Barrier.Phases

/-!
# Turns

A thread that is RUNNING, or WAITING at or behind the cursor, still has to run in the current
phase, and the phase does not end before it has.  What a call does to all threads, seen from
the outside: who is in the barrier, who runs, and whose turn is still to come.
-/

set_option autoImplicit false

namespace Zsim.Barrier

def Here (b : Barrier) (tid : Nat) : Prop := b.stateOf tid = .waiting ∨ b.stateOf tid = .running

/-- The cursor has not passed the thread. -/
def Upcoming (b : Barrier) (tid : Nat) : Prop :=
  ∃ i, b.curThreadIdx ≤ i ∧ i < b.runListSize ∧ b.runList i = tid

/-- The phase will not end before the thread has synced or left. -/
def Due (b : Barrier) (tid : Nat) : Prop :=
  b.stateOf tid = .running ∨ b.stateOf tid = .waiting ∧ b.Upcoming tid

theorem Due.here {b : Barrier} {tid : Nat} (due : b.Due tid) : b.Here tid :=
  due.elim .inr fun waits => .inl waits.1

theorem here_congr {b c : Barrier} {tid : Nat} (same : c.stateOf tid = b.stateOf tid) :
    c.Here tid ↔ b.Here tid := by
  rw [Here, Here, same]

/-! ## The wake loop -/

theorem Walk.states {b final : Barrier} {woken : List Nat} (walk : Walk b woken final) (tid : Nat) :
    final.stateOf tid = b.stateOf tid ∨ b.stateOf tid = .waiting ∧ final.stateOf tid = .running := by
  induction walk with
  | stop => exact .inl rfl
  | skip _ _ _ ih => exact ih
  | @wake b _ _ more waits _ ih =>
      rw [stateOf_wakeThread, stateOf_advance] at ih
      by_cases isNext : tid = b.runList b.curThreadIdx
      · rw [if_pos isNext] at ih
        refine .inr ⟨isNext ▸ waits, ?_⟩
        rcases ih with same | ⟨contra, -⟩
        · exact same
        · cases contra
      · rwa [if_neg isNext] at ih

theorem Walk.here {b final : Barrier} {woken : List Nat} (walk : Walk b woken final) (tid : Nat) :
    final.Here tid ↔ b.Here tid := by
  rcases walk.states tid with same | ⟨waits, runs⟩
  · exact here_congr same
  · simp [Here, waits, runs]

theorem Walk.running {b final : Barrier} {woken : List Nat} (walk : Walk b woken final) {tid : Nat}
    (runs : b.stateOf tid = .running) : final.stateOf tid = .running := by
  rcases walk.states tid with same | ⟨waits, -⟩
  · exact same.trans runs
  · exact absurd (runs.symm.trans waits) (by simp)

theorem Walk.due {b final : Barrier} {woken : List Nat} (walk : Walk b woken final) {tid : Nat}
    (due : b.Due tid) : final.Due tid := by
  induction walk with
  | stop => exact due
  | @skip b _ _ more away _ ih =>
      apply ih
      refine due.imp_right fun ⟨waits, i, le, lt, isHere⟩ => ⟨waits, i, ?_, lt, isHere⟩
      have notCursor : i ≠ b.curThreadIdx := by
        rintro rfl
        exact away (isHere ▸ waits)
      change b.curThreadIdx + 1 ≤ i
      omega
  | @wake b _ _ more waits rest ih =>
      by_cases isNext : tid = b.runList b.curThreadIdx
      · exact .inl (rest.running (by rw [stateOf_wakeThread, if_pos isNext]))
      · apply ih
        rw [Due, stateOf_wakeThread, if_neg isNext]
        refine due.imp_right fun ⟨waits, i, le, lt, isHere⟩ => ⟨waits, i, ?_, lt, isHere⟩
        have notCursor : i ≠ b.curThreadIdx := by
          rintro rfl
          exact isNext isHere.symm
        change b.curThreadIdx + 1 ≤ i
        omega

/-! ## A call -/

/-- What `tryWakeNext` does to every thread; `ended` says whether it called the callback. -/
structure Turns (b : Barrier) (ended : Bool) (final : Barrier) : Prop where
  inv : Inv final
  here : ∀ tid, final.Here tid ↔ b.Here tid
  due : ∀ tid, b.Due tid → ended = false ∧ final.Due tid
  running : ∀ tid, b.stateOf tid = .running → ended = false ∧ final.stateOf tid = .running
  fresh : ended = true → ∀ tid, b.Here tid → final.Due tid

theorem Inv.not_due {b : Barrier} (inv : Inv b) (ended : b.endOfPhase) (tid : Nat) : ¬ b.Due tid := by
  rintro (runs | ⟨-, i, le, lt, -⟩)
  · exact inv.no_running ended.2.1 tid runs
  · have := ended.1
    omega

theorem Outcome.turns {rand : Nat → Nat} {b final : Barrier} {ended : Bool} {events : List Event}
    (outcome : Outcome rand b ended final events) (inv : Inv b) (finalInv : Inv final) :
    Turns b ended final := by
  cases outcome with
  | same walk going =>
      exact ⟨finalInv, walk.here, fun tid due => ⟨rfl, walk.due due⟩,
        fun tid runs => ⟨rfl, walk.running runs⟩, fun contra => by cases contra⟩
  | @ended mid next _ _ _ walk ends rewound again =>
      have midInv := walk.inv inv
      have noneDue : ∀ tid, ¬ b.Due tid := fun tid due => midInv.not_due ends tid (walk.due due)
      obtain ⟨next', rewound', nextInv, cursor, -, -, states⟩ := midInv.rewind rand ends
      cases Option.some.inj (rewound.symm.trans rewound')
      have nextHere : ∀ tid, next.Here tid ↔ mid.Here tid := by
        intro tid
        rcases states tid with same | ⟨left, offline⟩
        · exact here_congr same
        · simp [Here, left, offline]
      -- the cursor is at the front, and whoever is in the barrier waits
      have fresh : ∀ tid, b.Here tid → final.Due tid := by
        intro tid isHere
        have inNext : next.Here tid := (nextHere tid).mpr ((walk.here tid).mpr isHere)
        apply again.due
        refine inNext.elim (fun waits => .inr ⟨waits, ?_⟩) .inl
        obtain ⟨i, lt, isThread⟩ := nextInv.present tid (by simp [waits])
        exact ⟨i, by omega, lt, isThread⟩
      exact ⟨finalInv, fun tid => (again.here tid).trans ((nextHere tid).trans (walk.here tid)),
        fun tid due => absurd due (noneDue tid), fun tid runs => absurd (.inl runs) (noneDue tid),
        fun _ => fresh⟩

/-- `tryWakeNext` calls the callback at most once, and panics only if it does. -/
theorem Inv.tryWakeNext {b : Barrier} (inv : Inv b) (rand : Nat → Nat) :
    ∃ ended final, Turns b ended final ∧ ∃ events, ∀ {σ : Type} (callback : σ → Option σ) (s : σ),
      b.tryWakeNext callback rand s =
        (if ended then callback s else some s).map fun s => (final, s, events) := by
  obtain ⟨ended, final, events, outcome, finalInv, run⟩ := tryWakeNext_outcome rand inv
  exact ⟨ended, final, outcome.turns inv finalInv, events, run⟩

/-! ## join, leave and sync before they wake anyone -/

/-- The barrier just before `join` wakes a thread: the one that joins still has its turn. -/
theorem Inv.joining {b : Barrier} (inv : Inv b) {tid : Nat} (bound : tid < maxThreads)
    (gone : ¬ b.Here tid) : ∃ joined, Inv joined ∧ joined.Due tid ∧
      (∀ u, joined.Here u ↔ b.Here u ∨ u = tid) ∧ (∀ u, b.Due u → joined.Due u) ∧
      (∀ u, b.stateOf u = .running → joined.stateOf u = .running) ∧
      ∀ {σ : Type} (callback : σ → Option σ) (rand : Nat → Nat) (s : σ),
        b.join callback rand tid s = joined.tryWakeNext callback rand s := by
  have apart : ∀ u, b.Here u → u ≠ tid := by
    rintro u isHere rfl
    exact gone isHere
  cases state : b.stateOf tid with
  | waiting => exact absurd (.inl state) gone
  | running => exact absurd (.inr state) gone
  | offline =>
      have states : ∀ u, ((b.append tid).setWaiting tid).stateOf u =
          if u = tid then .waiting else b.stateOf u := stateOf_setWaiting (b.append tid) tid
      have slot : ∀ i, ((b.append tid).setWaiting tid).runList i =
          if i = b.runListSize then tid else b.runList i := runList_setRunList b b.runListSize tid
      refine ⟨(b.append tid).setWaiting tid, inv.append bound state, ?_, ?_, ?_, ?_,
        fun callback rand s => join_offline state callback rand s⟩
      · refine .inr ⟨by rw [states, if_pos rfl], b.runListSize, inv.cursor, Nat.lt_succ_self _, ?_⟩
        rw [slot, if_pos rfl]
      · intro u
        rw [Here, states]
        by_cases same : u = tid
        · simp [same]
        · simp [same, Here]
      · intro u due
        have ne := apart u due.here
        rw [Due, states, if_neg ne]
        refine due.imp_right fun ⟨waits, i, le, lt, isThread⟩ =>
          ⟨waits, i, le, Nat.lt_succ_of_lt lt, ?_⟩
        rw [slot, if_neg (by omega)]
        exact isThread
      · intro u runs
        rw [states, if_neg (apart u (.inr runs))]
        exact runs
  | left =>
      have states : ∀ u, ((b.rejoined tid).setWaiting tid).stateOf u =
          if u = tid then .waiting else b.stateOf u := fun u => by
        rw [stateOf_setWaiting, stateOf_rejoined]
      obtain ⟨inUse, isSlot⟩ := inv.indexed tid (.inl state)
      have cursor := inv.cursor
      have upcoming : ((b.rejoined tid).setWaiting tid).Upcoming tid ∧
          ∀ u, u ≠ tid → b.Upcoming u → ((b.rejoined tid).setWaiting tid).Upcoming u := by
        change (b.rejoined tid).Upcoming tid ∧ ∀ u, u ≠ tid → b.Upcoming u → (b.rejoined tid).Upcoming u
        unfold Barrier.rejoined
        split
        · rename_i passed
          -- the thread takes the slot that the cursor steps back to
          have slot : ∀ i, (Barrier.swap { b with
              leftThreads := b.leftThreads - 1
              curThreadIdx := b.curThreadIdx - 1 } (b.curThreadIdx - 1) (b.lastIdxOf tid)).runList i =
                b.runList (Equiv.swap (b.curThreadIdx - 1) (b.lastIdxOf tid) i) := fun i =>
            runList_swap _ _ _ i
          refine ⟨⟨b.curThreadIdx - 1, Nat.le_refl _, ?_, ?_⟩, ?_⟩
          · change b.curThreadIdx - 1 < b.runListSize
            omega
          · rw [slot, Equiv.swap_apply_left]
            exact isSlot
          · rintro u - ⟨i, le, lt, isThread⟩
            refine ⟨i, Nat.le_trans (Nat.sub_le _ _) le, lt, ?_⟩
            rw [slot, Equiv.swap_apply_of_ne_of_ne (by omega) (by omega)]
            exact isThread
        · rename_i ahead
          exact ⟨⟨b.lastIdxOf tid, Nat.le_of_not_lt ahead, inUse, isSlot⟩, fun u _ upcoming => upcoming⟩
      refine ⟨(b.rejoined tid).setWaiting tid, inv.rejoined state, ?_, ?_, ?_, ?_,
        fun callback rand s => join_left inv state callback rand s⟩
      · exact .inr ⟨by rw [states, if_pos rfl], upcoming.1⟩
      · intro u
        rw [Here, states]
        by_cases same : u = tid
        · simp [same]
        · simp [same, Here]
      · intro u due
        have ne := apart u due.here
        rw [Due, states, if_neg ne]
        exact due.imp_right fun ⟨waits, isUpcoming⟩ => ⟨waits, upcoming.2 u ne isUpcoming⟩
      · intro u runs
        rw [states, if_neg (apart u (.inr runs))]
        exact runs

structure Without (b : Barrier) (tid : Nat) (left : Barrier) : Prop where
  here : ∀ u, left.Here u ↔ b.Here u ∧ u ≠ tid
  due : ∀ u, u ≠ tid → b.Due u → left.Due u
  running : ∀ u, u ≠ tid → b.stateOf u = .running → left.stateOf u = .running

theorem without_of_states {b left : Barrier} {tid : Nat}
    (states : ∀ u, left.stateOf u = if u = tid then .left else b.stateOf u)
    (upcoming : ∀ u, b.Upcoming u → left.Upcoming u) : Without b tid left := by
  refine ⟨fun u => ?_, fun u ne due => ?_, fun u ne isRunning => ?_⟩
  · rw [Here, states]
    by_cases same : u = tid
    · simp [same]
    · simp [same, Here]
  · rw [Due, states, if_neg ne]
    exact due.imp_right fun ⟨waits, next⟩ => ⟨waits, upcoming u next⟩
  · rw [states, if_neg ne]
    exact isRunning

theorem without_departed (b : Barrier) (tid : Nat) : Without b tid (b.departed tid) :=
  without_of_states (stateOf_departed b tid) fun _ next => next

/-- The barrier just before `leave` of a RUNNING thread wakes the next one. -/
theorem Inv.leaving {b : Barrier} (inv : Inv b) {tid : Nat} (runs : b.stateOf tid = .running) :
    ∃ left, Inv left ∧ Without b tid left ∧
      ∀ {σ : Type} (callback : σ → Option σ) (rand : Nat → Nat) (s : σ),
        b.leave callback rand tid s = left.tryWakeNext callback rand s :=
  ⟨{ b.departed tid with runningThreads := b.runningThreads - 1 }, inv.leave_running runs,
    without_of_states (stateOf_departed b tid) fun _ next => next,
    fun callback rand s => leave_of_running runs callback rand s⟩

/-- The barrier just before `sync` wakes the next thread. -/
theorem Inv.syncing {b : Barrier} (inv : Inv b) {tid : Nat} (runs : b.stateOf tid = .running) :
    ∃ synced, Inv synced ∧ (∀ u, synced.Here u ↔ b.Here u) ∧
      (∀ u, u ≠ tid → b.Due u → synced.Due u) ∧
      (∀ u, u ≠ tid → b.stateOf u = .running → synced.stateOf u = .running) ∧
      ∀ {σ : Type} (callback : σ → Option σ) (rand : Nat → Nat) (s : σ),
        b.sync callback rand tid s = synced.tryWakeNext callback rand s := by
  have states : ∀ u, Barrier.stateOf { b.setWaiting tid with runningThreads := b.runningThreads - 1 } u =
      if u = tid then .waiting else b.stateOf u := stateOf_setWaiting b tid
  refine ⟨_, inv.sync_running runs, ?_, ?_, ?_, fun callback rand s => sync_of_running runs callback rand s⟩
  · intro u
    rw [Here, states]
    by_cases same : u = tid
    · simp [same, Here, runs]
    · simp [same, Here]
  · intro u ne due
    rw [Due, states, if_neg ne]
    exact due
  · intro u ne isRunning
    rw [states, if_neg ne]
    exact isRunning

theorem Inv.resume {b : Barrier} (inv : Inv b) {tid : Nat} (isHere : b.Here tid)
    (woken : b.futexWordOf tid ≠ 1) : b.stateOf tid = .running ∧ b.resume tid = some b := by
  have runs : b.stateOf tid = .running :=
    isHere.resolve_left fun waits => woken (inv.blocked tid waits)
  exact ⟨runs, if_pos runs⟩

end Zsim.Barrier
