import Zsim.Barrier.Runs

/-!
# Phases of the barrier

When every thread leaves from RUNNING, no phase ends before each thread that
waited at its start has had its turn, and no barrier state is stuck.  `Phase`
says where the threads of the current phase stand relative to the cursor.
-/

set_option autoImplicit false

namespace Zsim.Barrier

/-! ## What a history says about a thread -/

/-- Woken in the current phase, and not gone since. -/
def Awake (t : Nat) : List Entry → Prop
  | [] => False
  | .phaseEnd _ :: _ => False
  | .wake u :: h => u = t ∨ Awake t h
  | .left u :: h => u ≠ t ∧ Awake t h
  | .joined _ :: h => Awake t h
  | .synced _ :: h => Awake t h

/-- The last time the thread joined or left, it left. -/
def Away (t : Nat) : List Entry → Prop
  | [] => False
  | .left u :: h => u = t ∨ Away t h
  | .joined u :: h => u ≠ t ∧ Away t h
  | .wake _ :: h => Away t h
  | .synced _ :: h => Away t h
  | .phaseEnd _ :: h => Away t h

/-- The entries of the current phase. -/
def current : List Entry → List Entry
  | [] => []
  | .phaseEnd _ :: _ => []
  | e :: h => e :: current h

/-- The barrier that the last phase ended in. -/
def lastPhaseEnd : List Entry → Option Barrier
  | [] => none
  | .phaseEnd b :: _ => some b
  | .wake _ :: h => lastPhaseEnd h
  | .left _ :: h => lastPhaseEnd h
  | .joined _ :: h => lastPhaseEnd h
  | .synced _ :: h => lastPhaseEnd h

/-- The call under way is a `join`. -/
def InJoin : List Entry → Prop
  | [] => False
  | .joined _ :: _ => True
  | .left _ :: _ => False
  | .synced _ :: _ => False
  | .wake _ :: h => InJoin h
  | .phaseEnd _ :: h => InJoin h

def Served (t : Nat) (h : List Entry) : Prop := .wake t ∈ current h ∨ .left t ∈ current h

/-- Every wakeup and every phase end of the history came at its time. -/
def Sound : List Entry → Prop
  | [] => True
  | .wake t :: h => ¬ Awake t h ∧ ¬ Away t h ∧ Sound h
  | .phaseEnd _ :: h => ¬ InJoin h ∧
      (∀ started, lastPhaseEnd h = some started → ∀ t, started.stateOf t = .waiting → Served t h) ∧
      Sound h
  | .joined _ :: h => Sound h
  | .left _ :: h => Sound h
  | .synced _ :: h => Sound h

/-- The threads of the current phase and the cursor. -/
structure Phase (b : Barrier) (h : List Entry) : Prop where
  sound : Sound h
  visited : ∀ i, i < b.curThreadIdx →
    b.stateOf (b.runList i) = .waiting ∨ b.stateOf (b.runList i) = .running → Awake (b.runList i) h
  unvisited : ∀ i, b.curThreadIdx ≤ i → i < b.runListSize →
    ¬ Awake (b.runList i) h ∧ b.stateOf (b.runList i) ≠ .running
  starters : ∀ started, lastPhaseEnd h = some started → ∀ t, started.stateOf t = .waiting →
    Served t h ∨ (b.stateOf t = .waiting ∧ ∃ i, b.curThreadIdx ≤ i ∧ i < b.runListSize ∧ b.runList i = t)
  gone : ∀ t, b.stateOf t = .left ∨ b.stateOf t = .offline → ¬ Awake t h
  here : ∀ t, b.stateOf t = .waiting ∨ b.stateOf t = .running → ¬ Away t h

theorem Phase.init (parallelThreads : Nat) (lastIdx : Nat → Nat) :
    Phase (init parallelThreads lastIdx) [] where
  sound := trivial
  visited i hi := absurd hi (Nat.not_lt_zero i)
  unvisited i _ hi := absurd hi (Nat.not_lt_zero i)
  starters started h := by cases h
  gone _ _ h := h
  here _ _ h := h

theorem Served.cons {t : Nat} {h : List Entry} (served : Served t h) {e : Entry}
    (going : ∀ b, e ≠ .phaseEnd b) : Served t (e :: h) := by
  cases e with
  | phaseEnd b => exact absurd rfl (going b)
  | _ =>
      rcases served with woken | left
      · exact .inl (List.mem_cons_of_mem _ woken)
      · exact .inr (List.mem_cons_of_mem _ left)

/-! ## The wakeups of a phase -/

theorem Phase.skip {b : Barrier} {h : List Entry} (phase : Phase b h)
    (more : b.curThreadIdx < b.runListSize)
    (away : b.stateOf (b.runList b.curThreadIdx) ≠ .waiting) : Phase b.advance h where
  sound := phase.sound
  visited i hi state := by
    change i < b.curThreadIdx + 1 at hi
    change b.stateOf (b.runList i) = .waiting ∨ b.stateOf (b.runList i) = .running at state
    by_cases last : i = b.curThreadIdx
    · rcases state with waits | runs
      · exact absurd (last ▸ waits) away
      · exact absurd runs (phase.unvisited i (by omega) (by omega)).2
    · exact phase.visited i (by omega) state
  unvisited i hi bound := phase.unvisited i (Nat.le_of_succ_le hi) bound
  starters started eq t waited := by
    rcases phase.starters started eq t waited with served | ⟨waits, i, hi, bound, at_i⟩
    · exact .inl served
    · refine .inr ⟨waits, i, ?_, bound, at_i⟩
      have : i ≠ b.curThreadIdx := fun e => away (by rw [← e, at_i]; exact waits)
      show b.curThreadIdx + 1 ≤ i
      omega
  gone := phase.gone
  here := phase.here

theorem Phase.wake {b : Barrier} {h : List Entry} (inv : Inv b) (phase : Phase b h)
    (more : b.curThreadIdx < b.runListSize)
    (waits : b.stateOf (b.runList b.curThreadIdx) = .waiting) :
    Phase (b.advance.wakeThread (b.runList b.curThreadIdx) b.curThreadIdx)
      (.wake (b.runList b.curThreadIdx) :: h) := by
  have state : ∀ u, (b.advance.wakeThread (b.runList b.curThreadIdx) b.curThreadIdx).stateOf u =
      if u = b.runList b.curThreadIdx then .running else b.stateOf u := fun u =>
    stateOf_wakeThread b.advance _ _ u
  have other : ∀ i, i < b.runListSize → i ≠ b.curThreadIdx →
      b.runList i ≠ b.runList b.curThreadIdx := fun i hi apart same =>
    apart (inv.distinct i b.curThreadIdx hi more same)
  refine ⟨⟨(phase.unvisited _ (Nat.le_refl _) more).1, phase.here _ (.inl waits), phase.sound⟩,
    ?_, ?_, ?_, ?_, ?_⟩
  · intro i hi woken
    change i < b.curThreadIdx + 1 at hi
    show b.runList b.curThreadIdx = b.runList i ∨ Awake (b.runList i) h
    by_cases last : i = b.curThreadIdx
    · exact .inl (by rw [last])
    · change (b.advance.wakeThread _ _).stateOf (b.runList i) = .waiting ∨
        (b.advance.wakeThread _ _).stateOf (b.runList i) = .running at woken
      rw [state, if_neg (other i (by omega) last)] at woken
      exact .inr (phase.visited i (by omega) woken)
  · intro i hi bound
    change b.curThreadIdx + 1 ≤ i at hi
    have apart := other i bound (by omega)
    obtain ⟨asleep, still⟩ := phase.unvisited i (by omega) bound
    refine ⟨?_, ?_⟩
    · rintro (same | awake)
      · exact apart same.symm
      · exact asleep awake
    · show (b.advance.wakeThread _ _).stateOf (b.runList i) ≠ .running
      rw [state, if_neg apart]
      exact still
  · intro started eq t waited
    rcases phase.starters started eq t waited with served | ⟨waiting, i, hi, bound, at_i⟩
    · exact .inl (served.cons (by simp))
    · by_cases last : i = b.curThreadIdx
      · exact .inl (.inl (by
          rw [← at_i, last]
          exact List.mem_cons_self))
      · refine .inr ⟨?_, i, ?_, bound, at_i⟩
        · rw [state, if_neg (at_i ▸ other i bound last)]
          exact waiting
        · show b.curThreadIdx + 1 ≤ i
          omega
  · intro t away
    rw [state] at away
    split at away
    · rcases away with away | away <;> cases away
    · rename_i apart
      rintro (same | awake)
      · exact apart same.symm
      · exact phase.gone t away awake
  · intro t present
    rw [state] at present
    show ¬ Away t h
    split at present
    · rename_i same
      exact same ▸ phase.here _ (.inl waits)
    · exact phase.here t present

theorem Walk.phase {b final : Barrier} {woken : List Nat} (walk : Walk b woken final)
    {h : List Entry} (inv : Inv b) (phase : Phase b h) :
    Phase final ((woken.map Entry.wake).reverse ++ h) := by
  induction walk generalizing h with
  | stop => exact phase
  | skip more away _ ih => exact ih (inv.advance more.2) (phase.skip more.2 away)
  | @wake b _ woken more waits _ ih =>
      have woke := ih ((inv.advance more.2).wakeThread b.curThreadIdx more.2 waits more.1)
        (phase.wake inv more.2 waits)
      simpa using woke

/-! ## Threads that wait for their turn -/

/-- A thread waits at or behind the cursor. -/
def Pending (b : Barrier) : Prop :=
  ∃ i, b.curThreadIdx ≤ i ∧ i < b.runListSize ∧ b.stateOf (b.runList i) = .waiting

theorem Walk.runningThreads_le {b final : Barrier} {woken : List Nat} (walk : Walk b woken final) :
    b.runningThreads ≤ final.runningThreads := by
  induction walk with
  | stop => exact Nat.le_refl _
  | skip _ _ _ ih => exact ih
  | wake _ _ _ ih => exact Nat.le_of_succ_le ih

/-- The wake loop does not stop short of a waiting thread unless the barrier is full. -/
theorem Walk.running_pos {b final : Barrier} {woken : List Nat} (walk : Walk b woken final)
    (positive : 0 < b.parallelThreads) (pending : Pending b) : 0 < final.runningThreads := by
  induction walk with
  | @stop b stopped =>
      obtain ⟨i, hi, bound, -⟩ := pending
      have : ¬ b.runningThreads < b.parallelThreads := fun room => stopped ⟨room, by omega⟩
      omega
  | @skip b _ _ more away _ ih =>
      obtain ⟨i, hi, bound, waits⟩ := pending
      have : i ≠ b.curThreadIdx := fun e => away (e ▸ waits)
      exact ih positive ⟨i, by show b.curThreadIdx + 1 ≤ i; omega, bound, waits⟩
  | wake _ _ rest _ => exact Nat.lt_of_lt_of_le (Nat.succ_pos _) rest.runningThreads_le

theorem Inv.exists_running {b : Barrier} (inv : Inv b) (some : 0 < b.runningThreads) :
    ∃ t, b.stateOf t = .running := by
  rw [inv.running] at some
  obtain ⟨t, -, runs⟩ := (countIn_pos_iff _ _ _).mp some
  exact ⟨t, runs⟩

theorem Inv.no_running {b : Barrier} (inv : Inv b) (none : b.runningThreads = 0) (t : Nat) :
    b.stateOf t ≠ .running := by
  intro runs
  rw [inv.running] at none
  exact (countIn_eq_zero_iff _ _ _).mp none t
    (Finset.mem_range.mpr (inv.bounded t (by simp [runs]))) runs

theorem Inv.left_le_card {b : Barrier} (inv : Inv b) (slots : Finset Nat)
    (inside : ∀ t, b.stateOf t = .left → b.lastIdxOf t ∈ slots) : b.leftThreads ≤ slots.card := by
  rw [inv.left]
  unfold countOf countIn
  apply Finset.card_le_card_of_injOn b.lastIdxOf
  · intro t h
    exact inside t (Finset.mem_filter.mp h).2
  · intro t ht u hu same
    have at_t := (inv.indexed t (.inl (Finset.mem_filter.mp ht).2)).2
    have at_u := (inv.indexed u (.inl (Finset.mem_filter.mp hu).2)).2
    rw [← at_t, ← at_u, same]

theorem Inv.left_eq_size_iff {b : Barrier} (inv : Inv b) :
    b.leftThreads = b.runListSize ↔ ∀ i, i < b.runListSize → b.stateOf (b.runList i) = .left := by
  constructor
  · intro full i hi
    by_contra still
    have apart : ∀ t, b.stateOf t = .left → b.lastIdxOf t ∈ (Finset.range b.runListSize).erase i := by
      intro t gone
      obtain ⟨bound, at_t⟩ := inv.indexed t (.inl gone)
      refine Finset.mem_erase.mpr ⟨fun e => still ?_, Finset.mem_range.mpr bound⟩
      rw [← e, at_t]
      exact gone
    have := inv.left_le_card _ apart
    rw [Finset.card_erase_of_mem (Finset.mem_range.mpr hi), Finset.card_range] at this
    omega
  · intro all
    apply Nat.le_antisymm
    · have := inv.left_le_card (Finset.range b.runListSize) fun t gone =>
        Finset.mem_range.mpr (inv.indexed t (.inl gone)).1
      rwa [Finset.card_range] at this
    · rw [inv.left, ← Finset.card_range b.runListSize]
      unfold countOf countIn
      apply Finset.card_le_card_of_injOn b.runList
      · intro i hi
        have gone := all i (Finset.mem_range.mp hi)
        exact Finset.mem_filter.mpr
          ⟨Finset.mem_range.mpr (inv.bounded _ (by simp [gone])), gone⟩
      · intro i hi j hj same
        exact inv.distinct i j (Finset.mem_range.mp hi) (Finset.mem_range.mp hj) same

/-- No thread is kept waiting by a barrier in which nothing runs. -/
def NotStuck (b : Barrier) : Prop := (∃ t, b.stateOf t = .waiting) → ∃ t, b.stateOf t = .running

theorem Inv.pending_of_rewind {b next : Barrier} (inv : Inv b) (ended : b.endOfPhase)
    {rand : Nat → Nat} (rewound : b.rewind rand = some next) : Pending next := by
  obtain ⟨next', rewound', nextInv, cursor, running, -, states⟩ := inv.rewind rand ended
  cases Option.some.inj (rewound.symm.trans rewound')
  obtain ⟨i, hi, still⟩ : ∃ i, i < b.runListSize ∧ b.stateOf (b.runList i) ≠ .left := by
    by_contra none
    push Not at none
    exact ended.2.2 (inv.left_eq_size_iff.mpr none)
  have waits : b.stateOf (b.runList i) = .waiting := by
    have listed := inv.listed i hi
    have idle := inv.no_running ended.2.1 (b.runList i)
    cases state : b.stateOf (b.runList i) with
    | waiting => rfl
    | offline => exact absurd state listed
    | running => exact absurd state idle
    | left => exact absurd state still
  have still : next.stateOf (b.runList i) = .waiting := by
    rcases states (b.runList i) with same | ⟨gone, -⟩
    · exact same.trans waits
    · rw [waits] at gone
      cases gone
  obtain ⟨j, hj, here⟩ := nextInv.present (b.runList i) (by simp [still])
  exact ⟨j, by omega, hj, by rw [here]; exact still⟩

theorem Outcome.notStuck {rand : Nat → Nat} {b final : Barrier} {ended : Bool} {events : List Event}
    (outcome : Outcome rand b ended final events) (inv : Inv b) (finalInv : Inv final) :
    NotStuck final := by
  rintro ⟨t, waits⟩
  by_contra idle
  have none : final.runningThreads = 0 := by
    by_contra some
    exact idle (finalInv.exists_running (Nat.pos_of_ne_zero some))
  cases outcome with
  | same walk going =>
      have stopped := walk.stopped
      have := finalInv.positive
      have := finalInv.cursor
      have atEnd : final.curThreadIdx = final.runListSize := by
        by_contra short
        exact stopped ⟨by omega, by omega⟩
      have full : final.leftThreads = final.runListSize := by
        by_contra notFull
        exact going ⟨atEnd, none, notFull⟩
      obtain ⟨i, hi, here⟩ := finalInv.present t (by simp [waits])
      have gone := finalInv.left_eq_size_iff.mp full i hi
      rw [here, waits] at gone
      cases gone
  | @ended mid next _ first second walk ended rewound again =>
      have midInv := walk.inv inv
      obtain ⟨next', rewound', nextInv, -⟩ := midInv.rewind rand ended
      cases Option.some.inj (rewound.symm.trans rewound')
      have := again.running_pos nextInv.positive (midInv.pending_of_rewind ended rewound)
      omega

/-! ## The end of a phase -/

theorem Phase.phaseEnd {b next : Barrier} {h : List Entry} (inv : Inv b) (phase : Phase b h)
    (ended : b.endOfPhase) (notJoin : ¬ InJoin h) {rand : Nat → Nat}
    (rewound : b.rewind rand = some next) : Phase next (.phaseEnd b :: h) := by
  obtain ⟨next', rewound', nextInv, cursor, running, -, states⟩ := inv.rewind rand ended
  cases Option.some.inj (rewound.symm.trans rewound')
  refine ⟨⟨notJoin, ?_, phase.sound⟩, ?_, ?_, ?_, ?_, ?_⟩
  · intro started eq t waited
    rcases phase.starters started eq t waited with served | ⟨-, i, hi, bound, -⟩
    · exact served
    · have := ended.1
      omega
  · intro i hi
    omega
  · intro i _ _
    exact ⟨id, nextInv.no_running running _⟩
  · intro started eq t waited
    cases Option.some.inj eq
    have waits : next.stateOf t = .waiting := by
      rcases states t with same | ⟨gone, -⟩
      · exact same.trans waited
      · rw [waited] at gone
        cases gone
    obtain ⟨i, hi, here⟩ := nextInv.present t (by simp [waits])
    exact .inr ⟨waits, i, by omega, hi, here⟩
  · exact fun _ _ => id
  · intro t present
    show ¬ Away t h
    rcases states t with same | ⟨-, now⟩
    · exact phase.here t (same ▸ present)
    · rw [now] at present
      rcases present with h | h <;> cases h

theorem inJoin_wakes (woken : List Nat) (h : List Entry) :
    InJoin ((woken.map Entry.wake).reverse ++ h) ↔ InJoin h := by
  induction woken generalizing h with
  | nil => exact Iff.rfl
  | cons t rest ih =>
      simp only [List.map_cons, List.reverse_cons, List.append_assoc, List.singleton_append]
      exact (ih (.wake t :: h)).trans Iff.rfl

/-- A call keeps the phase in order: only one that is not a `join` ends it. -/
theorem Outcome.phase {rand : Nat → Nat} {b final : Barrier} {ended : Bool} {events : List Event}
    (outcome : Outcome rand b ended final events) {h : List Entry} (inv : Inv b) (phase : Phase b h)
    (joining : InJoin h → Pending b) :
    Phase final ((events.map Event.entry).reverse ++ h) := by
  cases outcome with
  | same walk _ =>
      have woke := walk.phase inv phase
      simpa [Function.comp_def, Event.entry] using woke
  | @ended mid next _ first second walk ended rewound again =>
      have midInv := walk.inv inv
      have notJoin : ¬ InJoin ((first.map Entry.wake).reverse ++ h) := by
        rw [inJoin_wakes]
        intro inJoin
        have := walk.running_pos inv.positive (joining inJoin)
        have := ended.2.1
        omega
      obtain ⟨next', rewound', nextInv, -⟩ := midInv.rewind rand ended
      cases Option.some.inj (rewound.symm.trans rewound')
      have endedPhase := (walk.phase inv phase).phaseEnd midInv ended notJoin rewound
      have woke := again.phase nextInv endedPhase
      simpa [Function.comp_def, Event.entry] using woke

/-! ## The calls -/

theorem Phase.append {b : Barrier} {h : List Entry} (inv : Inv b) (phase : Phase b h) {tid : Nat}
    (gone : b.stateOf tid = .offline) :
    Phase ((b.append tid).setWaiting tid) (.joined tid :: h) ∧
      Pending ((b.append tid).setWaiting tid) := by
  have cursor := inv.cursor
  have slot : ∀ i, ((b.append tid).setWaiting tid).runList i =
      if i = b.runListSize then tid else b.runList i := fun i =>
    runList_setRunList b b.runListSize tid i
  have state : ∀ t, ((b.append tid).setWaiting tid).stateOf t =
      if t = tid then .waiting else b.stateOf t := fun t =>
    stateOf_setWaiting (b.append tid) tid t
  have absent : ∀ i, i < b.runListSize → b.runList i ≠ tid := by
    intro i hi here
    exact inv.listed i hi (here ▸ gone)
  refine ⟨⟨phase.sound, ?_, ?_, ?_, ?_, ?_⟩, b.runListSize, cursor, Nat.lt_succ_self _, ?_⟩
  · intro i hi present
    change i < b.curThreadIdx at hi
    rw [slot, if_neg (by omega)] at present ⊢
    rw [state, if_neg (absent i (by omega))] at present
    exact phase.visited i hi present
  · intro i hi bound
    change b.curThreadIdx ≤ i at hi
    change i < b.runListSize + 1 at bound
    rw [slot, state]
    by_cases last : i = b.runListSize
    · rw [if_pos last, if_pos rfl]
      exact ⟨phase.gone tid (.inr gone), by simp⟩
    · rw [if_neg last, if_neg (absent i (by omega))]
      exact phase.unvisited i hi (by omega)
  · intro started eq t waited
    rcases phase.starters started eq t waited with served | ⟨waits, i, hi, bound, at_i⟩
    · exact .inl (served.cons (by simp))
    · refine .inr ⟨?_, i, hi, Nat.lt_succ_of_lt bound, ?_⟩
      · rw [state, if_neg (at_i ▸ absent i bound), waits]
      · rw [slot, if_neg (by omega), at_i]
  · intro t away
    rw [state] at away
    split at away
    · rcases away with away | away <;> cases away
    · exact phase.gone t away
  · intro t present
    rw [state] at present
    rintro ⟨apart, away⟩
    rw [if_neg (Ne.symm apart)] at present
    exact phase.here t present away
  · rw [slot, if_pos rfl, state, if_pos rfl]

theorem Phase.rejoined {b : Barrier} {h : List Entry} (inv : Inv b) (phase : Phase b h) {tid : Nat}
    (gone : b.stateOf tid = .left) :
    Phase ((b.rejoined tid).setWaiting tid) (.joined tid :: h) ∧
      Pending ((b.rejoined tid).setWaiting tid) := by
  have cursor := inv.cursor
  obtain ⟨inUse, here⟩ := inv.indexed tid (.inl gone)
  have state : ∀ t, ((b.rejoined tid).setWaiting tid).stateOf t =
      if t = tid then .waiting else b.stateOf t := fun t => by
    rw [stateOf_setWaiting, stateOf_rejoined]
  have size : ((b.rejoined tid).setWaiting tid).runListSize = b.runListSize :=
    (rejoined_frame b tid).2.2.2.1
  -- `behind i` is the slot that held, before the call, what slot `i` holds after it
  obtain ⟨behind, slot, cur, own, front, back, fixed⟩ : ∃ behind : Nat → Nat,
      (∀ i, ((b.rejoined tid).setWaiting tid).runList i = b.runList (behind i)) ∧
      ((b.rejoined tid).setWaiting tid).curThreadIdx ≤ b.curThreadIdx ∧
      (∃ i, ((b.rejoined tid).setWaiting tid).curThreadIdx ≤ i ∧ i < b.runListSize ∧
        behind i = b.lastIdxOf tid) ∧
      (∀ i, i < ((b.rejoined tid).setWaiting tid).curThreadIdx →
        behind i < b.curThreadIdx ∧ behind i ≠ b.lastIdxOf tid) ∧
      (∀ i, ((b.rejoined tid).setWaiting tid).curThreadIdx ≤ i →
        behind i = b.lastIdxOf tid ∨ b.curThreadIdx ≤ i) ∧
      (∀ i, b.curThreadIdx ≤ i → behind i = i) := by
    by_cases passed : b.lastIdxOf tid < b.curThreadIdx
    · have eq : b.rejoined tid = { b with
          leftThreads := b.leftThreads - 1
          curThreadIdx := b.curThreadIdx - 1 }.swap (b.curThreadIdx - 1) (b.lastIdxOf tid) := by
        rw [Barrier.rejoined, if_pos passed]
      have curEq : ((b.rejoined tid).setWaiting tid).curThreadIdx = b.curThreadIdx - 1 := by
        rw [eq]
        rfl
      refine ⟨Equiv.swap (b.curThreadIdx - 1) (b.lastIdxOf tid), ?_, ?_, ?_, ?_, ?_, ?_⟩
      · intro i
        rw [eq]
        exact runList_swap _ _ _ i
      · omega
      · exact ⟨b.curThreadIdx - 1, by omega, by omega, Equiv.swap_apply_left _ _⟩
      · intro i hi
        rw [Equiv.swap_apply_def]
        split_ifs <;> omega
      · intro i hi
        rw [Equiv.swap_apply_def]
        split_ifs <;> omega
      · intro i hi
        exact Equiv.swap_apply_of_ne_of_ne (by omega) (by omega)
    · have eq : b.rejoined tid = { b with leftThreads := b.leftThreads - 1 } := by
        rw [Barrier.rejoined, if_neg passed]
      have curEq : ((b.rejoined tid).setWaiting tid).curThreadIdx = b.curThreadIdx := by
        rw [eq]
        rfl
      refine ⟨id, ?_, ?_, ?_, ?_, ?_, fun i _ => rfl⟩
      · intro i
        rw [eq]
        rfl
      · omega
      · exact ⟨b.lastIdxOf tid, by omega, inUse, rfl⟩
      · intro i hi
        show i < b.curThreadIdx ∧ i ≠ b.lastIdxOf tid
        omega
      · intro i hi
        exact .inr (by omega)
  refine ⟨⟨phase.sound, ?_, ?_, ?_, ?_, ?_⟩, ?_⟩
  · intro i hi present
    obtain ⟨before, apart⟩ := front i hi
    have other : b.runList (behind i) ≠ tid := fun same =>
      apart (inv.distinct _ _ (by omega) inUse (same.trans here.symm))
    rw [slot] at present ⊢
    rw [state, if_neg other] at present
    exact phase.visited _ before present
  · intro i hi bound
    rw [size] at bound
    rw [slot, state]
    rcases back i hi with same | behindCursor
    · rw [same, here, if_pos rfl]
      exact ⟨phase.gone tid (.inl gone), by simp⟩
    · rw [fixed i behindCursor]
      obtain ⟨asleep, still⟩ := phase.unvisited i behindCursor bound
      exact ⟨asleep, by split <;> simp [still]⟩
  · intro started eq t waited
    rcases phase.starters started eq t waited with served | ⟨waits, i, hi, bound, at_i⟩
    · exact .inl (served.cons (by simp))
    · have other : t ≠ tid := fun same => by
        rw [same, gone] at waits
        cases waits
      refine .inr ⟨by rw [state, if_neg other, waits], i, Nat.le_trans cur hi, size ▸ bound, ?_⟩
      rw [slot, fixed i hi, at_i]
  · intro t away
    rw [state] at away
    split at away
    · rcases away with away | away <;> cases away
    · exact phase.gone t away
  · intro t present
    rw [state] at present
    rintro ⟨apart, away⟩
    rw [if_neg (Ne.symm apart)] at present
    exact phase.here t present away
  · obtain ⟨i, hi, bound, ownSlot⟩ := own
    exact ⟨i, hi, size ▸ bound, by rw [slot, ownSlot, here, state, if_pos rfl]⟩

theorem Phase.leave_running {b : Barrier} {h : List Entry} (phase : Phase b h) {tid : Nat} :
    Phase { b.departed tid with runningThreads := b.runningThreads - 1 } (.left tid :: h) where
  sound := phase.sound
  visited i hi present := by
    change (b.departed tid).stateOf (b.runList i) = .waiting ∨
      (b.departed tid).stateOf (b.runList i) = .running at present
    rw [stateOf_departed] at present
    split at present
    · rcases present with h | h <;> cases h
    · rename_i other
      exact ⟨Ne.symm other, phase.visited i hi present⟩
  unvisited i hi bound := by
    obtain ⟨asleep, still⟩ := phase.unvisited i hi bound
    refine ⟨fun awake => asleep awake.2, ?_⟩
    show (b.departed tid).stateOf (b.runList i) ≠ .running
    rw [stateOf_departed]
    split
    · simp
    · exact still
  starters started eq t waited := by
    rcases phase.starters started eq t waited with served | ⟨waits, i, hi, bound, at_i⟩
    · exact .inl (served.cons (by simp))
    · by_cases same : t = tid
      · exact .inl (.inr (by rw [same]; exact List.mem_cons_self))
      · refine .inr ⟨?_, i, hi, bound, at_i⟩
        show (b.departed tid).stateOf t = .waiting
        rw [stateOf_departed, if_neg same, waits]
  gone t away := by
    change (b.departed tid).stateOf t = .left ∨ (b.departed tid).stateOf t = .offline at away
    rw [stateOf_departed] at away
    rintro ⟨other, awake⟩
    rw [if_neg (Ne.symm other)] at away
    exact phase.gone t away awake
  here t present := by
    change (b.departed tid).stateOf t = .waiting ∨ (b.departed tid).stateOf t = .running at present
    rw [stateOf_departed] at present
    split at present
    · rcases present with h | h <;> cases h
    · rename_i other
      rintro (same | away)
      · exact other same.symm
      · exact phase.here t present away

theorem Phase.sync_running {b : Barrier} {h : List Entry} (phase : Phase b h) {tid : Nat}
    (runs : b.stateOf tid = .running) :
    Phase { b.setWaiting tid with runningThreads := b.runningThreads - 1 } (.synced tid :: h) where
  sound := phase.sound
  visited i hi present := by
    change (b.setWaiting tid).stateOf (b.runList i) = .waiting ∨
      (b.setWaiting tid).stateOf (b.runList i) = .running at present
    rw [stateOf_setWaiting] at present
    split at present
    · rename_i same
      exact phase.visited i hi (.inr (same ▸ runs))
    · exact phase.visited i hi present
  unvisited i hi bound := by
    obtain ⟨asleep, still⟩ := phase.unvisited i hi bound
    refine ⟨asleep, ?_⟩
    show (b.setWaiting tid).stateOf (b.runList i) ≠ .running
    rw [stateOf_setWaiting]
    split
    · simp
    · exact still
  starters started eq t waited := by
    rcases phase.starters started eq t waited with served | ⟨waits, i, hi, bound, at_i⟩
    · exact .inl (served.cons (by simp))
    · refine .inr ⟨?_, i, hi, bound, at_i⟩
      show (b.setWaiting tid).stateOf t = .waiting
      rw [stateOf_setWaiting]
      split
      · rfl
      · exact waits
  gone t away := by
    change (b.setWaiting tid).stateOf t = .left ∨ (b.setWaiting tid).stateOf t = .offline at away
    rw [stateOf_setWaiting] at away
    split at away
    · rcases away with h | h <;> cases h
    · exact phase.gone t away
  here t present := by
    change (b.setWaiting tid).stateOf t = .waiting ∨ (b.setWaiting tid).stateOf t = .running at present
    rw [stateOf_setWaiting] at present
    split at present
    · rename_i same
      exact phase.here t (.inr (same ▸ runs))
    · exact phase.here t present

/-! ## Runs in which only running threads leave -/

def LeavesRunning (run : Run) : Op → Prop
  | .leave tid _ => run.bar.stateOf tid = .running
  | _ => True

instance (run : Run) : (op : Op) → Decidable (LeavesRunning run op)
  | .leave tid _ => inferInstanceAs (Decidable (run.bar.stateOf tid = .running))
  | .join _ _ | .sync _ _ | .resume _ => .isTrue trivial

structure PhaseRun (run : Run) : Prop where
  inv : Inv run.bar
  phase : Phase run.bar run.history
  notStuck : NotStuck run.bar

theorem phaseRun_tryWakeNext {b : Barrier} (inv : Inv b) (rand : Nat → Nat) (run : Run) (call : Entry)
    (phase : Phase b (call :: run.history)) (joining : InJoin (call :: run.history) → Pending b) :
    ∃ next, (b.tryWakeNext some rand ()).map (run.after call) = some next ∧ PhaseRun next := by
  obtain ⟨ended, final, events, outcome, finalInv, eq⟩ := tryWakeNext_outcome rand inv
  refine ⟨run.after call (final, (), events), ?_, finalInv, outcome.phase inv phase joining,
    outcome.notStuck inv finalInv⟩
  rw [eq]
  cases ended <;> rfl

theorem preserves_phaseRun : (machine.restrict LeavesRunning).Preserves PhaseRun := by
  intro run op ⟨inv, phase, notStuck⟩ ⟨legal, leaves⟩
  cases op with
  | join tid rand =>
      show ∃ next, (run.bar.join some rand tid ()).map _ = some next ∧ PhaseRun next
      rcases legal.2 with gone | gone
      · rw [join_offline gone]
        obtain ⟨joined, pending⟩ := phase.append inv gone
        exact phaseRun_tryWakeNext (inv.append legal.1 gone) rand run _ joined fun _ => pending
      · rw [join_left inv gone]
        obtain ⟨joined, pending⟩ := phase.rejoined inv gone
        exact phaseRun_tryWakeNext (inv.rejoined gone) rand run _ joined fun _ => pending
  | leave tid rand =>
      show ∃ next, (run.bar.leave some rand tid ()).map _ = some next ∧ PhaseRun next
      rw [leave_of_running leaves]
      exact phaseRun_tryWakeNext (inv.leave_running leaves) rand run _ phase.leave_running False.elim
  | sync tid rand =>
      show ∃ next, (run.bar.sync some rand tid ()).map _ = some next ∧ PhaseRun next
      rw [sync_of_running legal]
      exact phaseRun_tryWakeNext (inv.sync_running legal) rand run _ (phase.sync_running legal)
        False.elim
  | resume tid =>
      have woken : run.bar.stateOf tid = .running := by
        rcases legal.1 with runs | waits
        · exact runs
        · exact absurd (inv.blocked tid waits) legal.2
      refine ⟨run, ?_, inv, phase, notStuck⟩
      show (run.bar.resume tid).map _ = some run
      rw [resume, if_pos woken]
      rfl

/-! ## Reading the history -/

theorem Sound.of_append {later h : List Entry} (sound : Sound (later ++ h)) : Sound h := by
  induction later with
  | nil => exact sound
  | cons e rest ih =>
      cases e with
      | wake t => exact ih sound.2.2
      | phaseEnd b => exact ih sound.2.2
      | _ => exact ih sound

theorem current_append {during h : List Entry} (going : ∀ b, .phaseEnd b ∉ during) :
    current (during ++ h) = during ++ current h := by
  induction during with
  | nil => rfl
  | cons e rest ih =>
      have := ih fun b member => going b (List.mem_cons_of_mem _ member)
      cases e with
      | phaseEnd b => exact absurd List.mem_cons_self (going b)
      | _ => exact congrArg _ this

theorem lastPhaseEnd_append {during h : List Entry} (going : ∀ b, .phaseEnd b ∉ during) :
    lastPhaseEnd (during ++ h) = lastPhaseEnd h := by
  induction during with
  | nil => rfl
  | cons e rest ih =>
      have := ih fun b member => going b (List.mem_cons_of_mem _ member)
      cases e with
      | phaseEnd b => exact absurd List.mem_cons_self (going b)
      | _ => exact this

theorem left_of_not_awake {during h : List Entry} {t : Nat} (going : ∀ b, .phaseEnd b ∉ during)
    (awake : Awake t h) (asleep : ¬ Awake t (during ++ h)) : .left t ∈ during := by
  induction during with
  | nil => exact absurd awake asleep
  | cons e rest ih =>
      have tail := ih fun b member => going b (List.mem_cons_of_mem _ member)
      cases e with
      | phaseEnd b => exact absurd List.mem_cons_self (going b)
      | left u =>
          by_cases same : u = t
          · rw [same]
            exact List.mem_cons_self
          · exact List.mem_cons_of_mem _ (tail fun a => asleep ⟨same, a⟩)
      | wake u => exact List.mem_cons_of_mem _ (tail fun a => asleep (.inr a))
      | joined u => exact List.mem_cons_of_mem _ (tail asleep)
      | synced u => exact List.mem_cons_of_mem _ (tail asleep)

theorem joined_of_not_away {during h : List Entry} {t : Nat} (left : .left t ∈ during)
    (back : ¬ Away t (during ++ h)) :
    ∃ recent middle old, during = recent ++ .joined t :: middle ++ .left t :: old := by
  induction during with
  | nil => cases left
  | cons e rest ih =>
      have descend (stillBack : ¬ Away t (rest ++ h)) (inRest : .left t ∈ rest) :
          ∃ recent middle old, e :: rest = recent ++ .joined t :: middle ++ .left t :: old := by
        obtain ⟨recent, middle, old, eq⟩ := ih inRest stillBack
        exact ⟨e :: recent, middle, old, by rw [eq]; rfl⟩
      cases e with
      | left u =>
          have other : t ≠ u := fun same => back (.inl same.symm)
          exact descend (fun a => back (.inr a)) (by simpa [other] using left)
      | joined u =>
          have inRest : .left t ∈ rest := by simpa using left
          by_cases same : u = t
          · obtain ⟨middle, old, eq⟩ := List.append_of_mem inRest
            exact ⟨[], middle, old, by rw [eq, same]; rfl⟩
          · exact descend (fun a => back ⟨same, a⟩) inRest
      | wake u => exact descend back (by simpa using left)
      | synced u => exact descend back (by simpa using left)
      | phaseEnd b => exact descend back (by simpa using left)

theorem inJoin_of_wakes {woken h : List Entry} {t : Nat} (wakes : ∀ e ∈ woken, ∃ u, e = .wake u) :
    InJoin (woken ++ .joined t :: h) := by
  induction woken with
  | nil => trivial
  | cons e rest ih =>
      obtain ⟨u, rfl⟩ := wakes e List.mem_cons_self
      exact ih fun e member => wakes e (List.mem_cons_of_mem _ member)

/-- The phases of a run, read off its state and its history (newest entry first). -/
structure PhasesComplete (run : Run) : Prop where
  /-- no thread waits while none runs -/
  notStuck : (∃ t, run.bar.stateOf t = .waiting) → ∃ t, run.bar.stateOf t = .running
  /-- whoever waited when the phase started has been woken in it or has left -/
  complete : ∀ (later during earlier : List Entry) (started ended : Barrier),
    run.history = later ++ .phaseEnd ended :: (during ++ .phaseEnd started :: earlier) →
    (∀ b, .phaseEnd b ∉ during) →
    ∀ t, started.stateOf t = .waiting → .wake t ∈ during ∨ .left t ∈ during
  /-- two wakeups of one thread in a phase have a leave and a join between them -/
  wokenOnce : ∀ (later during earlier : List Entry) (t : Nat),
    run.history = later ++ .wake t :: (during ++ .wake t :: earlier) →
    (∀ b, .phaseEnd b ∉ during) →
    ∃ recent middle old, during = recent ++ .joined t :: middle ++ .left t :: old
  /-- the call that ends a phase is not a join -/
  joinEndsNone : ∀ (later woken earlier : List Entry) (t : Nat) (ended : Barrier),
    run.history = later ++ .phaseEnd ended :: (woken ++ .joined t :: earlier) →
    ¬ ∀ e ∈ woken, ∃ u, e = .wake u

theorem PhaseRun.complete {run : Run} (phaseRun : PhaseRun run) : PhasesComplete run where
  notStuck := phaseRun.notStuck
  complete later during earlier started ended split going t waited := by
    have sound := phaseRun.phase.sound
    rw [split] at sound
    have served := sound.of_append.2.1 started (by rw [lastPhaseEnd_append going]; rfl) t waited
    rwa [Served, current_append going, show current (.phaseEnd started :: earlier) = [] from rfl,
      List.append_nil] at served
  wokenOnce later during earlier t split going := by
    have sound := phaseRun.phase.sound
    rw [split] at sound
    obtain ⟨asleep, back, -⟩ := sound.of_append
    have awake : Awake t (.wake t :: earlier) := .inl rfl
    exact joined_of_not_away (left_of_not_awake going awake asleep) back
  joinEndsNone later woken earlier t ended split wakes := by
    have sound := phaseRun.phase.sound
    rw [split] at sound
    exact sound.of_append.1 (inJoin_of_wakes wakes)

/-- Phases are complete and never stuck in every legal run in which only RUNNING
threads leave. -/
theorem phases_complete {parallelThreads : Nat} (positive : 0 < parallelThreads)
    (lastIdx : Nat → Nat) (ops : List Op)
    (legal : (machine.restrict LeavesRunning).LegalRun ops (Run.start parallelThreads lastIdx)) :
    ∃ run, machine.exec ops (Run.start parallelThreads lastIdx) = some run ∧ PhasesComplete run := by
  have start : PhaseRun (Run.start parallelThreads lastIdx) :=
    ⟨Inv.init positive lastIdx, Phase.init parallelThreads lastIdx, fun ⟨_, h⟩ => by cases h⟩
  obtain ⟨run, reached, phaseRun⟩ := preserves_phaseRun.exec_restrict start legal
  exact ⟨run, reached, phaseRun.complete⟩

/-- Two threads on one slot: the phase ends twice, and one of them leaves and
joins again in between. -/
theorem phases_complete_turns :
    ∃ run, machine.exec
      [.join 0 fun _ => 0, .join 1 fun _ => 0, .sync 0 fun _ => 0, .sync 1 fun _ => 0,
        .leave 1 fun _ => 0, .join 1 fun _ => 0, .sync 0 fun _ => 0, .sync 1 fun _ => 0]
      (Run.start 1 fun _ => 0) = some run ∧ PhasesComplete run :=
  phases_complete Nat.one_pos (fun _ => 0)
    [.join 0 fun _ => 0, .join 1 fun _ => 0, .sync 0 fun _ => 0, .sync 1 fun _ => 0,
      .leave 1 fun _ => 0, .join 1 fun _ => 0, .sync 0 fun _ => 0, .sync 1 fun _ => 0] (by decide)

end Zsim.Barrier
