import Zsim.Coherence.Controllers

/-!
# The directory entry and the states it stands for

`EntryInv` relates the state of a line in a cache, its directory entry and the states
of the line in the children.  The operations of the top controller keep it.
-/

set_option autoImplicit false

namespace Zsim.Coherence

open Finset

/-! ## What an invalidation does -/

def MESIState.demote : InvType → MESIState → MESIState
  | .INV, _ => .I
  | .INVX, state => if state.isExclusive then .S else state
  | .FWD, state => state

def Entry.demote : InvType → Entry → Entry
  | .INV, e => { e with numSharers := 0, sharers := fun _ => false }
  | .INVX, e => if e.isExclusive then { e with exclusive := false } else e
  | .FWD, e => e

namespace MESIState

@[simp] theorem isExclusive_I : isExclusive .I = false := rfl
@[simp] theorem isExclusive_S : isExclusive .S = false := rfl
@[simp] theorem isExclusive_E : isExclusive .E = true := rfl
@[simp] theorem isExclusive_M : isExclusive .M = true := rfl

@[simp] theorem demote_INV (state : MESIState) : state.demote .INV = .I := rfl
@[simp] theorem demote_I (type : InvType) : demote type .I = .I := by cases type <;> rfl

theorem ne_I_of_isExclusive {state : MESIState} (excl : state.isExclusive = true) : state ≠ .I := by
  rintro rfl
  cases excl

theorem demote_INVX_isExclusive (state : MESIState) : (state.demote .INVX).isExclusive = false := by
  cases state <;> rfl

theorem demote_INVX_eq_I (state : MESIState) : state.demote .INVX = .I ↔ state = .I := by
  cases state <;> decide

theorem demote_INVX_of_shared {state : MESIState} (shared : state.isExclusive = false) :
    state.demote .INVX = state := by
  cases state <;> first | rfl | cases shared

theorem of_demote_ne_I {type : InvType} {state : MESIState} (valid : state.demote type ≠ .I) :
    state ≠ .I := by
  rintro rfl
  exact valid (demote_I type)

end MESIState

namespace Entry

theorem isExclusive_iff {e : Entry} :
    e.isExclusive = true ↔ e.numSharers = 1 ∧ e.exclusive = true := by
  simp [isExclusive]

structure Empty (e : Entry) : Prop where
  numSharers : e.numSharers = 0
  sharers : ∀ c, e.sharers c = false

theorem Empty.not_isExclusive {e : Entry} (empty : e.Empty) : e.isExclusive = false := by
  simp [isExclusive, empty.numSharers]

theorem Empty.demote {e : Entry} (empty : e.Empty) (type : InvType) : e.demote type = e := by
  have absent : e.sharers = fun _ => false := funext empty.sharers
  cases type with
  | FWD => rfl
  | INV =>
      unfold Entry.demote
      dsimp only
      rw [← empty.numSharers, ← absent]
  | INVX =>
      unfold Entry.demote
      dsimp only
      rw [empty.not_isExclusive]
      rfl

theorem demote_INVX (e : Entry) :
    e.demote .INVX = if e.isExclusive then { e with exclusive := false } else e := rfl

@[simp] theorem demote_INVX_sharers (e : Entry) : (e.demote .INVX).sharers = e.sharers := by
  rw [demote_INVX]
  split <;> rfl

@[simp] theorem demote_INVX_numSharers (e : Entry) : (e.demote .INVX).numSharers = e.numSharers := by
  rw [demote_INVX]
  split <;> rfl

theorem demote_INVX_of_shared {e : Entry} (shared : e.isExclusive = false) : e.demote .INVX = e := by
  rw [demote_INVX, shared]
  rfl

@[simp] theorem demote_INVX_isExclusive (e : Entry) : (e.demote .INVX).isExclusive = false := by
  rw [demote_INVX]
  cases shared : e.isExclusive with
  | false => exact shared
  | true => simp [isExclusive]

end Entry

/-! ## The invariant of an entry -/

/-- `own` is the state of the line in the cache, `child c` that in child `c`. -/
structure EntryInv (kids : Nat) (own : MESIState) (e : Entry) (child : Nat → MESIState) : Prop where
  bounded : ∀ c, e.sharers c = true → c < kids
  exact : ∀ c, e.sharers c = true ↔ child c ≠ .I
  count : e.numSharers = countIn (range kids) e.sharers (· = true)
  sole : ∀ c, (child c).isExclusive = true → e.exclusive = true ∧ e.numSharers = 1
  /-- the flag may be stale, but then there is no sharer -/
  exclusive : e.exclusive = true → ∀ c, child c ≠ .I → (child c).isExclusive = true
  inclusive : ∀ c, child c ≠ .I → own ≠ .I
  ownExclusive : ∀ c, (child c).isExclusive = true → own.isExclusive = true

namespace EntryInv

variable {kids : Nat} {own : MESIState} {e : Entry} {child : Nat → MESIState}

theorem clear (kids : Nat) (own : MESIState) : EntryInv kids own .clear fun _ => .I where
  bounded _ sharer := by cases sharer
  exact _ := by simp [Entry.clear]
  count := (countIn_eq_zero _ _ _ fun _ _ h => by cases h).symm
  sole _ excl := by cases excl
  exclusive excl := by cases excl
  inclusive _ valid := absurd rfl valid
  ownExclusive _ excl := by cases excl

theorem sharers_eq_false (inv : EntryInv kids own e child) {c : Nat} (invalid : child c = .I) :
    e.sharers c = false := by
  cases sharer : e.sharers c with
  | false => rfl
  | true => exact absurd invalid ((inv.exact c).mp sharer)

theorem invalid_of_empty (inv : EntryInv kids own e child) (empty : e.numSharers = 0) (c : Nat) :
    child c = .I := by
  by_contra valid
  have sharer := (inv.exact c).mpr valid
  rw [inv.count, countIn_eq_zero_iff] at empty
  exact empty c (mem_range.mpr (inv.bounded c sharer)) sharer

theorem empty_of_invalid (inv : EntryInv kids own e child) (invalid : ∀ c, child c = .I) : e.Empty where
  sharers c := inv.sharers_eq_false (invalid c)
  numSharers := by
    rw [inv.count, countIn_eq_zero_iff]
    intro c _ sharer
    rw [inv.sharers_eq_false (invalid c)] at sharer
    cases sharer

theorem eq_of_sole (inv : EntryInv kids own e child) (one : e.numSharers = 1) {c d : Nat}
    (validC : child c ≠ .I) (validD : child d ≠ .I) : c = d := by
  have sharerC := (inv.exact c).mpr validC
  have sharerD := (inv.exact d).mpr validD
  rw [inv.count, countIn, card_eq_one] at one
  obtain ⟨only, members⟩ := one
  have isOnly {x : Nat} (sharer : e.sharers x = true) : x = only := by
    have member : x ∈ (range kids).filter fun a => e.sharers a = true :=
      mem_filter.mpr ⟨mem_range.mpr (inv.bounded x sharer), sharer⟩
    rw [members] at member
    exact mem_singleton.mp member
  exact (isOnly sharerC).trans (isOnly sharerD).symm

/-- Single writer, seen from the parent: when a child is in E or M, no other child holds
the line. -/
theorem other_invalid (inv : EntryInv kids own e child) {c d : Nat}
    (excl : (child c).isExclusive = true) (other : d ≠ c) : child d = .I := by
  by_contra valid
  exact other (inv.eq_of_sole (inv.sole c excl).2 valid (MESIState.ne_I_of_isExclusive excl))

theorem isExclusive_of_child (inv : EntryInv kids own e child) {c : Nat}
    (excl : (child c).isExclusive = true) : e.isExclusive = true := by
  obtain ⟨flag, one⟩ := inv.sole c excl
  simp [Entry.isExclusive, flag, one]

theorem shared_of_not_isExclusive (inv : EntryInv kids own e child) (shared : e.isExclusive = false)
    (c : Nat) : (child c).isExclusive = false := by
  cases excl : (child c).isExclusive with
  | false => rfl
  | true => rw [inv.isExclusive_of_child excl] at shared; cases shared

theorem isExclusive_eq (inv : EntryInv kids own e child) {c : Nat} (sharer : e.sharers c = true) :
    (child c).isExclusive = e.isExclusive := by
  cases isExclusive : e.isExclusive with
  | false => exact inv.shared_of_not_isExclusive isExclusive c
  | true =>
      have flag := Entry.isExclusive_iff.mp isExclusive
      exact inv.exclusive flag.2 c ((inv.exact c).mp sharer)

theorem mono_own (inv : EntryInv kids own e child) {next : MESIState}
    (valid : own ≠ .I → next ≠ .I) (excl : own.isExclusive = true → next.isExclusive = true) :
    EntryInv kids next e child where
  bounded := inv.bounded
  exact := inv.exact
  count := inv.count
  sole := inv.sole
  exclusive := inv.exclusive
  inclusive c isValid := valid (inv.inclusive c isValid)
  ownExclusive c isExcl := excl (inv.ownExclusive c isExcl)

theorem congr (inv : EntryInv kids own e child) {own' : MESIState} {child' : Nat → MESIState}
    (ownValid : own' = .I ↔ own = .I) (ownExcl : own'.isExclusive = own.isExclusive)
    (valid : ∀ c, child' c = .I ↔ child c = .I)
    (excl : ∀ c, (child' c).isExclusive = (child c).isExclusive) : EntryInv kids own' e child' where
  bounded := inv.bounded
  exact c := by rw [inv.exact c, ne_eq, ne_eq, valid]
  count := inv.count
  sole c isExcl := inv.sole c ((excl c).symm.trans isExcl)
  exclusive flag c isValid :=
    (excl c).trans (inv.exclusive flag c fun invalid => isValid ((valid c).mpr invalid))
  inclusive c isValid invalid :=
    inv.inclusive c (fun h => isValid ((valid c).mpr h)) (ownValid.mp invalid)
  ownExclusive c isExcl := ownExcl.trans (inv.ownExclusive c ((excl c).symm.trans isExcl))

theorem of_empty {e : Entry} (kids : Nat) (own : MESIState) (empty : e.Empty)
    (invalid : ∀ c, child c = .I) : EntryInv kids own e child where
  bounded c sharer := by rw [empty.sharers c] at sharer; cases sharer
  exact c := by simp [empty.sharers c, invalid c]
  count := by
    rw [empty.numSharers]
    exact (countIn_eq_zero _ _ _ fun c _ h => by rw [empty.sharers c] at h; cases h).symm
  sole c excl := by rw [invalid c] at excl; cases excl
  exclusive _ c valid := absurd (invalid c) valid
  inclusive c valid := absurd (invalid c) valid
  ownExclusive c excl := by rw [invalid c] at excl; cases excl

theorem demote (inv : EntryInv kids own e child) (type : InvType) :
    EntryInv kids (own.demote type) (e.demote type) fun c => (child c).demote type := by
  cases type with
  | FWD => exact inv
  | INV => exact of_empty kids _ ⟨rfl, fun _ => rfl⟩ fun _ => rfl
  | INVX =>
      refine ⟨?_, ?_, ?_, ?_, ?_, ?_, ?_⟩
      · rw [Entry.demote_INVX_sharers]
        exact inv.bounded
      · intro c
        rw [Entry.demote_INVX_sharers, inv.exact, ne_eq, ne_eq, MESIState.demote_INVX_eq_I]
      · rw [Entry.demote_INVX_sharers, Entry.demote_INVX_numSharers]
        exact inv.count
      · intro c excl
        rw [MESIState.demote_INVX_isExclusive] at excl
        cases excl
      · -- the flag survives only where there is no sharer
        intro flag c valid
        have before := MESIState.of_demote_ne_I valid
        rw [Entry.demote_INVX] at flag
        split at flag
        · cases flag
        · rename_i shared
          exact absurd (inv.isExclusive_of_child (inv.exclusive flag c before)) shared
      · intro c valid invalid
        exact inv.inclusive c (MESIState.of_demote_ne_I valid) ((MESIState.demote_INVX_eq_I _).mp invalid)
      · intro c excl
        rw [MESIState.demote_INVX_isExclusive] at excl
        cases excl

theorem numSharers_setSharer (inv : EntryInv kids own e child) {c : Nat} (bound : c < kids) (present : Bool) :
    countIn (range kids) (e.setSharer c present).sharers (· = true) +
        (if e.sharers c = true then 1 else 0) =
      e.numSharers + if present = true then 1 else 0 := by
  rw [inv.count]
  exact countIn_update _ _ _ (mem_range.mpr bound) present

end EntryInv

/-! ## sendInvalidates -/

namespace MESITopCC

variable {σ : Type} {kids : Nat} {invalidate : InvType → Nat → σ → Option σ}

/-- The entry when the loop has passed the first `k` children. -/
def passed (type : InvType) (e : Entry) (k : Nat) : Entry :=
  if type = .INV then { e with sharers := fun c => if c < k then false else e.sharers c } else e

theorem passed_zero (type : InvType) (e : Entry) : passed type e 0 = e := by
  unfold passed
  split <;> rfl

theorem passed_sharers (type : InvType) (e : Entry) (k : Nat) :
    (passed type e k).sharers k = e.sharers k := by
  unfold passed
  split
  · exact if_neg (Nat.lt_irrefl k)
  · rfl

theorem passed_visit (type : InvType) (e : Entry) (k : Nat) :
    (if type = .INV then (passed type e k).setSharer k false else passed type e k) =
      passed type e (k + 1) := by
  unfold passed
  split
  · rw [Entry.setSharer]
    congr 1
    funext c
    by_cases here : c = k
    · rw [here, Function.update_self, if_pos (Nat.lt_succ_self k)]
    · have same : c < k ↔ c < k + 1 := by omega
      rw [Function.update_of_ne here]
      exact if_congr same rfl rfl
  · rfl

theorem passed_skip {type : InvType} {e : Entry} {k : Nat} (absent : e.sharers k = false) :
    passed type e k = passed type e (k + 1) := by
  unfold passed
  split
  · congr 1
    funext c
    by_cases here : c = k
    · rw [here, absent]
      split <;> split <;> rfl
    · have same : c < k ↔ c < k + 1 := by omega
      exact if_congr same rfl rfl
  · rfl

theorem countIn_range_succ (sharers : Nat → Bool) (k : Nat) :
    countIn (range (k + 1)) sharers (· = true) =
      countIn (range k) sharers (· = true) + if sharers k = true then 1 else 0 := by
  rw [countIn, range_add_one, filter_insert]
  split
  · rw [card_insert_of_notMem (by simp)]
    rfl
  · rfl

theorem sendInvalidates_of_shared {e : Entry} (s : σ) (shared : e.isExclusive = false) :
    sendInvalidates kids invalidate .INVX e s = some (e, s) := by
  unfold sendInvalidates
  rw [if_pos ⟨rfl, shared⟩]

theorem sendInvalidates_of_empty {type : InvType} {e : Entry} (s : σ) (empty : e.Empty) :
    sendInvalidates kids invalidate type e s = some (e, s) := by
  have isEmpty : e.isEmpty = true := decide_eq_true empty.numSharers
  unfold sendInvalidates
  by_cases spared : type = .INVX ∧ e.isExclusive = false
  · rw [if_pos spared]
  · rw [if_neg spared, if_pos isEmpty]

/-- What is known of the variables of the loop before round `k`. -/
structure LoopInv (type : InvType) (e : Entry) (Holds : Nat → σ → Prop) (k : Nat)
    (loop : Entry × Nat × σ) : Prop where
  entry : loop.1 = passed type e k
  sent : loop.2.1 = countIn (range k) e.sharers (· = true)
  holds : Holds k loop.2.2

theorem loopInv_start (type : InvType) (e : Entry) {s : σ} {Holds : Nat → σ → Prop}
    (start : Holds 0 s) : LoopInv type e Holds 0 (e, 0, s) :=
  ⟨(passed_zero type e).symm, rfl, start⟩

theorem LoopInv.round {type : InvType} {e : Entry} {Holds : Nat → σ → Prop} {k : Nat}
    {loop : Entry × Nat × σ} (inv : LoopInv type e Holds k loop) (bound : k < kids)
    (visit : ∀ c s, c < kids → e.sharers c = true → Holds c s →
      ∃ next, invalidate type c s = some next ∧ Holds (c + 1) next)
    (skip : ∀ c s, c < kids → e.sharers c = false → Holds c s → Holds (c + 1) s) :
    ∃ next, sendInvalidate invalidate type loop k = some next ∧
      LoopInv type e Holds (k + 1) next := by
  obtain ⟨cur, sentInvs, s⟩ := loop
  obtain ⟨rfl, sent, holds⟩ := inv
  unfold sendInvalidate
  dsimp only
  rw [passed_sharers]
  cases sharer : e.sharers k with
  | true =>
      obtain ⟨next, run, holds⟩ := visit k s bound sharer holds
      rw [if_pos rfl, run]
      refine ⟨_, rfl, passed_visit type e k, ?_, holds⟩
      rw [countIn_range_succ, sharer, ← sent]
      rfl
  | false =>
      refine ⟨_, rfl, passed_skip sharer, ?_, skip k s bound sharer holds⟩
      rw [countIn_range_succ, sharer, ← sent]
      rfl

/-- `Holds k` is what is known when the first `k` children have been passed. -/
theorem sendInvalidates_spec {type : InvType} {e : Entry} {s : σ} {Holds : Nat → σ → Prop}
    (notForward : type ≠ .FWD) (bounded : ∀ c, e.sharers c = true → c < kids)
    (count : e.numSharers = countIn (range kids) e.sharers (· = true))
    (exclusive : type = .INVX → e.isExclusive = true) (start : Holds 0 s)
    (visit : ∀ c s, c < kids → e.sharers c = true → Holds c s →
      ∃ next, invalidate type c s = some next ∧ Holds (c + 1) next)
    (skip : ∀ c s, c < kids → e.sharers c = false → Holds c s → Holds (c + 1) s) :
    ∃ next, sendInvalidates kids invalidate type e s = some (e.demote type, next) ∧
      Holds kids next := by
  unfold sendInvalidates
  rw [if_neg (by rintro ⟨rfl, shared⟩; rw [exclusive rfl] at shared; cases shared)]
  by_cases empty : e.isEmpty = true
  · have zero : e.numSharers = 0 := of_decide_eq_true empty
    have absent : ∀ c, e.sharers c = false := by
      intro c
      rw [zero, eq_comm, countIn_eq_zero_iff] at count
      cases sharer : e.sharers c with
      | false => rfl
      | true => exact absurd sharer (count c (mem_range.mpr (bounded c sharer)))
    have isInv : type = .INV := by
      cases type with
      | INV => rfl
      | FWD => exact absurd rfl notForward
      | INVX =>
          have := exclusive rfl
          simp [Entry.isExclusive, zero] at this
    rw [if_pos empty, isInv, Entry.Empty.demote ⟨zero, absent⟩]
    refine ⟨s, rfl, ?_⟩
    have upTo : ∀ k ≤ kids, Holds k s := by
      intro k
      induction k with
      | zero => exact fun _ => start
      | succ k ih => exact fun le => skip k s le (absent k) (ih (Nat.le_of_succ_le le))
    exact upTo kids (Nat.le_refl kids)
  · rw [if_neg empty]
    obtain ⟨⟨cur, sentInvs, next⟩, run, isPassed, sent, holds⟩ :=
      foldlM_range kids (loopInv_start type e start) fun k loop bound inv =>
        inv.round bound visit skip
    dsimp only at isPassed sent holds
    refine ⟨next, ?_, holds⟩
    have numSharers : cur.numSharers = e.numSharers := by
      rw [isPassed]
      unfold passed
      split <;> rfl
    rw [run]
    dsimp only [Option.bind_eq_bind, Option.bind_some]
    rw [if_pos (by rw [sent, numSharers, count])]
    cases type with
    | FWD => exact absurd rfl notForward
    | INV =>
        have sharers : cur.sharers = fun _ => false := by
          rw [isPassed]
          funext c
          dsimp only [passed]
          rw [if_pos rfl]
          dsimp only
          split
          · rfl
          · rename_i beyond
            cases sharer : e.sharers c with
            | false => rfl
            | true => exact absurd (bounded c sharer) beyond
        have flag : cur.exclusive = e.exclusive := by
          rw [isPassed]
          rfl
        rw [if_pos rfl, sharers, flag]
        rfl
    | INVX =>
        have isExclusive := exclusive rfl
        have flag := Entry.isExclusive_iff.mp isExclusive
        have same : cur = e := isPassed
        rw [if_neg (by decide), same, if_pos ⟨flag.2, flag.1⟩, Entry.demote_INVX, if_pos isExclusive]

/-! ## processAccess -/

variable {own : MESIState} {e : Entry} {child : Nat → MESIState} {c : Nat}

/-- The entry without child `c`. -/
def without (e : Entry) (c : Nat) : Entry :=
  if e.sharers c then { e.setSharer c false with numSharers := e.numSharers - 1 } else e

theorem without_inv (inv : EntryInv kids own e child) (c : Nat) :
    EntryInv kids own (without e c) (Function.update child c .I) := by
  by_cases valid : child c = .I
  · have absent := inv.sharers_eq_false valid
    have same : Function.update child c .I = child := by rw [← valid, Function.update_eq_self]
    unfold without
    rw [absent, same]
    exact inv
  · have sharer := (inv.exact c).mpr valid
    have isWithout : without e c = { e.setSharer c false with numSharers := e.numSharers - 1 } :=
      if_pos sharer
    have moved := inv.numSharers_setSharer (inv.bounded c sharer) false
    rw [if_pos sharer, if_neg (by decide)] at moved
    rw [isWithout]
    have sharers (d : Nat) (other : d ≠ c) : (e.setSharer c false).sharers d = e.sharers d :=
      Function.update_of_ne other ..
    have gone : (e.setSharer c false).sharers c = false := Function.update_self ..
    refine ⟨?_, ?_, ?_, ?_, ?_, ?_, ?_⟩
    · intro d isSharer
      by_cases here : d = c
      · exact here ▸ inv.bounded c sharer
      · exact inv.bounded d ((sharers d here).symm.trans isSharer)
    · intro d
      by_cases here : d = c
      · rw [here, Function.update_self]
        exact iff_of_false (fun h => by rw [gone] at h; cases h) (fun h => h rfl)
      · rw [Function.update_of_ne here, ← inv.exact d]
        exact iff_of_eq (congrArg (· = true) (sharers d here))
    · exact (Nat.eq_sub_of_add_eq moved).symm
    · intro d excl
      by_cases here : d = c
      · rw [here, Function.update_self] at excl
        cases excl
      · rw [Function.update_of_ne here] at excl
        exact absurd (inv.other_invalid excl (Ne.symm here)) valid
    · intro flag d isValid
      by_cases here : d = c
      · rw [here, Function.update_self] at isValid
        exact absurd rfl isValid
      · rw [Function.update_of_ne here] at isValid ⊢
        exact inv.exclusive flag d isValid
    · intro d isValid
      exact inv.inclusive c valid
    · intro d excl
      by_cases here : d = c
      · rw [here, Function.update_self] at excl
        cases excl
      · rw [Function.update_of_ne here] at excl
        exact inv.ownExclusive d excl

theorem processAccess_put (invalidate : InvType → Nat → σ → Option σ) (inv : EntryInv kids own e child)
    (valid : child c ≠ .I) {type : AccessType}
    (isPut : type = .PUTS ∨ type = .PUTX ∧ (child c).isExclusive = true) {flags : Flags}
    (noKeep : flags.putxKeepExcl = false) (haveExclusive : Bool) (childState : MESIState) (s : σ) :
    processAccess kids invalidate type c haveExclusive flags e childState s =
        some (without e c, .I, s) ∧
      EntryInv kids own (without e c) (Function.update child c .I) := by
  refine ⟨?_, without_inv inv c⟩
  have sharer := (inv.exact c).mpr valid
  have gives : relinquish c e s = some (without e c, .I, s) := by
    unfold relinquish without
    rw [if_pos sharer, if_pos sharer]
  rcases isPut with rfl | ⟨rfl, excl⟩
  · exact gives
  · unfold processAccess
    dsimp only
    rw [if_pos (inv.isExclusive_of_child excl), noKeep, if_neg (by decide)]
    exact gives

/-- An entry in which child `c` joins sharers that are not exclusive. -/
theorem join_inv (inv : EntryInv kids own e child) (absent : child c = .I) (bound : c < kids)
    (valid : own ≠ .I) (shared : e.isExclusive = false) :
    EntryInv kids own
      { e.setSharer c true with exclusive := false, numSharers := e.numSharers + 1 }
      (Function.update child c .S) := by
  have noSharer := inv.sharers_eq_false absent
  have moved := inv.numSharers_setSharer bound true
  rw [noSharer, if_neg (by decide), if_pos rfl] at moved
  have sharers (d : Nat) (other : d ≠ c) : (e.setSharer c true).sharers d = e.sharers d :=
    Function.update_of_ne other ..
  have joined : (e.setSharer c true).sharers c = true := Function.update_self ..
  have noExcl (d : Nat) : (Function.update child c .S d).isExclusive = false := by
    by_cases here : d = c
    · rw [here, Function.update_self]
      rfl
    · rw [Function.update_of_ne here]
      exact inv.shared_of_not_isExclusive shared d
  refine ⟨?_, ?_, moved.symm, ?_, ?_, fun _ _ => valid, ?_⟩
  · intro d isSharer
    by_cases here : d = c
    · exact here ▸ bound
    · exact inv.bounded d ((sharers d here).symm.trans isSharer)
  · intro d
    by_cases here : d = c
    · rw [here, Function.update_self]
      exact iff_of_true joined (by decide)
    · rw [Function.update_of_ne here, ← inv.exact d]
      exact iff_of_eq (congrArg (· = true) (sharers d here))
  · intro d excl
    rw [noExcl d] at excl
    cases excl
  · intro flag
    cases flag
  · intro d excl
    rw [noExcl d] at excl
    cases excl

/-- The entry of an exclusive child `c` of a line that no other child holds. -/
theorem sole_inv {given : MESIState} (excl : given.isExclusive = true) (bound : c < kids)
    (ownExcl : own.isExclusive = true) (noSharer : ∀ d, e.sharers d = false) :
    EntryInv kids own { e.setSharer c true with exclusive := true, numSharers := 1 }
      (Function.update (fun _ => .I) c given) := by
  have sharers (d : Nat) : (e.setSharer c true).sharers d = true ↔ d = c := by
    by_cases here : d = c
    · rw [here]
      exact iff_of_true (Function.update_self ..) rfl
    · refine iff_of_false (fun isSharer => ?_) here
      have same : (e.setSharer c true).sharers d = e.sharers d := Function.update_of_ne here ..
      rw [same, noSharer d] at isSharer
      cases isSharer
  have only {d : Nat} (isValid : Function.update (fun _ => MESIState.I) c given d ≠ .I) : d = c := by
    by_contra other
    rw [Function.update_of_ne other] at isValid
    exact isValid rfl
  refine ⟨fun d isSharer => (sharers d).mp isSharer ▸ bound, ?_, ?_, fun _ _ => ⟨rfl, rfl⟩, ?_,
    fun _ _ => MESIState.ne_I_of_isExclusive ownExcl, fun _ _ => ownExcl⟩
  · intro d
    refine (sharers d).trans ⟨?_, only⟩
    rintro rfl
    rw [Function.update_self]
    exact MESIState.ne_I_of_isExclusive excl
  · have one : (range kids).filter (fun d => (e.setSharer c true).sharers d = true) = {c} := by
      ext d
      rw [mem_filter, mem_range, mem_singleton, sharers]
      exact ⟨fun h => h.2, fun h => ⟨h ▸ bound, h⟩⟩
    rw [countIn]
    dsimp only
    rw [one, card_singleton]
  · intro _ d isValid
    rw [only isValid, Function.update_self]
    exact excl

/-- A GETS of a child without the line: E when it is alone and the cache may give it, S
otherwise, with the exclusive sharer downgraded. -/
theorem processAccess_gets (inv : EntryInv kids own e child) (absent : child c = .I) (bound : c < kids)
    (valid : own ≠ .I) {s next : σ} (flags : Flags) (childState : MESIState)
    (sent : sendInvalidates kids invalidate .INVX e s = some (e.demote .INVX, next)) :
    ∃ e' given, processAccess kids invalidate .GETS c own.isExclusive flags e childState s =
        some (e', given, next) ∧ (given = .S ∨ given = .E) ∧
      EntryInv kids own e' (Function.update (fun d => (child d).demote .INVX) c given) := by
  unfold processAccess
  dsimp only
  by_cases alone : e.isEmpty = true ∧ own.isExclusive = true ∧ flags.noExcl = false
  · have zero : e.numSharers = 0 := of_decide_eq_true alone.1
    have invalid := inv.invalid_of_empty zero
    have shared : e.isExclusive = false := by simp [Entry.isExclusive, zero]
    rw [sendInvalidates_of_shared s shared] at sent
    cases (Prod.mk.inj (Option.some.inj sent)).2
    rw [if_pos alone]
    refine ⟨_, .E, rfl, .inr rfl, ?_⟩
    have demoted : (fun d => (child d).demote .INVX) = fun _ => MESIState.I := by
      funext d
      rw [invalid d, MESIState.demote_I]
    rw [demoted]
    exact sole_inv rfl bound alone.2.1 fun d => inv.sharers_eq_false (invalid d)
  · rw [if_neg alone, if_pos (inv.sharers_eq_false absent)]
    have demoted : EntryInv kids own (e.demote .INVX) fun d => (child d).demote .INVX := by
      have both := inv.demote .INVX
      refine { both with inclusive := fun _ _ => valid, ownExclusive := fun d excl => ?_ }
      rw [MESIState.demote_INVX_isExclusive] at excl
      cases excl
    have joined := join_inv (c := c) demoted (by rw [absent, MESIState.demote_I]) bound valid
      (Entry.demote_INVX_isExclusive e)
    refine ⟨_, .S, ?_, .inl rfl, joined⟩
    cases shared : e.isExclusive with
    | true =>
        rw [if_pos rfl, sent]
        dsimp only [Option.bind_eq_bind, Option.bind_some]
        rw [Entry.demote_INVX_isExclusive, if_neg (by decide)]
    | false =>
        rw [sendInvalidates_of_shared s shared] at sent
        obtain ⟨same, rfl⟩ := Prod.mk.inj (Option.some.inj sent)
        rw [if_neg (by decide), ← same]
        dsimp only [Option.bind_eq_bind, Option.bind_some]
        rw [shared, if_neg (by decide)]

theorem processAccess_getx (inv : EntryInv kids own e child) (notExcl : (child c).isExclusive = false)
    (bound : c < kids) (ownExcl : own.isExclusive = true) {s next : σ} (flags : Flags)
    (childState : MESIState)
    (sent : sendInvalidates kids invalidate .INV (without e c) s =
      some ((without e c).demote .INV, next)) :
    ∃ e', processAccess kids invalidate .GETX c own.isExclusive flags e childState s =
        some (e', .M, next) ∧
      EntryInv kids own e' (Function.update (fun _ => .I) c .M) := by
  unfold processAccess
  dsimp only
  rw [if_pos ownExcl]
  have entry : EntryInv kids own
      { ((without e c).demote .INV).setSharer c true with exclusive := true, numSharers := 1 }
      (Function.update (fun _ => .I) c .M) := sole_inv rfl bound ownExcl fun _ => rfl
  refine ⟨_, ?_, entry⟩
  unfold without at sent ⊢
  by_cases sharer : e.sharers c = true
  · have shared : ¬ e.isExclusive = true := fun isExclusive => by
      have flag := Entry.isExclusive_iff.mp isExclusive
      rw [inv.exclusive flag.2 c ((inv.exact c).mp sharer)] at notExcl
      cases notExcl
    rw [if_pos sharer] at sent ⊢
    rw [if_neg shared, if_pos sharer]
    dsimp only [Option.bind_eq_bind, Option.bind_some]
    rw [sent]
    rfl
  · rw [if_neg sharer] at sent ⊢
    rw [if_neg sharer]
    dsimp only [Option.bind_eq_bind, Option.bind_some]
    rw [sent]
    rfl

end MESITopCC

/-! ## Requests and invalidations -/

def IsPut (type : AccessType) : Prop := type = .PUTS ∨ type = .PUTX

/-- The requests that a cache sends for a line in some state. -/
def Asks : AccessType → MESIState → Prop
  | .GETS, state => state = .I
  | .GETX, state => state = .I ∨ state = .S
  | .PUTS, state => state = .S ∨ state = .E
  | .PUTX, state => state = .M

/-- The states they leave the line in. -/
def Grants : AccessType → MESIState → Prop
  | .GETS, state => state = .S ∨ state = .E
  | .GETX, state => state = .M
  | .PUTS, state => state = .I
  | .PUTX, state => state = .I

/-- The state in which a cache may serve the request of a child. -/
def Ready : AccessType → MESIState → Prop
  | .GETS, state => state ≠ .I
  | .PUTS, state => state ≠ .I
  | .GETX, state => state = .M
  | .PUTX, state => state = .M

theorem entryInv_granted {kids : Nat} {own given : MESIState} {e : Entry} {child : Nat → MESIState}
    {type : AccessType} (entry : EntryInv kids own e child) (asks : Asks type own)
    (grants : Grants type given) (alone : IsPut type → ∀ c, child c = .I) :
    EntryInv kids given e child := by
  have ofInvalid (invalid : ∀ c, child c = .I) : EntryInv kids given e child :=
    EntryInv.of_empty kids given (entry.empty_of_invalid invalid) invalid
  cases type with
  | PUTS => exact ofInvalid (alone (.inl rfl))
  | PUTX => exact ofInvalid (alone (.inr rfl))
  | GETS =>
      refine ofInvalid fun c => ?_
      by_contra valid
      exact entry.inclusive c valid asks
  | GETX =>
      cases (show given = .M from grants)
      exact entry.mono_own (fun _ => by decide) fun _ => rfl

theorem Asks.putx_of_dirty {type : AccessType} {state : MESIState} (asks : Asks type state)
    (dirty : state = .M) : type = .PUTX := by
  subst dirty
  cases type with
  | GETS => cases asks
  | GETX => rcases asks with wrong | wrong <;> cases wrong
  | PUTS => rcases asks with wrong | wrong <;> cases wrong
  | PUTX => rfl

/-- The invalidation may be sent to a cache in this state. -/
def Suits (type : InvType) (state : MESIState) : Prop :=
  type = .INV ∧ state ≠ .I ∨ type = .INVX ∧ state.isExclusive = true

theorem Suits.valid {type : InvType} {state : MESIState} (suits : Suits type state) : state ≠ .I := by
  rcases suits with ⟨-, valid⟩ | ⟨-, excl⟩
  · exact valid
  · exact MESIState.ne_I_of_isExclusive excl

theorem Suits.processInval {type : InvType} {state : MESIState} (suits : Suits type state) :
    MESIBottomCC.processInval type state = some (state.demote type, decide (state = .M)) := by
  rcases suits with ⟨rfl, valid⟩ | ⟨rfl, excl⟩
  · unfold MESIBottomCC.processInval
    rw [if_neg valid]
    rfl
  · unfold MESIBottomCC.processInval
    rw [if_neg (MESIState.ne_I_of_isExclusive excl)]
    dsimp only
    rw [if_pos excl, MESIState.demote, if_pos excl]

end Zsim.Coherence
