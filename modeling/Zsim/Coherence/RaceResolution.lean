import Zsim.Coherence.Races

/-!
# Race resolution

`CheckForMESIRace` turns a request whose line was invalidated in the meantime into one
that suits the line as it is, or tells to skip it.  With that the controllers, which know
nothing of races, keep the directory.
-/

set_option autoImplicit false

namespace Zsim.Coherence.Races

/-! ## CheckForMESIRace -/

/-- The states in which a request may find its line, when it was sent in `initialState`. -/
def Waits : AccessType → MESIState → MESIState → Prop
  | .GETS, initialState, state => initialState = .I ∧ state = .I
  | .GETX, initialState, state =>
      initialState = .I ∧ state = .I ∨ initialState = .S ∧ (state = .S ∨ state = .I)
  | .PUTS, initialState, state =>
      (initialState = .S ∨ initialState = .E) ∧ (state = initialState ∨ state = .S ∨ state = .I)
  | .PUTX, initialState, state => initialState = .M ∧ (state = .M ∨ state = .S ∨ state = .I)

instance : (type : AccessType) → (initialState state : MESIState) →
    Decidable (Waits type initialState state)
  | .GETS, initialState, state => inferInstanceAs (Decidable (initialState = .I ∧ state = .I))
  | .GETX, initialState, state => inferInstanceAs (Decidable
      (initialState = .I ∧ state = .I ∨ initialState = .S ∧ (state = .S ∨ state = .I)))
  | .PUTS, initialState, state => inferInstanceAs (Decidable
      ((initialState = .S ∨ initialState = .E) ∧ (state = initialState ∨ state = .S ∨ state = .I)))
  | .PUTX, initialState, state => inferInstanceAs (Decidable
      (initialState = .M ∧ (state = .M ∨ state = .S ∨ state = .I)))

theorem Waits.start {type : AccessType} {state : MESIState} (asks : Asks type state) :
    Waits type state state := by
  cases type with
  | GETS => exact ⟨asks, asks⟩
  | GETX => exact asks.imp (fun isI => ⟨isI, isI⟩) fun isS => ⟨isS, .inl isS⟩
  | PUTS => exact ⟨asks, .inl rfl⟩
  | PUTX => exact ⟨asks, .inl asks⟩

theorem Waits.demote {type : AccessType} {initialState state : MESIState}
    (waits : Waits type initialState state) (inval : InvType) :
    Waits type initialState (state.demote inval) := by
  revert waits
  cases type <;> cases initialState <;> cases state <;> cases inval <;> decide

/-- A request that is not skipped suits the line as it is now; only a PUT is skipped, when
its line is gone. -/
theorem Waits.resolve {type : AccessType} {initialState state : MESIState}
    (waits : Waits type initialState state) :
    (∃ type', checkForMESIRace type state initialState = some (type', false) ∧ Asks type' state ∧
        (IsPut type → IsPut type') ∧ (¬ IsPut type → type' = type)) ∨
      checkForMESIRace type state initialState = some (type, true) ∧ IsPut type ∧ state = .I := by
  cases type with
  | GETS =>
      obtain ⟨rfl, rfl⟩ := waits
      exact .inl ⟨.GETS, rfl, rfl, id, fun _ => rfl⟩
  | GETX =>
      rcases waits with ⟨rfl, rfl⟩ | ⟨rfl, rfl | rfl⟩
      · exact .inl ⟨.GETX, rfl, .inl rfl, id, fun _ => rfl⟩
      · exact .inl ⟨.GETX, rfl, .inr rfl, id, fun _ => rfl⟩
      · exact .inl ⟨.GETX, rfl, .inl rfl, id, fun _ => rfl⟩
  | PUTS =>
      rcases waits with ⟨rfl | rfl, rfl | rfl | rfl⟩
      · exact .inl ⟨.PUTS, rfl, .inl rfl, id, fun _ => rfl⟩
      · exact .inl ⟨.PUTS, rfl, .inl rfl, id, fun _ => rfl⟩
      · exact .inr ⟨rfl, .inl rfl, rfl⟩
      · exact .inl ⟨.PUTS, rfl, .inr rfl, id, fun _ => rfl⟩
      · exact .inl ⟨.PUTS, rfl, .inl rfl, id, fun _ => rfl⟩
      · exact .inr ⟨rfl, .inl rfl, rfl⟩
  | PUTX =>
      rcases waits with ⟨rfl, rfl | rfl | rfl⟩
      · exact .inl ⟨.PUTX, rfl, rfl, id, fun _ => rfl⟩
      · exact .inl ⟨.PUTS, rfl, .inl rfl, fun _ => .inl rfl, fun get => absurd (.inr rfl) get⟩
      · exact .inr ⟨rfl, .inr rfl, rfl⟩

theorem Waits.asks_of_get {type : AccessType} {initialState state : MESIState}
    (waits : Waits type initialState state) (isGet : ¬ IsPut type) : Asks type state := by
  rcases waits.resolve with ⟨type', -, asks, -, same⟩ | ⟨-, put, -⟩
  · exact same isGet ▸ asks
  · exact absurd put isGet

/-! ## The invariant -/

structure Inv (kids : Nat) (sys : State) : Prop where
  entry : EntryInv kids sys.own sys.entry fun c => (sys.child c).state
  waits : ∀ c r, (sys.child c).pending = some r → c < kids ∧
    Waits r.type r.initialState (sys.child c).state ∧ (IsPut r.type → r.flags.putxKeepExcl = false)
  get : ∀ c type flags initialState, sys.upstream = some (.get c type flags initialState) →
    ¬ IsPut type ∧ Waits type initialState sys.own ∧
      ∃ r, (sys.child c).pending = some r ∧ r.type = type ∧ r.flags = flags
  put : ∀ type initialState, sys.upstream = some (.put type initialState) →
    IsPut type ∧ Waits type initialState sys.own ∧ ∀ c, (sys.child c).state = .I

theorem inv_init (kids : Nat) : Inv kids init where
  entry := EntryInv.clear kids .I
  waits _ _ none := by cases none
  get _ _ _ _ none := by cases none
  put _ _ none := by cases none

/-! ## Invalidations of the children -/

/-- What is known when the first `k` children have been passed. -/
structure Told (type : InvType) (e : Entry) (child : Nat → Child) (k : Nat)
    (next : (Nat → Child) × Bool) : Prop where
  children : ∀ d, next.1 d =
    if d < k ∧ e.sharers d = true then { child d with state := (child d).state.demote type } else child d
  dirty : next.2 = true → ∃ d, e.sharers d = true ∧ (child d).state = .M

theorem Told.visit {type : InvType} {e : Entry} {child : Nat → Child} {k : Nat}
    {mid : (Nat → Child) × Bool} (told : Told type e child k mid) (sharer : e.sharers k = true)
    (suits : Suits type (child k).state) :
    ∃ next, invalidateChild type k mid = some next ∧ Told type e child (k + 1) next := by
  have same : mid.1 k = child k := by
    rw [told.children k, if_neg fun early => Nat.lt_irrefl k early.1]
  have run : invalidateChild type k mid = some (Function.update mid.1 k
      { child k with state := (child k).state.demote type }, mid.2 || decide ((child k).state = .M)) := by
    unfold invalidateChild
    dsimp only
    rw [same, suits.processInval]
    rfl
  refine ⟨_, run, fun d => ?_, fun raised => ?_⟩
  · dsimp only
    by_cases here : d = k
    · subst here
      rw [Function.update_self, if_pos ⟨Nat.lt_succ_self d, sharer⟩]
    · rw [Function.update_of_ne here, told.children d]
      have early : d < k + 1 ↔ d < k := by omega
      simp only [early]
  · rw [Bool.or_eq_true, decide_eq_true_iff] at raised
    rcases raised with before | dirty
    · exact told.dirty before
    · exact ⟨k, sharer, dirty⟩

theorem Told.skip {type : InvType} {e : Entry} {child : Nat → Child} {k : Nat}
    {mid : (Nat → Child) × Bool} (told : Told type e child k mid) (absent : e.sharers k = false) :
    Told type e child (k + 1) mid := by
  refine ⟨fun d => ?_, told.dirty⟩
  rw [told.children d]
  by_cases here : d = k
  · simp [here, absent]
  · have early : d < k + 1 ↔ d < k := by omega
    simp only [early]

/-- `sendInvalidates` demotes the sharers in the entry. -/
theorem sendInvalidates_run {kids : Nat} {type : InvType} {e : Entry} {child : Nat → Child}
    (bounded : ∀ c, e.sharers c = true → c < kids)
    (count : e.numSharers = countIn (Finset.range kids) e.sharers (· = true))
    (known : type = .INV ∧ (∀ c, e.sharers c = true → (child c).state ≠ .I) ∨
      type = .INVX ∧ ∀ c, e.sharers c = true →
        (child c).state ≠ .I ∧ (child c).state.isExclusive = e.isExclusive) :
    ∃ next, MESITopCC.sendInvalidates kids invalidateChild type e (child, false) =
        some (e.demote type, next) ∧
      (∀ d, next.1 d = if e.sharers d = true then { child d with state := (child d).state.demote type }
        else child d) ∧
      (next.2 = true → ∃ d, e.sharers d = true ∧ (child d).state = .M) := by
  by_cases spared : type = .INVX ∧ e.isExclusive = false
  · obtain ⟨rfl, shared⟩ := spared
    refine ⟨(child, false), ?_, fun d => ?_, fun raised => by cases raised⟩
    · rw [MESITopCC.sendInvalidates_of_shared _ shared, Entry.demote_INVX_of_shared shared]
    · by_cases sharer : e.sharers d = true
      · rcases known with ⟨wrong, -⟩ | ⟨-, same⟩
        · cases wrong
        · rw [if_pos sharer, MESIState.demote_INVX_of_shared ((same d sharer).2.trans shared)]
      · rw [if_neg sharer]
  · have exclusive : type = .INVX → e.isExclusive = true := by
      intro isInvx
      by_contra shared
      exact spared ⟨isInvx, by simpa using shared⟩
    have suits (c : Nat) (sharer : e.sharers c = true) : Suits type (child c).state := by
      rcases known with ⟨isInv, valid⟩ | ⟨isInvx, same⟩
      · exact .inl ⟨isInv, valid c sharer⟩
      · exact .inr ⟨isInvx, (same c sharer).2.trans (exclusive isInvx)⟩
    have notForward : type ≠ .FWD := by
      rcases known with ⟨rfl, -⟩ | ⟨rfl, -⟩ <;> decide
    have start : Told type e child 0 (child, false) :=
      ⟨fun d => (if_neg fun early => Nat.not_lt_zero d early.1).symm, fun raised => by cases raised⟩
    obtain ⟨next, run, told⟩ := MESITopCC.sendInvalidates_spec notForward bounded count exclusive start
      (fun c mid _ sharer told => told.visit sharer (suits c sharer))
      (fun c mid _ absent told => told.skip absent)
    refine ⟨next, run, fun d => ?_, told.dirty⟩
    rw [told.children d]
    exact if_congr (and_iff_right_of_imp (bounded d)) rfl rfl

/-! ## A request is completed -/

/-- What `complete` leaves when child `c` is served. -/
structure Completed (kids c : Nat) (type : AccessType) (sys next : State) : Prop where
  entry : EntryInv kids next.own next.entry fun d => (next.child d).state
  upstream : next.upstream = sys.upstream
  pending : (next.child c).pending = none
  grants : Grants type (next.child c).state
  others : ∀ d, d ≠ c → ∃ inval, next.child d =
    { sys.child d with state := (sys.child d).state.demote inval }

theorem childDone_of_grants {type : AccessType} {given : MESIState} (grants : Grants type given) :
    childDone type given = true := by
  cases type with
  | PUTS => exact decide_eq_true grants
  | PUTX => exact decide_eq_true grants
  | GETX => exact decide_eq_true grants
  | GETS => rcases grants with rfl | rfl <;> rfl

section
variable {kids c : Nat} {type : AccessType} {flags : Flags} {sys : State}

theorem states_update (child : Nat → Child) (c : Nat) (value : Child) :
    (fun d => (Function.update child c value d).state) =
      Function.update (fun d => (child d).state) c value.state := by
  funext d
  by_cases here : d = c
  · subst here
    rw [Function.update_self, Function.update_self]
  · rw [Function.update_of_ne here, Function.update_of_ne here]

/-- The end of `complete`: the children that lose something have been told, and a
writeback is taken over. -/
theorem complete_of_processAccess {e : Entry} {given : MESIState} {told : (Nat → Child) × Bool}
    (run : MESITopCC.processAccess kids invalidateChild type c sys.own.isExclusive flags sys.entry
      (sys.child c).state (sys.child, false) = some (e, given, told))
    (entry : EntryInv kids sys.own e (Function.update (fun d => (told.1 d).state) c given))
    (grants : Grants type given) (excl : told.2 = true → sys.own.isExclusive = true)
    (others : ∀ d, d ≠ c → ∃ inval, told.1 d =
      { sys.child d with state := (sys.child d).state.demote inval }) :
    ∃ next, complete kids c type flags sys = some next ∧ Completed kids c type sys next := by
  obtain ⟨child, wb⟩ := told
  dsimp only at *
  obtain ⟨own, isOwn, valid, ownExcl⟩ : ∃ own, (if wb = true then
      MESIBottomCC.processWritebackOnAccess sys.own else some sys.own) = some own ∧
      (sys.own ≠ .I → own ≠ .I) ∧ (sys.own.isExclusive = true → own.isExclusive = true) := by
    cases wb with
    | false => exact ⟨sys.own, rfl, id, id⟩
    | true => exact ⟨.M, if_pos (excl rfl), fun _ => by decide, fun _ => rfl⟩
  refine ⟨{ sys with own := own, entry := e, child := Function.update child c ⟨given, none⟩ }, ?_,
    ?_, rfl, ?_, ?_, fun d other => ?_⟩
  · unfold complete
    rw [run]
    dsimp only [Option.bind_eq_bind, Option.bind_some]
    cases wb with
    | false =>
        cases Option.some.inj isOwn
        exact if_pos (childDone_of_grants grants)
    | true =>
        rw [if_pos rfl] at isOwn ⊢
        rw [isOwn]
        exact if_pos (childDone_of_grants grants)
  · dsimp only
    rw [states_update]
    exact entry.mono_own valid ownExcl
  · dsimp only
    rw [Function.update_self]
  · dsimp only
    rw [Function.update_self]
    exact grants
  · obtain ⟨inval, same⟩ := others d other
    exact ⟨inval, (Function.update_of_ne other ..).trans same⟩

variable (sys) in
theorem complete_spec (entry : EntryInv kids sys.own sys.entry fun d => (sys.child d).state)
    (bound : c < kids) (asks : Asks type (sys.child c).state) (ready : Ready type sys.own)
    (noKeep : IsPut type → flags.putxKeepExcl = false) :
    ∃ next, complete kids c type flags sys = some next ∧ Completed kids c type sys next := by
  have put (isPut : IsPut type) (valid : (sys.child c).state ≠ .I)
      (excl : type = .PUTS ∨ type = .PUTX ∧ (sys.child c).state.isExclusive = true) :
      ∃ next, complete kids c type flags sys = some next ∧ Completed kids c type sys next := by
    obtain ⟨run, entry'⟩ := MESITopCC.processAccess_put invalidateChild entry valid excl (noKeep isPut)
      sys.own.isExclusive (sys.child c).state (sys.child, false)
    refine complete_of_processAccess run entry' ?_ (fun raised => by cases raised)
      fun d _ => ⟨.FWD, rfl⟩
    rcases isPut with rfl | rfl <;> rfl
  cases type with
  | PUTS =>
      refine put (.inl rfl) ?_ (.inl rfl)
      rcases asks with isS | isE
      · rw [isS]; decide
      · rw [isE]; decide
  | PUTX =>
      have isM : (sys.child c).state = .M := asks
      exact put (.inr rfl) (by rw [isM]; decide) (.inr ⟨rfl, by rw [isM]; rfl⟩)
  | GETS =>
      obtain ⟨told, sent, children, dirty⟩ := sendInvalidates_run entry.bounded entry.count
        (.inr ⟨rfl, fun d sharer => ⟨(entry.exact d).mp sharer, entry.isExclusive_eq sharer⟩⟩)
      obtain ⟨e, given, run, grants, entry'⟩ := MESITopCC.processAccess_gets entry asks bound ready flags
        (sys.child c).state sent
      have demoted : (fun d => (sys.child d).state.demote .INVX) = fun d => (told.1 d).state := by
        funext d
        rw [children d]
        by_cases sharer : sys.entry.sharers d = true
        · rw [if_pos sharer]
        · have invalid : (sys.child d).state = .I := by
            by_contra valid
            exact sharer ((entry.exact d).mpr valid)
          rw [if_neg sharer, invalid, MESIState.demote_I]
      rw [demoted] at entry'
      refine complete_of_processAccess run entry' grants (fun raised => ?_) fun d _ => ?_
      · obtain ⟨d, -, isM⟩ := dirty raised
        exact entry.ownExclusive d (by rw [isM]; rfl)
      · rw [children d]
        split
        · exact ⟨.INVX, rfl⟩
        · exact ⟨.FWD, rfl⟩
  | GETX =>
      have isM : sys.own = .M := ready
      have rest := MESITopCC.without_inv entry c
      have sharers (d : Nat) (sharer : (MESITopCC.without sys.entry c).sharers d = true) :
          (sys.child d).state ≠ .I := by
        have valid := (rest.exact d).mp sharer
        by_cases here : d = c
        · rw [here, Function.update_self] at valid
          exact absurd rfl valid
        · rwa [Function.update_of_ne here] at valid
      obtain ⟨told, sent, children, dirty⟩ :=
        sendInvalidates_run rest.bounded rest.count (.inl ⟨rfl, sharers⟩)
      have notExcl : (sys.child c).state.isExclusive = false := by
        rcases asks with isI | isS
        · rw [isI]; rfl
        · rw [isS]; rfl
      have ownExcl : sys.own.isExclusive = true := by rw [isM]; rfl
      obtain ⟨e, run, entry'⟩ := MESITopCC.processAccess_getx entry notExcl bound ownExcl flags
        (sys.child c).state sent
      have demoted : Function.update (fun _ => MESIState.I) c .M =
          Function.update (fun d => (told.1 d).state) c .M := by
        funext d
        by_cases here : d = c
        · rw [here, Function.update_self, Function.update_self]
        · rw [Function.update_of_ne here, Function.update_of_ne here, children d]
          by_cases sharer : (MESITopCC.without sys.entry c).sharers d = true
          · rw [if_pos sharer]
            rfl
          · rw [if_neg sharer]
            by_contra valid
            refine sharer ((rest.exact d).mpr ?_)
            rw [Function.update_of_ne here]
            exact Ne.symm valid
      rw [demoted] at entry'
      refine complete_of_processAccess run entry' rfl (fun _ => ownExcl) fun d _ => ?_
      rw [children d]
      split
      · exact ⟨.INV, rfl⟩
      · exact ⟨.FWD, rfl⟩

end

/-! ## The steps -/

theorem access_cases (type : AccessType) (state : MESIState) (valid : type = .PUTS → state ≠ .I)
    (excl : type = .PUTX → state.isExclusive = true) :
    (∃ next, MESIBottomCC.access type state = some (next, none) ∧ Ready type next ∧
        (next = state ∨ state.isExclusive = true ∧ next = .M)) ∨
      MESIBottomCC.access type state = some (state, some type) ∧ ¬ IsPut type ∧ Asks type state := by
  have notPut {type : AccessType} (isGet : type = .GETS ∨ type = .GETX) : ¬ IsPut type := by
    rcases isGet with rfl | rfl <;> rintro (wrong | wrong) <;> cases wrong
  cases type with
  | PUTS => exact .inl ⟨state, if_pos (valid rfl), valid rfl, .inl rfl⟩
  | PUTX => exact .inl ⟨.M, if_pos (excl rfl), rfl, .inr ⟨excl rfl, rfl⟩⟩
  | GETS =>
      by_cases invalid : state = .I
      · exact .inr ⟨if_pos invalid, notPut (.inl rfl), invalid⟩
      · exact .inl ⟨state, if_neg invalid, invalid, .inl rfl⟩
  | GETX =>
      cases state with
      | I => exact .inr ⟨rfl, notPut (.inr rfl), .inl rfl⟩
      | S => exact .inr ⟨rfl, notPut (.inr rfl), .inr rfl⟩
      | E => exact .inl ⟨.M, rfl, rfl, .inr ⟨rfl, rfl⟩⟩
      | M => exact .inl ⟨.M, rfl, rfl, .inl rfl⟩

theorem evict_cases (state : MESIState) (wb : Bool) (excl : wb = true → state.isExclusive = true) :
    ∃ next asks, MESIBottomCC.evict state wb = some (next, asks) ∧
      (next = state ∨ state.isExclusive = true ∧ next = .M) ∧
      ∀ type, asks = some type → IsPut type ∧ Asks type next := by
  cases wb with
  | true =>
      refine ⟨.M, some .PUTX, ?_, .inr ⟨excl rfl, rfl⟩, fun type same => ?_⟩
      · unfold MESIBottomCC.evict
        rw [excl rfl]
        rfl
      · cases same
        exact ⟨.inr rfl, rfl⟩
  | false =>
      cases state with
      | I => exact ⟨.I, none, rfl, .inl rfl, fun _ none => by cases none⟩
      | S => exact ⟨.S, some .PUTS, rfl, .inl rfl, fun _ same => by cases same; exact ⟨.inl rfl, .inl rfl⟩⟩
      | E => exact ⟨.E, some .PUTS, rfl, .inl rfl, fun _ same => by cases same; exact ⟨.inl rfl, .inr rfl⟩⟩
      | M => exact ⟨.M, some .PUTX, rfl, .inl rfl, fun _ same => by cases same; exact ⟨.inr rfl, rfl⟩⟩

section
variable {kids c : Nat} {sys next : State}

theorem Inv.setChild (inv : Inv kids sys) (bound : c < kids) (free : (sys.child c).pending = none)
    {state : MESIState} {pending : Option Pending}
    (modified : state = (sys.child c).state ∨ (sys.child c).state.isExclusive = true ∧ state = .M)
    (waits : ∀ r, pending = some r → Waits r.type r.initialState state ∧
      (IsPut r.type → r.flags.putxKeepExcl = false)) :
    Inv kids (sys.setChild c ⟨state, pending⟩) := by
  have valid : state = .I ↔ (sys.child c).state = .I := by
    rcases modified with rfl | ⟨excl, rfl⟩
    · exact Iff.rfl
    · exact iff_of_false (by decide) (MESIState.ne_I_of_isExclusive excl)
  have exclusive : state.isExclusive = (sys.child c).state.isExclusive := by
    rcases modified with rfl | ⟨excl, rfl⟩
    · rfl
    · exact excl.symm
  have states (d : Nat) : ((sys.setChild c ⟨state, pending⟩).child d).state =
      Function.update (fun d => (sys.child d).state) c state d :=
    congrFun (states_update sys.child c ⟨state, pending⟩) d
  refine ⟨?_, fun d r isPending => ?_, fun d type flags initialState up => ?_,
    fun type initialState up => ?_⟩
  · refine inv.entry.congr Iff.rfl rfl (fun d => ?_) fun d => ?_
    · rw [states]
      by_cases here : d = c
      · rw [here, Function.update_self]
        exact valid
      · rw [Function.update_of_ne here]
    · rw [states]
      by_cases here : d = c
      · rw [here, Function.update_self]
        exact exclusive
      · rw [Function.update_of_ne here]
  · unfold State.setChild at isPending ⊢
    dsimp only at isPending ⊢
    by_cases here : d = c
    · subst here
      rw [Function.update_self] at isPending ⊢
      exact ⟨bound, waits r isPending⟩
    · rw [Function.update_of_ne here] at isPending ⊢
      exact inv.waits d r isPending
  · obtain ⟨isGet, waitsUp, r, isPending, same⟩ := inv.get d type flags initialState up
    refine ⟨isGet, waitsUp, r, ?_, same⟩
    have other : d ≠ c := by
      rintro rfl
      rw [free] at isPending
      cases isPending
    exact (congrArg Child.pending (Function.update_of_ne other ..)).trans isPending
  · obtain ⟨isPut, waitsUp, alone⟩ := inv.put type initialState up
    refine ⟨isPut, waitsUp, fun d => ?_⟩
    rw [states]
    by_cases here : d = c
    · rw [here, Function.update_self]
      exact valid.mpr (alone c)
    · rw [Function.update_of_ne here]
      exact alone d

theorem Inv.accessChild (inv : Inv kids sys) (bound : c < kids) (free : (sys.child c).pending = none)
    {type : AccessType} (valid : type = .PUTS → (sys.child c).state ≠ .I)
    (excl : type = .PUTX → (sys.child c).state.isExclusive = true) (flags : Flags) :
    ∃ next, Races.accessChild c type flags sys = some next ∧ Inv kids next := by
  unfold Races.accessChild
  rcases access_cases type (sys.child c).state valid excl with
    ⟨state, access, -, modified⟩ | ⟨access, isGet, asks⟩
  · rw [access]
    exact ⟨_, rfl, inv.setChild bound free modified fun _ none => by cases none⟩
  · rw [access]
    refine ⟨_, rfl, inv.setChild bound free (.inl rfl) fun r isPending => ?_⟩
    cases Option.some.inj isPending
    exact ⟨Waits.start asks, fun put => absurd put isGet⟩

theorem Inv.evictChild (inv : Inv kids sys) (bound : c < kids) (free : (sys.child c).pending = none)
    {wb : Bool} (excl : wb = true → (sys.child c).state.isExclusive = true) :
    ∃ next, Races.evictChild c wb sys = some next ∧ Inv kids next := by
  obtain ⟨state, asks, run, modified, suits⟩ := evict_cases (sys.child c).state wb excl
  unfold Races.evictChild
  rw [run]
  refine ⟨_, rfl, inv.setChild bound free modified fun r isPending => ?_⟩
  obtain ⟨type, isAsked, rfl⟩ := Option.map_eq_some_iff.mp isPending
  exact ⟨Waits.start (suits type isAsked).2, fun _ => rfl⟩

theorem Inv.of_completed {type : AccessType} (inv : Inv kids sys) {mid : State}
    (completed : Completed kids c type mid next) (sameChild : mid.child = sys.child)
    (free : mid.upstream = none) : Inv kids next := by
  have upstream : next.upstream = none := completed.upstream.trans free
  refine ⟨completed.entry, fun d r isPending => ?_, fun _ _ _ _ up => ?_, fun _ _ up => ?_⟩
  · by_cases here : d = c
    · rw [here, completed.pending] at isPending
      cases isPending
    · obtain ⟨inval, same⟩ := completed.others d here
      rw [same, sameChild] at isPending ⊢
      obtain ⟨bound, waits, noKeep⟩ := inv.waits d r isPending
      exact ⟨bound, waits.demote inval, noKeep⟩
  · rw [upstream] at up
    cases up
  · rw [upstream] at up
    cases up

/-- Where `serve` may leave the request of child `c`. -/
theorem Inv.serve (inv : Inv kids sys) {r : Pending} (free : sys.upstream = none)
    (isPending : (sys.child c).pending = some r) :
    ∃ next, Races.serve kids c sys = some next ∧ Inv kids next ∧
      (IsPut r.type ∧ (sys.child c).state = .I ∧ next = sys.setChild c ⟨.I, none⟩ ∨
        (∃ type own, (¬ IsPut r.type → type = r.type) ∧ Completed kids c type { sys with own := own } next) ∨
        ¬ IsPut r.type ∧ next = { sys with upstream := some (.get c r.type r.flags sys.own) }) := by
  obtain ⟨bound, waits, noKeep⟩ := inv.waits c r isPending
  unfold Races.serve
  rw [isPending]
  dsimp only [Option.bind_eq_bind]
  rcases waits.resolve with ⟨type, race, asks, isPut, isGet⟩ | ⟨race, isPut, gone⟩
  · rw [race]
    dsimp only [Option.bind_some]
    have put : IsPut type → IsPut r.type := fun put => by
      by_contra get
      rw [isGet get] at put
      exact get put
    have valid (isPut : IsPut type) : sys.own ≠ .I := by
      refine inv.entry.inclusive c fun invalid => ?_
      rw [invalid] at asks
      rcases isPut with rfl | rfl
      · rcases asks with wrong | wrong <;> cases wrong
      · cases asks
    have excl (isPutx : type = .PUTX) : sys.own.isExclusive = true := by
      subst isPutx
      refine inv.entry.ownExclusive c ?_
      rw [show (sys.child c).state = .M from asks]
      rfl
    rw [if_neg Bool.false_ne_true, if_neg fun lost => valid lost.1 lost.2]
    rcases access_cases type sys.own (fun isPuts => valid (.inl isPuts)) excl with
      ⟨own, access, ready, modified⟩ | ⟨access, get, asksUp⟩
    · rw [access]
      dsimp only [Option.bind_some]
      have entry : EntryInv kids own sys.entry fun d => (sys.child d).state := by
        rcases modified with rfl | ⟨ownExcl, rfl⟩
        · exact inv.entry
        · exact inv.entry.mono_own (fun _ => by decide) fun _ => rfl
      obtain ⟨next, run, completed⟩ := complete_spec { sys with own := own } entry bound asks
        ready fun isPut => noKeep (put isPut)
      exact ⟨next, run, inv.of_completed completed rfl free, .inr (.inl ⟨type, own, isGet, completed⟩)⟩
    · have isGetR : ¬ IsPut r.type := fun put => get (isPut put)
      obtain rfl : type = r.type := isGet isGetR
      rw [access]
      refine ⟨_, rfl, ⟨inv.entry, inv.waits, fun d type flags initialState up => ?_,
        fun type initialState up => by cases up⟩, .inr (.inr ⟨isGetR, rfl⟩)⟩
      cases up
      exact ⟨get, Waits.start asksUp, r, isPending, rfl, rfl⟩
  · rw [race]
    dsimp only [Option.bind_some]
    have done : childDone r.type (sys.child c).state = true := by
      rw [gone]
      rcases isPut with same | same <;> rw [same] <;> rfl
    rw [if_pos rfl, if_pos done]
    have skipped : Inv kids (sys.setChild c ⟨.I, none⟩) := by
      have states : (fun d => ((sys.setChild c ⟨.I, none⟩).child d).state) =
          fun d => (sys.child d).state := by
        refine (states_update sys.child c ⟨.I, none⟩).trans ?_
        rw [← gone]
        exact Function.update_eq_self c _
      refine ⟨states ▸ inv.entry, fun d r' isPending' => ?_, fun _ _ _ _ up => ?_, fun _ _ up => ?_⟩
      · unfold State.setChild at isPending' ⊢
        dsimp only at isPending' ⊢
        by_cases here : d = c
        · subst here
          rw [Function.update_self] at isPending'
          cases isPending'
        · rw [Function.update_of_ne here] at isPending' ⊢
          exact inv.waits d r' isPending'
      · cases (free.symm.trans up)
      · cases (free.symm.trans up)
    rw [gone]
    exact ⟨_, rfl, skipped, .inl ⟨isPut, rfl, rfl⟩⟩

theorem Inv.grant_get (inv : Inv kids sys) {type : AccessType} {flags : Flags} {initialState given : MESIState}
    (up : sys.upstream = some (.get c type flags initialState)) (grants : Grants type given) :
    ∃ next, Races.grant kids given sys = some next ∧ Inv kids next ∧ (next.child c).pending = none ∧
      Grants type (next.child c).state := by
  obtain ⟨isGet, waitsUp, r, isPending, rfl, rfl⟩ := inv.get c type flags initialState up
  obtain ⟨bound, waits, noKeep⟩ := inv.waits c r isPending
  unfold Races.grant
  rw [up]
  dsimp only [Option.bind_eq_bind]
  rcases waitsUp.resolve with ⟨type', race, asksUp, -, same⟩ | ⟨-, isPut, -⟩
  · rw [race]
    dsimp only [Option.bind_some]
    have done : MESIBottomCC.accessDone r.type true given = true := by
      have := childDone_of_grants grants
      cases isType : r.type with
      | GETS => rwa [isType] at this
      | GETX => rwa [isType] at this
      | PUTS => rfl
      | PUTX => rfl
    rw [if_neg Bool.false_ne_true, if_pos done]
    have entry : EntryInv kids given sys.entry fun d => (sys.child d).state :=
      entryInv_granted inv.entry (same isGet ▸ asksUp) grants fun isPut => absurd isPut isGet
    have ready : Ready r.type given := by
      cases isType : r.type with
      | GETX => rwa [isType] at grants
      | PUTS => exact absurd (.inl isType) isGet
      | PUTX => exact absurd (.inr isType) isGet
      | GETS =>
          rw [isType] at grants
          intro invalid
          rw [invalid] at grants
          rcases grants with wrong | wrong <;> cases wrong
    obtain ⟨next, run, completed⟩ := complete_spec { sys with own := given, upstream := none }
      entry bound (waits.asks_of_get isGet) ready noKeep
    exact ⟨next, run, inv.of_completed completed rfl rfl, completed.pending, completed.grants⟩
  · exact absurd isPut isGet

theorem Inv.grant_put (inv : Inv kids sys) {type : AccessType} {initialState : MESIState}
    (up : sys.upstream = some (.put type initialState)) :
    ∃ next, Races.grant kids .I sys = some next ∧ Inv kids next := by
  obtain ⟨isPut, waitsUp, alone⟩ := inv.put type initialState up
  obtain ⟨skip, race, gone⟩ : ∃ skip, (∃ type', checkForMESIRace type sys.own initialState =
      some (type', skip)) ∧ (if skip = true then sys.own else .I) = .I := by
    rcases waitsUp.resolve with ⟨type', race, -, -, -⟩ | ⟨race, -, invalid⟩
    · exact ⟨false, ⟨type', race⟩, rfl⟩
    · exact ⟨true, ⟨type, race⟩, invalid⟩
  obtain ⟨type', race⟩ := race
  have entry : EntryInv kids .I sys.entry fun d => (sys.child d).state :=
    EntryInv.of_empty kids .I (inv.entry.empty_of_invalid alone) alone
  refine ⟨{ sys with own := .I, upstream := none }, ?_, entry, inv.waits,
    (fun _ _ _ _ up => by cases up), fun _ _ up => by cases up⟩
  unfold Races.grant
  rw [up]
  dsimp only [Option.bind_eq_bind]
  rw [race]
  dsimp only [Option.bind_some]
  rw [gone, if_pos rfl]

theorem Inv.invalidate (inv : Inv kids sys) {type : InvType} (suits : Suits type sys.own) :
    ∃ next, Races.invalidate kids type sys = some next ∧ Inv kids next := by
  have entry := inv.entry
  have known : type = .INV ∧ (∀ d, sys.entry.sharers d = true → (sys.child d).state ≠ .I) ∨
      type = .INVX ∧ ∀ d, sys.entry.sharers d = true →
        (sys.child d).state ≠ .I ∧ (sys.child d).state.isExclusive = sys.entry.isExclusive := by
    rcases suits with ⟨isInv, -⟩ | ⟨isInvx, -⟩
    · exact .inl ⟨isInv, fun d sharer => (entry.exact d).mp sharer⟩
    · exact .inr ⟨isInvx, fun d sharer => ⟨(entry.exact d).mp sharer, entry.isExclusive_eq sharer⟩⟩
  obtain ⟨told, sent, children, -⟩ := sendInvalidates_run entry.bounded entry.count known
  have top : MESITopCC.processInval kids invalidateChild type sys.entry (sys.child, false) =
      some (sys.entry.demote type, told) := by
    rcases suits with ⟨isInv, -⟩ | ⟨isInvx, -⟩
    · rw [isInv] at sent ⊢
      exact sent
    · rw [isInvx] at sent ⊢
      exact sent
  have demoted (d : Nat) : told.1 d = { sys.child d with state := (sys.child d).state.demote type } := by
    rw [children d]
    by_cases sharer : sys.entry.sharers d = true
    · rw [if_pos sharer]
    · have invalid : (sys.child d).state = .I := by
        by_contra valid
        exact sharer ((entry.exact d).mpr valid)
      rw [if_neg sharer, invalid, MESIState.demote_I, ← invalid]
  refine ⟨{ sys with own := sys.own.demote type, entry := sys.entry.demote type, child := told.1 }, ?_,
    ?_, fun d r isPending => ?_, fun d up flags initialState isUp => ?_, fun up initialState isUp => ?_⟩
  · unfold Races.invalidate
    rw [top]
    dsimp only [Option.bind_eq_bind, Option.bind_some]
    rw [suits.processInval]
    rfl
  · dsimp only
    rw [show (fun d => (told.1 d).state) = fun d => (sys.child d).state.demote type from
      funext fun d => by rw [demoted d]]
    exact entry.demote type
  · dsimp only at isPending ⊢
    rw [demoted d] at isPending ⊢
    obtain ⟨bound, waits, noKeep⟩ := inv.waits d r isPending
    exact ⟨bound, waits.demote type, noKeep⟩
  · obtain ⟨isGet, waitsUp, r, isPending, same⟩ := inv.get d up flags initialState isUp
    refine ⟨isGet, waitsUp.demote type, r, ?_, same⟩
    dsimp only
    rw [demoted d]
    exact isPending
  · obtain ⟨isPut, waitsUp, alone⟩ := inv.put up initialState isUp
    refine ⟨isPut, waitsUp.demote type, fun d => ?_⟩
    dsimp only
    rw [demoted d]
    dsimp only
    rw [alone d, MESIState.demote_I]

theorem Inv.evict (inv : Inv kids sys) :
    ∃ next, Races.evict kids sys = some next ∧ Inv kids next := by
  have entry := inv.entry
  obtain ⟨told, sent, children, dirty⟩ := sendInvalidates_run entry.bounded entry.count
    (.inl ⟨rfl, fun d sharer => (entry.exact d).mp sharer⟩)
  have demoted (d : Nat) : told.1 d = { sys.child d with state := .I } := by
    rw [children d]
    by_cases sharer : sys.entry.sharers d = true
    · rw [if_pos sharer]
      rfl
    · have invalid : (sys.child d).state = .I := by
        by_contra valid
        exact sharer ((entry.exact d).mpr valid)
      rw [if_neg sharer, ← invalid]
  obtain ⟨own, asks, evict, -, suits⟩ := evict_cases sys.own told.2 fun raised => by
    obtain ⟨d, -, isM⟩ := dirty raised
    exact entry.ownExclusive d (by rw [isM]; rfl)
  refine ⟨{ sys with
    own := own, entry := sys.entry.demote .INV, child := told.1,
    upstream := asks.map fun type => .put type own }, ?_, ?_, fun d r isPending => ?_,
    fun d up flags initialState isUp => ?_, fun up initialState isUp => ?_⟩
  · unfold Races.evict MESITopCC.processEviction
    rw [sent]
    dsimp only [Option.bind_eq_bind, Option.bind_some]
    rw [evict]
    rfl
  · exact EntryInv.of_empty kids own ⟨rfl, fun _ => rfl⟩ fun d => congrArg Child.state (demoted d)
  · dsimp only at isPending ⊢
    rw [demoted d] at isPending ⊢
    obtain ⟨bound, waits, noKeep⟩ := inv.waits d r isPending
    exact ⟨bound, waits.demote .INV, noKeep⟩
  · obtain ⟨type, -, wrong⟩ := Option.map_eq_some_iff.mp isUp
    cases wrong
  · obtain ⟨type, isAsked, same⟩ := Option.map_eq_some_iff.mp isUp
    cases same
    exact ⟨(suits up isAsked).1, Waits.start (suits up isAsked).2,
      fun d => congrArg Child.state (demoted d)⟩

theorem preserves_inv (kids : Nat) : (machine kids).Preserves (Inv kids) := by
  intro sys op inv legal
  cases op with
  | accessChild c type flags =>
      obtain ⟨bound, free, valid, excl, -⟩ := legal
      exact inv.accessChild bound free valid excl flags
  | evictChild c wb =>
      obtain ⟨bound, free, excl⟩ := legal
      exact inv.evictChild bound free excl
  | serve c =>
      obtain ⟨free, waiting⟩ := legal
      obtain ⟨r, isPending⟩ := Option.ne_none_iff_exists'.mp waiting
      obtain ⟨next, run, invNext, -⟩ := inv.serve free isPending
      exact ⟨next, run, invNext⟩
  | grant given =>
      obtain ⟨up, isUp, grants⟩ := legal
      cases up with
      | get c type flags initialState =>
          obtain ⟨next, run, invNext, -⟩ := inv.grant_get isUp grants
          exact ⟨next, run, invNext⟩
      | put type initialState =>
          cases (show given = .I from grants)
          exact inv.grant_put isUp
  | invalidate type => exact inv.invalidate legal
  | evict => exact inv.evict

/-- How the races of a state are resolved. -/
structure Resolved (kids : Nat) (sys : State) : Prop where
  /-- the entry agrees with the states of all children, also of those with a request out -/
  directory : EntryInv kids sys.own sys.entry fun c => (sys.child c).state
  /-- a PUT whose line was invalidated is skipped and leaves the directory alone -/
  skipped : ∀ c r, sys.upstream = none → (sys.child c).pending = some r → IsPut r.type →
    (sys.child c).state = .I → serve kids c sys = some (sys.setChild c ⟨.I, none⟩)
  /-- a PUTX whose child was downgraded is served as a PUTS -/
  downgraded : ∀ c r, sys.upstream = none → (sys.child c).pending = some r → r.type = .PUTX →
    (sys.child c).state = .S →
    serve kids c sys = serve kids c (sys.setChild c ⟨.S, some ⟨.PUTS, .S, r.flags⟩⟩)
  /-- a GETX whose S copy was invalidated is served as a miss: the child is no sharer, and has
  M in the end, or the parent asks for M on its behalf -/
  missed : ∀ c r, sys.upstream = none → (sys.child c).pending = some r → r.type = .GETX →
    (sys.child c).state = .I → sys.entry.sharers c = false ∧
      ∃ next, serve kids c sys = some next ∧ (next.child c = ⟨.M, none⟩ ∨
        next = { sys with upstream := some (.get c .GETX r.flags sys.own) })
  /-- when the parent has what it asked for, the child has too -/
  granted : ∀ c type flags initialState given,
    sys.upstream = some (.get c type flags initialState) → Grants type given →
    ∃ next, grant kids given sys = some next ∧ (next.child c).pending = none ∧
      Grants type (next.child c).state

theorem Inv.downgraded (inv : Inv kids sys) {r : Pending} (isPending : (sys.child c).pending = some r)
    (isPutx : r.type = .PUTX) (isS : (sys.child c).state = .S) :
    Races.serve kids c sys = Races.serve kids c (sys.setChild c ⟨.S, some ⟨.PUTS, .S, r.flags⟩⟩) := by
  obtain ⟨-, waits, noKeep⟩ := inv.waits c r isPending
  have wasM : r.initialState = .M := by
    rw [isPutx] at waits
    exact waits.1
  have valid : (sys.child c).state ≠ .I := by rw [isS]; decide
  have ownValid := inv.entry.inclusive c valid
  have race : checkForMESIRace r.type (sys.child c).state r.initialState = some (.PUTS, false) := by
    rw [isPutx, isS, wasM]
    rfl
  have atC : (sys.setChild c ⟨.S, some ⟨.PUTS, .S, r.flags⟩⟩).child c =
      ⟨.S, some ⟨.PUTS, .S, r.flags⟩⟩ := Function.update_self ..
  have access : MESIBottomCC.access .PUTS sys.own = some (sys.own, none) := if_pos ownValid
  have noKeep' : r.flags.putxKeepExcl = false := noKeep (.inr isPutx)
  unfold Races.serve
  rw [isPending, atC]
  dsimp only [Option.bind_eq_bind]
  rw [race]
  change (if (AccessType.PUTS = .PUTS ∨ AccessType.PUTS = .PUTX) ∧ sys.own = .I then none else _) =
    if (AccessType.PUTS = .PUTS ∨ AccessType.PUTS = .PUTX) ∧ sys.own = .I then none else _
  rw [if_neg fun lost => ownValid lost.2, if_neg fun lost => ownValid lost.2]
  change (MESIBottomCC.access .PUTS sys.own).bind _ = (MESIBottomCC.access .PUTS sys.own).bind _
  rw [access]
  dsimp only [Option.bind_some]
  have put (childState : MESIState) (s : (Nat → Child) × Bool) :=
    (MESITopCC.processAccess_put invalidateChild inv.entry valid (.inl rfl) noKeep' sys.own.isExclusive
      childState s).1
  unfold complete
  dsimp only [Option.bind_eq_bind, State.setChild]
  rw [put, put]
  dsimp only [Option.bind_some]
  rw [if_neg Bool.false_ne_true]
  have done : childDone .PUTS .I = true := rfl
  rw [if_pos done, if_pos done, Function.update_idem, if_neg Bool.false_ne_true]

theorem Inv.resolved (inv : Inv kids sys) : Resolved kids sys where
  directory := inv.entry
  skipped c r free isPending isPut gone := by
    obtain ⟨next, run, -, outcome⟩ := inv.serve free isPending
    obtain ⟨-, waits, -⟩ := inv.waits c r isPending
    rw [gone] at waits
    have race : checkForMESIRace r.type .I r.initialState = some (r.type, true) := by
      rcases waits.resolve with ⟨type', -, asks, put, -⟩ | ⟨race, -, -⟩
      · rcases put isPut with rfl | rfl
        · rcases asks with wrong | wrong <;> cases wrong
        · cases asks
      · exact race
    have done : childDone r.type .I = true := by
      rcases isPut with same | same <;> rw [same] <;> rfl
    unfold Races.serve
    rw [isPending]
    dsimp only [Option.bind_eq_bind]
    rw [gone, race]
    dsimp only [Option.bind_some]
    rw [if_pos rfl, if_pos done]
  downgraded c r _ isPending isPutx isS := inv.downgraded isPending isPutx isS
  missed c r free isPending isGetx gone := by
    obtain ⟨next, run, -, outcome⟩ := inv.serve free isPending
    have notPut : ¬ IsPut r.type := by
      rw [isGetx]
      rintro (wrong | wrong) <;> cases wrong
    refine ⟨inv.entry.sharers_eq_false gone, next, run, ?_⟩
    rcases outcome with ⟨put, -⟩ | ⟨type, own, same, completed⟩ | ⟨-, waiting⟩
    · exact absurd put notPut
    · left
      have grants := completed.grants
      rw [same notPut, isGetx] at grants
      have pending := completed.pending
      cases child : next.child c with
      | mk state pending' =>
          rw [child] at grants pending
          have isM : state = .M := grants
          have isNone : pending' = none := pending
          rw [isM, isNone]
    · rw [isGetx] at waiting
      exact .inr waiting
  granted c type flags initialState given up grants := by
    obtain ⟨next, run, -, served⟩ := inv.grant_get up grants
    exact ⟨next, run, served⟩

end

/-- In every order in which requests are sent and served, invalidations come in and lines are
evicted, no assertion fails and the races are resolved. -/
theorem races_resolved (kids : Nat) (ops : List Op) (legal : (machine kids).LegalRun ops init) :
    ∃ sys, (machine kids).exec ops init = some sys ∧ Resolved kids sys := by
  obtain ⟨sys, run, inv⟩ := (preserves_inv kids).exec (inv_init kids) legal
  exact ⟨sys, run, inv.resolved⟩

instance (type : AccessType) (state : MESIState) : Decidable (Grants type state) :=
  match type with
  | .GETS => inferInstanceAs (Decidable (state = .S ∨ state = .E))
  | .GETX => inferInstanceAs (Decidable (state = .M))
  | .PUTS => inferInstanceAs (Decidable (state = .I))
  | .PUTX => inferInstanceAs (Decidable (state = .I))

instance (type : InvType) (state : MESIState) : Decidable (Suits type state) :=
  inferInstanceAs (Decidable (type = .INV ∧ state ≠ .I ∨ type = .INVX ∧ state.isExclusive = true))

instance (kids : Nat) (sys : State) : (op : Op) → Decidable ((machine kids).legal sys op)
  | .accessChild c type flags => inferInstanceAs (Decidable (c < kids ∧ (sys.child c).pending = none ∧
      (type = .PUTS → (sys.child c).state ≠ .I) ∧
      (type = .PUTX → (sys.child c).state.isExclusive = true) ∧ flags.prefetch = false))
  | .evictChild c wb => inferInstanceAs (Decidable (c < kids ∧ (sys.child c).pending = none ∧
      (wb = true → (sys.child c).state.isExclusive = true)))
  | .serve c => inferInstanceAs (Decidable (sys.upstream = none ∧ (sys.child c).pending ≠ none))
  | .grant given =>
    match up : sys.upstream with
    | none => .isFalse fun ⟨_, same, _⟩ => by cases up.symm.trans same
    | some (.get c type flags initialState) => decidable_of_iff (Grants type given)
        ⟨fun grants => ⟨_, up, grants⟩, fun ⟨_, same, grants⟩ => by
          cases Option.some.inj (up.symm.trans same)
          exact grants⟩
    | some (.put type initialState) => decidable_of_iff (given = .I)
        ⟨fun grants => ⟨_, up, grants⟩, fun ⟨_, same, grants⟩ => by
          cases Option.some.inj (up.symm.trans same)
          exact grants⟩
  | .invalidate type => inferInstanceAs (Decidable (Suits type sys.own))
  | .evict => inferInstanceAs (Decidable (sys.upstream = none))

/-- Two sharers upgrade at once, the dirty line is downgraded and then taken away while its
PUTX waits, and the parent's own upgrade loses its copy. -/
theorem races_resolved_two :
    ∃ sys, (machine 2).exec [
        .accessChild 0 .GETS {}, .serve 0, .grant .E, .accessChild 1 .GETS {}, .serve 1,
        .accessChild 0 .GETX {}, .accessChild 1 .GETX {}, .serve 1, .serve 0, .evictChild 0 false,
        .invalidate .INVX, .serve 0, .accessChild 1 .GETS {}, .serve 1, .accessChild 1 .GETX {}, .serve 1,
        .invalidate .INV, .grant .M, .evictChild 1 false, .evict, .grant .I, .serve 1] init = some sys ∧
      Resolved 2 sys :=
  races_resolved 2 [
    .accessChild 0 .GETS {}, .serve 0, .grant .E, .accessChild 1 .GETS {}, .serve 1,
    .accessChild 0 .GETX {}, .accessChild 1 .GETX {}, .serve 1, .serve 0, .evictChild 0 false,
    .invalidate .INVX, .serve 0, .accessChild 1 .GETS {}, .serve 1, .accessChild 1 .GETX {}, .serve 1,
    .invalidate .INV, .grant .M, .evictChild 1 false, .evict, .grant .I, .serve 1] (by decide +kernel)

end Zsim.Coherence.Races
