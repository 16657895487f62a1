import Zsim.Trace.Lines

/-!
# Requests of the driver

A request that suits the state of the line in the child is served: no assertion fails, and the
directory stands for the stores once the driver has written the state that the child is given.
-/

set_option autoImplicit false

namespace Zsim.Trace

open Coherence

/-- The requests that the cache takes from a child with the line in some state. -/
def Allowed : AccessType → MESIState → Prop
  | .GETS, state => state = .I
  | .GETX, state => state.isExclusive = false
  | .PUTS, state => state ≠ .I
  | .PUTX, state => state.isExclusive = true

instance : ∀ (type : AccessType) (state : MESIState), Decidable (Allowed type state)
  | .GETS, state => inferInstanceAs (Decidable (state = .I))
  | .GETX, state => inferInstanceAs (Decidable (state.isExclusive = false))
  | .PUTS, state => inferInstanceAs (Decidable (state ≠ .I))
  | .PUTX, state => inferInstanceAs (Decidable (state.isExclusive = true))

namespace Replay

variable {d : Config} {s mid next : Replay d} {a : Address} {id c : Nat}

/-! ## The bottom controller -/

/-- The line can serve the request. -/
structure Fetched (a : Address) (id : Nat) (type : AccessType) (s next : Replay d) : Prop where
  inv : next.Inv
  found : next.find a = some id
  ready : Ready type (next.own a)
  held : next.stores.held a = s.stores.held a
  noI : ∀ b c, next.stores c b = some .I → s.stores c b = some .I
  sent : next.sent = s.sent

theorem Fetched.refl {type : AccessType} (inv : s.Inv) (found : s.find a = some id)
    (ready : Ready type (s.own a)) : Fetched a id type s s :=
  ⟨inv, found, ready, rfl, fun _ _ isI => isI, rfl⟩

theorem Fetched.modify {type : AccessType} (inv : s.Inv) (found : s.find a = some id)
    (writes : type = .GETX ∨ type = .PUTX) : Fetched a id type s (s.setMesi id .M) := by
  have foundNext : (s.setMesi id .M).find a = some id := found
  refine ⟨inv.setMesi_M found, foundNext, ?_, rfl, fun _ _ isI => isI, rfl⟩
  have isM : (s.setMesi id .M).own a = .M :=
    (own_of_find foundNext).trans (Function.update_self ..)
  rw [isM]
  rcases writes with rfl | rfl <;> rfl

theorem bottomAccess_spec (type : AccessType) (above : Above) (inv : s.Inv)
    (found : s.find a = some id) (valid : type = .PUTS → s.own a ≠ .I)
    (excl : type = .PUTX → (s.own a).isExclusive = true) :
    ∃ next, s.bottomAccess a id type above = some next ∧ Fetched a id type s next := by
  have own := own_of_find found
  -- without a request the state is as the controller leaves it
  have quiet (state : MESIState) (access : MESIBottomCC.access type (s.mesi id) = some (state, none))
      (done : MESIBottomCC.accessDone type false state = true) :
      s.bottomAccess a id type above = some (s.setMesi id state) := by
    unfold bottomAccess
    rw [access]
    dsimp only [Option.bind_eq_bind, Option.bind_some, request]
    have atId : (s.setMesi id state).mesi id = state := Function.update_self ..
    rw [atId]
    exact if_pos done
  have hit (access : MESIBottomCC.access type (s.mesi id) = some (s.mesi id, none))
      (done : MESIBottomCC.accessDone type false (s.mesi id) = true) (ready : Ready type (s.own a)) :
      ∃ next, s.bottomAccess a id type above = some next ∧ Fetched a id type s next := by
    refine ⟨s, ?_, Fetched.refl inv found ready⟩
    rw [quiet _ access done, setMesi_self]
  have remote (isGet : type = .GETS ∨ type = .GETX) (asks : Asks type (s.own a))
      (access : MESIBottomCC.access type (s.mesi id) = some (s.mesi id, some type)) :
      ∃ next, s.bottomAccess a id type above = some next ∧ Fetched a id type s next := by
    have notPut : ¬ IsPut type := by
      rcases isGet with rfl | rfl <;> rintro (wrong | wrong) <;> cases wrong
    obtain ⟨mid, run, beside, invNext⟩ :=
      request_spec above inv found asks fun put => absurd put notPut
    have foundNext : (mid.setMesi id (grant above.excl type)).find a = some id :=
      (beside.find a).trans found
    have given : (mid.setMesi id (grant above.excl type)).mesi id = grant above.excl type :=
      Function.update_self ..
    refine ⟨mid.setMesi id (grant above.excl type), ?_, invNext, foundNext, ?_, beside.held,
      beside.noI, beside.sent⟩
    · unfold bottomAccess
      rw [access]
      dsimp only [Option.bind_eq_bind, Option.bind_some]
      rw [setMesi_self, run]
      refine if_pos ?_
      rw [given]
      rcases isGet with rfl | rfl
      · cases allowed : above.excl <;> simp [grant, MESIBottomCC.accessDone]
      · rfl
    · rw [own_of_find foundNext, given]
      rcases isGet with rfl | rfl
      · cases allowed : above.excl <;> simp [grant, Ready]
      · rfl
  cases type with
  | PUTS =>
    have isValid := valid rfl
    refine hit ?_ rfl isValid
    exact if_pos (own ▸ isValid)
  | PUTX =>
    refine ⟨_, quiet .M ?_ rfl, Fetched.modify inv found (.inr rfl)⟩
    exact if_pos (own ▸ excl rfl)
  | GETS =>
    by_cases invalid : s.mesi id = .I
    · refine remote (.inl rfl) (own.trans invalid) ?_
      exact if_pos invalid
    · refine hit ?_ rfl (own ▸ invalid)
      exact if_neg invalid
  | GETX =>
    cases state : s.mesi id with
    | I => exact remote (.inr rfl) (.inl (own.trans state)) (by rw [state]; rfl)
    | S => exact remote (.inr rfl) (.inr (own.trans state)) (by rw [state]; rfl)
    | E => exact ⟨_, quiet .M (by rw [state]; rfl) rfl, Fetched.modify inv found (.inl rfl)⟩
    | M => exact ⟨_, quiet .M (by rw [state]; rfl) rfl, Fetched.modify inv found (.inl rfl)⟩

/-! ## The top controller -/

/-- A served request; the driver has yet to write the state it is given to its store. -/
structure Served (c : Nat) (a : Address) (type : AccessType) (given : MESIState) (s next : Replay d) :
    Prop where
  grants : Grants type given
  inv : ∀ value : Option MESIState, value.getD .I = given →
    (next.setStores (next.stores.write c a value)).Inv
  noI : ∀ b c, next.stores c b = some .I → s.stores c b = some .I

theorem finish (type : AccessType) {stores : Stores} {wb : Bool} {e : Entry} {given : MESIState}
    (inv : s.Inv) (found : s.find a = some id) (elsewhere : Elsewhere a s.stores stores)
    (grants : Grants type given)
    (entry : EntryInv d.numChildren (s.own a) e (Function.update (stores.held a) c given))
    (dirty : wb = true → (s.own a).isExclusive = true)
    (isMid : mid = (s.setStores stores).setDir id e) :
    ∃ next, (if wb = true then
        (MESIBottomCC.processWritebackOnAccess (mid.mesi id)).bind fun state =>
          some (given, mid.setMesi id state)
      else some (given, mid)) = some (given, next) ∧ Served c a type given s next ∧
        next.sent = s.sent := by
  have written (value : Option MESIState) (isGiven : value.getD .I = given) :
      (mid.setStores (mid.stores.write c a value)).Inv := by
    have same : mid.setStores (mid.stores.write c a value) =
        (s.setStores (stores.write c a value)).setDir id e := by
      rw [isMid]
      rfl
    have only : Only a s ((s.setStores (stores.write c a value)).setDir id e) :=
      Only.setDir found e fun b k other =>
        (Stores.write_of_ne stores c value other k).trans (elsewhere.others b k other)
    have foundNext := (only.find a).trans found
    rw [same]
    apply inv.of_only only
    rw [own_of_find foundNext, entry_of_find foundNext]
    have held : ((s.setStores (stores.write c a value)).setDir id e).stores.held a =
        Function.update (stores.held a) c given := by
      rw [← isGiven]
      exact Stores.held_write stores a c value
    have dirAt : ((s.setStores (stores.write c a value)).setDir id e).dir id = e :=
      Function.update_self ..
    rw [held, dirAt]
    rw [own_of_find found] at entry
    exact entry
  cases raised : wb with
  | false =>
    exact ⟨mid, if_neg Bool.false_ne_true, ⟨grants, written, by rw [isMid]; exact elsewhere.noI⟩,
      by rw [isMid]; rfl⟩
  | true =>
    have excl : (mid.mesi id).isExclusive = true := by
      rw [isMid]
      exact own_of_find found ▸ dirty raised
    refine ⟨mid.setMesi id .M, ?_, ⟨grants, fun value isGiven => ?_, ?_⟩, ?_⟩
    · rw [if_pos rfl]
      unfold MESIBottomCC.processWritebackOnAccess
      rw [if_pos excl]
      rfl
    · have foundMid : (mid.setStores (mid.stores.write c a value)).find a = some id := by
        rw [isMid]
        exact found
      exact (written value isGiven).setMesi_M foundMid
    · rw [isMid]
      exact elsewhere.noI
    · rw [isMid]
      rfl

section
variable {childState : MESIState}

theorem topAccess_put {type : AccessType} (inv : s.Inv) (found : s.find a = some id)
    (isPut : IsPut type) (allowed : Allowed type (s.stores.held a c)) :
    ∃ given next, s.topAccess ⟨a, c, type⟩ childState id = some (given, next) ∧
      Served c a type given s next ∧ next.sent = s.sent := by
  have entry := inv.coherent a
  rw [entry_of_find found] at entry
  have isPut' : type = .PUTS ∨ type = .PUTX ∧ (s.stores.held a c).isExclusive = true := by
    rcases isPut with rfl | rfl
    · exact .inl rfl
    · exact .inr ⟨rfl, allowed⟩
  have valid : s.stores.held a c ≠ .I := by
    rcases isPut with rfl | rfl
    · exact allowed
    · exact MESIState.ne_I_of_isExclusive allowed
  have noKeep : ({} : Flags).putxKeepExcl = false := rfl
  obtain ⟨run, entry'⟩ := MESITopCC.processAccess_put (Trace.invalidate d.numChildren a) entry valid
    isPut' noKeep (s.mesi id).isExclusive childState (s.stores, false)
  obtain ⟨next, finished, served, sent⟩ := finish type inv found
    (.refl a s.stores) (by rcases isPut with rfl | rfl <;> rfl) entry'
    (fun raised => absurd raised Bool.false_ne_true) rfl
  refine ⟨.I, next, ?_, served, sent⟩
  unfold topAccess
  rw [run]
  exact finished

theorem topAccess_gets (inv : s.Inv) (found : s.find a = some id) (bound : c < d.numChildren)
    (valid : s.own a ≠ .I) (absent : s.stores.held a c = .I) :
    ∃ given next, s.topAccess ⟨a, c, .GETS⟩ childState id = some (given, next) ∧
      Served c a .GETS given s next ∧ next.sent = s.sent := by
  have entry := inv.coherent a
  rw [entry_of_find found] at entry
  obtain ⟨⟨stores, wb⟩, sentInvs, told⟩ := sendInvalidates_run entry.bounded entry.count
    (.inr ⟨rfl, fun k sharer => ⟨(entry.exact k).mp sharer, entry.isExclusive_eq sharer⟩⟩)
  obtain ⟨e, given, run, grants, entry'⟩ :=
    MESITopCC.processAccess_gets entry absent bound valid {} childState sentInvs
  have children : (fun k => (s.stores.held a k).demote .INVX) = stores.held a := by
    funext k
    refine Eq.trans ?_ (told.held k).symm
    split
    · rfl
    next noSharer =>
      have invalid : s.stores.held a k = .I := by
        by_contra isValid
        exact noSharer ((entry.exact k).mpr isValid)
      rw [invalid, MESIState.demote_I]
  rw [children] at entry'
  obtain ⟨next, finished, served, sent⟩ := finish .GETS inv found told.elsewhere grants entry'
    (fun raised => by
      obtain ⟨k, -, isM⟩ := told.dirty raised
      exact entry.ownExclusive k (by rw [isM]; rfl)) rfl
  refine ⟨given, next, ?_, served, sent⟩
  unfold topAccess
  dsimp only
  rw [← own_of_find found, run]
  exact finished

theorem topAccess_getx (inv : s.Inv) (found : s.find a = some id) (bound : c < d.numChildren)
    (isM : s.own a = .M) (shared : (s.stores.held a c).isExclusive = false) :
    ∃ given next, s.topAccess ⟨a, c, .GETX⟩ childState id = some (given, next) ∧
      Served c a .GETX given s next ∧ next.sent = s.sent := by
  have entry := inv.coherent a
  rw [entry_of_find found] at entry
  have rest := MESITopCC.without_inv entry c
  have sharers (k : Nat) (sharer : (MESITopCC.without (s.dir id) c).sharers k = true) :
      k ≠ c ∧ s.stores.held a k ≠ .I := by
    have valid := (rest.exact k).mp sharer
    by_cases here : k = c
    · rw [here, Function.update_self] at valid
      exact absurd rfl valid
    · rw [Function.update_of_ne here] at valid
      exact ⟨here, valid⟩
  obtain ⟨⟨stores, wb⟩, sentInvs, told⟩ := sendInvalidates_run rest.bounded rest.count
    (.inl ⟨rfl, fun k sharer => (sharers k sharer).2⟩)
  obtain ⟨e, run, entry'⟩ := MESITopCC.processAccess_getx entry shared bound (by rw [isM]; rfl) {}
    childState sentInvs
  have children : Function.update (fun _ => MESIState.I) c .M = Function.update (stores.held a) c .M := by
    funext k
    by_cases here : k = c
    · rw [here, Function.update_self, Function.update_self]
    · rw [Function.update_of_ne here, Function.update_of_ne here]
      refine Eq.trans ?_ (told.held k).symm
      split
      · rfl
      next noSharer =>
        by_contra valid
        refine noSharer ((rest.exact k).mpr ?_)
        rw [Function.update_of_ne here]
        exact Ne.symm valid
  rw [children] at entry'
  obtain ⟨next, finished, served, sent⟩ := finish .GETX inv found told.elsewhere rfl entry'
    (fun _ => by rw [isM]; rfl) rfl
  refine ⟨.M, next, ?_, served, sent⟩
  unfold topAccess
  dsimp only
  rw [← own_of_find found, run]
  exact finished

theorem topAccess_spec {type : AccessType} (childState : MESIState) (inv : s.Inv) (found : s.find a = some id)
    (bound : c < d.numChildren) (ready : Ready type (s.own a))
    (allowed : Allowed type (s.stores.held a c)) :
    ∃ given next, s.topAccess ⟨a, c, type⟩ childState id = some (given, next) ∧
      Served c a type given s next ∧ next.sent = s.sent := by
  cases type with
  | GETS => exact topAccess_gets inv found bound ready allowed
  | GETX => exact topAccess_getx inv found bound ready allowed
  | PUTS => exact topAccess_put inv found (.inl rfl) allowed
  | PUTX => exact topAccess_put inv found (.inr rfl) allowed

/-! ## The whole access -/

theorem processAccess_spec {type : AccessType} (env : Env) (childState : MESIState) (inv : s.Inv)
    (found : s.find a = some id)
    (bound : c < d.numChildren) (allowed : Allowed type (s.stores.held a c)) :
    ∃ given next, s.processAccess env ⟨a, c, type⟩ childState id = some (given, next) ∧
      Served c a type given s next ∧ next.sent = s.sent := by
  have entry := inv.coherent a
  have valid (isPut : IsPut type) : s.own a ≠ .I := by
    apply entry.inclusive c
    rcases isPut with rfl | rfl
    · exact allowed
    · exact MESIState.ne_I_of_isExclusive allowed
  have excl (isPutx : type = .PUTX) : (s.own a).isExclusive = true := by
    subst isPutx
    exact entry.ownExclusive c allowed
  obtain ⟨mid, fetch, fetched⟩ := bottomAccess_spec type env.get inv found (fun h => valid (.inl h)) excl
  obtain ⟨given, next, run, served, sent⟩ := topAccess_spec childState fetched.inv
    fetched.found bound fetched.ready (fetched.held ▸ allowed)
  refine ⟨given, next, ?_, ⟨served.grants, served.inv, fun b k isI => ?_⟩, sent.trans fetched.sent⟩
  · unfold processAccess
    dsimp only
    rw [if_neg fun h => valid h.1 ((own_of_find found).trans h.2), fetch]
    exact run
  · exact fetched.noI b k (served.noI b k isI)

theorem access_spec {type : AccessType} (env : Env) (inv : s.Inv) (addressable : d.array.Addressable a)
    (bound : c < d.numChildren) (allowed : Allowed type (s.stores.held a c)) (childState : MESIState) :
    ∃ given next, s.access env ⟨a, c, type⟩ childState = some (given, next) ∧
      Served c a type given s next ∧ next.sent = (type, s.stores.held a c) :: s.sent := by
  obtain ⟨found, lookup⟩ := d.array.lookup_addressable inv.arrays addressable
  have noRace : checkForMESIRace type childState childState = some (type, false) := by
    simp [checkForMESIRace]
  have logged : (s.log type (s.stores.held a c)).Inv := ⟨inv.arrays, inv.live, inv.coherent⟩
  have lookup' : d.array.lookup (s.log type (s.stores.held a c)).array a = some found := lookup
  unfold access
  dsimp only
  rw [noRace]
  dsimp only [Option.bind_eq_bind, Option.bind_some]
  rw [if_neg Bool.false_ne_true, lookup']
  cases found with
  | some id =>
    obtain ⟨given, next, run, served, sent⟩ := processAccess_spec env childState logged
      (find_eq_some.mpr lookup') bound allowed
    exact ⟨given, next, run, ⟨served.grants, served.inv, served.noI⟩, sent⟩
  | none =>
    have own : s.own a = .I := by
      unfold own find
      rw [lookup]
      rfl
    have absent : s.stores.held a c = .I := by
      by_contra valid
      exact (inv.coherent a).inclusive c valid own
    have isGet : type = .GETS ∨ type = .GETX := by
      rw [absent] at allowed
      cases type with
      | GETS => exact .inl rfl
      | GETX => exact .inr rfl
      | PUTS => exact absurd rfl allowed
      | PUTX => cases allowed
    obtain ⟨id, mid, insert, inserted⟩ := insert_spec logged lookup' env
    have absentMid : mid.stores.held a c = .I := by
      by_contra valid
      exact (inserted.inv.coherent a).inclusive c valid inserted.own
    obtain ⟨given, next, run, served, sent⟩ := processAccess_spec env childState
      inserted.inv inserted.found bound (by rw [absentMid]; rwa [absent] at allowed)
    refine ⟨given, next, ?_, ⟨served.grants, served.inv, fun b k isI => ?_⟩, sent.trans inserted.sent⟩
    · rw [if_pos isGet, insert]
      exact run
    · exact inserted.noI b k (served.noI b k isI)

end

end Replay

end Zsim.Trace
