import Zsim.Coherence.Accesses

/-!
# A cache serves its children

With a parent that serves it, a cache serves its children; so, from memory down, every
cache of the tree does.
-/

set_option autoImplicit false

namespace Zsim.Coherence.Hierarchy

open Sys

variable {h : Hierarchy} {parent : MemReq → Sys h → Option (Sys h)} {n : Node} {sys : Sys h}
  {a : Address} {id : Nat}

/-! ## The bottom controller -/

/-- What the bottom controller of `n` leaves to the top controller. -/
structure Fetched (n : Node) (a : Address) (type : AccessType) (sys next : Sys h) : Prop where
  inv : next.Inv
  frame : Frame n a sys next
  kept : Kept sys next
  ready : Ready type ((next.line a).st n)
  only : IsPut type → Only a sys next

theorem Fetched.refl {type : AccessType} (inv : sys.Inv) (ready : Ready type ((sys.line a).st n)) :
    Fetched n a type sys sys :=
  ⟨inv, Frame.refl n a sys, Kept.refl sys, ready, fun _ => Only.refl a sys⟩

theorem Fetched.modify {type : AccessType} (inv : sys.Inv) (found : sys.find n a = some id)
    (excl : ((sys.line a).st n).isExclusive = true) (writes : type = .GETX ∨ type = .PUTX) :
    Fetched n a type sys (sys.setMesi n id .M) := by
  have only := Only.setMesi found .M
  have line := line_setMesi found .M
  have isM : ((sys.setMesi n id .M).line a).st n = .M := by
    rw [line, Line.setSt_st, Function.update_self]
  refine ⟨inv.of_only only ?_, Frame.setMesi found .M, ?_, ?_, fun _ => only⟩
  · rw [line]
    exact (inv.coherent a).modify excl
  · refine Kept.of_only inv.arrays only rfl fun m dirty => ⟨m, List.suffix_refl m, ?_⟩
    by_cases here : m = n
    · exact here ▸ isM
    · rw [line, Line.setSt_st, Function.update_of_ne here]
      exact dirty
  · rcases writes with rfl | rfl <;> exact isM

theorem Fetched.of_served {type : AccessType} {next : Sys h} (served : Served n a type sys next)
    (isGet : type = .GETS ∨ type = .GETX) : Fetched n a type sys next := by
  refine ⟨served.inv, served.frame, served.kept, ?_, served.only⟩
  have grants := served.grants
  rcases isGet with rfl | rfl
  · intro invalid
    rcases grants with isS | isE
    · rw [invalid] at isS
      cases isS
    · rw [invalid] at isE
      cases isE
  · exact grants

theorem bottomAccess_spec (type : AccessType) (flags : Flags) (serves : Serves n parent)
    (inv : sys.Inv) (found : sys.find n a = some id) (noPrefetch : flags.prefetch = false)
    (addressable : IsPut type ∨ h.Addressable a) (valid : type = .PUTS → (sys.line a).st n ≠ .I)
    (excl : type = .PUTX → ((sys.line a).st n).isExclusive = true) :
    ∃ next, bottomAccess parent n a id type flags sys = some next ∧ Fetched n a type sys next := by
  have st := line_st found
  -- without a request the state is as the controller leaves it
  have quiet (state : MESIState) (access : MESIBottomCC.access type (sys.mesi n id) = some (state, none))
      (done : MESIBottomCC.accessDone type false state = true) :
      bottomAccess parent n a id type flags sys = some (sys.setMesi n id state) := by
    unfold bottomAccess
    rw [access]
    dsimp only [Option.bind_eq_bind, Option.bind_some, request]
    rw [show (sys.setMesi n id state).mesi n id = state by simp [setMesi]]
    exact if_pos done
  have remote (isGet : type = .GETS ∨ type = .GETX) (asks : Asks type ((sys.line a).st n))
      (access : MESIBottomCC.access type (sys.mesi n id) = some (sys.mesi n id, some type)) :
      ∃ next, bottomAccess parent n a id type flags sys = some next ∧ Fetched n a type sys next := by
    have notPut : ¬ IsPut type := by
      rcases isGet with rfl | rfl <;> rintro (wrong | wrong) <;> cases wrong
    have sendable : Sendable n a id type flags sys :=
      ⟨found, asks, fun put => absurd put notPut, addressable, noPrefetch, fun put => absurd put notPut⟩
    obtain ⟨next, run, served⟩ := serves a id type flags sys inv sendable
    refine ⟨next, ?_, Fetched.of_served served isGet⟩
    have granted : (next.line a).st n = next.mesi n id := line_st ((served.frame.find a).trans found)
    unfold bottomAccess
    rw [access]
    dsimp only [Option.bind_eq_bind, Option.bind_some]
    rw [setMesi_self]
    change (parent (requestOf n a id type flags sys) sys).bind _ = _
    rw [run]
    refine if_pos ?_
    have grants := granted ▸ served.grants
    rcases isGet with rfl | rfl
    · rcases grants with isS | isE
      · rw [isS]; rfl
      · rw [isE]; rfl
    · rw [show next.mesi n id = .M from grants]
      rfl
  have hit (access : MESIBottomCC.access type (sys.mesi n id) = some (sys.mesi n id, none))
      (done : MESIBottomCC.accessDone type false (sys.mesi n id) = true)
      (ready : Ready type ((sys.line a).st n)) :
      ∃ next, bottomAccess parent n a id type flags sys = some next ∧ Fetched n a type sys next := by
    refine ⟨sys, ?_, Fetched.refl inv ready⟩
    rw [quiet _ access done, setMesi_self]
  cases type with
  | PUTS =>
      have isValid := valid rfl
      refine hit ?_ rfl isValid
      exact if_pos (st ▸ isValid)
  | PUTX =>
      have isExcl := excl rfl
      refine ⟨_, quiet .M ?_ rfl, Fetched.modify inv found isExcl (.inr rfl)⟩
      exact if_pos (st ▸ isExcl)
  | GETS =>
      by_cases invalid : sys.mesi n id = .I
      · refine remote (.inl rfl) (st.trans invalid) ?_
        exact if_pos invalid
      · refine hit ?_ rfl (st ▸ invalid)
        exact if_neg invalid
  | GETX =>
      cases state : sys.mesi n id with
      | I => exact remote (.inr rfl) (.inl (st.trans state)) (by rw [state]; rfl)
      | S => exact remote (.inr rfl) (.inr (st.trans state)) (by rw [state]; rfl)
      | E =>
          exact ⟨_, quiet .M (by rw [state]; rfl) rfl,
            Fetched.modify inv found (by rw [st, state]; rfl) (.inl rfl)⟩
      | M =>
          exact ⟨_, quiet .M (by rw [state]; rfl) rfl,
            Fetched.modify inv found (by rw [st, state]; rfl) (.inl rfl)⟩

/-! ## The top controller -/

section
variable {c childLine : Nat} {type : AccessType} {req : MemReq}

/-- The cells of a served request: the entry of `n` and the state of the child. -/
theorem line_served {told : Sys h} (foundN : told.find n a = some id)
    (foundC : told.find (c :: n) a = some childLine) (e : Entry) (given : MESIState) :
    ((told.setDir n id e).setMesi (c :: n) childLine given).line a =
      ((told.line a).setEnt n e).setSt (c :: n) given := by
  have foundDir : (told.setDir n id e).find (c :: n) a = some childLine := foundC
  rw [line_setMesi foundDir, line_setDir foundN]

theorem only_served {told : Sys h} (foundN : told.find n a = some id)
    (foundC : told.find (c :: n) a = some childLine) (e : Entry) (given : MESIState) :
    Only a told ((told.setDir n id e).setMesi (c :: n) childLine given) := by
  have foundDir : (told.setDir n id e).find (c :: n) a = some childLine := foundC
  exact (Only.setDir foundN e).trans (Only.setMesi foundDir given)

theorem topAccess_put (inv : sys.Inv) (found : sys.find n a = some id)
    (foundC : sys.find (c :: n) a = some childLine) (isPut : IsPut type)
    (ready : Ready type ((sys.line a).st n)) (asks : Asks type ((sys.line a).st (c :: n)))
    (alone : ∀ d, (sys.line a).st (d :: c :: n) = .I) {flags : Flags}
    (noKeep : flags.putxKeepExcl = false) (isAddr : req.lineAddr = a) (isChild : req.childId = c)
    (isState : req.state = some (c :: n, childLine)) :
    ∃ next, topAccess n req type id flags sys = some next ∧ Served (c :: n) a type sys next := by
  have entry := inv.coherent a n
  have isPut' : type = .PUTS ∨ type = .PUTX ∧ ((sys.line a).st (c :: n)).isExclusive = true := by
    rcases isPut with rfl | rfl
    · exact .inl rfl
    · exact .inr ⟨rfl, by rw [show (sys.line a).st (c :: n) = .M from asks]; rfl⟩
  have valid : (sys.line a).st (c :: n) ≠ .I := by
    intro invalid
    rw [invalid] at asks
    rcases isPut with rfl | rfl
    · rcases asks with wrong | wrong <;> cases wrong
    · cases asks
  obtain ⟨run, entry'⟩ := MESITopCC.processAccess_put (invalidateChild n a) entry valid
    isPut' noKeep (sys.mesi n id).isExclusive (sys.load req.state) (sys, false)
  have only := only_served found foundC (MESITopCC.without (sys.dir n id) c) .I
  have line := line_served found foundC (MESITopCC.without (sys.dir n id) c) .I
  refine ⟨_, ?_, inv.of_only only ?_, ?_, ?_, ?_, fun _ => only⟩
  · unfold topAccess
    rw [isAddr, isChild, ← line_ent found, run, isState]
    rfl
  · rw [line, ← line_ent found]
    refine Line.Coherent.serve (fun q _ => inv.coherent a q) entry' ?_
    exact entryInv_granted (inv.coherent a (c :: n)) asks
      (by rcases isPut with rfl | rfl <;> rfl) fun _ => alone
  · refine ⟨fun _ _ => rfl, fun m below other => ?_, fun m below => ?_⟩
    · rw [line, Line.setSt_st, Function.update_of_ne other, Line.setEnt_st]
    · have apart : m ≠ n := fun same => Node.not_child_suffix c n (same ▸ below)
      rw [line, Line.setSt_ent, Line.setEnt_ent, Function.update_of_ne apart]
  · rw [line, Line.setSt_st, Function.update_self]
    rcases isPut with rfl | rfl <;> rfl
  · refine Kept.of_only inv.arrays only rfl fun m dirty => ?_
    by_cases here : m = c :: n
    · subst here
      cases asks.putx_of_dirty dirty
      refine ⟨n, List.suffix_cons c n, ?_⟩
      rw [line, Line.setSt_st, Function.update_of_ne (List.cons_ne_self c n).symm, Line.setEnt_st]
      exact ready
    · refine ⟨m, List.suffix_refl m, ?_⟩
      rw [line, Line.setSt_st, Function.update_of_ne here, Line.setEnt_st]
      exact dirty

/-- The end of a GET: the sharers that lose the line or its exclusivity have been told, the
entry and the child's state are written, and a writeback is taken over. -/
theorem finish_get (inv : sys.Inv) (found : sys.find n a = some id)
    (foundC : sys.find (c :: n) a = some childLine) (asks : Asks type ((sys.line a).st (c :: n)))
    {sentType : InvType} {chosen : Nat → Prop} {told : Sys h × Bool} {e : Entry} {given : MESIState}
    (isTold : Invalidated a ((sys.line a).demoteKids sentType n chosen)
      (∃ d, chosen d ∧ DirtyBelow (sys.line a) (d :: n)) (sys, false) told)
    (isGet : ¬ IsPut type) (spared : ¬ chosen c) (grants : Grants type given)
    (entry : EntryInv (h.kids n) ((sys.line a).st n) e
      (Function.update (fun d => ((sys.line a).demoteKids sentType n chosen).st (d :: n)) c given))
    {mid : Sys h} (isMid : mid = (told.1.setDir n id e).setMesi (c :: n) childLine given) :
    ∃ next, (if told.2 = true then
        (MESIBottomCC.processWritebackOnAccess (mid.mesi n id)).bind fun state =>
          some (mid.setMesi n id state)
      else some mid) = some next ∧ Served (c :: n) a type sys next := by
  have foundTold := (isTold.only.find n a).trans found
  have foundToldC := (isTold.only.find (c :: n) a).trans foundC
  have only : Only a sys mid := isMid ▸ isTold.only.trans (only_served foundTold foundToldC e given)
  have line : mid.line a = (((sys.line a).demoteKids sentType n chosen).setEnt n e).setSt (c :: n) given := by
    rw [isMid, line_served foundTold foundToldC, isTold.line]
  have foundMid : mid.find n a = some id := (only.find n a).trans found
  have memory : mid.memory = sys.memory := by
    rw [isMid]
    exact isTold.memory
  have atC : (mid.line a).st (c :: n) = given := by rw [line, Line.setSt_st, Function.update_self]
  have stOther (m : Node) (other : m ≠ c :: n) (notTold : ∀ d, chosen d → ¬ (d :: n) <:+ m) :
      (mid.line a).st m = (sys.line a).st m := by
    rw [line, Line.setSt_st, Function.update_of_ne other, Line.setEnt_st]
    exact (Line.demoteKids_not _ sentType notTold).1
  have own : (mid.line a).st n = (sys.line a).st n :=
    stOther n (List.cons_ne_self c n).symm fun d _ => Node.not_child_suffix d n
  have coherent : (mid.line a).Coherent h.kids := by
    rw [line]
    refine Line.Coherent.serve
      (fun q other => Line.entryInv_demoteKids other (inv.coherent a q)) ?_ ?_
    · rw [Line.demoteKids_self.1]
      exact entry
    · have below := ((inv.coherent a).below (c :: n)).demoteKids_spared sentType spared
      have atChild := below (c :: n) (List.suffix_refl _)
      rw [(Line.demoteKids_spared _ sentType spared (List.suffix_refl _)).1] at atChild
      exact entryInv_granted atChild asks grants fun put => absurd put isGet
  have frame : Frame (c :: n) a sys mid := by
    refine ⟨fun _ _ => by rw [only.array], fun m below other => ?_, fun m below => ?_⟩
    · exact stOther m other fun d isTold under => spared (Node.child_unique below under ▸ isTold)
    · have apart : m ≠ n := fun same => Node.not_child_suffix c n (same ▸ below)
      rw [line, Line.setSt_ent, Line.setEnt_ent, Function.update_of_ne apart]
      exact (Line.demoteKids_spared _ sentType spared below).2
  have notDirty : (sys.line a).st (c :: n) ≠ .M := fun dirty =>
    isGet (.inr (asks.putx_of_dirty dirty))
  have keeps (m : Node) (notTold : ∀ d, chosen d → ¬ (d :: n) <:+ m) (dirty : (sys.line a).st m = .M) :
      (mid.line a).st m = .M :=
    (stOther m (fun same => notDirty (same ▸ dirty)) notTold).trans dirty
  cases writeback : told.2 with
  | false =>
      have clean : ¬ ∃ d, chosen d ∧ DirtyBelow (sys.line a) (d :: n) := fun dirty => by
        have raised := isTold.writeback.mpr (.inr dirty)
        rw [writeback] at raised
        cases raised
      refine ⟨mid, if_neg Bool.false_ne_true, inv.of_only only coherent, frame, atC.symm ▸ grants, ?_,
        fun put => absurd put isGet⟩
      exact kept_of_told n chosen inv only memory keeps fun dirty => absurd dirty clean
  | true =>
      have excl : ((sys.line a).st n).isExclusive = true := by
        obtain ⟨d, -, dirty⟩ := (isTold.writeback.mp writeback).resolve_left Bool.false_ne_true
        exact exclusive_of_dirtyBelow inv dirty
      have modified : Fetched n a .GETX mid (mid.setMesi n id .M) :=
        Fetched.modify (inv.of_only only coherent) foundMid (own ▸ excl) (.inl rfl)
      have onlyM : Only a mid (mid.setMesi n id .M) := Only.setMesi foundMid _
      have lineM := line_setMesi foundMid .M
      have below (m : Node) (under : (c :: n) <:+ m) : m ≠ n := fun same =>
        Node.not_child_suffix c n (same ▸ under)
      have stM (m : Node) (other : m ≠ n) : ((mid.setMesi n id .M).line a).st m = (mid.line a).st m := by
        rw [lineM, Line.setSt_st, Function.update_of_ne other]
      have atN : ((mid.setMesi n id .M).line a).st n = .M := by
        rw [lineM, Line.setSt_st, Function.update_self]
      refine ⟨mid.setMesi n id .M, ?_, modified.inv, ?_, ?_, ?_, fun put => absurd put isGet⟩
      · rw [if_pos rfl]
        unfold MESIBottomCC.processWritebackOnAccess
        rw [← line_st foundMid, own, if_pos excl]
        rfl
      · refine ⟨frame.array, fun m under other => ?_, fun m under => ?_⟩
        · exact (stM m (below m under)).trans (frame.st m under other)
        · rw [lineM, Line.setSt_ent]
          exact frame.ent m under
      · rw [stM _ (List.cons_ne_self c n), atC]
        exact grants
      · refine kept_of_told n chosen inv (only.trans onlyM) memory (fun m notTold dirty => ?_) fun _ => atN
        by_cases here : m = n
        · exact here ▸ atN
        · exact (stM m here).trans (keeps m notTold dirty)

theorem topAccess_gets (inv : sys.Inv) (found : sys.find n a = some id)
    (foundC : sys.find (c :: n) a = some childLine) (bound : c < h.kids n)
    (valid : (sys.line a).st n ≠ .I) (absent : (sys.line a).st (c :: n) = .I) {flags : Flags}
    (isAddr : req.lineAddr = a) (isChild : req.childId = c) (isState : req.state = some (c :: n, childLine)) :
    ∃ next, topAccess n req .GETS id flags sys = some next ∧ Served (c :: n) a .GETS sys next := by
  have entry := inv.coherent a n
  rw [line_ent found] at entry
  obtain ⟨told, sent, isTold⟩ := sendInvalidates_run (children_invalidate n a) (s := (sys, false))
    inv.arrays ((inv.coherent a).below n) entry.bounded entry.count
    (.inr ⟨rfl, fun d sharer => ⟨(entry.exact d).mp sharer, entry.isExclusive_eq sharer⟩⟩)
  obtain ⟨e, given, run, grants, entry'⟩ := MESITopCC.processAccess_gets entry absent bound valid flags
    (sys.load req.state) sent
  have noSharer := entry.sharers_eq_false absent
  have children : (fun d => ((sys.line a).st (d :: n)).demote .INVX) = fun d =>
      ((sys.line a).demoteKids .INVX n fun d => (sys.dir n id).sharers d = true).st (d :: n) := by
    funext d
    by_cases sharer : (sys.dir n id).sharers d = true
    · exact (Line.demoteKids_of _ .INVX sharer (List.suffix_refl _)).1.symm
    · rw [(Line.demoteKids_spared _ .INVX sharer (List.suffix_refl _)).1]
      have invalid : (sys.line a).st (d :: n) = .I := by
        by_contra isValid
        exact sharer ((entry.exact d).mpr isValid)
      rw [invalid, MESIState.demote_I]
  rw [children] at entry'
  obtain ⟨next, finish, served⟩ := finish_get inv found foundC (show Asks .GETS _ from absent) isTold
    (by rintro (wrong | wrong) <;> cases wrong) (by rw [noSharer]; decide) grants entry' rfl
  refine ⟨next, ?_, served⟩
  unfold topAccess
  rw [isAddr, isChild, ← line_st found, run, isState]
  exact finish

theorem topAccess_getx (inv : sys.Inv) (found : sys.find n a = some id)
    (foundC : sys.find (c :: n) a = some childLine) (bound : c < h.kids n)
    (isM : (sys.line a).st n = .M) (asks : Asks .GETX ((sys.line a).st (c :: n))) {flags : Flags}
    (isAddr : req.lineAddr = a) (isChild : req.childId = c) (isState : req.state = some (c :: n, childLine)) :
    ∃ next, topAccess n req .GETX id flags sys = some next ∧ Served (c :: n) a .GETX sys next := by
  have entry := inv.coherent a n
  rw [line_ent found] at entry
  have rest := MESITopCC.without_inv entry c
  have sharers (d : Nat) (sharer : (MESITopCC.without (sys.dir n id) c).sharers d = true) :
      d ≠ c ∧ (sys.line a).st (d :: n) ≠ .I := by
    have valid := (rest.exact d).mp sharer
    by_cases here : d = c
    · rw [here, Function.update_self] at valid
      exact absurd rfl valid
    · rw [Function.update_of_ne here] at valid
      exact ⟨here, valid⟩
  obtain ⟨told, sent, isTold⟩ := sendInvalidates_run (children_invalidate n a) (s := (sys, false))
    inv.arrays ((inv.coherent a).below n) rest.bounded rest.count
    (.inl ⟨rfl, fun d sharer => (sharers d sharer).2⟩)
  have notExcl : ((sys.line a).st (c :: n)).isExclusive = false := by
    rcases asks with isI | isS
    · rw [isI]; rfl
    · rw [isS]; rfl
  obtain ⟨e, run, entry'⟩ := MESITopCC.processAccess_getx entry notExcl bound
    (by rw [isM]; rfl) flags (sys.load req.state) sent
  have children : Function.update (fun _ => MESIState.I) c .M = Function.update (fun d =>
      ((sys.line a).demoteKids .INV n fun d =>
        (MESITopCC.without (sys.dir n id) c).sharers d = true).st (d :: n)) c .M := by
    funext d
    by_cases here : d = c
    · rw [here, Function.update_self, Function.update_self]
    · rw [Function.update_of_ne here, Function.update_of_ne here]
      by_cases sharer : (MESITopCC.without (sys.dir n id) c).sharers d = true
      · exact (Line.demoteKids_of _ .INV sharer (List.suffix_refl _)).1.symm
      · rw [(Line.demoteKids_spared _ .INV sharer (List.suffix_refl _)).1]
        by_contra valid
        refine sharer ((rest.exact d).mpr ?_)
        rw [Function.update_of_ne here]
        exact Ne.symm valid
  rw [children] at entry'
  obtain ⟨next, finish, served⟩ := finish_get inv found foundC asks isTold
    (by rintro (wrong | wrong) <;> cases wrong) (fun sharer => (sharers c sharer).1 rfl) rfl entry' rfl
  refine ⟨next, ?_, served⟩
  unfold topAccess
  rw [isAddr, isChild, ← line_st found, run, isState]
  exact finish

end

/-! ## The whole access -/

theorem Served.after {q : Node} {type : AccessType} {mid next : Sys h} (same : Untouched q a sys mid)
    (kept : Kept sys mid) (only : IsPut type → Only a sys mid) (served : Served q a type mid next) :
    Served q a type sys next where
  inv := served.inv
  frame := same.frame served.frame
  grants := served.grants
  kept := kept.trans served.kept
  only put := (only put).trans (served.only put)

/-- `Cache::access` after the lookup. -/
def afterLookup (parent : MemReq → Sys h → Option (Sys h)) (n : Node) (rp : RankCands) (req : MemReq)
    (sys : Sys h) : Option Nat → Option (Sys h)
  | some id => processAccess parent n req req.type id sys
  | none =>
    if req.type = .GETS ∨ req.type = .GETX then
      (insert parent n rp req.lineAddr sys).bind fun x => processAccess parent n req req.type x.1 x.2
    else none

theorem cacheAccess_of_lookup {rp : RankCands} {req : MemReq} {found : Option Nat}
    (terminal : ¬ (h.kids n = 0 ∧ (req.type = .PUTS ∨ req.type = .PUTX)))
    (still : sys.load req.state = req.initialState)
    (lookup : (h.array n).lookup (sys.array n) req.lineAddr = some found) :
    cacheAccess parent n rp req sys = afterLookup parent n rp req sys found := by
  have noRace : checkForMESIRace req.type (sys.load req.state) req.initialState =
      some (req.type, false) := if_neg fun race => race still
  unfold cacheAccess
  rw [if_neg terminal, noRace]
  dsimp only [Option.bind_eq_bind, Option.bind_some]
  rw [if_neg Bool.false_ne_true, lookup]
  cases found <;> rfl

section
variable {c childLine : Nat} {type : AccessType} {flags : Flags}

theorem arrives (inv : sys.Inv) (asks : Asks type ((sys.line a).st (c :: n))) :
    (IsPut type → (sys.line a).st n ≠ .I) ∧
      (type = .PUTX → ((sys.line a).st n).isExclusive = true) := by
  have entry := inv.coherent a n
  refine ⟨fun put => entry.inclusive c fun invalid => ?_, ?_⟩
  · rw [invalid] at asks
    rcases put with rfl | rfl
    · rcases asks with wrong | wrong <;> cases wrong
    · cases asks
  · rintro rfl
    refine entry.ownExclusive c ?_
    rw [show (sys.line a).st (c :: n) = .M from asks]
    rfl

theorem processAccess_spec (serves : Serves n parent) (inv : sys.Inv) (bound : c < h.kids n)
    (found : sys.find n a = some id) {req : MemReq} (isReq : req.lineAddr = a ∧ req.childId = c ∧
      req.state = some (c :: n, childLine) ∧ req.flags = flags)
    (sendable : Sendable (c :: n) a childLine type flags sys) :
    ∃ next, processAccess parent n req type id sys = some next ∧ Served (c :: n) a type sys next := by
  obtain ⟨isAddr, isChild, isState, isFlags⟩ := isReq
  obtain ⟨arrivesValid, arrivesExcl⟩ := arrives inv sendable.asks
  obtain ⟨mid, fetch, fetched⟩ := bottomAccess_spec type { flags with prefetch := false } serves inv
    found rfl sendable.addressable (fun isPuts => arrivesValid (.inl isPuts)) arrivesExcl
  have same := fetched.frame.child c
  have foundMid : mid.find n a = some id := (fetched.frame.find a).trans found
  have foundC : mid.find (c :: n) a = some childLine := (same.find a).trans sendable.found
  have asksMid : Asks type ((mid.line a).st (c :: n)) := by
    rw [same.st _ (List.suffix_refl _)]
    exact sendable.asks
  have top : ∃ next, topAccess n req type id { flags with prefetch := false } mid = some next ∧
      Served (c :: n) a type mid next := by
    have ready := fetched.ready
    have put (isPut : IsPut type) : ∃ next, topAccess n req type id { flags with prefetch := false } mid =
        some next ∧ Served (c :: n) a type mid next := by
      refine topAccess_put fetched.inv foundMid foundC isPut ready asksMid (fun d => ?_)
        (sendable.noKeep isPut) isAddr isChild isState
      rw [same.st _ (List.suffix_cons d (c :: n))]
      exact sendable.alone isPut d
    cases type with
    | PUTS => exact put (.inl rfl)
    | PUTX => exact put (.inr rfl)
    | GETS => exact topAccess_gets fetched.inv foundMid foundC bound ready asksMid isAddr isChild isState
    | GETX => exact topAccess_getx fetched.inv foundMid foundC bound ready asksMid isAddr isChild isState
  obtain ⟨next, run, served⟩ := top
  refine ⟨next, ?_, served.after same fetched.kept fetched.only⟩
  have notTerminal : h.kids n ≠ 0 := fun zero => Nat.not_lt_zero c (zero ▸ bound)
  have inclusive : ¬ ((type = .PUTS ∨ type = .PUTX) ∧ sys.mesi n id = .I) := fun lost =>
    arrivesValid lost.1 ((line_st found).trans lost.2)
  unfold processAccess
  rw [if_neg notTerminal, if_neg inclusive, isFlags, sendable.noPrefetch,
    if_neg fun wrong => Bool.false_ne_true wrong.1, isAddr]
  dsimp only [Option.bind_eq_bind]
  rw [fetch]
  exact run

theorem cacheAccess_serves (serves : Serves n parent) (bound : c < h.kids n) (rp : RankCands) :
    Serves (c :: n) (cacheAccess parent n rp) := by
  intro a childLine type flags sys inv sendable
  have notTerminal : h.kids n ≠ 0 := fun zero => Nat.not_lt_zero c (zero ▸ bound)
  have isReq : (requestOf (c :: n) a childLine type flags sys).lineAddr = a ∧
      (requestOf (c :: n) a childLine type flags sys).childId = c ∧
      (requestOf (c :: n) a childLine type flags sys).state = some (c :: n, childLine) ∧
      (requestOf (c :: n) a childLine type flags sys).flags = flags := ⟨rfl, rfl, rfl, rfl⟩
  obtain ⟨found, lookup⟩ : ∃ found, (h.array n).lookup (sys.array n) a = some found := by
    rcases sendable.addressable with put | addressable
    · obtain ⟨id, isFound⟩ := find_of_valid ((arrives inv sendable.asks).1 put)
      exact ⟨some id, find_eq_some.mp isFound⟩
    · exact (h.array n).lookup_addressable (inv.arrays n) (addressable n)
  rw [cacheAccess_of_lookup (fun terminal => notTerminal terminal.1) rfl lookup]
  cases found with
  | some id => exact processAccess_spec serves inv bound (find_eq_some.mpr lookup) isReq sendable
  | none =>
      have isGet : type = .GETS ∨ type = .GETX := by
        cases type with
        | GETS => exact .inl rfl
        | GETX => exact .inr rfl
        | PUTS =>
            obtain ⟨id, isFound⟩ := find_of_valid ((arrives inv sendable.asks).1 (.inl rfl))
            rw [find_eq_some, lookup] at isFound
            cases isFound
        | PUTX =>
            obtain ⟨id, isFound⟩ := find_of_valid ((arrives inv sendable.asks).1 (.inr rfl))
            rw [find_eq_some, lookup] at isFound
            cases isFound
      have notPut : ¬ IsPut type := by
        rcases isGet with rfl | rfl <;> rintro (wrong | wrong) <;> cases wrong
      obtain ⟨id, mid, insertion, inserted⟩ := insert_spec serves inv lookup rp
      have same := inserted.below c
      have sendableMid : Sendable (c :: n) a childLine type flags mid := by
        refine ⟨(same.find a).trans sendable.found, ?_, fun put => absurd put notPut,
          sendable.addressable, sendable.noPrefetch, sendable.noKeep⟩
        rw [same.st _ (List.suffix_refl _)]
        exact sendable.asks
      obtain ⟨next, run, served⟩ :=
        processAccess_spec serves inserted.inv bound inserted.found isReq sendableMid
      refine ⟨next, ?_, served.after same inserted.kept fun put => absurd put notPut⟩
      change (if type = .GETS ∨ type = .GETX then (insert parent n rp a sys).bind _ else none) = _
      rw [if_pos isGet, insertion]
      exact run

end

/-- What a cache of the tree calls. -/
def above (rp : Node → RankCands) : Node → MemReq → Sys h → Option (Sys h)
  | [] => memoryAccess
  | _ :: p => access rp p

theorem access_eq (rp : Node → RankCands) (n : Node) :
    access (h := h) rp n = cacheAccess (above rp n) n (rp n) := by
  cases n <;> rfl

theorem above_serves (rp : Node → RankCands) (isCache : h.IsCache n) :
    Serves (h := h) n (above rp n) := by
  induction n with
  | nil => exact memory_serves
  | cons c p ih =>
      rw [above, access_eq]
      exact cacheAccess_serves (ih isCache.2) isCache.1 (rp p)

end Zsim.Coherence.Hierarchy
