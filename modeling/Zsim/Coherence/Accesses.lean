import Zsim.Coherence.Invalidation

/-!
# Accesses in the tree

What a cache may rely on when it calls its parent, and what it gives its own children in
turn: the invariant holds at every call and at every return.
-/

set_option autoImplicit false

namespace Zsim.Coherence.Hierarchy

open Sys

variable {h : Hierarchy}

/-! ## Dirty copies -/

/-- A cache on the way from `x` to the root has the line dirty. -/
def DirtyAbove (l : Line) (x : Node) : Prop := ∃ m, m <:+ x ∧ l.st m = .M

/-- What was dirty above a node is dirty above it still, or memory was sent a PUTX. -/
def Kept (sys next : Sys h) : Prop :=
  ∃ sent, next.memory = sent ++ sys.memory ∧
    ∀ a x, DirtyAbove (sys.line a) x → DirtyAbove (next.line a) x ∨ (.PUTX, a) ∈ sent

theorem Kept.refl (sys : Sys h) : Kept sys sys := ⟨[], rfl, fun _ _ dirty => .inl dirty⟩

theorem Kept.trans {sys mid next : Sys h} (first : Kept sys mid) (second : Kept mid next) :
    Kept sys next := by
  obtain ⟨early, memory, kept⟩ := first
  obtain ⟨late, memory', kept'⟩ := second
  refine ⟨late ++ early, by rw [memory', memory, List.append_assoc], fun a x dirty => ?_⟩
  rcases kept a x dirty with still | sent
  · exact (kept' a x still).imp_right fun sent => List.mem_append_left early sent
  · exact .inr (List.mem_append_right late sent)

/-- It is enough that every dirty copy of the one line that changes stays dirty or has a
dirty copy above. -/
theorem Kept.of_only {a : Address} {sys next : Sys h} (arrays : ∀ n, (h.array n).Inv (sys.array n))
    (only : Only a sys next) (memory : next.memory = sys.memory)
    (kept : ∀ m, (sys.line a).st m = .M → DirtyAbove (next.line a) m) : Kept sys next := by
  refine ⟨[], memory, fun b x dirty => .inl ?_⟩
  by_cases here : b = a
  · subst here
    obtain ⟨m, above, isM⟩ := dirty
    obtain ⟨m', above', isM'⟩ := kept m isM
    exact ⟨m', above'.trans above, isM'⟩
  · rw [only.line_of_ne arrays here]
    exact dirty

theorem Kept.of_lines {sys next : Sys h} (memory : next.memory = sys.memory)
    (states : ∀ a, (next.line a).st = (sys.line a).st) : Kept sys next := by
  refine ⟨[], memory, fun a x dirty => .inl ?_⟩
  unfold DirtyAbove at dirty ⊢
  rw [states a]
  exact dirty

/-! ## What a call leaves alone -/

/-- At and below `q` the arrays and the line of `a` are the same. -/
structure Untouched (q : Node) (a : Address) (sys next : Sys h) : Prop where
  array : ∀ m, q <:+ m → next.array m = sys.array m
  st : ∀ m, q <:+ m → (next.line a).st m = (sys.line a).st m
  ent : ∀ m, q <:+ m → (next.line a).ent m = (sys.line a).ent m

/-- The same, except for the state in `q` itself. -/
structure Frame (q : Node) (a : Address) (sys next : Sys h) : Prop where
  array : ∀ m, q <:+ m → next.array m = sys.array m
  st : ∀ m, q <:+ m → m ≠ q → (next.line a).st m = (sys.line a).st m
  ent : ∀ m, q <:+ m → (next.line a).ent m = (sys.line a).ent m

section
variable {q : Node} {a : Address} {sys mid next : Sys h}

theorem Untouched.trans (first : Untouched q a sys mid) (second : Untouched q a mid next) :
    Untouched q a sys next where
  array m below := (second.array m below).trans (first.array m below)
  st m below := (second.st m below).trans (first.st m below)
  ent m below := (second.ent m below).trans (first.ent m below)

theorem Untouched.frame (first : Untouched q a sys mid) (second : Frame q a mid next) :
    Frame q a sys next where
  array m below := (second.array m below).trans (first.array m below)
  st m below other := (second.st m below other).trans (first.st m below)
  ent m below := (second.ent m below).trans (first.ent m below)

theorem Frame.refl (q : Node) (a : Address) (sys : Sys h) : Frame q a sys sys :=
  ⟨fun _ _ => rfl, fun _ _ _ => rfl, fun _ _ => rfl⟩

theorem Frame.child (frame : Frame q a sys next) (c : Nat) : Untouched (c :: q) a sys next where
  array m below := frame.array m ((List.suffix_cons c q).trans below)
  st m below := frame.st m ((List.suffix_cons c q).trans below) fun here =>
    Node.not_child_suffix c q (here ▸ below)
  ent m below := frame.ent m ((List.suffix_cons c q).trans below)

theorem Untouched.find (same : Untouched q a sys next) (b : Address) : next.find q b = sys.find q b := by
  unfold Sys.find
  rw [same.array q (List.suffix_refl q)]

theorem Frame.find (frame : Frame q a sys next) (b : Address) : next.find q b = sys.find q b := by
  unfold Sys.find
  rw [frame.array q (List.suffix_refl q)]

theorem Frame.setMesi {id : Nat} (found : sys.find q a = some id) (state : MESIState) :
    Frame q a sys (sys.setMesi q id state) where
  array _ _ := rfl
  st m _ other := by
    rw [line_setMesi found, Line.setSt_st, Function.update_of_ne other]
  ent m _ := by rw [line_setMesi found, Line.setSt_ent]

end

/-! ## Requests -/

/-- The request of cache `q` for its line `id`. -/
def requestOf (q : Node) (a : Address) (id : Nat) (type : AccessType) (flags : Flags) (sys : Sys h) :
    MemReq where
  lineAddr := a
  type := type
  childId := selfId q
  state := some (q, id)
  initialState := sys.mesi q id
  flags := flags

/-- A request that a cache may send: the line suits it, a line that it gives up is not
held below, and the flags are those of an inclusive cache. -/
structure Sendable (q : Node) (a : Address) (id : Nat) (type : AccessType) (flags : Flags) (sys : Sys h) :
    Prop where
  found : sys.find q a = some id
  asks : Asks type ((sys.line a).st q)
  alone : IsPut type → ∀ c, (sys.line a).st (c :: q) = .I
  addressable : IsPut type ∨ h.Addressable a
  noPrefetch : flags.prefetch = false
  noKeep : IsPut type → flags.putxKeepExcl = false

structure Served (q : Node) (a : Address) (type : AccessType) (sys next : Sys h) : Prop where
  inv : next.Inv
  frame : Frame q a sys next
  grants : Grants type ((next.line a).st q)
  kept : Kept sys next
  only : IsPut type → Only a sys next

/-- What `q` relies on when it calls its parent. -/
def Serves (q : Node) (parent : MemReq → Sys h → Option (Sys h)) : Prop :=
  ∀ a id type flags sys, sys.Inv → Sendable q a id type flags sys →
    ∃ next, parent (requestOf q a id type flags sys) sys = some next ∧ Served q a type sys next

theorem memory_serves : Serves (h := h) [] memoryAccess := by
  intro a id type flags sys inv sendable
  obtain ⟨given, grants, run⟩ : ∃ given, Grants type given ∧
      memoryAccess (requestOf [] a id type flags sys) sys =
        some { sys.setMesi [] id given with memory := (type, a) :: sys.memory } := by
    cases type with
    | PUTS => exact ⟨.I, rfl, rfl⟩
    | PUTX => exact ⟨.I, rfl, rfl⟩
    | GETX => exact ⟨.M, rfl, rfl⟩
    | GETS =>
        refine ⟨_, ?_, rfl⟩
        by_cases shared : flags.noExcl = true ∧ h.noExclShared = true
        · exact .inl (if_pos shared)
        · exact .inr (if_neg shared)
  have frame := Frame.setMesi sendable.found given
  have only := Only.setMesi sendable.found given
  have line := line_setMesi sendable.found given
  have coherent : ((sys.setMesi [] id given).line a).Coherent h.kids := by
    rw [line]
    intro q
    rw [Line.setSt_st, Line.setSt_ent]
    have child : (fun c => Function.update (sys.line a).st [] given (c :: q)) =
        fun c => (sys.line a).st (c :: q) :=
      funext fun c => Function.update_of_ne (List.cons_ne_nil c q) ..
    rw [child]
    have entry := inv.coherent a q
    by_cases root : q = []
    · subst root
      rw [Function.update_self]
      exact entryInv_granted entry sendable.asks grants sendable.alone
    · rw [Function.update_of_ne root]
      exact entry
  refine ⟨_, run, ?_, ⟨frame.array, frame.st, frame.ent⟩, ?_, ?_, fun _ => ⟨only.array, only.mesi, only.dir⟩⟩
  · have invMesi := inv.of_only only coherent
    exact ⟨invMesi.arrays, invMesi.live, invMesi.coherent⟩
  · change Grants type (((sys.setMesi [] id given).line a).st [])
    rw [line, Line.setSt_st, Function.update_self]
    exact grants
  · refine ⟨[(type, a)], rfl, ?_⟩
    rintro b x ⟨m, above, dirty⟩
    change DirtyAbove ((sys.setMesi [] id given).line b) x ∨ _
    by_cases here : b = a
    · subst here
      by_cases root : m = []
      · subst root
        right
        rw [sendable.asks.putx_of_dirty dirty]
        exact List.mem_singleton_self _
      · exact .inl ⟨m, above, (frame.st m List.nil_suffix root).trans dirty⟩
    · left
      rw [only.line_of_ne inv.arrays here]
      exact ⟨m, above, dirty⟩

/-! ## Evictions -/

structure Vacant (sys : Sys h) (n : Node) (id : Nat) : Prop where
  mesi : sys.mesi n id = .I
  empty : (sys.dir n id).Empty

theorem vacant_of_not_live {sys : Sys h} {n : Node} {id : Nat} (dead : ¬ sys.Live n id) :
    Vacant sys n id := by
  unfold Live at dead
  rw [not_or, not_or, not_exists] at dead
  obtain ⟨mesi, numSharers, absent⟩ := dead
  exact ⟨not_not.mp mesi, not_not.mp numSharers, fun c => by simpa using absent c⟩

theorem Vacant.not_live {sys : Sys h} {n : Node} {id : Nat} (vacant : Vacant sys n id) :
    ¬ sys.Live n id := by
  rintro (valid | counted | ⟨c, sharer⟩)
  · exact valid vacant.mesi
  · exact counted vacant.empty.numSharers
  · rw [vacant.empty.sharers c] at sharer
    cases sharer

theorem vacant_of_invalid {sys : Sys h} (inv : sys.Inv) {n : Node} {a : Address} {id : Nat}
    (found : sys.find n a = some id) (invalid : (sys.line a).st n = .I) : Vacant sys n id where
  mesi := (line_st found).symm.trans invalid
  empty := by
    have entry := inv.coherent a n
    rw [← line_ent found]
    refine entry.empty_of_invalid fun c => ?_
    by_contra valid
    exact entry.inclusive c valid invalid

theorem setMesi_self (sys : Sys h) (n : Node) (id : Nat) : sys.setMesi n id (sys.mesi n id) = sys := by
  unfold setMesi
  rw [Function.update_eq_self, Function.update_eq_self]

theorem setDir_self (sys : Sys h) (n : Node) (id : Nat) : sys.setDir n id (sys.dir n id) = sys := by
  unfold setDir
  rw [Function.update_eq_self, Function.update_eq_self]

theorem children_invalidate (n : Node) (a : Address) :
    ChildrenInvalidate (h := h) n a (invalidateChild n a) :=
  fun type c s arrays coherent suits =>
    invalidate_spec a h.height (c :: n) (Nat.le_add_left _ _) type s arrays coherent suits

/-- What evicting line `id` leaves. -/
structure Evicted (n : Node) (id : Nat) (sys next : Sys h) : Prop where
  inv : next.Inv
  array : next.array = sys.array
  lines : ∀ b, sys.find n b ≠ some id → next.line b = sys.line b
  vacant : Vacant next n id
  kept : Kept sys next

section
variable {parent : MemReq → Sys h → Option (Sys h)} {n : Node} {sys : Sys h} {b : Address} {id : Nat}

theorem bottomEviction_spec (serves : Serves n parent) (inv : sys.Inv) (found : sys.find n b = some id)
    (alone : ∀ c, (sys.line b).st (c :: n) = .I) :
    ∃ next, bottomEviction parent n b id false sys = some next ∧ next.Inv ∧ Only b sys next ∧
      Vacant next n id ∧ Kept sys next := by
  have st := line_st found
  by_cases invalid : sys.mesi n id = .I
  · refine ⟨sys, ?_, inv, Only.refl b sys, vacant_of_invalid inv found (st.trans invalid), Kept.refl sys⟩
    unfold bottomEviction
    have evict : MESIBottomCC.evict (sys.mesi n id) false = some (sys.mesi n id, none) := by
      rw [invalid]
      rfl
    rw [evict]
    dsimp only [Option.bind_eq_bind, Option.bind_some, request]
    rw [setMesi_self, if_pos invalid]
  · obtain ⟨type, isPut, asks, evict⟩ : ∃ type, IsPut type ∧ Asks type (sys.mesi n id) ∧
        MESIBottomCC.evict (sys.mesi n id) false = some (sys.mesi n id, some type) := by
      cases state : sys.mesi n id with
      | I => exact absurd state invalid
      | S => exact ⟨.PUTS, .inl rfl, .inl rfl, rfl⟩
      | E => exact ⟨.PUTS, .inl rfl, .inr rfl, rfl⟩
      | M => exact ⟨.PUTX, .inr rfl, rfl, rfl⟩
    have sendable : Sendable n b id type {} sys :=
      ⟨found, st ▸ asks, fun _ => alone, .inl isPut, rfl, fun _ => rfl⟩
    obtain ⟨next, run, served⟩ := serves b id type {} sys inv sendable
    have only := served.only isPut
    have foundNext := (only.find n b).trans found
    have gone : (next.line b).st n = .I := by
      have grants := served.grants
      rcases isPut with rfl | rfl <;> exact grants
    have vacant := vacant_of_invalid served.inv foundNext gone
    refine ⟨next, ?_, served.inv, only, vacant, served.kept⟩
    unfold bottomEviction
    rw [evict]
    dsimp only [Option.bind_eq_bind, Option.bind_some]
    rw [setMesi_self]
    change (parent (requestOf n b id type {} sys) sys).bind _ = _
    rw [run]
    exact if_pos vacant.mesi

theorem bottomEviction_writeback (excl : (sys.mesi n id).isExclusive = true) :
    bottomEviction parent n b id true sys = bottomEviction parent n b id false (sys.setMesi n id .M) := by
  have isM : (sys.setMesi n id .M).mesi n id = .M := by simp [setMesi]
  have twice := setMesi_self (sys.setMesi n id .M) n id
  rw [isM] at twice
  have evict : MESIBottomCC.evict (sys.mesi n id) true = some (.M, some .PUTX) := by
    unfold MESIBottomCC.evict
    rw [excl]
    rfl
  unfold bottomEviction
  rw [evict, isM]
  dsimp only [MESIBottomCC.evict, Option.bind_eq_bind, Option.bind_some]
  rw [if_neg (by decide)]
  dsimp only [Option.bind_some]
  rw [twice]

/-- A dirty copy that an invalidation of children of `n` takes is made up for in `n`. -/
theorem kept_of_told (n : Node) (told : Nat → Prop) {next : Sys h} (inv : sys.Inv) (only : Only b sys next)
    (memory : next.memory = sys.memory)
    (spared : ∀ m, (∀ c, told c → ¬ (c :: n) <:+ m) → (sys.line b).st m = .M → (next.line b).st m = .M)
    (written : (∃ c, told c ∧ DirtyBelow (sys.line b) (c :: n)) → (next.line b).st n = .M) :
    Kept sys next := by
  refine Kept.of_only inv.arrays only memory fun m dirty => ?_
  by_cases below : ∃ c, told c ∧ (c :: n) <:+ m
  · obtain ⟨c, isTold, under⟩ := below
    exact ⟨n, (List.suffix_cons c n).trans under, written ⟨c, isTold, m, under, dirty⟩⟩
  · exact ⟨m, List.suffix_refl m, spared m (fun c isTold under => below ⟨c, isTold, under⟩) dirty⟩

theorem exclusive_of_dirtyBelow (inv : sys.Inv) {c : Nat} (dirty : DirtyBelow (sys.line b) (c :: n)) :
    ((sys.line b).st n).isExclusive = true := by
  obtain ⟨m, below, isM⟩ := dirty
  apply (inv.coherent b n).ownExclusive c
  by_contra shared
  have clean := ((inv.coherent b).below (c :: n)).shared (by simpa using shared) below
  rw [isM] at clean
  cases clean

theorem processEviction_spec (serves : Serves n parent) (inv : sys.Inv)
    (found : sys.find n b = some id) :
    ∃ next, processEviction parent n b id sys = some next ∧ next.Inv ∧ Only b sys next ∧
      Vacant next n id ∧ Kept sys next := by
  have entry := inv.coherent b n
  have ent := line_ent found
  unfold processEviction
  by_cases terminal : h.kids n = 0
  · rw [if_pos terminal]
    refine bottomEviction_spec serves inv found fun c => ?_
    by_contra valid
    have bounded := entry.bounded c ((entry.exact c).mpr valid)
    omega
  rw [if_neg terminal]
  have sharers (c : Nat) (sharer : (sys.dir n id).sharers c = true) : (sys.line b).st (c :: n) ≠ .I :=
    (entry.exact c).mp (ent ▸ sharer)
  obtain ⟨⟨told, wb⟩, run, isTold⟩ := sendInvalidates_run (children_invalidate n b) (s := (sys, false))
    inv.arrays ((inv.coherent b).below n) (ent ▸ entry.bounded) (ent ▸ entry.count)
    (.inl ⟨rfl, sharers⟩)
  obtain ⟨mid, isMid⟩ : ∃ mid, mid = told.setDir n id ((sys.dir n id).demote .INV) := ⟨_, rfl⟩
  have foundTold := (isTold.only.find n b).trans found
  have foundMid : mid.find n b = some id := by rw [isMid]; exact foundTold
  have only : Only b sys mid := isMid ▸ isTold.only.trans (Only.setDir foundTold _)
  have line : mid.line b = ((sys.line b).demoteKids .INV n fun c =>
      (sys.dir n id).sharers c = true).setEnt n ((sys.dir n id).demote .INV) := by
    rw [isMid, line_setDir foundTold, isTold.line]
  have alone (c : Nat) : (mid.line b).st (c :: n) = .I := by
    rw [line, Line.setEnt_st]
    by_cases sharer : (sys.dir n id).sharers c = true
    · exact (Line.demoteKids_of _ .INV sharer (List.suffix_refl _)).1
    · rw [(Line.demoteKids_spared _ .INV sharer (List.suffix_refl _)).1]
      by_contra valid
      exact sharer (ent ▸ (entry.exact c).mpr valid)
  have own : (mid.line b).st n = (sys.line b).st n := by
    rw [line, Line.setEnt_st]
    exact Line.demoteKids_self.1
  have coherent : (mid.line b).Coherent h.kids := by
    rw [line]
    refine Line.Coherent.setEnt (fun q other => Line.entryInv_demoteKids other (inv.coherent b q)) ?_
    refine EntryInv.of_empty _ _ ⟨rfl, fun _ => rfl⟩ fun c => ?_
    have := alone c
    rwa [line, Line.setEnt_st] at this
  have invMid := inv.of_only only coherent
  have spared (m : Node) (notTold : ∀ c, (sys.dir n id).sharers c = true → ¬ (c :: n) <:+ m) :
      (mid.line b).st m = (sys.line b).st m := by
    rw [line, Line.setEnt_st]
    exact (Line.demoteKids_not _ .INV notTold).1
  have memory : mid.memory = sys.memory := by
    rw [isMid]
    exact isTold.memory
  have unfolded : (MESITopCC.processEviction (h.kids n) (invalidateChild n b) (sys.dir n id) (sys, false)).bind
      (fun x => bottomEviction parent n b id x.2.2 (x.2.1.setDir n id x.1)) =
        bottomEviction parent n b id wb mid := by
    unfold MESITopCC.processEviction
    rw [run, isMid]
    rfl
  change ∃ next, (MESITopCC.processEviction (h.kids n) (invalidateChild n b) (sys.dir n id) (sys, false)).bind
      (fun x => bottomEviction parent n b id x.2.2 (x.2.1.setDir n id x.1)) = some next ∧ _
  rw [unfolded]
  cases writeback : wb with
  | false =>
      have clean : ¬ ∃ c, (sys.dir n id).sharers c = true ∧ DirtyBelow (sys.line b) (c :: n) := fun dirty => by
        have raised := isTold.writeback.mpr (.inr dirty)
        rw [writeback] at raised
        cases raised
      have kept : Kept sys mid := kept_of_told n _ inv only memory
        (fun m notTold dirty => (spared m notTold).trans dirty) fun dirty => absurd dirty clean
      obtain ⟨next, evicted, invNext, onlyNext, vacant, keptNext⟩ :=
        bottomEviction_spec serves invMid foundMid alone
      exact ⟨next, evicted, invNext, only.trans onlyNext, vacant, kept.trans keptNext⟩
  | true =>
      have excl : ((sys.line b).st n).isExclusive = true := by
        obtain ⟨c, -, dirty⟩ := (isTold.writeback.mp writeback).resolve_left Bool.false_ne_true
        exact exclusive_of_dirtyBelow inv dirty
      have exclMid : (mid.mesi n id).isExclusive = true := by
        rw [← line_st foundMid, own]
        exact excl
      have onlyM : Only b mid (mid.setMesi n id .M) := Only.setMesi foundMid _
      have lineM := line_setMesi foundMid .M
      have invM : (mid.setMesi n id .M).Inv := invMid.of_only onlyM <| by
        rw [lineM]
        exact coherent.modify (own ▸ excl)
      have aloneM (c : Nat) : ((mid.setMesi n id .M).line b).st (c :: n) = .I := by
        rw [lineM, Line.setSt_st, Function.update_of_ne (List.cons_ne_self c n)]
        exact alone c
      have kept : Kept sys (mid.setMesi n id .M) := by
        refine kept_of_told n (fun c => (sys.dir n id).sharers c = true) inv (only.trans onlyM) memory
          (fun m notTold dirty => ?_) fun _ => ?_
        · rw [lineM, Line.setSt_st]
          by_cases here : m = n
          · rw [here, Function.update_self]
          · rw [Function.update_of_ne here, spared m notTold, dirty]
        · rw [lineM, Line.setSt_st, Function.update_self]
      obtain ⟨next, evicted, invNext, onlyNext, vacant, keptNext⟩ :=
        bottomEviction_spec serves invM foundMid aloneM
      refine ⟨next, ?_, invNext, (only.trans onlyM).trans onlyNext, vacant, kept.trans keptNext⟩
      rw [bottomEviction_writeback exclMid]
      exact evicted

theorem evict_victim (serves : Serves n parent) (inv : sys.Inv)
    (isTag : (h.array n).tag (sys.array n) id = b) :
    ∃ next, processEviction parent n b id sys = some next ∧ Evicted n id sys next := by
  by_cases live : sys.Live n id
  · have found : sys.find n b = some id := isTag ▸ inv.live n id live
    obtain ⟨next, run, invNext, only, vacant, kept⟩ := processEviction_spec serves inv found
    refine ⟨next, run, invNext, only.array, fun a notVictim => ?_, vacant, kept⟩
    exact only.line_of_ne inv.arrays fun same => notVictim (same ▸ found)
  · have vacant := vacant_of_not_live live
    refine ⟨sys, ?_, inv, rfl, fun _ _ => rfl, vacant, Kept.refl sys⟩
    have bottom : bottomEviction parent n b id false sys = some sys := by
      unfold bottomEviction
      rw [show MESIBottomCC.evict (sys.mesi n id) false = some (sys.mesi n id, none) by
        rw [vacant.mesi]; rfl]
      dsimp only [Option.bind_eq_bind, Option.bind_some, request]
      rw [setMesi_self, if_pos vacant.mesi]
    have top : MESITopCC.processEviction (h.kids n) (invalidateChild n b) (sys.dir n id) (sys, false) =
        some (sys.dir n id, (sys, false)) :=
      MESITopCC.sendInvalidates_of_empty _ vacant.empty
    unfold processEviction
    by_cases terminal : h.kids n = 0
    · rw [if_pos terminal]
      exact bottom
    · rw [if_neg terminal, top]
      dsimp only [Option.bind_eq_bind, Option.bind_some]
      rw [setDir_self]
      exact bottom

end

/-! ## Insertion -/

/-- What making space for the line of `a` leaves: it has a line id, in I. -/
structure Inserted (n : Node) (a : Address) (id : Nat) (sys next : Sys h) : Prop where
  inv : next.Inv
  found : next.find n a = some id
  below : ∀ c, Untouched (c :: n) a sys next
  st : (next.line a).st n = .I
  kept : Kept sys next

section
variable {n : Node} {sys : Sys h} {a : Address} {id : Nat}

theorem line_setArray_of_ne {z : (h.array n).State} {m : Node} (other : m ≠ n) (b : Address) :
    ((sys.setArray n z).line b).st m = (sys.line b).st m ∧
      ((sys.setArray n z).line b).ent m = (sys.line b).ent m := by
  unfold Sys.line Sys.find setArray
  dsimp only
  rw [Function.update_of_ne other]
  exact ⟨rfl, rfl⟩

theorem find_setArray (z : (h.array n).State) (b : Address) :
    (sys.setArray n z).find n b = ((h.array n).lookup z b).join := by
  unfold Sys.find setArray
  dsimp only
  rw [Function.update_self]

theorem setArray_same {z : (h.array n).State} (inv : sys.Inv) (invZ : (h.array n).Inv z)
    (lookup : (h.array n).lookup z = (h.array n).lookup (sys.array n))
    (tag : (h.array n).tag z = (h.array n).tag (sys.array n)) :
    (sys.setArray n z).Inv ∧ (∀ b, (sys.setArray n z).line b = sys.line b) := by
  have find (m : Node) (b : Address) : (sys.setArray n z).find m b = sys.find m b := by
    by_cases here : m = n
    · subst here
      rw [find_setArray, lookup]
      rfl
    · unfold Sys.find setArray
      dsimp only
      rw [Function.update_of_ne here]
  have line (b : Address) : (sys.setArray n z).line b = sys.line b := by
    refine Line.eq_of_nodes fun m => ?_
    unfold Sys.line
    dsimp only
    rw [find m b]
    exact ⟨rfl, rfl⟩
  refine ⟨⟨fun m => ?_, fun m id live => ?_, fun b => line b ▸ inv.coherent b⟩, line⟩
  · by_cases here : m = n
    · subst here
      rw [show (sys.setArray m z).array m = z from Function.update_self ..]
      exact invZ
    · rw [show (sys.setArray n z).array m = sys.array m from Function.update_of_ne here ..]
      exact inv.arrays m
  · rw [find]
    have liveSys : sys.Live m id := live
    by_cases here : m = n
    · subst here
      rw [show (sys.setArray m z).array m = z from Function.update_self .., tag]
      exact inv.live m id liveSys
    · rw [show (sys.setArray n z).array m = sys.array m from Function.update_of_ne here ..]
      exact inv.live m id liveSys

theorem setArray_inserted {z : (h.array n).State} (inv : sys.Inv) (invZ : (h.array n).Inv z)
    (vacant : Vacant sys n id) (missing : sys.find n a = none)
    (found : (h.array n).lookup z a = some (some id))
    (others : ∀ b, b ≠ a → (h.array n).lookup (sys.array n) b ≠ some (some id) →
      (h.array n).lookup z b = (h.array n).lookup (sys.array n) b)
    (tags : ∀ other, other ≠ id → (h.array n).tag z other = (h.array n).tag (sys.array n) other) :
    Inserted n a id sys (sys.setArray n z) := by
  have foundNext : (sys.setArray n z).find n a = some id := by
    rw [find_setArray, found]
    rfl
  -- at `n` the line of an address is what it was, or there is nothing in it
  have here (b : Address) : ((sys.setArray n z).line b).st n = (sys.line b).st n ∧
      (((sys.setArray n z).line b).ent n = (sys.line b).ent n ∨
        (sys.line b).st n = .I ∧ (((sys.setArray n z).line b).ent n).Empty) := by
    by_cases isA : b = a
    · subst isA
      have before : (sys.line b).st n = .I := by
        by_contra valid
        obtain ⟨j, foundJ⟩ := find_of_valid valid
        rw [missing] at foundJ
        cases foundJ
      rw [line_st foundNext, line_ent foundNext, before]
      exact ⟨vacant.mesi, .inr ⟨rfl, vacant.empty⟩⟩
    · by_cases victim : sys.find n b = some id
      · have before : (sys.line b).st n = .I := (line_st victim).trans vacant.mesi
        rw [before]
        cases after : (sys.setArray n z).find n b with
        | none =>
            unfold Sys.line
            dsimp only
            rw [after]
            exact ⟨rfl, .inr ⟨rfl, rfl, fun _ => rfl⟩⟩
        | some j =>
            have lookup : (h.array n).lookup z b = some (some j) := by
              rw [find_setArray] at after
              exact Option.join_eq_some_iff.mp after
            have tag := (h.array n).lookup_sound invZ lookup
            have other : j ≠ id := fun same => isA <| by
              rw [← tag, same, (h.array n).lookup_sound invZ found]
            have dead : ¬ sys.Live n j := fun live => other <| by
              have foundJ := inv.live n j live
              rw [← tags j other, tag, victim] at foundJ
              exact (Option.some.inj foundJ).symm
            have vacantJ := vacant_of_not_live dead
            rw [line_st after, line_ent after]
            exact ⟨vacantJ.mesi, .inr ⟨rfl, vacantJ.empty⟩⟩
      · have same : (sys.setArray n z).find n b = sys.find n b := by
          rw [find_setArray, others b isA fun h => victim (find_eq_some.mpr h)]
          rfl
        unfold Sys.line
        dsimp only
        rw [same]
        exact ⟨rfl, .inl rfl⟩
  have st (m : Node) (b : Address) : ((sys.setArray n z).line b).st m = (sys.line b).st m := by
    by_cases isN : m = n
    · exact isN ▸ (here b).1
    · exact (line_setArray_of_ne isN b).1
  refine ⟨⟨fun m => ?_, fun m j live => ?_, fun b p => ?_⟩, foundNext, fun c => ?_, ?_, ?_⟩
  · by_cases isN : m = n
    · subst isN
      rw [show (sys.setArray m z).array m = z from Function.update_self ..]
      exact invZ
    · rw [show (sys.setArray n z).array m = sys.array m from Function.update_of_ne isN ..]
      exact inv.arrays m
  · have liveSys : sys.Live m j := live
    by_cases isN : m = n
    · subst isN
      rw [show (sys.setArray m z).array m = z from Function.update_self .., find_setArray]
      have other : j ≠ id := fun same => vacant.not_live (same ▸ liveSys)
      have foundJ := inv.live m j liveSys
      rw [tags j other, others _ ?_ ?_]
      · exact foundJ
      · intro isA
        rw [isA, missing] at foundJ
        cases foundJ
      · rw [find_eq_some.mp foundJ]
        exact fun same => other (Option.some.inj (Option.some.inj same))
    · have foundJ := inv.live m j liveSys
      unfold Sys.find setArray at *
      dsimp only
      rw [Function.update_of_ne isN]
      exact foundJ
  · have child : (fun c => ((sys.setArray n z).line b).st (c :: p)) = fun c => (sys.line b).st (c :: p) :=
      funext fun c => st _ b
    have entry := inv.coherent b p
    rw [st, child]
    by_cases isN : p = n
    · subst isN
      rcases (here b).2 with same | ⟨invalid, empty⟩
      · rw [same]
        exact entry
      · refine EntryInv.of_empty _ _ empty fun c => ?_
        by_contra valid
        exact entry.inclusive c valid invalid
    · rw [(line_setArray_of_ne isN b).2]
      exact entry
  · have apart (m : Node) (below : (c :: n) <:+ m) : m ≠ n := fun same =>
      Node.not_child_suffix c n (same ▸ below)
    refine ⟨fun m below => ?_, fun m _ => st m a, fun m below => (line_setArray_of_ne (apart m below) a).2⟩
    exact Function.update_of_ne (apart m below) ..
  · exact (line_st foundNext).trans vacant.mesi
  · exact Kept.of_lines rfl fun b => funext fun m => st m b

theorem insert_spec {parent : MemReq → Sys h → Option (Sys h)} (serves : Serves n parent) (inv : sys.Inv)
    (missed : (h.array n).lookup (sys.array n) a = some none) (rp : RankCands) :
    ∃ id next, insert parent n rp a sys = some (id, next) ∧ Inserted n a id sys next := by
  obtain ⟨z, id, run, invZ, picked, lookup, tag⟩ :=
    (h.array n).preinsert_spec rp (inv.arrays n) missed
  obtain ⟨invPicked, lines⟩ := setArray_same inv invZ lookup tag
  have atN : (sys.setArray n z).array n = z := Function.update_self ..
  obtain ⟨mid, evicted, done⟩ := evict_victim (b := (h.array n).tag (sys.array n) id) serves invPicked
    (by rw [atN, tag])
  have arrayMid : mid.array n = z := by rw [done.array, atN]
  have missing : (sys.setArray n z).find n a = none := by
    rw [find_setArray, lookup, missed]
    rfl
  have missingMid : mid.find n a = none := by
    unfold Sys.find at missing ⊢
    rw [done.array]
    exact missing
  obtain ⟨z', run', invZ', found, others, tags⟩ := (h.array n).postinsert_spec invZ (lookup ▸ missed) picked
  have inserted : Inserted n a id mid (mid.setArray n z') :=
    setArray_inserted done.inv invZ' done.vacant missingMid found (by rw [arrayMid]; exact others)
      (by rw [arrayMid]; exact tags)
  have line : mid.line a = sys.line a := by
    rw [done.lines a (by rw [missing]; exact Option.some_ne_none id |>.symm), lines a]
  refine ⟨id, mid.setArray n z', ?_, inserted.inv, inserted.found, fun c => ?_, inserted.st, ?_⟩
  · unfold insert
    rw [run]
    dsimp only [Option.bind_eq_bind, Option.bind_some]
    rw [evicted]
    dsimp only [Option.bind_some]
    rw [arrayMid, run']
    rfl
  · refine Untouched.trans ⟨fun m below => ?_, fun m _ => by rw [line], fun m _ => by rw [line]⟩
      (inserted.below c)
    rw [done.array]
    have apart : m ≠ n := fun same => Node.not_child_suffix c n (same ▸ below)
    exact Function.update_of_ne apart ..
  · have same : Kept sys (sys.setArray n z) := Kept.of_lines rfl fun b => by rw [lines b]
    exact same.trans (done.kept.trans inserted.kept)

end

end Zsim.Coherence.Hierarchy
