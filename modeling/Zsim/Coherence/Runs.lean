import Zsim.Coherence.Service

/-!
# Runs of the tree

Every access keeps the invariant and the dirty copies, whatever flags the core gives it;
only PREFETCH, which a core must not give, makes it fail an assertion.
-/

set_option autoImplicit false

namespace Zsim.Coherence.Hierarchy

open Sys

variable {h : Hierarchy} {parent : MemReq → Sys h → Option (Sys h)} {n : Node} {sys next : Sys h}
  {a : Address}

/-! ## Accesses that come from a core or a prefetcher -/

theorem bottomOnly_spec (flags : Flags) (serves : Serves n parent) (inv : sys.Inv)
    (addressable : h.Addressable a)
    (rp : RankCands) {type : AccessType} (isGet : type = .GETS ∨ type = .GETX) (childId : Nat)
    {given : Flags} (noPrefetch : flags.prefetch = false)
    (bottom : ∀ id sys, processAccess parent n ⟨a, type, childId, none, .I, given⟩ type id sys =
      bottomAccess parent n a id type flags sys) :
    ∃ next, cacheAccess parent n rp ⟨a, type, childId, none, .I, given⟩ sys = some next ∧
      next.Inv ∧ Kept sys next := by
  have notPut : ¬ IsPut type := by
    rcases isGet with rfl | rfl <;> rintro (wrong | wrong) <;> cases wrong
  have access {sys : Sys h} {id : Nat} (inv : sys.Inv) (found : sys.find n a = some id) :
      ∃ next, bottomAccess parent n a id type flags sys = some next ∧ Fetched n a type sys next :=
    bottomAccess_spec type flags serves inv found noPrefetch (.inr addressable)
      (fun wrong => absurd (.inl wrong) notPut) fun wrong => absurd (.inr wrong) notPut
  obtain ⟨found, lookup⟩ := (h.array n).lookup_addressable (inv.arrays n) (addressable n)
  have start : cacheAccess parent n rp ⟨a, type, childId, none, .I, given⟩ sys =
      afterLookup parent n rp ⟨a, type, childId, none, .I, given⟩ sys found :=
    cacheAccess_of_lookup (fun put => notPut put.2) rfl lookup
  rw [start]
  cases found with
  | some id =>
      obtain ⟨next, run, fetched⟩ := access inv (find_eq_some.mpr lookup)
      exact ⟨next, (bottom id sys).trans run, fetched.inv, fetched.kept⟩
  | none =>
      obtain ⟨id, mid, insertion, inserted⟩ := insert_spec serves inv lookup rp
      obtain ⟨next, run, fetched⟩ := access inserted.inv inserted.found
      refine ⟨next, ?_, fetched.inv, inserted.kept.trans fetched.kept⟩
      change (if type = .GETS ∨ type = .GETX then (insert parent n rp a sys).bind _ else none) = _
      rw [if_pos isGet, insertion]
      exact (bottom id mid).trans run

theorem core_spec (inv : sys.Inv) (rp : Node → RankCands) {leaf : Node} (isCache : h.IsCache leaf)
    (terminal : h.kids leaf = 0) {type : AccessType} (isGet : type = .GETS ∨ type = .GETX)
    (addressable : h.Addressable a) {flags : Flags} (noPrefetch : flags.prefetch = false) :
    ∃ next, step sys (.core rp leaf type a flags) = some next ∧ next.Inv ∧ Kept sys next := by
  change ∃ next, access rp leaf _ sys = some next ∧ _
  rw [access_eq]
  exact bottomOnly_spec flags (above_serves rp isCache) inv addressable (rp leaf) isGet 0 noPrefetch
    fun _ _ => if_pos terminal

theorem prefetch_spec (inv : sys.Inv) (rp : Node → RankCands) (isCache : h.IsCache n)
    (inner : h.kids n ≠ 0) (childId : Nat) (addressable : h.Addressable a) (flags : Flags) :
    ∃ next, step sys (.prefetch rp n childId a flags) = some next ∧ next.Inv ∧ Kept sys next := by
  change ∃ next, access rp n _ sys = some next ∧ _
  rw [access_eq]
  refine bottomOnly_spec { flags with prefetch := false } (above_serves rp isCache) inv
    addressable (rp n) (.inl rfl) childId rfl fun id sys => ?_
  unfold processAccess
  have notPut : ¬ ((AccessType.GETS = .PUTS ∨ AccessType.GETS = .PUTX) ∧ sys.mesi n id = .I) := by
    rintro ⟨wrong | wrong, -⟩ <;> cases wrong
  rw [if_neg inner, if_neg notPut, if_neg fun wrong => wrong.2 rfl]
  exact Option.bind_fun_some _

/-- The flags of a core do not have PREFETCH, which is only set where a prefetch is issued. -/
def NoPrefetchFlag (_ : Sys h) : Op → Prop
  | .core _ _ _ _ flags => flags.prefetch = false
  | .prefetch .. => True

theorem step_spec (inv : sys.Inv) {op : Op} (legal : h.machine.legal sys op)
    (noPrefetch : NoPrefetchFlag sys op) :
    ∃ next, step sys op = some next ∧ next.Inv ∧ Kept sys next := by
  cases op with
  | core rp leaf type lineAddr flags =>
      obtain ⟨isCache, terminal, isGet, addressable⟩ := legal
      exact core_spec inv rp isCache terminal isGet addressable noPrefetch
  | prefetch rp n childId lineAddr flags =>
      obtain ⟨isCache, inner, addressable⟩ := legal
      exact prefetch_spec inv rp isCache inner childId addressable flags

/-! ## PREFETCH from a core -/

/-- A parent leaves the line of a child that prefetches in I, and does not take a GETX. -/
theorem prefetch_from_child (serves : Serves n parent) (inv : sys.Inv) (addressable : h.Addressable a)
    (rp : RankCands) {c childLine : Nat} (bound : c < h.kids n)
    (found : sys.find (c :: n) a = some childLine) {type : AccessType} (isGet : type = .GETS ∨ type = .GETX)
    {flags : Flags} (prefetch : flags.prefetch = true)
    (run : cacheAccess parent n rp (requestOf (c :: n) a childLine type flags sys) sys = some next) :
    type = .GETS ∧ next.mesi (c :: n) childLine = sys.mesi (c :: n) childLine := by
  have notPut : ¬ IsPut type := by
    rcases isGet with rfl | rfl <;> rintro (wrong | wrong) <;> cases wrong
  have inner : h.kids n ≠ 0 := fun zero => Nat.not_lt_zero c (zero ▸ bound)
  have process {sys : Sys h} {id : Nat} (inv : sys.Inv) (foundN : sys.find n a = some id) {req : MemReq}
      (isReq : req.flags = flags ∧ req.lineAddr = a)
      (run : processAccess parent n req type id sys = some next) :
      type = .GETS ∧ Untouched (c :: n) a sys next := by
    unfold processAccess at run
    rw [if_neg inner, if_neg fun put => notPut put.1, isReq.1, isReq.2, prefetch] at run
    by_cases isGets : type = .GETS
    · refine ⟨isGets, ?_⟩
      rw [if_neg fun wrong => wrong.2 isGets] at run
      obtain ⟨mid, fetch, fetched⟩ := bottomAccess_spec type { flags with prefetch := false } serves
        inv foundN rfl (.inr addressable) (fun wrong => absurd (.inl wrong) notPut)
        fun wrong => absurd (.inr wrong) notPut
      dsimp only [Option.bind_eq_bind] at run
      rw [fetch] at run
      cases Option.some.inj run
      exact fetched.frame.child c
    · rw [if_pos ⟨rfl, isGets⟩] at run
      cases run
  obtain ⟨isFound, lookup⟩ := (h.array n).lookup_addressable (inv.arrays n) (addressable n)
  have start : cacheAccess parent n rp (requestOf (c :: n) a childLine type flags sys) sys =
      afterLookup parent n rp (requestOf (c :: n) a childLine type flags sys) sys isFound :=
    cacheAccess_of_lookup (fun put => notPut put.2) rfl lookup
  rw [start] at run
  have result : type = .GETS ∧ Untouched (c :: n) a sys next := by
    cases isFound with
    | some id => exact process inv (find_eq_some.mpr lookup) ⟨rfl, rfl⟩ run
    | none =>
        obtain ⟨id, mid, insertion, inserted⟩ := insert_spec serves inv lookup rp
        change (if type = .GETS ∨ type = .GETX then (insert parent n rp a sys).bind _ else none) = _ at run
        rw [if_pos isGet, insertion] at run
        obtain ⟨isGets, same⟩ := process inserted.inv inserted.found ⟨rfl, rfl⟩ run
        exact ⟨isGets, (inserted.below c).trans same⟩
  obtain ⟨isGets, same⟩ := result
  have foundNext := (same.find a).trans found
  exact ⟨isGets, by
    rw [← line_st foundNext, ← line_st found]
    exact same.st _ (List.suffix_refl _)⟩

theorem bottomAccess_of_prefetch (inv : sys.Inv) (rp : Node → RankCands) {leaf : Node}
    (isCache : h.IsCache leaf) {id : Nat} (found : sys.find leaf a = some id) {type : AccessType}
    (isGet : type = .GETS ∨ type = .GETX) (addressable : h.Addressable a) {flags : Flags}
    (prefetch : flags.prefetch = true)
    (run : bottomAccess (above rp leaf) leaf a id type flags sys = some next) :
    bottomAccess (above rp leaf) leaf a id type { flags with prefetch := false } sys = some next := by
  have hit {state : MESIState} (quiet : MESIBottomCC.access type (sys.mesi leaf id) = some (state, none)) :
      bottomAccess (above rp leaf) leaf a id type { flags with prefetch := false } sys = some next := by
    unfold bottomAccess at run ⊢
    rw [quiet] at run ⊢
    exact run
  have miss (asks : MESIBottomCC.access type (sys.mesi leaf id) = some (sys.mesi leaf id, some type))
      (invalid : type = .GETS → sys.mesi leaf id = .I) :
      bottomAccess (above rp leaf) leaf a id type { flags with prefetch := false } sys = some next := by
    unfold bottomAccess at run ⊢
    rw [asks] at run ⊢
    dsimp only [Option.bind_eq_bind, Option.bind_some] at run ⊢
    rw [setMesi_self] at run ⊢
    cases leaf with
    | nil => exact run
    | cons c p =>
        obtain ⟨mid, served, done⟩ := Option.bind_eq_some_iff.mp run
        change access rp p (requestOf (c :: p) a id type flags sys) sys = some mid at served
        rw [access_eq] at served
        obtain ⟨rfl, same⟩ := prefetch_from_child (above_serves rp isCache.2) inv addressable (rp p)
          isCache.1 found isGet prefetch served
        -- the child is still in I, which the bottom controller does not accept
        rw [same, invalid rfl] at done
        cases done
  rcases isGet with rfl | rfl
  · by_cases invalid : sys.mesi leaf id = .I
    · exact miss (if_pos invalid) fun _ => invalid
    · exact hit (if_neg invalid)
  · by_cases missing : sys.mesi leaf id = .I ∨ sys.mesi leaf id = .S
    · exact miss (if_pos missing) fun wrong => by cases wrong
    · exact hit (if_neg missing)

/-- A core that gives PREFETCH is served only where the flag makes no difference. -/
theorem core_of_prefetch (inv : sys.Inv) (rp : Node → RankCands) {leaf : Node} (isCache : h.IsCache leaf)
    (terminal : h.kids leaf = 0) {type : AccessType} (isGet : type = .GETS ∨ type = .GETX)
    (addressable : h.Addressable a) {flags : Flags} (prefetch : flags.prefetch = true)
    (run : step sys (.core rp leaf type a flags) = some next) :
    step sys (.core rp leaf type a { flags with prefetch := false }) = some next := by
  have notPut : ¬ (type = .PUTS ∨ type = .PUTX) := by
    rcases isGet with rfl | rfl <;> rintro (wrong | wrong) <;> cases wrong
  obtain ⟨found, lookup⟩ := (h.array leaf).lookup_addressable (inv.arrays leaf) (addressable leaf)
  have start (flags : Flags) : step sys (.core rp leaf type a flags) =
      afterLookup (above rp leaf) leaf (rp leaf) ⟨a, type, 0, none, .I, flags⟩ sys found := by
    change access rp leaf _ sys = _
    rw [access_eq]
    exact cacheAccess_of_lookup (fun put => notPut put.2) rfl lookup
  have process (flags : Flags) (id : Nat) (sys : Sys h) :
      processAccess (above rp leaf) leaf ⟨a, type, 0, none, .I, flags⟩ type id sys =
        bottomAccess (above rp leaf) leaf a id type flags sys := if_pos terminal
  rw [start] at run ⊢
  cases found with
  | some id =>
      refine (process _ id sys).trans ?_
      exact bottomAccess_of_prefetch inv rp isCache (find_eq_some.mpr lookup) isGet addressable prefetch
        ((process flags id sys).symm.trans run)
  | none =>
      obtain ⟨id, mid, insertion, inserted⟩ :=
        insert_spec (above_serves rp isCache) inv lookup (rp leaf)
      change (if type = .GETS ∨ type = .GETX then
        (insert (above rp leaf) leaf (rp leaf) a sys).bind _ else none) = _ at run ⊢
      rw [if_pos isGet, insertion] at run ⊢
      refine (process _ id mid).trans ?_
      exact bottomAccess_of_prefetch inserted.inv rp isCache inserted.found isGet addressable prefetch
        ((process flags id mid).symm.trans run)

theorem step_keeps (inv : sys.Inv) {op : Op} (legal : h.machine.legal sys op)
    (run : step sys op = some next) : next.Inv ∧ Kept sys next := by
  have ofSpec {op : Op} (legal : h.machine.legal sys op) (noPrefetch : NoPrefetchFlag sys op)
      (run : step sys op = some next) : next.Inv ∧ Kept sys next := by
    obtain ⟨other, run', keeps⟩ := step_spec inv legal noPrefetch
    cases Option.some.inj (run'.symm.trans run)
    exact keeps
  cases op with
  | prefetch rp n childId lineAddr flags => exact ofSpec legal trivial run
  | core rp leaf type lineAddr flags =>
      cases prefetch : flags.prefetch with
      | false => exact ofSpec legal prefetch run
      | true =>
          obtain ⟨isCache, terminal, isGet, addressable⟩ := legal
          have legal' : h.machine.legal sys (.core rp leaf type lineAddr { flags with prefetch := false }) :=
            ⟨isCache, terminal, isGet, addressable⟩
          exact ofSpec legal' rfl
            (core_of_prefetch inv rp isCache terminal isGet addressable prefetch run)

/-! ## Coherence -/

theorem preserves_inv (h : Hierarchy) : (h.machine.restrict NoPrefetchFlag).Preserves Sys.Inv := by
  intro sys op inv legal
  obtain ⟨next, run, invNext, -⟩ := step_spec inv legal.1 legal.2
  exact ⟨next, run, invNext⟩

/-- The directory of a line is exact and it has a single writer. -/
structure Exact (h : Hierarchy) (l : Line) : Prop where
  sharers : ∀ p c, (l.ent p).sharers c = true ↔ c < h.kids p ∧ l.st (c :: p) ≠ .I
  numSharers : ∀ p, (l.ent p).numSharers = countIn (Finset.range (h.kids p)) (l.ent p).sharers (· = true)
  /-- a child in E or M is the exclusive and only sharer -/
  exclusive : ∀ p c, (l.st (c :: p)).isExclusive = true →
    (l.ent p).exclusive = true ∧ (l.ent p).numSharers = 1 ∧ (l.ent p).sharers c = true
  valid : ∀ p c, l.st (c :: p) ≠ .I → l.st p ≠ .I
  writable : ∀ p c, (l.st (c :: p)).isExclusive = true → (l.st p).isExclusive = true
  singleWriter : ∀ x y, h.kids x = 0 → h.kids y = 0 → y ≠ x → (l.st x).isExclusive = true → l.st y = .I

theorem Node.compare (x y : Node) :
    x <:+ y ∨ y <:+ x ∨ ∃ p c d, c ≠ d ∧ (c :: p) <:+ x ∧ (d :: p) <:+ y := by
  induction x with
  | nil => exact .inl List.nil_suffix
  | cons c p ih =>
      rcases ih with above | below | ⟨q, i, j, apart, left, right⟩
      · rcases (Node.suffix_iff p y).mp above with rfl | ⟨d, under⟩
        · exact .inr (.inl (List.suffix_cons c y))
        · by_cases same : d = c
          · exact .inl (same ▸ under)
          · exact .inr (.inr ⟨p, c, d, Ne.symm same, List.suffix_refl _, under⟩)
      · exact .inr (.inl (below.trans (List.suffix_cons c p)))
      · exact .inr (.inr ⟨q, i, j, apart, left.trans (List.suffix_cons c p), right⟩)

theorem exact_of_coherent {l : Line} (coherent : l.Coherent h.kids) : Exact h l where
  sharers p c := ⟨fun sharer => ⟨(coherent p).bounded c sharer, ((coherent p).exact c).mp sharer⟩,
    fun both => ((coherent p).exact c).mpr both.2⟩
  numSharers p := (coherent p).count
  exclusive p c excl := ⟨((coherent p).sole c excl).1, ((coherent p).sole c excl).2,
    ((coherent p).exact c).mpr (MESIState.ne_I_of_isExclusive excl)⟩
  valid p c := (coherent p).inclusive c
  writable p c := (coherent p).ownExclusive c
  singleWriter x y terminalX terminalY other excl := by
    have childless {m : Node} (terminal : h.kids m = 0) (c : Nat) : l.st (c :: m) = .I := by
      by_contra valid
      have bounded := (coherent m).bounded c (((coherent m).exact c).mpr valid)
      omega
    rcases Node.compare x y with below | above | ⟨p, c, d, apart, left, right⟩
    · obtain ⟨c, under⟩ := ((Node.suffix_iff x y).mp below).resolve_left other
      exact (coherent.below _).invalid (childless terminalX c) under
    · obtain ⟨c, under⟩ := ((Node.suffix_iff y x).mp above).resolve_left (Ne.symm other)
      have invalid := (coherent.below _).invalid (childless terminalY c) under
      rw [invalid] at excl
      cases excl
    · have writer : (l.st (c :: p)).isExclusive = true := by
        by_contra shared
        rw [(coherent.below _).shared (by simpa using shared) left] at excl
        cases excl
      exact (coherent.below _).invalid ((coherent p).other_invalid writer (Ne.symm apart)) right

/-- No assertion fails in a run whose cores do not set PREFETCH, and the directories are
exact at its end. -/
theorem coherent_throughout (h : Hierarchy) (ops : List Op)
    (legal : (h.machine.restrict NoPrefetchFlag).LegalRun ops h.init) :
    ∃ sys, h.machine.exec ops h.init = some sys ∧ ∀ a, Exact h (sys.line a) := by
  obtain ⟨sys, run, inv⟩ := (preserves_inv h).exec_restrict Sys.inv_init legal
  exact ⟨sys, run, fun a => exact_of_coherent (inv.coherent a)⟩

def twoLevels : Hierarchy where
  kids n := if n = [] then 2 else 0
  height := 1
  bounded n high := if_neg fun root => by
    rw [root] at high
    exact Nat.not_succ_le_zero 0 high
  array n :=
    if n = [] then CacheArray.zcache ZConfig.twoWays
    else CacheArray.setAssoc ⟨1, 2, id, by decide, by decide⟩
  noExclShared := true

theorem addressable_twoLevels {a : Address} (nonzero : a ≠ 0) : twoLevels.Addressable a := by
  intro n
  unfold twoLevels
  dsimp only
  split
  · exact nonzero
  · trivial

def rankFirst : Node → RankCands := fun _ => ZConfig.rankFirst

/-- Sharing, an upgrade, a transfer of a dirty line, evictions at both levels, prefetches. -/
def mixedRun : List Op := [
  .core rankFirst [0] .GETS 1 {}, .core rankFirst [1] .GETS 1 { ifetch := true, noExcl := true },
  .core rankFirst [1] .GETX 1 {}, .core rankFirst [0] .GETX 1 {}, .core rankFirst [0] .GETS 2 {},
  .prefetch rankFirst [] 1 3 {}, .core rankFirst [1] .GETX 4 {}, .core rankFirst [0] .GETX 5 {},
  .core rankFirst [0] .GETS 6 {}]

theorem mixedRun_legal {op : Op} (member : op ∈ mixedRun) (sys : Sys twoLevels) :
    (twoLevels.machine.restrict NoPrefetchFlag).legal sys op := by
  have first : twoLevels.IsCache [0] := ⟨by decide, trivial⟩
  have second : twoLevels.IsCache [1] := ⟨by decide, trivial⟩
  have core {leaf : Node} (isCache : twoLevels.IsCache leaf) (inner : leaf ≠ []) {type : AccessType}
      (isGet : type = .GETS ∨ type = .GETX) {a : Address} (nonzero : a ≠ 0) (rp : Node → RankCands)
      {flags : Flags} (noPrefetch : flags.prefetch = false) :
      (twoLevels.machine.restrict NoPrefetchFlag).legal sys (.core rp leaf type a flags) :=
    ⟨⟨isCache, if_neg inner, isGet, addressable_twoLevels nonzero⟩, noPrefetch⟩
  have prefetch : (twoLevels.machine.restrict NoPrefetchFlag).legal sys (.prefetch rankFirst [] 1 3 {}) :=
    ⟨⟨trivial, by decide, addressable_twoLevels (by decide)⟩, trivial⟩
  simp only [mixedRun, List.mem_cons, List.not_mem_nil, or_false] at member
  rcases member with rfl | rfl | rfl | rfl | rfl | rfl | rfl | rfl | rfl
  · exact core first (by decide) (.inl rfl) (by decide) _ rfl
  · exact core second (by decide) (.inl rfl) (by decide) _ rfl
  · exact core second (by decide) (.inr rfl) (by decide) _ rfl
  · exact core first (by decide) (.inr rfl) (by decide) _ rfl
  · exact core first (by decide) (.inl rfl) (by decide) _ rfl
  · exact prefetch
  · exact core second (by decide) (.inr rfl) (by decide) _ rfl
  · exact core first (by decide) (.inr rfl) (by decide) _ rfl
  · exact core first (by decide) (.inl rfl) (by decide) _ rfl

theorem coherent_throughout_mixed :
    ∃ sys, twoLevels.machine.exec mixedRun twoLevels.init = some sys ∧
      ∀ a, Exact twoLevels (sys.line a) :=
  coherent_throughout twoLevels mixedRun (Machine.along_of_forall (fun _ => mixedRun_legal) _)

/-- With any flags the claim fails: a GETS with PREFETCH that misses in a terminal cache
comes back without the line. -/
theorem prefetch_flag_fails :
    ¬ ∀ ops : List Op, twoLevels.machine.LegalRun ops twoLevels.init →
      ∃ sys, twoLevels.machine.exec ops twoLevels.init = some sys ∧
        ∀ a, Exact twoLevels (sys.line a) := by
  intro claim
  obtain ⟨sys, run, -⟩ := claim [.core rankFirst [0] .GETS 1 { prefetch := true }]
    ⟨⟨⟨by decide, trivial⟩, by decide, .inl rfl, addressable_twoLevels (by decide)⟩, fun _ _ => trivial⟩
  have panics : (twoLevels.machine.exec
      [.core rankFirst [0] .GETS 1 { prefetch := true }] twoLevels.init).isNone = true := by decide +kernel
  rw [run] at panics
  cases panics

/-! ## Dirty data -/

theorem run_keeps (h : Hierarchy) {ops : List Op} {start final : Sys h} (inv : start.Inv)
    (legal : h.machine.LegalRun ops start) (run : h.machine.exec ops start = some final) :
    final.Inv ∧ Kept start final := by
  have keeps (sys : Sys h) (op : Op) (next : Sys h) (holds : sys.Inv ∧ Kept start sys)
      (legal : h.machine.legal sys op) (run : h.machine.step sys op = some next) :
      next.Inv ∧ Kept start next := by
    obtain ⟨invNext, kept⟩ := step_keeps holds.1 legal run
    exact ⟨invNext, holds.2.trans kept⟩
  exact Machine.exec_keeps keeps ⟨inv, Kept.refl start⟩ legal run

/-- From the moment a cache has a line in M to the PUTX of that line to memory, some cache
on its path to the root has it in M.  No assertion fails on the way, unless a core sets
PREFETCH. -/
theorem dirty_kept (h : Hierarchy) (before after : List Op)
    (legal : h.machine.LegalRun (before ++ after) h.init) :
    (h.machine.Along NoPrefetchFlag (before ++ after) h.init →
      ∃ final, h.machine.exec (before ++ after) h.init = some final) ∧
    ∀ mid final, h.machine.exec before h.init = some mid → h.machine.exec after mid = some final →
      ∀ leaf a, (mid.line a).st leaf = .M →
        (∃ m, m <:+ leaf ∧ (final.line a).st m = .M) ∨
          ∃ sent, final.memory = sent ++ mid.memory ∧ (.PUTX, a) ∈ sent := by
  refine ⟨fun noPrefetch => ?_, fun mid final reached run leaf a dirty => ?_⟩
  · obtain ⟨final, run, -⟩ := (preserves_inv h).exec_restrict Sys.inv_init (legal.restrict noPrefetch)
    exact ⟨final, run⟩
  · obtain ⟨inv, -⟩ := run_keeps h Sys.inv_init (Machine.Along.of_append legal) reached
    obtain ⟨-, sent, memory, kept⟩ := run_keeps h inv (Machine.Along.append_right legal reached) run
    rcases kept a leaf ⟨leaf, List.suffix_refl leaf, dirty⟩ with above | isSent
    · exact .inl above
    · exact .inr ⟨sent, memory, isSent⟩

/-- The line that leaf 0 writes goes through leaf 1 and is still dirty in the root. -/
theorem dirty_kept_mixed :
    ∃ mid final, twoLevels.machine.exec (mixedRun.take 4) twoLevels.init = some mid ∧
      twoLevels.machine.exec (mixedRun.drop 4) mid = some final ∧
      ((∃ m, m <:+ [0] ∧ (final.line 1).st m = .M) ∨
        ∃ sent, final.memory = sent ++ mid.memory ∧ (.PUTX, 1) ∈ sent) := by
  have legal : twoLevels.machine.LegalRun (mixedRun.take 4 ++ mixedRun.drop 4) twoLevels.init :=
    Machine.along_of_forall (fun op member sys =>
      (mixedRun_legal (List.take_append_drop 4 mixedRun ▸ member) sys).1) _
  have writes : (twoLevels.machine.exec (mixedRun.take 4) twoLevels.init).map
      (fun sys => (sys.line 1).st [0]) = some .M := by decide +kernel
  have ends : ((twoLevels.machine.exec (mixedRun.take 4) twoLevels.init).bind
      (twoLevels.machine.exec (mixedRun.drop 4))).isSome = true := by decide +kernel
  obtain ⟨mid, reached, dirty⟩ := Option.map_eq_some_iff.mp writes
  rw [reached] at ends
  obtain ⟨final, run⟩ := Option.isSome_iff_exists.mp ends
  exact ⟨mid, final, reached, run, (dirty_kept twoLevels _ _ legal).2 mid final reached run [0] 1 dirty⟩

end Zsim.Coherence.Hierarchy
