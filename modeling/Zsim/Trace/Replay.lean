import Zsim.Arrays.ZRuns
import Zsim.Trace.Requests

/-!
# Trace replay is legal

The driver repairs every record against the states that its children have in the replaying
hierarchy, except for a PUTX of a line that has been downgraded, which it sends as it is.
-/

set_option autoImplicit false

namespace Zsim.Trace.Replay

open Coherence

variable {d : Config} {s next : Replay d} {a : Address} {c : Nat}

/-! ## executeAccess -/

/-- Between two records; only during a record may there be a cell with I. -/
structure Settled (s : Replay d) : Prop where
  inv : s.Inv
  noI : ∀ a c, s.stores c a ≠ some .I
  sent : ∀ request ∈ s.sent, Allowed request.1 request.2

theorem settled_init (d : Config) : (init d).Settled where
  inv := inv_init d
  noI _ _ isI := by cases isI
  sent _ member := by cases member

theorem held_of_entry {held : MESIState} (here : s.stores c a = some held) : s.stores.held a c = held := by
  unfold Stores.held
  rw [here]
  rfl

theorem sent_cons {type : AccessType} {state : MESIState}
    (sent : ∀ request ∈ s.sent, Allowed request.1 request.2) (allowed : Allowed type state)
    (isNext : next.sent = (type, state) :: s.sent) : ∀ request ∈ next.sent, Allowed request.1 request.2 := by
  intro request member
  rw [isNext] at member
  rcases List.mem_cons.mp member with rfl | before
  · exact allowed
  · exact sent request before

theorem put_spec {type : AccessType} (env : Env) (settled : s.Settled)
    (addressable : d.array.Addressable a) (bound : c < d.numChildren) (isPut : IsPut type)
    (allowed : Allowed type (s.stores.held a c)) (held : MESIState) :
    ∃ next, s.put env ⟨a, c, type⟩ held = some next ∧ next.Inv ∧ next.stores.held a c = .I ∧
      (∀ b k, next.stores k b = some .I → b = a ∧ k = c) ∧
      (∀ request ∈ next.sent, Allowed request.1 request.2) ∧
      (next.setStores (next.stores.write c a none)).Inv := by
  obtain ⟨given, mid, run, served, sent⟩ := access_spec env settled.inv addressable bound allowed held
  have gone : given = .I := by
    have grants := served.grants
    rcases isPut with rfl | rfl <;> exact grants
  subst gone
  have erased := served.inv none rfl
  refine ⟨_, ?_, served.inv (some .I) rfl, ?_, ?_, sent_cons settled.sent allowed sent, ?_⟩
  · unfold put
    rw [run]
    rfl
  · exact (congrFun (Stores.held_write _ a c (some .I)) c).trans (Function.update_self ..)
  · intro b k isI
    by_contra elsewhere
    have untouched : mid.stores k b = some .I := (Stores.write_apart _ _ elsewhere).symm.trans isI
    exact settled.noI b k (served.noI b k untouched)
  · have twice : (mid.stores.write c a (some .I)).write c a none = mid.stores.write c a none := by
      simp [Stores.write]
    simp only [setStores] at erased ⊢
    rw [twice]
    exact erased

theorem get_spec {type : AccessType} (env : Env) (inv : s.Inv) (addressable : d.array.Addressable a)
    (bound : c < d.numChildren) (isGet : type = .GETS ∨ type = .GETX)
    (allowed : Allowed type (s.stores.held a c)) (state : MESIState)
    (noI : ∀ b k, s.stores k b = some .I → b = a ∧ k = c)
    (sent : ∀ request ∈ s.sent, Allowed request.1 request.2) :
    ∃ next, s.get env ⟨a, c, type⟩ state = some next ∧ next.Settled := by
  obtain ⟨given, mid, run, served, sent'⟩ := access_spec env inv addressable bound allowed state
  have valid : given ≠ .I := by
    have grants := served.grants
    rcases isGet with rfl | rfl
    · rcases grants with rfl | rfl <;> decide
    · cases (grants : given = .M)
      decide
  refine ⟨_, ?_, served.inv (some given) rfl, ?_, sent_cons sent allowed sent'⟩
  · unfold get
    rw [run]
    exact if_pos valid
  · intro b k isI
    by_cases here : b = a ∧ k = c
    · obtain ⟨rfl, rfl⟩ := here
      have isGiven : given = .I := by simpa [setStores] using isI
      exact valid isGiven
    · have untouched : mid.stores k b = some .I := (Stores.write_apart _ _ here).symm.trans isI
      exact here (noI b k (served.noI b k untouched))

/-- A PUTX of the trace is not replayed for a line that its child holds in S. -/
def NoSharedPutx (s : Replay d) : Input → Prop
  | .record _ acc => d.playPuts = true → acc.type = .PUTX → s.stores acc.childId acc.lineAddr ≠ some .S
  | .above _ _ => True

instance (s : Replay d) : ∀ input, Decidable (NoSharedPutx s input)
  | .record _ acc => inferInstanceAs (Decidable (_ → _ → s.stores acc.childId acc.lineAddr ≠ _))
  | .above _ _ => inferInstanceAs (Decidable True)

theorem executeAccess_put {type : AccessType} (env : Env) (bound : c < d.numChildren)
    (isPut : IsPut type) (plays : d.playPuts = true) {held : MESIState}
    (here : s.stores c a = some held) :
    s.executeAccess env ⟨a, c, type⟩ = (s.put env ⟨a, c, type⟩ held).bind fun s =>
      some (s.setStores (s.stores.write c a none)) := by
  unfold executeAccess
  rw [if_pos bound]
  rcases isPut with rfl | rfl <;> simp only [plays, here, if_true] <;> rfl

/-- A PUT that is not played, or whose line the child does not have, is skipped. -/
theorem executeAccess_put_skip {type : AccessType} (env : Env) (bound : c < d.numChildren)
    (isPut : IsPut type) (skip : d.playPuts = true → s.stores c a = none) :
    s.executeAccess env ⟨a, c, type⟩ = some s := by
  unfold executeAccess
  rw [if_pos bound]
  cases plays : d.playPuts with
  | false => rcases isPut with rfl | rfl <;> rfl
  | true => rcases isPut with rfl | rfl <;> simp only [skip plays, if_true]

theorem executePut_spec {acc : AccessRecord} (env : Env) (settled : s.Settled)
    (isLegal : legal s (.record env acc)) (isPut : IsPut acc.type)
    (safe : NoSharedPutx s (.record env acc)) :
    ∃ next, s.executeAccess env acc = some next ∧ next.Settled := by
  obtain ⟨bound, addressable⟩ := isLegal
  obtain ⟨a, c, type⟩ := acc
  dsimp only at bound addressable isPut
  cases plays : d.playPuts with
  | false =>
    refine ⟨s, executeAccess_put_skip env bound isPut fun isPlayed => ?_, settled⟩
    cases plays.symm.trans isPlayed
  | true =>
    cases here : s.stores c a with
    | none => exact ⟨s, executeAccess_put_skip env bound isPut fun _ => here, settled⟩
    | some held =>
      rw [executeAccess_put env bound isPut plays here]
      have isHeld := held_of_entry here
      have valid : held ≠ .I := fun isI => settled.noI a c (isI ▸ here)
      have allowed : Allowed type (s.stores.held a c) := by
        rw [isHeld]
        rcases isPut with rfl | rfl
        · exact valid
        · have notS : held ≠ .S := fun isS => safe plays rfl (isS ▸ here)
          cases held <;> first | rfl | contradiction
      obtain ⟨next, run, -, -, only, sent, erased⟩ :=
        put_spec env settled addressable bound isPut allowed held
      refine ⟨_, by rw [run]; rfl, erased, fun b k isI => ?_, sent⟩
      by_cases there : b = a ∧ k = c
      · obtain ⟨rfl, rfl⟩ := there
        simp [setStores] at isI
      · exact there (only b k ((Stores.write_apart _ _ there).symm.trans isI))

theorem executeAccess_get {type : AccessType} (env : Env) (bound : c < d.numChildren)
    (isGet : type = .GETS ∨ type = .GETX) (here : s.stores c a = none) :
    s.executeAccess env ⟨a, c, type⟩ = s.get env ⟨a, c, type⟩ .I := by
  unfold executeAccess
  rw [if_pos bound]
  rcases isGet with rfl | rfl <;> simp only [here]

theorem executeAccess_get_held {type : AccessType} (env : Env) (bound : c < d.numChildren)
    (isGet : type = .GETS ∨ type = .GETX) {held : MESIState} (here : s.stores c a = some held) :
    s.executeAccess env ⟨a, c, type⟩ =
      if held = .S ∧ type = .GETX then s.get env ⟨a, c, type⟩ held
      else if d.playAllGets then do
        let s ← s.put env ⟨a, c, if held = .M then .PUTX else .PUTS⟩ held
        s.get env ⟨a, c, type⟩ .I
      else some s := by
  unfold executeAccess
  rw [if_pos bound]
  rcases isGet with rfl | rfl <;> simp only [here]

theorem executeGet_spec {acc : AccessRecord} (env : Env) (settled : s.Settled)
    (isLegal : legal s (.record env acc)) (isGet : acc.type = .GETS ∨ acc.type = .GETX) :
    ∃ next, s.executeAccess env acc = some next ∧ next.Settled := by
  obtain ⟨bound, addressable⟩ := isLegal
  obtain ⟨a, c, type⟩ := acc
  dsimp only at bound addressable isGet
  have invalid {state : MESIState} (isI : state = .I) : Allowed type state := by
    rw [isI]
    rcases isGet with rfl | rfl <;> rfl
  have noI (b : Address) (k : Nat) (isI : s.stores k b = some .I) : b = a ∧ k = c :=
    absurd isI (settled.noI b k)
  cases here : s.stores c a with
  | none =>
    have absent : s.stores.held a c = .I := by
      unfold Stores.held
      rw [here]
      rfl
    rw [executeAccess_get env bound isGet here]
    exact get_spec env settled.inv addressable bound isGet (invalid absent) .I noI settled.sent
  | some held =>
    have isHeld := held_of_entry here
    rw [executeAccess_get_held env bound isGet here]
    by_cases upgrade : held = .S ∧ type = .GETX
    · rw [if_pos upgrade]
      obtain ⟨rfl, rfl⟩ := upgrade
      have allowed : Allowed .GETX (s.stores.held a c) := by
        rw [isHeld]
        rfl
      exact get_spec env settled.inv addressable bound isGet allowed .S noI settled.sent
    · rw [if_neg upgrade]
      cases plays : d.playAllGets with
      | false => exact ⟨s, rfl, settled⟩
      | true =>
        rw [if_pos rfl]
        have valid : held ≠ .I := fun isI => settled.noI a c (isI ▸ here)
        have isPut : IsPut (if held = .M then .PUTX else .PUTS) := by
          split
          · exact .inr rfl
          · exact .inl rfl
        have allowed : Allowed (if held = .M then .PUTX else .PUTS) (s.stores.held a c) := by
          rw [isHeld]
          split
          next isM =>
            rw [isM]
            rfl
          · exact valid
        obtain ⟨mid, put, invMid, gone, only, sent, -⟩ :=
          put_spec env settled addressable bound isPut allowed held
        obtain ⟨next, get, done⟩ :=
          get_spec env invMid addressable bound isGet (invalid gone) .I only sent
        exact ⟨next, by rw [put]; exact get, done⟩

theorem Settled.step {input : Input} (settled : s.Settled) (isLegal : legal s input)
    (safe : NoSharedPutx s input) : ∃ next, Replay.step s input = some next ∧ next.Settled := by
  cases input with
  | record env acc =>
    cases type : acc.type with
    | GETS => exact executeGet_spec env settled isLegal (.inl type)
    | GETX => exact executeGet_spec env settled isLegal (.inr type)
    | PUTS => exact executePut_spec env settled isLegal (.inl type) safe
    | PUTX => exact executePut_spec env settled isLegal (.inr type) safe
  | above type a =>
    obtain ⟨next, run, inv, -, noI, sent⟩ := fromAbove_spec settled.inv type a
    exact ⟨next, run, inv, fun b k isI => settled.noI b k (noI b k isI), sent ▸ settled.sent⟩

theorem bottomAccess_putx {id : Nat} {above : Above} (run : s.bottomAccess a id .PUTX above = some next) :
    next.dir = s.dir := by
  unfold bottomAccess at run
  obtain ⟨⟨state, asks⟩, access, run⟩ := Option.bind_eq_some_iff.mp run
  simp only [MESIBottomCC.access, Option.ite_none_right_eq_some, Option.some.injEq] at access
  obtain ⟨-, rfl, rfl⟩ := access
  cases run
  rfl

theorem topAccess_refuses {id : Nat} (shared : (s.dir id).isExclusive = false)
    (childState : MESIState) : s.topAccess ⟨a, c, .PUTX⟩ childState id = none := by
  simp [topAccess, MESITopCC.processAccess, shared]

/-- The cache above the driver refuses a PUTX from a child that is not the exclusive sharer. -/
theorem access_refuses (env : Env) (inv : s.Inv) (shared : s.stores.held a c = .S)
    (childState : MESIState) : s.access env ⟨a, c, .PUTX⟩ childState = none := by
  have entry := inv.coherent a
  have valid : s.stores.held a c ≠ .I := by
    rw [shared]
    decide
  have noExcl : (s.entry a).isExclusive = false := by
    rw [← entry.isExclusive_eq ((entry.exact c).mpr valid), shared]
    rfl
  obtain ⟨id, found⟩ := find_of_valid (entry.inclusive c valid)
  rw [entry_of_find found] at noExcl
  have noRace : checkForMESIRace .PUTX childState childState = some (.PUTX, false) := by
    simp [checkForMESIRace]
  have lookup : d.array.lookup (s.log .PUTX (s.stores.held a c)).array a = some (some id) :=
    find_eq_some.mp found
  have refused : (s.log .PUTX (s.stores.held a c)).processAccess env ⟨a, c, .PUTX⟩ childState id =
      none := by
    unfold processAccess
    split
    · rfl
    · rw [Option.bind_eq_bind, Option.bind_eq_none_iff]
      intro mid fetch
      apply topAccess_refuses
      rw [bottomAccess_putx fetch]
      exact noExcl
  unfold access
  dsimp only
  rw [noRace]
  dsimp only [Option.bind_eq_bind, Option.bind_some]
  rw [if_neg Bool.false_ne_true, lookup]
  exact refused

theorem step_fails {input : Input} (settled : s.Settled) (isLegal : legal s input)
    (stale : ¬ NoSharedPutx s input) : Replay.step s input = none := by
  cases input with
  | above type a => exact absurd trivial stale
  | record env acc =>
    obtain ⟨bound, -⟩ := isLegal
    obtain ⟨a, c, type⟩ := acc
    simp only [NoSharedPutx, not_forall, not_not] at stale
    obtain ⟨plays, isPutx, here⟩ := stale
    dsimp only at bound isPutx here
    subst isPutx
    have refused := access_refuses env settled.inv (held_of_entry here) .S
    have noPut : s.put env ⟨a, c, .PUTX⟩ .S = none := by
      unfold put
      rw [refused]
      rfl
    dsimp only [Replay.step, executeAccess]
    rw [if_pos bound, if_pos plays, here]
    dsimp only
    rw [noPut]
    rfl

/-! ## Runs -/

/-- The stores and the directory say the same of every line, and every request was legal. -/
structure Mirrored (s : Replay d) : Prop where
  sharer : ∀ c a, (∃ state, s.stores c a = some state ∧ state ≠ .I) ↔ (s.entry a).sharers c = true
  exclusive : ∀ c a, (∃ state, s.stores c a = some state ∧ (state = .E ∨ state = .M)) ↔
    (s.entry a).sharers c = true ∧ (s.entry a).isExclusive = true
  requests : ∀ request ∈ s.sent, Allowed request.1 request.2

theorem Settled.mirrored (settled : s.Settled) : s.Mirrored where
  sharer c a := by
    rw [(settled.inv.coherent a).exact c]
    constructor
    · rintro ⟨state, here, valid⟩
      rwa [held_of_entry here]
    · intro valid
      exact ⟨_, Stores.some_of_held valid, valid⟩
  exclusive c a := by
    have entry := settled.inv.coherent a
    have isExcl (state : MESIState) : state = .E ∨ state = .M ↔ state.isExclusive = true := by
      cases state <;> simp
    simp only [isExcl]
    constructor
    · rintro ⟨state, here, excl⟩
      rw [← held_of_entry here] at excl
      have sharer := (entry.exact c).mpr (MESIState.ne_I_of_isExclusive excl)
      exact ⟨sharer, (entry.isExclusive_eq sharer).symm.trans excl⟩
    · rintro ⟨sharer, excl⟩
      have valid := (entry.exact c).mp sharer
      exact ⟨_, Stores.some_of_held valid, (entry.isExclusive_eq sharer).trans excl⟩
  requests := settled.sent

/-- Whatever the trace, the parameters of the driver, the cache and what is above it: no assertion
fails exactly if no PUTX is replayed for a line in S, and then the stores and the directory agree
all the time and every request is legal. -/
theorem replay_legal_iff {inputs : List Input} (isLegal : (machine d).LegalRun inputs (init d)) :
    ((∃ final, (machine d).exec inputs (init d) = some final) ∧
      (machine d).Throughout Mirrored inputs (init d)) ↔
      (machine d).Along NoSharedPutx inputs (init d) := by
  have preserves : ((machine d).restrict NoSharedPutx).Preserves Settled :=
    fun _ _ settled both => settled.step both.1 both.2
  have keeps (s : Replay d) (input : Input) (next : Replay d) (settled : s.Settled)
      (safe : NoSharedPutx s input) (isLegal : legal s input)
      (step : Replay.step s input = some next) : next.Settled := by
    exact preserves.keeps settled ⟨isLegal, safe⟩ step
  constructor
  · rintro ⟨⟨final, run⟩, -⟩
    exact isLegal.along_of_exec keeps (fun _ _ settled isLegal stale => step_fails settled isLegal stale)
      (settled_init d) run
  · intro safe
    have restricted := isLegal.restrict safe
    obtain ⟨final, run, -⟩ := preserves.exec_restrict (settled_init d) restricted
    refine ⟨⟨final, run⟩, ?_⟩
    rintro first rest mid rfl reached
    have settled := Machine.exec_keeps_restrict
      (fun s input next settled isLegal safe step => keeps s input next settled safe isLegal step)
      (settled_init d) restricted.of_append reached
    exact settled.mirrored

theorem oneSet_isPow2 : 1 ≠ 0 ∧ 1 &&& (1 - 1) = 0 := by decide

/-- Two children below a cache of one set of two ways, with everything played. -/
def twoProxies : Config where
  numChildren := 2
  playPuts := true
  playAllGets := true
  array := .setAssoc ⟨1, 2, id, oneSet_isPow2, Nat.two_pos⟩

/-- The caches above give E and take nothing. -/
def quiet : Env := ⟨ZConfig.rankFirst, ⟨true, []⟩, ⟨true, []⟩⟩

def played (c : Nat) (type : AccessType) (a : Address) : Input := .record quiet ⟨a, c, type⟩

theorem legal_played {c : Nat} (bound : c < 2) (type : AccessType) (a : Address)
    (s : Replay twoProxies) : (machine twoProxies).legal s (played c type a) := ⟨bound, trivial⟩

/-- A downgrade, an upgrade, a GET of a dirty line, the eviction of another one, PUTs of
lines that are held and that are not, and an invalidation from above. -/
def mixedTrace : List Input := [
  played 0 .GETS 1, played 1 .GETS 1, played 1 .PUTS 1, played 0 .GETX 1, played 0 .GETS 1,
  played 0 .PUTX 1, played 1 .GETX 1, played 0 .GETX 2, played 0 .GETS 3, .above .INV 3,
  played 1 .PUTX 1]

theorem mixedTrace_legal (s : Replay twoProxies) : ∀ input ∈ mixedTrace,
    (machine twoProxies).legal s input := by
  intro input member
  simp only [mixedTrace, List.mem_cons, List.not_mem_nil, or_false] at member
  rcases member with rfl | rfl | rfl | rfl | rfl | rfl | rfl | rfl | rfl | rfl | rfl
  all_goals first
    | exact legal_played (by omega) _ _ s
    | trivial

theorem replay_legal_iff_mixed :
    (∃ final, (machine twoProxies).exec mixedTrace (init twoProxies) = some final) ∧
      (machine twoProxies).Throughout Mirrored mixedTrace (init twoProxies) :=
  (replay_legal_iff (Machine.along_of_forall (fun input member s => mixedTrace_legal s input member) _)).mpr
    (by decide +kernel)

/-- The line is in S when the PUTX comes that was recorded below another cache. -/
theorem shared_putx_fails :
    ¬ ∀ inputs, (machine twoProxies).LegalRun inputs (init twoProxies) →
      ∃ final, (machine twoProxies).exec inputs (init twoProxies) = some final := by
  intro claim
  obtain ⟨final, run⟩ := claim [played 1 .GETS 1, played 0 .GETS 1, played 0 .PUTX 1]
    ⟨legal_played (by omega) _ _ _, fun _ _ => ⟨legal_played (by omega) _ _ _, fun _ _ =>
      ⟨legal_played (by omega) _ _ _, fun _ _ => trivial⟩⟩⟩
  have fails : ((machine twoProxies).exec [played 1 .GETS 1, played 0 .GETS 1, played 0 .PUTX 1]
      (init twoProxies)).isNone = true := by decide +kernel
  rw [run] at fails
  cases fails

end Zsim.Trace.Replay
