import Zsim.Filter.Operations

/-!
# The filter refines the plain cache

A core with the filter and one without it take the same steps.  The caches have the same
tags and states, and their policies order the lines of each set in the same way: a load
or store that hits in the filter would have touched the most recent line of its set.
-/

set_option autoImplicit false

namespace Zsim.Filter

open Coherence

namespace L1

variable {c : L1Config}

/-- The second cache may have seen more accesses. -/
structure Agree (c : L1Config) (s t : L1) : Prop where
  tags : t.tags = s.tags
  states : t.states = s.states
  order : ∀ lineAddr, LRUReplPolicy.SameOrder (c.array.set lineAddr) s.rp t.rp
  fits : s.rp.Fits
  fits' : t.rp.Fits
  le : s.rp.timestamp ≤ t.rp.timestamp

/-- The accesses that a cache has still to tell its policy about. -/
def due : Option Miss → Nat
  | some ⟨_, _, _, .evicting⟩ => 1
  | _ => 0

/-- Two caches after the same operation, the second of which has told its policy about
at most `n` accesses. -/
def Agreed (c : L1Config) (n : Nat) (x y : L1 × Option Miss) : Prop :=
  x.1.Agree c y.1 ∧ y.2 = x.2 ∧ y.1.rp.timestamp + due y.2 ≤ n

theorem Agree.victim {s t : L1} (agree : s.Agree c t) (lineAddr : Nat) :
    (c.array.preinsert t.tags lineAddr (t.rp.rankCands t.isValid)).1 =
      (c.array.preinsert s.tags lineAddr (s.rp.rankCands s.isValid)).1 := by
  have valid : t.isValid = s.isValid := by
    funext id
    rw [isValid, isValid, agree.states]
  change t.rp.rank t.isValid _ = s.rp.rank s.isValid _
  rw [valid]
  exact ((agree.order lineAddr).rank agree.fits agree.fits' _).symm

theorem Agree.setState {s t : L1} (agree : s.Agree c t) (id : Nat) (state : MESIState) :
    (s.setState id state).Agree c (t.setState id state) where
  tags := agree.tags
  states := by rw [setState_states, setState_states, agree.states]
  order := agree.order
  fits := agree.fits
  fits' := agree.fits'
  le := agree.le

theorem Agree.update {s t : L1} (agree : s.Agree c t) (room : t.rp.timestamp < 2 ^ 32) (id : Nat) :
    Agree c { s with rp := s.rp.update id } { t with rp := t.rp.update id } where
  tags := agree.tags
  states := agree.states
  order lineAddr := (agree.order lineAddr).update agree.fits agree.fits' id
  fits := agree.fits.update (Nat.lt_of_le_of_lt agree.le room) id
  fits' := agree.fits'.update room id
  le := by
    change (s.rp.update id).timestamp ≤ (t.rp.update id).timestamp
    rw [agree.fits.update_timestamp, agree.fits'.update_timestamp]
    exact Nat.succ_le_succ agree.le

theorem Agree.update_right {s t : L1} (agree : s.Agree c t) (room : t.rp.timestamp < 2 ^ 32)
    {lineAddr id : Nat} (present : s.Present c lineAddr id) :
    Agree c s { t with rp := t.rp.update id } where
  tags := agree.tags
  states := agree.states
  order other := by
    have member := (SetAssocConfig.lookup_sound present.found).1
    refine (agree.order other).update_right agree.fits' (fun here => ?_) fun _ => present.used
    have same : c.array.set other = c.array.set lineAddr := L1Config.set_congr
      ((L1Config.mem_set_iff.mp here).symm.trans (L1Config.mem_set_iff.mp member))
    rw [same]
    exact present.recent
  fits := agree.fits
  fits' := agree.fits'.update room id
  le := by
    change s.rp.timestamp ≤ (t.rp.update id).timestamp
    rw [agree.fits'.update_timestamp]
    exact Nat.le_succ_of_le agree.le

theorem Agree.processAccess {s t : L1} (agree : s.Agree c t) (type : AccessType)
    (lineAddr id : Nat) {n : Nat} (spent : t.rp.timestamp ≤ n) :
    Option.Rel (Agreed c n) (s.processAccess type lineAddr id) (t.processAccess type lineAddr id) := by
  unfold L1.processAccess
  rw [agree.states]
  cases MESIBottomCC.access type (s.states id) with
  | none => exact .none
  | some result =>
      obtain ⟨state, get⟩ := result
      simp only [Option.bind_eq_bind, Option.bind_some]
      split
      · exact .some ⟨agree.setState id state, rfl, spent⟩
      · split
        · exact .some ⟨agree.setState id state, rfl, spent⟩
        · exact .none

theorem Agree.allocate {s t : L1} (agree : s.Agree c t) (type : AccessType) (lineAddr id : Nat)
    {n : Nat} (spent : t.rp.timestamp < n) (word : n ≤ 2 ^ 32) :
    Option.Rel (Agreed c n) (s.allocate type lineAddr id) (t.allocate type lineAddr id) := by
  unfold L1.allocate
  rw [agree.states, agree.tags]
  split
  case isFalse => exact .none
  case isTrue =>
    have inserted : Agree c
        ⟨SetAssocConfig.postinsert s.tags lineAddr id, s.rp.replaced id, s.states⟩
        ⟨SetAssocConfig.postinsert s.tags lineAddr id, t.rp.replaced id, s.states⟩ :=
      { tags := rfl
        states := rfl
        order := fun other => (agree.order other).replaced id
        fits := agree.fits.replaced id
        fits' := agree.fits'.replaced id
        le := agree.le }
    refine (inserted.update (Nat.lt_of_lt_of_le spent word) id).processAccess type lineAddr id ?_
    change ((t.rp.replaced id).update id).timestamp ≤ n
    rw [inserted.fits'.update_timestamp]
    exact spent

theorem Agree.access {s t : L1} (agree : s.Agree c t) (type : AccessType) (lineAddr : Nat)
    {n : Nat} (spent : t.rp.timestamp < n) (word : n ≤ 2 ^ 32) :
    Option.Rel (Agreed c n) (s.access c type lineAddr) (t.access c type lineAddr) := by
  have room := Nat.lt_of_lt_of_le spent word
  unfold L1.access
  rw [agree.tags]
  cases c.array.lookup s.tags lineAddr with
  | some id =>
      have counted : (t.rp.update id).timestamp ≤ n := by
        rw [agree.fits'.update_timestamp]
        exact spent
      have step := (agree.update room id).processAccess type lineAddr id counted
      rw [agree.tags] at step
      exact step
  | none =>
      have victim := agree.victim lineAddr
      rw [agree.tags] at victim
      dsimp only
      rw [victim, agree.states]
      generalize (c.array.preinsert s.tags lineAddr (s.rp.rankCands s.isValid)).1 = id
      cases MESIBottomCC.evict (s.states id) false with
      | none => exact .none
      | some result =>
          obtain ⟨state, put⟩ := result
          simp only [Option.bind_eq_bind, Option.bind_some]
          split
          · exact .some ⟨agree.setState id state, rfl, spent⟩
          · exact (agree.setState id state).allocate type lineAddr id spent word

/-- An access that would change nothing but the recency of its line. -/
theorem Agree.access_right {s t : L1} (agree : s.Agree c t) {isLoad : Bool} {lineAddr : Nat}
    {n : Nat} (spent : t.rp.timestamp < n) (word : n ≤ 2 ^ 32)
    (held : s.Held c lineAddr (isLoad = false)) :
    ∃ t', t.access c (get isLoad) lineAddr = some (t', none) ∧ s.Agree c t' ∧ t'.rp.timestamp ≤ n := by
  obtain ⟨id, present, valid, exclusive⟩ := held
  have room := Nat.lt_of_lt_of_le spent word
  have same : (if isLoad then s.states id else .M) = s.states id := by
    cases isLoad with
    | false => exact (exclusive rfl).symm
    | true => rfl
  have run : t.access c (get isLoad) lineAddr =
      some (L1.setState { t with rp := t.rp.update id } id (s.states id), none) := by
    rw [L1.access, agree.tags, present.found]
    dsimp only
    rw [L1.processAccess, agree.states]
    rcases get_cases isLoad (s.states id) with request | ⟨-, hit, done⟩
    · cases isLoad with
      | false =>
          rw [exclusive rfl] at request
          cases request
      | true =>
          cases state : s.states id with
          | I => exact absurd state valid
          | S | E | M =>
              rw [state] at request
              cases request
    · rw [same] at hit done
      simp [hit, done]
  refine ⟨_, run, ?_, ?_⟩
  · have kept := agree.update_right room present
    refine ⟨kept.tags, ?_, kept.order, kept.fits, kept.fits', kept.le⟩
    rw [setState_states]
    change Function.update t.states id (s.states id) = s.states
    rw [agree.states, Function.update_eq_self]
  · rw [setState_rp]
    change (t.rp.update id).timestamp ≤ n
    rw [agree.fits'.update_timestamp]
    exact spent

theorem Agree.putDone {s t : L1} (agree : s.Agree c t) (m : Miss) {n : Nat}
    (spent : t.rp.timestamp < n) (word : n ≤ 2 ^ 32) :
    Option.Rel (Agreed c n) (s.putDone m) (t.putDone m) :=
  (agree.setState m.id .I).allocate m.type m.lineAddr m.id spent word

theorem Agree.finishInvalidate {s t : L1} (agree : s.Agree c t) (type : InvType) (lineAddr : Nat) :
    Option.Rel (fun x y => x.Agree c y ∧ y.rp = t.rp) (s.finishInvalidate c type lineAddr)
      (t.finishInvalidate c type lineAddr) := by
  unfold L1.finishInvalidate
  rw [agree.tags]
  cases c.array.lookup s.tags lineAddr with
  | none => exact .none
  | some id =>
      simp only [Option.bind_eq_bind, Option.bind_some, agree.states]
      cases MESIBottomCC.processInval type (s.states id) with
      | none => exact .none
      | some result => exact .some ⟨agree.setState id result.1, rfl⟩

end L1

/-! ## The two cores -/

variable {c : L1Config}

def Op.isAccess : Op → Bool
  | .load _ | .store _ => true
  | _ => false

/-- The loads and stores of a run. -/
def accesses (ops : List Op) : Nat := ops.countP Op.isAccess

/-- The cores agree, and no policy gets past 32 bits in the operations to come. -/
structure InStep (c : L1Config) (ops : List Op) (s : Filtered) (t : Plain) : Prop where
  cache : s.cache.Agree c t.cache
  miss : t.miss = s.miss
  procMask : t.procMask = s.procMask
  inv : FilterInv c s
  word : t.cache.rp.timestamp + L1.due t.miss + accesses ops ≤ 2 ^ 32

theorem due_of_isNone {miss : Option Miss} (idle : miss.isNone = true) : L1.due miss = 0 := by
  rw [Option.isNone_iff_eq_none.mp idle]
  rfl

theorem InStep.init (c : L1Config) {ops : List Op} (few : accesses ops < 2 ^ 32) :
    InStep c ops Filtered.init Plain.init where
  cache := ⟨rfl, rfl, fun _ => .refl _ _, .init, .init, le_rfl⟩
  miss := rfl
  procMask := rfl
  inv := .init c
  word := by
    change 1 + 0 + accesses ops ≤ 2 ^ 32
    omega

theorem InStep.fits {ops : List Op} {s : Filtered} {t : Plain} (both : InStep c ops s t) :
    s.cache.rp.Fits := both.cache.fits

theorem InStep.accessed {rest : List Op} {s : Filtered} {procMask n : Nat}
    {result result' : Option (L1 × Option Miss)} (step : Option.Rel (L1.Agreed c n) result result')
    (own : procMask = s.procMask) (word : n + accesses rest ≤ 2 ^ 32)
    (inv : ∀ x, result = some x → FilterInv c (s.accessed c x.1 x.2)) :
    Option.Rel (InStep c rest) (result.bind fun x => some (s.accessed c x.1 x.2))
      (result'.bind fun y => some ⟨y.1, y.2, procMask⟩) := by
  cases step with
  | none => exact .none
  | @some x y agreed =>
      obtain ⟨agree, miss, spent⟩ := agreed
      have state := inv x rfl
      refine .some ⟨?_, ?_, ?_, state, ?_⟩
      · rw [Filtered.accessed]
        split <;> exact agree
      · rw [Filtered.accessed]
        split <;> exact miss
      · rw [Filtered.accessed]
        split <;> exact own
      · change y.1.rp.timestamp + L1.due y.2 + accesses rest ≤ 2 ^ 32
        omega

/-- A load (`isLoad`) or store, which hits in the filter if `hits`. -/
theorem InStep.access {op : Op} {rest : List Op} {s : Filtered} {t : Plain}
    (both : InStep c (op :: rest) s t) (isAccess : op.isAccess = true)
    (idle : s.miss.isNone = true) {vAddr : Nat} (line : c.Line (vAddr >>> c.lineBits))
    (isLoad : Bool) (hits : Prop) [Decidable hits]
    (sound : hits → s.cache.Held c (s.procMask ||| vAddr >>> c.lineBits) (isLoad = false)) :
    Option.Rel (InStep c rest) (if hits then some s else s.replace c (vAddr >>> c.lineBits) isLoad)
      (t.access c (get isLoad) vAddr) := by
  have idle' : L1.due t.miss = 0 := by
    rw [both.miss]
    exact due_of_isNone idle
  have word := both.word
  rw [accesses, List.countP_cons_of_pos isAccess, idle'] at word
  change t.cache.rp.timestamp + 0 + (accesses rest + 1) ≤ 2 ^ 32 at word
  unfold Plain.access
  rw [both.procMask]
  split
  case isTrue hit =>
    obtain ⟨cache, run, agree, spent⟩ := both.cache.access_right
      (Nat.lt_succ_self t.cache.rp.timestamp) (by omega) (sound hit)
    rw [run]
    refine .some ⟨agree, (Option.isNone_iff_eq_none.mp idle).symm, rfl, both.inv, ?_⟩
    change cache.rp.timestamp + 0 + accesses rest ≤ 2 ^ 32
    omega
  case isFalse =>
    have step := both.cache.access (get isLoad) (s.procMask ||| vAddr >>> c.lineBits)
      (Nat.lt_succ_self t.cache.rp.timestamp) (by omega)
    refine InStep.accessed (s := { s with vLineAddr := vAddr >>> c.lineBits, isLoad := isLoad })
      step rfl (by omega) fun x result => ?_
    exact both.inv.replace both.fits idle line (Option.bind_eq_some_iff.mpr ⟨x, result, rfl⟩)

theorem InStep.putDone {rest : List Op} {s : Filtered} {t : Plain}
    (both : InStep c (.putDone :: rest) s t) :
    Option.Rel (InStep c rest) (s.putDone c) t.putDone := by
  have word := both.word
  change _ + _ + accesses rest ≤ _ at word
  have keeps : ∀ next, s.putDone c = some next → FilterInv c next := fun _ =>
    both.inv.putDone both.fits
  unfold Filtered.putDone at keeps ⊢
  unfold Plain.putDone
  rw [both.miss] at word ⊢
  cases open' : s.miss with
  | none => exact .none
  | some m =>
      rw [open'] at keeps word
      simp only [Option.bind_eq_bind, Option.bind_some] at keeps ⊢
      split
      case isFalse => exact .none
      case isTrue evicting =>
        rw [if_pos evicting] at keeps
        have pending : L1.due (some m) = 1 := by
          obtain ⟨type, lineAddr, id, stage⟩ := m
          cases evicting
          rfl
        have step := both.cache.putDone m (Nat.lt_succ_self t.cache.rp.timestamp) (by omega)
        refine InStep.accessed step both.procMask (by omega) fun x result =>
          keeps _ (Option.bind_eq_some_iff.mpr ⟨x, result, rfl⟩)

theorem InStep.granted {rest : List Op} {s : Filtered} {t : Plain} {state : MESIState}
    (both : InStep c (.granted state :: rest) s t) :
    Option.Rel (InStep c rest) (s.granted c state) (t.granted state) := by
  have word := both.word
  change _ + _ + accesses rest ≤ _ at word
  have keeps : ∀ next, s.granted c state = some next → FilterInv c next := fun _ =>
    both.inv.granted
  unfold Filtered.granted at keeps ⊢
  unfold Plain.granted
  rw [both.miss] at word ⊢
  cases open' : s.miss with
  | none => exact .none
  | some m =>
      rw [open'] at keeps
      simp only [Option.bind_eq_bind, Option.bind_some, L1.granted] at keeps ⊢
      split
      case isFalse => exact .none
      case isTrue fetching =>
        rw [if_pos fetching] at keeps
        split
        case isFalse => exact .none
        case isTrue done =>
          rw [if_pos done] at keeps
          refine .some ⟨both.cache.setState m.id state, rfl, both.procMask, keeps _ rfl, ?_⟩
          change t.cache.rp.timestamp + 0 + accesses rest ≤ 2 ^ 32
          omega

theorem InStep.invalidate {rest : List Op} {s : Filtered} {t : Plain} {procIdx lineAddr : Nat}
    {type : InvType} (both : InStep c (.invalidate procIdx lineAddr type :: rest) s t)
    (covered : s.Takes c lineAddr type → c.procMask procIdx = s.procMask) :
    Option.Rel (InStep c rest) (s.invalidate c (c.procMask procIdx) lineAddr type)
      (t.invalidate c lineAddr type) := by
  have word := both.word
  change _ + _ + accesses rest ≤ _ at word
  have keeps : ∀ next, s.invalidate c (c.procMask procIdx) lineAddr type = some next →
      FilterInv c next := fun _ => both.inv.invalidate covered
  have step := both.cache.finishInvalidate type lineAddr
  unfold Filtered.invalidate at keeps ⊢
  unfold Plain.invalidate
  cases result : s.cache.finishInvalidate c type lineAddr with
  | none =>
      rw [result] at step
      cases result' : t.cache.finishInvalidate c type lineAddr with
      | none => exact .none
      | some y =>
          rw [result'] at step
          cases step
  | some x =>
      rw [result] at step keeps
      cases result' : t.cache.finishInvalidate c type lineAddr with
      | none =>
          rw [result'] at step
          cases step
      | some y =>
          rw [result'] at step
          cases step with
          | some agreed =>
              refine .some ⟨agreed.1, both.miss, both.procMask, keeps _ rfl, ?_⟩
              change y.rp.timestamp + L1.due t.miss + accesses rest ≤ 2 ^ 32
              rw [agreed.2]
              exact word

theorem InStep.contextSwitch {rest : List Op} {s : Filtered} {t : Plain} {procIdx : Nat}
    (both : InStep c (.contextSwitch procIdx :: rest) s t) (idle : s.miss.isNone = true) :
    InStep c rest (s.contextSwitch (c.procMask procIdx)) { t with procMask := c.procMask procIdx } where
  cache := both.cache
  miss := both.miss
  procMask := rfl
  inv := .contextSwitch idle procIdx
  word := both.word

theorem InStep.step (op : Op) (rest : List Op) (s : Filtered) (t : Plain)
    (both : InStep c (op :: rest) s t) (legal : (filtered c).legal s op)
    (covered : s.sameProcess c op) :
    Option.Rel (InStep c rest) ((filtered c).step s op) ((plain c).step t op) := by
  cases op with
  | load vAddr =>
      obtain ⟨idle, word, nonzero⟩ := legal
      have line := L1Config.Line.of_vAddr word nonzero
      refine both.access rfl idle line true (s.loadHits c _) fun hits => ?_
      obtain ⟨id, present, valid, -⟩ := both.inv.held _ line hits (Filtered.not_replacing idle _)
      exact ⟨id, present, valid, (by simp)⟩
  | store vAddr =>
      obtain ⟨idle, word, nonzero⟩ := legal
      have line := L1Config.Line.of_vAddr word nonzero
      refine both.access rfl idle line false (s.storeHits c _) fun hits => ?_
      obtain ⟨id, present, valid, exclusive⟩ :=
        both.inv.held _ line (both.inv.loadHits line hits) (Filtered.not_replacing idle _)
      exact ⟨id, present, valid, fun _ => exclusive hits⟩
  | putDone => exact both.putDone
  | granted state => exact both.granted
  | invalidate procIdx lineAddr type => exact both.invalidate covered
  | contextSwitch procIdx => exact .some (both.contextSwitch legal)

/-! ## The refinement -/

/-- What the core with the filter has in common with the one without. -/
structure Refines (c : L1Config) (s : Filtered) (t : Plain) : Prop where
  tags : s.cache.tags = t.cache.tags
  states : s.cache.states = t.cache.states
  victims : ∀ lineAddr,
    c.array.preinsert s.cache.tags lineAddr (s.cache.rp.rankCands s.cache.isValid) =
      c.array.preinsert t.cache.tags lineAddr (t.cache.rp.rankCands t.cache.isValid)
  /-- a load that hits in the filter would hit in the cache -/
  loads : ∀ vAddr, (filtered c).legal s (.load vAddr) → s.loadHits c (vAddr >>> c.lineBits) →
    ∃ id, c.array.lookup s.cache.tags (s.procMask ||| vAddr >>> c.lineBits) = some id ∧
      s.cache.states id ≠ .I
  stores : ∀ vAddr, (filtered c).legal s (.store vAddr) → s.storeHits c (vAddr >>> c.lineBits) →
    ∃ id, c.array.lookup s.cache.tags (s.procMask ||| vAddr >>> c.lineBits) = some id ∧
      s.cache.states id = .M

theorem InStep.refines {s : Filtered} {t : Plain} (both : InStep c [] s t) : Refines c s t := by
  refine ⟨both.cache.tags.symm, both.cache.states.symm, fun lineAddr => ?_, fun vAddr legal hits => ?_,
    fun vAddr legal hits => ?_⟩
  · have victim := both.cache.victim lineAddr
    refine Prod.ext victim.symm ?_
    change s.cache.tags _ = t.cache.tags _
    rw [both.cache.tags]
    exact congrArg s.cache.tags victim.symm
  · have line := L1Config.Line.of_vAddr legal.2.1 legal.2.2
    obtain ⟨id, present, valid, -⟩ := both.inv.held _ line hits (Filtered.not_replacing legal.1 _)
    exact ⟨id, present.found, valid⟩
  · have line := L1Config.Line.of_vAddr legal.2.1 legal.2.2
    obtain ⟨id, present, -, exclusive⟩ :=
      both.inv.held _ line (both.inv.loadHits line hits) (Filtered.not_replacing legal.1 _)
    exact ⟨id, present.found, exclusive hits⟩

/-- In a run of fewer than 2^32 accesses, whose invalidations of lines in the filter are
made by threads of the process that runs on the core, the filter cannot be told from the
plain cache. -/
theorem filter_refines (c : L1Config) (ops : List Op)
    (legal : (filtered c).LegalRun ops Filtered.init)
    (covered : (filtered c).Along (fun s op => s.sameProcess c op) ops Filtered.init)
    (few : accesses ops < 2 ^ 32) :
    Option.Rel (Refines c) ((filtered c).exec ops Filtered.init)
      ((plain c).exec ops Plain.init) := by
  have both := Machine.LegalRun.lockstep InStep.step (InStep.init c few) legal covered
  cases run : (filtered c).exec ops Filtered.init with
  | none =>
      rw [run] at both
      cases run' : (plain c).exec ops Plain.init with
      | none => exact .none
      | some t =>
          rw [run'] at both
          cases both
  | some s =>
      rw [run] at both
      cases run' : (plain c).exec ops Plain.init with
      | none =>
          rw [run'] at both
          cases both
      | some t =>
          rw [run'] at both
          cases both with
          | some both => exact .some both.refines

/-- One set of two lines of 64 bytes. -/
def twoLines : L1Config := ⟨0, 2, 6, Nat.two_pos, by decide, by decide, by decide⟩

/-- Two processes with hits in the filter and in the cache, a downgrade, an invalidation
and an eviction during which the other line of the set is invalidated. -/
def mixedRun : List Op :=
  [.load 64, .granted .E, .store 64, .load 72, .store 64, .invalidate 0 1 .INVX, .store 64,
    .granted .M, .load 128, .granted .S, .contextSwitch 1, .load 64, .putDone,
    .invalidate 0 2 .INV, .granted .E, .load 64, .invalidate 1 (2 ^ 58 + 1) .INV, .load 64,
    .granted .S]

theorem filter_refines_mixed :
    Option.Rel (Refines twoLines) ((filtered twoLines).exec mixedRun Filtered.init)
        ((plain twoLines).exec mixedRun Plain.init) ∧
      ((filtered twoLines).exec mixedRun Filtered.init).isSome = true :=
  ⟨filter_refines twoLines mixedRun (by decide +kernel) (by decide +kernel) (by decide +kernel),
    by decide +kernel⟩

/-- A thread of another process evicts the line from a cache above. -/
def capacityEviction : List Op := [.load 64, .granted .E, .invalidate 1 1 .INV]

/-- The filter still gives out the line that the cache has lost. -/
theorem stale_entry_hits :
    (filtered twoLines).LegalRun capacityEviction Filtered.init ∧
      ∃ s, (filtered twoLines).exec capacityEviction Filtered.init = some s ∧
        (filtered twoLines).legal s (.load 64) ∧ s.loadHits twoLines (64 >>> twoLines.lineBits) ∧
        ∀ id, twoLines.array.lookup s.cache.tags (s.procMask ||| 64 >>> twoLines.lineBits) = some id →
          s.cache.states id = .I := by
  refine ⟨by decide +kernel, _, rfl, by decide +kernel, by decide +kernel, fun id found => ?_⟩
  have isZero : id = 0 := (Option.some.inj (found.symm.trans (by decide +kernel)))
  rw [isZero]
  decide +kernel

end Zsim.Filter
