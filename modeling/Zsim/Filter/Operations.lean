import Zsim.Filter.Invariant

/-!
# The operations keep the invariant

An access ends with the line present and with the permission it asked for, or waits for
the parent.  An invalidation keeps the invariant if it clears the entry it has to clear.
-/

set_option autoImplicit false

namespace Zsim.Filter

open Coherence

/-! ## One cache -/

/-- Where an access to a line ends or waits. -/
def Outcome (c : L1Config) (type : AccessType) (lineAddr : Nat) (s : L1) : Option Miss → Prop
  | none => s.Held c lineAddr (type = .GETX)
  | some m => m.type = type ∧ m.lineAddr = lineAddr ∧ m.StageInv c s

/-- What an access asks the parent for. -/
def get (isLoad : Bool) : AccessType := if isLoad then .GETS else .GETX

namespace L1

variable {c : L1Config} {lineAddr id : Nat} {s s' : L1} {miss : Option Miss} {isLoad : Bool}

theorem get_cases (isLoad : Bool) (state : MESIState) :
    MESIBottomCC.access (get isLoad) state = some (state, some (get isLoad)) ∨
      state ≠ .I ∧
        MESIBottomCC.access (get isLoad) state = some (if isLoad then state else .M, none) ∧
        MESIBottomCC.accessDone (get isLoad) false (if isLoad then state else .M) = true := by
  cases isLoad <;> cases state <;> decide

theorem processAccess_spec (present : s.Present c lineAddr id)
    (run : processAccess (get isLoad) lineAddr id s = some (s', miss)) :
    Outcome c (get isLoad) lineAddr s' miss ∧ Within c lineAddr s s' ∧ s'.rp = s.rp := by
  have member := (SetAssocConfig.lookup_sound present.found).1
  rcases get_cases isLoad (s.states id) with request | ⟨valid, hit, done⟩
  · simp only [processAccess, request, Option.bind_eq_bind, Option.bind_some, Option.isSome_some,
      if_true, Option.some.injEq, Prod.mk.injEq] at run
    obtain ⟨rfl, rfl⟩ := run
    exact ⟨⟨rfl, rfl, present.setState id _⟩, Within.setState member s _, rfl⟩
  · simp only [processAccess, hit, done, Option.bind_eq_bind, Option.bind_some,
      Option.isSome_none, if_true, Bool.false_eq_true, if_false, Option.some.injEq,
      Prod.mk.injEq] at run
    obtain ⟨rfl, rfl⟩ := run
    refine ⟨⟨id, present.setState id _, ?_, fun isGETX => ?_⟩, Within.setState member s _, rfl⟩
    · rw [setState_states, Function.update_self]
      cases isLoad with
      | false => simp
      | true => exact valid
    · rw [setState_states, Function.update_self]
      cases isLoad with
      | false => rfl
      | true => cases isGETX

theorem touched (fits : s.rp.Fits) (found : c.array.lookup s.tags lineAddr = some id) :
    Present c { s with rp := s.rp.update id } lineAddr id where
  found := found
  recent := fits.mostRecent_update _ id
  used := by
    change (s.rp.update id).array id ≠ 0
    rw [LRUReplPolicy.update_array, Function.update_self]
    exact fits.pos.ne'

theorem Within.touched (member : id ∈ c.array.set lineAddr) (s : L1) :
    Within c lineAddr s { s with rp := s.rp.update id } where
  tags _ _ := rfl
  array other out := by
    change (s.rp.update id).array other = s.rp.array other
    rw [LRUReplPolicy.update_array, Function.update_of_ne]
    rintro rfl
    exact out member
  states _ _ := rfl

theorem allocate_spec (fits : s.rp.Fits) (missed : c.array.lookup s.tags lineAddr = none)
    (member : id ∈ c.array.set lineAddr)
    (run : allocate (get isLoad) lineAddr id s = some (s', miss)) :
    Outcome c (get isLoad) lineAddr s' miss ∧ Within c lineAddr s s' ∧
      s'.rp = (s.rp.replaced id).update id := by
  rw [allocate] at run
  split at run
  case isFalse => cases run
  case isTrue =>
    have apart : ∀ other ∉ c.array.set lineAddr, other ≠ id := by
      rintro other out rfl
      exact out member
    have within : Within c lineAddr s ⟨SetAssocConfig.postinsert s.tags lineAddr id,
        (s.rp.replaced id).update id, s.states⟩ := by
      refine ⟨fun other out => ?_, fun other out => ?_, fun _ _ => rfl⟩
      · exact Function.update_of_ne (apart other out) ..
      · change ((s.rp.replaced id).update id).array other = s.rp.array other
        simp [apart other out]
    have present := touched (s := ⟨SetAssocConfig.postinsert s.tags lineAddr id, s.rp.replaced id,
      s.states⟩) (fits.replaced id) (SetAssocConfig.lookup_postinsert missed member)
    obtain ⟨outcome, later, rp⟩ := processAccess_spec present run
    exact ⟨outcome, within.trans later, rp⟩

theorem victim_mem (s : L1) (lineAddr : Nat) :
    (c.array.preinsert s.tags lineAddr (s.rp.rankCands s.isValid)).1 ∈ c.array.set lineAddr :=
  (s.rp.rankCands s.isValid).presented _ (SetAssocConfig.set_ne_nil lineAddr)

theorem access_spec (fits : s.rp.Fits)
    (run : s.access c (get isLoad) lineAddr = some (s', miss)) :
    Outcome c (get isLoad) lineAddr s' miss ∧ Within c lineAddr s s' := by
  rw [access] at run
  cases found : c.array.lookup s.tags lineAddr with
  | some id =>
      rw [found] at run
      have member := (SetAssocConfig.lookup_sound found).1
      obtain ⟨outcome, within, -⟩ := processAccess_spec (touched fits found) run
      exact ⟨outcome, (Within.touched member s).trans within⟩
  | none =>
      rw [found] at run
      dsimp only at run
      have member := victim_mem (c := c) s lineAddr
      generalize (c.array.preinsert s.tags lineAddr (s.rp.rankCands s.isValid)).1 = id at run member
      obtain ⟨⟨state, put⟩, -, run⟩ := Option.bind_eq_some_iff.mp run
      have within := Within.setState (c := c) member s state
      dsimp only at run
      split at run
      · simp only [Option.some.injEq, Prod.mk.injEq] at run
        obtain ⟨rfl, rfl⟩ := run
        exact ⟨⟨rfl, rfl, found, member⟩, within⟩
      · obtain ⟨outcome, later, -⟩ := allocate_spec (s := s.setState id state) fits found member run
        exact ⟨outcome, within.trans later⟩

theorem putDone_spec {m : Miss} (fits : s.rp.Fits) (type : m.type = get isLoad)
    (evicting : m.stage = .evicting) (stage : m.StageInv c s)
    (run : s.putDone m = some (s', miss)) :
    Outcome c (get isLoad) m.lineAddr s' miss ∧ Within c m.lineAddr s s' := by
  rw [Miss.StageInv, evicting] at stage
  rw [putDone, type] at run
  obtain ⟨outcome, later, -⟩ :=
    allocate_spec (s := s.setState m.id .I) fits stage.1 stage.2 run
  exact ⟨outcome, (Within.setState stage.2 s .I).trans later⟩

theorem granted_spec {m : Miss} {state : MESIState} (type : m.type = get isLoad)
    (fetching : m.stage = .fetching) (stage : m.StageInv c s)
    (run : s.granted m state = some s') :
    Outcome c (get isLoad) m.lineAddr s' none ∧ Within c m.lineAddr s s' := by
  rw [Miss.StageInv, fetching] at stage
  rw [granted, type] at run
  split at run
  case isFalse => cases run
  case isTrue done =>
    cases Option.some.inj run
    have member := (SetAssocConfig.lookup_sound stage.found).1
    refine ⟨⟨m.id, stage.setState m.id state, ?_, ?_⟩, Within.setState member s state⟩
    · rw [setState_states, Function.update_self]
      rintro rfl
      cases isLoad <;> cases done
    · rw [setState_states, Function.update_self]
      intro isGETX
      rw [isGETX] at done
      simpa [MESIBottomCC.accessDone] using done

theorem finishInvalidate_spec {type : InvType}
    (run : s.finishInvalidate c type lineAddr = some s') :
    ∃ id state dirty, c.array.lookup s.tags lineAddr = some id ∧
      MESIBottomCC.processInval type (s.states id) = some (state, dirty) ∧
      s' = s.setState id state := by
  obtain ⟨id, found, run⟩ := Option.bind_eq_some_iff.mp run
  obtain ⟨⟨state, dirty⟩, inval, run⟩ := Option.bind_eq_some_iff.mp run
  exact ⟨id, state, dirty, found, inval, (Option.some.inj run).symm⟩

end L1

/-! ## The filter over it -/

variable {c : L1Config}

/-- The entries are right outside the set of the line that `replace` brings in. -/
structure Others (c : L1Config) (s : Filtered) : Prop where
  procMask : ∃ procIdx, s.procMask = c.procMask procIdx
  line : c.Line s.vLineAddr
  wrAddr : ∀ idx, (s.filterArray idx).wrAddr = FilterEntry.invalid ∨
    (s.filterArray idx).wrAddr = (s.filterArray idx).rdAddr
  held : ∀ v, c.Line v → s.loadHits c v → v &&& c.setMask ≠ s.vLineAddr &&& c.setMask →
    s.cache.Held c (s.procMask ||| v) (s.storeHits c v)

theorem FilterInv.others {s : Filtered} (inv : FilterInv c s) {m : Miss} (open' : s.miss = some m) :
    Others c s where
  procMask := inv.procMask
  line := (inv.miss m open').line
  wrAddr := inv.wrAddr
  held v line hits apart := inv.held v line hits fun replacing => apart replacing.2.symm

theorem FilterInv.others_replace {s : Filtered} (inv : FilterInv c s) (idle : s.miss.isNone = true)
    {v : Nat} (line : c.Line v) (isLoad : Bool) :
    Others c { s with vLineAddr := v, isLoad := isLoad } where
  procMask := inv.procMask
  line := line
  wrAddr := inv.wrAddr
  held v' line' hits _ := inv.held v' line' hits (s.not_replacing idle _)

theorem Others.accessed {s : Filtered} (others : Others c s) {cache : L1} {miss : Option Miss}
    (outcome : Outcome c (get s.isLoad) (s.procMask ||| s.vLineAddr) cache miss)
    (within : L1.Within c (s.procMask ||| s.vLineAddr) s.cache cache) :
    FilterInv c (s.accessed c cache miss) := by
  obtain ⟨procIdx, own⟩ := others.procMask
  have kept : ∀ v, c.Line v → s.loadHits c v → v &&& c.setMask ≠ s.vLineAddr &&& c.setMask →
      cache.Held c (s.procMask ||| v) (s.storeHits c v) := by
    intro v line hits apart
    refine within.held ?_ (others.held v line hits apart)
    rwa [own, L1Config.pLineAddr_set procIdx line, L1Config.pLineAddr_set procIdx others.line]
  cases miss with
  | some m =>
      obtain ⟨type, lineAddr, stage⟩ := outcome
      refine ⟨others.procMask, others.wrAddr, fun v line hits free => ?_, fun m' same => ?_⟩
      · exact kept v line hits fun same => free ⟨rfl, same.symm⟩
      · cases Option.some.inj same
        exact ⟨others.line, lineAddr, type, stage⟩
  | none =>
      have entry : ∀ idx, (s.accessed c cache none).filterArray idx =
          if idx = s.vLineAddr &&& c.setMask then
            ⟨s.vLineAddr, if s.isLoad then FilterEntry.invalid else s.vLineAddr⟩
          else s.filterArray idx := fun idx => Function.update_apply ..
      refine ⟨others.procMask, fun idx => ?_, fun v line hits _ => ?_, fun m none => nomatch none⟩
      · rw [entry]
        split
        · cases s.isLoad with
          | false => exact Or.inr rfl
          | true => exact Or.inl rfl
        · exact others.wrAddr idx
      · unfold Filtered.loadHits at hits
        unfold Filtered.storeHits
        rw [entry] at hits ⊢
        by_cases same : v &&& c.setMask = s.vLineAddr &&& c.setMask
        · rw [if_pos same] at hits ⊢
          dsimp only at hits ⊢
          rw [hits]
          obtain ⟨id, present, valid, exclusive⟩ := outcome
          refine ⟨id, present, valid, fun writes => exclusive ?_⟩
          cases load : s.isLoad with
          | false => rfl
          | true =>
              rw [load, if_pos rfl] at writes
              exact absurd writes others.line.ne_invalid
        · rw [if_neg same] at hits ⊢
          exact kept v line hits same

theorem FilterInv.replace {s next : Filtered} (inv : FilterInv c s) (fits : s.cache.rp.Fits)
    (idle : s.miss.isNone = true) {v : Nat} (line : c.Line v) {isLoad : Bool}
    (run : s.replace c v isLoad = some next) : FilterInv c next := by
  obtain ⟨⟨cache, miss⟩, access, run⟩ := Option.bind_eq_some_iff.mp run
  cases Option.some.inj run
  have access' : s.cache.access c (get isLoad) (s.procMask ||| v) = some (cache, miss) := access
  obtain ⟨outcome, within⟩ := L1.access_spec fits access'
  exact (inv.others_replace idle line isLoad).accessed outcome within

theorem FilterInv.putDone {s next : Filtered} (inv : FilterInv c s) (fits : s.cache.rp.Fits)
    (run : s.putDone c = some next) : FilterInv c next := by
  obtain ⟨m, open', run⟩ := Option.bind_eq_some_iff.mp run
  have missInv := inv.miss m open'
  split at run
  case isFalse => cases run
  case isTrue evicting =>
    obtain ⟨⟨cache, miss⟩, put, run⟩ := Option.bind_eq_some_iff.mp run
    cases Option.some.inj run
    obtain ⟨outcome, within⟩ := L1.putDone_spec fits missInv.type evicting missInv.stage put
    rw [missInv.lineAddr] at outcome within
    exact (inv.others open').accessed outcome within

theorem FilterInv.granted {s next : Filtered} (inv : FilterInv c s) {state : MESIState}
    (run : s.granted c state = some next) : FilterInv c next := by
  obtain ⟨m, open', run⟩ := Option.bind_eq_some_iff.mp run
  have missInv := inv.miss m open'
  split at run
  case isFalse => cases run
  case isTrue fetching =>
    obtain ⟨cache, grant, run⟩ := Option.bind_eq_some_iff.mp run
    cases Option.some.inj run
    obtain ⟨outcome, within⟩ := L1.granted_spec missInv.type fetching missInv.stage grant
    rw [missInv.lineAddr] at outcome within
    exact (inv.others open').accessed outcome within

theorem FilterInv.contextSwitch {s : Filtered} (idle : s.miss.isNone = true)
    (procIdx : Nat) : FilterInv c (s.contextSwitch (c.procMask procIdx)) where
  procMask := ⟨procIdx, rfl⟩
  wrAddr _ := Or.inr rfl
  held _ line hits _ := absurd hits line.nonzero
  miss m open' := by
    have none := Option.isNone_iff_eq_none.mp idle
    cases none.symm.trans open'

/-! ## Invalidations -/

/-- The invalidation takes away what the filter may still give to the running process:
the line, or its write permission. -/
def Filtered.Takes (c : L1Config) (s : Filtered) (lineAddr : Nat) (type : InvType) : Prop :=
  let e := s.filterArray (lineAddr &&& c.setMask)
  s.procMask ||| e.rdAddr = lineAddr ∧ (type = .INV ∨ type = .INVX ∧ e.wrAddr = e.rdAddr) ∧
    ¬s.Replacing c (lineAddr &&& c.setMask)

instance (s : Filtered) (idx : Nat) : Decidable (s.Replacing c idx) :=
  inferInstanceAs (Decidable (_ ∧ _))

instance (s : Filtered) (lineAddr : Nat) (type : InvType) : Decidable (s.Takes c lineAddr type) :=
  inferInstanceAs (Decidable (_ ∧ (_ ∨ _ ∧ _) ∧ ¬_))

/-- An invalidation that takes a line from the filter is made by a thread of the process
that runs on the core. -/
def Filtered.sameProcess (c : L1Config) (s : Filtered) : Op → Prop
  | .invalidate procIdx lineAddr type =>
    s.Takes c lineAddr type → c.procMask procIdx = s.procMask
  | _ => True

instance (s : Filtered) : ∀ op, Decidable (s.sameProcess c op)
  | .invalidate .. => inferInstanceAs (Decidable (_ → _))
  | .load _ | .store _ | .putDone | .granted _ | .contextSwitch _ => .isTrue trivial

/-- What is left of a state after an invalidation that is not an `INV`. -/
theorem processInval_keeps {type : InvType} {state state' : MESIState} {dirty : Bool}
    (inval : MESIBottomCC.processInval type state = some (state', dirty)) :
    (type ≠ .INV → state' ≠ .I) ∧ (type = .FWD → state' = state) := by
  cases type <;> cases state <;> cases inval <;> decide

theorem FilterInv.invalidate {s next : Filtered} (inv : FilterInv c s) {procIdx lineAddr : Nat}
    {type : InvType} (covered : s.Takes c lineAddr type → c.procMask procIdx = s.procMask)
    (run : s.invalidate c (c.procMask procIdx) lineAddr type = some next) : FilterInv c next := by
  obtain ⟨cache, finish, run⟩ := Option.bind_eq_some_iff.mp run
  cases Option.some.inj run
  obtain ⟨id, state, dirty, found, inval, rfl⟩ := L1.finishInvalidate_spec finish
  obtain ⟨procIdx', own⟩ := inv.procMask
  refine ⟨inv.procMask, fun idx => ?_, fun v line hits free => ?_, fun m open' => ?_⟩
  · dsimp only
    split
    · rw [Function.update_apply]
      split
      · exact Or.inl rfl
      · exact inv.wrAddr idx
    · exact inv.wrAddr idx
  · -- an entry that still hits is one that was there before
    have same : (if (s.filterArray (lineAddr &&& c.setMask)).rdAddr ||| c.procMask procIdx = lineAddr
          then Function.update s.filterArray (lineAddr &&& c.setMask)
            ⟨FilterEntry.invalid, FilterEntry.invalid⟩
          else s.filterArray) (v &&& c.setMask) = s.filterArray (v &&& c.setMask) ∧
        ((s.filterArray (lineAddr &&& c.setMask)).rdAddr ||| c.procMask procIdx = lineAddr →
          v &&& c.setMask ≠ lineAddr &&& c.setMask) := by
      unfold Filtered.loadHits at hits
      dsimp only at hits
      split at hits
      case isTrue clears =>
        by_cases here : v &&& c.setMask = lineAddr &&& c.setMask
        · rw [here, Function.update_self] at hits
          exact absurd hits line.ne_invalid
        · rw [if_pos clears]
          exact ⟨Function.update_of_ne here .., fun _ => here⟩
      case isFalse keeps =>
        rw [if_neg keeps]
        exact ⟨rfl, fun clears => absurd clears keeps⟩
    unfold Filtered.loadHits at hits
    unfold Filtered.storeHits
    dsimp only at hits ⊢
    rw [same.1] at hits ⊢
    obtain ⟨other, present, valid, exclusive⟩ := inv.held v line hits free
    by_cases isLine : other = id
    · -- the line of the entry is the one that is invalidated
      subst isLine
      have addr : s.procMask ||| v = lineAddr :=
        ((SetAssocConfig.lookup_sound present.found).2).symm.trans
          (SetAssocConfig.lookup_sound found).2
      have here : lineAddr &&& c.setMask = v &&& c.setMask := by
        rw [← addr, own, L1Config.pLineAddr_set procIdx' line]
      have untouched : ¬s.Takes c lineAddr type := by
        intro takes
        refine same.2 ?_ here.symm
        rw [covered takes, here, ← hits, Nat.or_comm, addr]
      have weak : ¬(type = .INV ∨ type = .INVX ∧
          (s.filterArray (v &&& c.setMask)).wrAddr = (s.filterArray (v &&& c.setMask)).rdAddr) := by
        intro strong
        refine untouched ⟨?_, ?_, ?_⟩
        · rw [here, ← hits, addr]
        · rwa [here]
        · rwa [here]
      have keeps := processInval_keeps inval
      refine ⟨other, present.setState other state, ?_, fun writes => ?_⟩
      · rw [L1.setState_states, Function.update_self]
        exact keeps.1 fun isINV => weak (Or.inl isINV)
      · rw [L1.setState_states, Function.update_self]
        have isFWD : type = .FWD := by
          cases type with
          | INV => exact absurd (Or.inl rfl) weak
          | INVX => exact absurd (Or.inr ⟨rfl, writes.symm.trans hits⟩) weak
          | FWD => rfl
        rw [keeps.2 isFWD]
        exact exclusive writes
    · refine ⟨other, present.setState id state, ?_, fun writes => ?_⟩
      · rwa [L1.setState_states, Function.update_of_ne isLine]
      · rw [L1.setState_states, Function.update_of_ne isLine]
        exact exclusive writes
  · obtain ⟨line, addr, type', stage⟩ := inv.miss m open'
    refine ⟨line, addr, type', ?_⟩
    unfold Miss.StageInv at stage ⊢
    split at stage
    · exact stage
    · exact stage.setState id state

end Zsim.Filter
