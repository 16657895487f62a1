import Mathlib.Data.List.Perm.Basic
import Mathlib.Data.List.Range
import Zsim.Arrays.InList
import Zsim.Lib.Loop
import Zsim.Lib.Machine
import Zsim.Lib.RecencyStack

/-!
# The ideal LRU array

`IdealLRUArray` of ideal_arrays.h: a fully associative array whose lines are found through a map
and ordered in an intrusive list.  A line that was never filled has address 0.
-/

set_option autoImplicit false

namespace Zsim

structure IdealLRUArray where
  /-- the addresses of the entries, by line id -/
  lineAddr : Nat → Nat
  lruList : InList Nat
  lineMap : Nat → Option Nat

namespace IdealLRUArray

def new (numLines : Nat) : Option IdealLRUArray :=
  ((List.range numLines).foldlM InList.pushFront InList.new).map fun l =>
    ⟨fun _ => 0, l, fun _ => none⟩

def moveToFront (s : IdealLRUArray) (lineId : Nat) : Option IdealLRUArray := do
  let l ← s.lruList.remove lineId
  let l ← l.pushFront lineId
  some { s with lruList := l }

/-- The line id, where `none` is -1. -/
def lookup (s : IdealLRUArray) (lineAddr : Nat) (updateReplacement : Bool) :
    Option (Option Nat × IdealLRUArray) :=
  match s.lineMap lineAddr with
  | none => some (none, s)
  | some lineId =>
    if updateReplacement then (s.moveToFront lineId).map fun s => (some lineId, s)
    else some (some lineId, s)

/-- The address to write back and the line id. -/
def preinsert (s : IdealLRUArray) : Option (Nat × Nat) :=
  s.lruList.back.map fun e => (s.lineAddr e, e)

def postinsert (s : IdealLRUArray) (lineAddr lineId : Nat) : Option IdealLRUArray :=
  let lineMap := Function.update s.lineMap (s.lineAddr lineId) none
  if lineMap lineAddr = none then
    moveToFront { s with
      lineMap := Function.update lineMap lineAddr (some lineId)
      lineAddr := Function.update s.lineAddr lineId lineAddr } lineId
  else none

/-- An access, which brings a missing line in, or a lookup that leaves the replacement alone. -/
inductive Event
  | access (lineAddr : Nat)
  | probe (lineAddr : Nat)

def Event.lineAddr : Event → Nat
  | .access lineAddr => lineAddr
  | .probe lineAddr => lineAddr

def step (s : IdealLRUArray) : Event → Option IdealLRUArray
  | .access lineAddr => do
    let (found, s) ← s.lookup lineAddr true
    match found with
    | some _ => some s
    | none =>
      let (_, lineId) ← s.preinsert
      s.postinsert lineAddr lineId
  | .probe lineAddr => (s.lookup lineAddr false).map Prod.snd

def machine : Machine IdealLRUArray Event := ⟨fun _ e => e.lineAddr ≠ 0, step⟩

/-- The addresses that were accessed, the last one first. -/
def recency (events : List Event) : List Nat :=
  events.foldl (fun stack e => match e with
    | .access lineAddr => touch lineAddr stack
    | .probe _ => stack) []

/-- The array holds the `numLines` last addresses of the stack and evicts the last of them. -/
structure Exact (numLines : Nat) (stack : List Nat) (s : IdealLRUArray) : Prop where
  hit_iff : ∀ lineAddr ≠ 0, ∀ updateReplacement, ∃ found s',
    s.lookup lineAddr updateReplacement = some (found, s') ∧
      (found.isSome = true ↔ lineAddr ∈ stack.take numLines)
  victim : ∃ lineId < numLines, s.preinsert = some (stack[numLines - 1]?.getD 0, lineId) ∧
    s.lineAddr lineId = stack[numLines - 1]?.getD 0
  inverse : ∀ lineAddr lineId, s.lineMap lineAddr = some lineId ↔
    lineAddr ≠ 0 ∧ lineId < numLines ∧ s.lineAddr lineId = lineAddr

/-- The lines of the array from the most recent one on: those of `cache`, then the empty ones. -/
structure Inv (numLines : Nat) (cache : List Nat) (s : IdealLRUArray) (lines : List Nat) : Prop where
  holds : s.lruList.Holds lines
  perm : lines.Perm (List.range numLines)
  addrs : lines.map s.lineAddr = cache ++ List.replicate (numLines - cache.length) 0
  few : cache.length ≤ numLines
  nodup : cache.Nodup
  notZero : 0 ∉ cache
  inverse : ∀ lineAddr lineId, s.lineMap lineAddr = some lineId ↔
    lineAddr ≠ 0 ∧ lineId < numLines ∧ s.lineAddr lineId = lineAddr

theorem new_spec (numLines : Nat) : ∃ s, new numLines = some s ∧
    Inv numLines [] s (List.range numLines).reverse := by
  obtain ⟨l, run, holds⟩ : ∃ l, (List.range numLines).foldlM InList.pushFront InList.new = some l ∧
      l.Holds (List.range numLines).reverse := by
    refine @foldlM_range (InList Nat) _ (fun k l => l.Holds (List.range k).reverse) numLines _
      InList.Holds.new ?_
    intro k l _ holds
    have absent : k ∉ (List.range k).reverse := by simp
    obtain ⟨next, pushed, holds⟩ := holds.pushFront absent
    refine ⟨next, pushed, ?_⟩
    rw [List.range_succ, List.reverse_append]
    exact holds
  refine ⟨⟨fun _ => 0, l, fun _ => none⟩, by rw [new, run]; rfl, holds, List.reverse_perm _, ?_,
    Nat.zero_le _, List.nodup_nil, List.not_mem_nil, ?_⟩
  · simp
  · intro lineAddr lineId
    constructor
    · nofun
    · rintro ⟨notZero, -, zero⟩
      exact absurd zero.symm notZero

variable {numLines : Nat} {cache lines : List Nat} {s : IdealLRUArray}

theorem Inv.mem_cache_iff (inv : Inv numLines cache s lines) {lineAddr : Nat}
    (notZero : lineAddr ≠ 0) : lineAddr ∈ cache ↔ ∃ lineId, s.lineMap lineAddr = some lineId := by
  have inAddrs : lineAddr ∈ cache ↔ lineAddr ∈ lines.map s.lineAddr := by
    rw [inv.addrs, List.mem_append, List.mem_replicate]
    simp [notZero]
  rw [inAddrs, List.mem_map]
  refine exists_congr fun lineId => ?_
  rw [inv.inverse, inv.perm.mem_iff, List.mem_range]
  simp [notZero]

theorem moveToFront_spec {before after : List Nat} {lineId : Nat}
    (holds : s.lruList.Holds (before ++ lineId :: after)) :
    ∃ l, s.moveToFront lineId = some { s with lruList := l } ∧
      l.Holds (lineId :: (before ++ after)) := by
  obtain ⟨removed, remove, holds'⟩ := holds.remove
  have absent := (List.nodup_cons.mp (List.perm_middle.nodup holds.nodup)).1
  obtain ⟨pushed, push, holds''⟩ := holds'.pushFront absent
  exact ⟨pushed, by simp [moveToFront, remove, push], holds''⟩

theorem Inv.hit (inv : Inv numLines cache s lines) {lineAddr lineId : Nat}
    (found : s.lineMap lineAddr = some lineId) : ∃ s' lines',
      s.moveToFront lineId = some s' ∧ Inv numLines (touch lineAddr cache) s' lines' := by
  obtain ⟨notZero, inRange, same⟩ := (inv.inverse _ _).mp found
  have inCache := (inv.mem_cache_iff notZero).mpr ⟨lineId, found⟩
  have member : lineId ∈ lines := inv.perm.mem_iff.mpr (List.mem_range.mpr inRange)
  obtain ⟨before, after, rfl⟩ := List.append_of_mem member
  obtain ⟨l, moved, holds⟩ := moveToFront_spec inv.holds
  have length : (touch lineAddr cache).length = cache.length := by
    rw [touch, List.length_cons, List.length_erase_of_mem inCache]
    have pos := List.length_pos_of_mem inCache
    omega
  have middle : (before ++ lineId :: after).Perm (lineId :: (before ++ after)) := List.perm_middle
  -- no line in front of it has the same address
  have absent : lineAddr ∉ before.map s.lineAddr := by
    intro other
    obtain ⟨id, inBefore, sameAddr⟩ := List.mem_map.mp other
    have inRange : id < numLines :=
      List.mem_range.mp (inv.perm.mem_iff.mp (List.mem_append_left _ inBefore))
    have mapped := (inv.inverse lineAddr id).mpr ⟨notZero, inRange, sameAddr⟩
    cases Option.some.inj (mapped.symm.trans found)
    exact (List.nodup_cons.mp (middle.nodup inv.holds.nodup)).1 (List.mem_append_left _ inBefore)
  refine ⟨_, _, moved, holds, middle.symm.trans inv.perm, ?_, ?_, ?_, ?_, inv.inverse⟩
  · have addrs := congrArg (List.erase · lineAddr) inv.addrs
    simp only [List.map_append, List.map_cons, same] at addrs
    rw [List.erase_append_right _ absent, List.erase_cons_head,
      List.erase_append_left _ inCache] at addrs
    rw [length, List.map_cons, List.map_append, touch, same, List.cons_append, ← addrs]
  · rw [length]
    exact inv.few
  · exact List.nodup_cons.mpr ⟨inv.nodup.not_mem_erase, inv.nodup.erase _⟩
  · intro zero
    rcases List.mem_cons.mp zero with here | later
    · exact notZero here.symm
    · exact inv.notZero (List.mem_of_mem_erase later)

theorem Inv.back (inv : Inv numLines cache s lines) (pos : 1 ≤ numLines) : ∃ before lineId,
    lines = before ++ [lineId] ∧ s.lineAddr lineId = cache[numLines - 1]?.getD 0 ∧
      before.map s.lineAddr = cache.take (numLines - 1) ++
        List.replicate (numLines - 1 - (cache.take (numLines - 1)).length) 0 := by
  have length : lines.length = numLines := by rw [inv.perm.length_eq, List.length_range]
  have few := inv.few
  rcases List.eq_nil_or_concat lines with rfl | ⟨before, lineId, rfl⟩
  · rw [List.length_nil] at length
    omega
  · rw [List.concat_eq_append] at inv length ⊢
    rw [List.length_append, List.length_singleton] at length
    refine ⟨before, lineId, rfl, ?_, ?_⟩
    · have last := congrArg (·[numLines - 1]?) inv.addrs
      rw [← length, Nat.add_sub_cancel, List.map_append, List.map_singleton,
        List.getElem?_append_right (by simp), List.length_map, Nat.sub_self] at last
      rw [← length, Nat.add_sub_cancel]
      rcases Nat.lt_or_ge before.length cache.length with inside | outside
      · rw [List.getElem?_append_left inside] at last
        rw [← last]
        rfl
      · rw [List.getElem?_append_right outside, List.getElem?_replicate] at last
        rw [List.getElem?_eq_none outside]
        split at last
        next => simpa using last
        next => cases last
    · have front := congrArg (List.take (numLines - 1)) inv.addrs
      rw [List.map_append, List.take_left' (by rw [List.length_map]; omega), List.take_append,
        List.take_replicate] at front
      rw [front, List.length_take]
      congr 2
      omega

theorem Inv.miss (inv : Inv numLines cache s lines) (pos : 1 ≤ numLines) {lineAddr : Nat}
    (notZero : lineAddr ≠ 0) (missed : s.lineMap lineAddr = none) : ∃ wbLineAddr lineId s' lines',
      s.preinsert = some (wbLineAddr, lineId) ∧ s.postinsert lineAddr lineId = some s' ∧
      Inv numLines ((lineAddr :: cache).take numLines) s' lines' := by
  have notCached : lineAddr ∉ cache := by
    rw [inv.mem_cache_iff notZero, missed]
    nofun
  obtain ⟨before, lineId, rfl, -, front⟩ := inv.back pos
  have inRange : lineId < numLines :=
    List.mem_range.mp (inv.perm.mem_iff.mp (List.mem_append_right _ List.mem_cons_self))
  have absent : lineId ∉ before := fun member =>
    (List.nodup_append.mp inv.holds.nodup).2.2 _ member _ List.mem_cons_self rfl
  -- an address and its line determine each other
  have apart : ∀ b id, b ≠ 0 → id < numLines → s.lineAddr id = b →
      s.lineAddr lineId = b → id = lineId := by
    intro b id bNotZero idInRange idAddr same
    have first := (inv.inverse b id).mpr ⟨bNotZero, idInRange, idAddr⟩
    exact Option.some.inj (first.symm.trans ((inv.inverse b lineId).mpr ⟨bNotZero, inRange, same⟩))
  have unmapped : Function.update s.lineMap (s.lineAddr lineId) none lineAddr = none := by
    by_cases same : lineAddr = s.lineAddr lineId
    · rw [same, Function.update_self]
    · rw [Function.update_of_ne same, missed]
  obtain ⟨l, moved, holds⟩ := moveToFront_spec (s := { s with
    lineMap := Function.update (Function.update s.lineMap (s.lineAddr lineId) none) lineAddr
      (some lineId)
    lineAddr := Function.update s.lineAddr lineId lineAddr }) inv.holds
  have back : s.lruList.back = some lineId := by
    rw [inv.holds.back_eq, List.getLast?_concat]
  refine ⟨_, lineId, _, _, by rw [preinsert, back]; rfl, by rw [postinsert, if_pos unmapped]; exact moved,
    holds, ?_, ?_, ?_, ?_, ?_, ?_⟩
  · rw [List.append_nil]
    exact (List.perm_append_singleton lineId before).symm.trans inv.perm
  · have others : before.map (Function.update s.lineAddr lineId lineAddr) = before.map s.lineAddr := by
      apply List.map_congr_left
      intro id member
      have other : id ≠ lineId := fun same => absent (same ▸ member)
      exact Function.update_of_ne other _ _
    obtain ⟨n, rfl⟩ : ∃ n, numLines = n + 1 := ⟨numLines - 1, by omega⟩
    rw [Nat.add_sub_cancel] at front
    simp only [List.append_nil, List.map_cons, Function.update_self, List.take_succ_cons,
      List.cons_append, List.length_cons]
    rw [others, front, Nat.add_sub_add_right]
  · exact List.length_take_le _ _
  · exact (List.nodup_cons.mpr ⟨notCached, inv.nodup⟩).sublist (List.take_sublist _ _)
  · intro zero
    rcases List.mem_cons.mp (List.mem_of_mem_take zero) with here | later
    · exact notZero here.symm
    · exact inv.notZero later
  · intro b id
    dsimp only
    by_cases isNew : b = lineAddr
    · subst isNew
      rw [Function.update_self]
      constructor
      · intro same
        cases Option.some.inj same
        exact ⟨notZero, inRange, Function.update_self _ _ _⟩
      · rintro ⟨-, idInRange, idAddr⟩
        by_cases here : id = lineId
        · rw [here]
        · rw [Function.update_of_ne here] at idAddr
          have mapped := (inv.inverse b id).mpr ⟨notZero, idInRange, idAddr⟩
          rw [missed] at mapped
          cases mapped
    · rw [Function.update_of_ne isNew]
      by_cases evicted : b = s.lineAddr lineId
      · rw [evicted, Function.update_self]
        constructor
        · nofun
        · rintro ⟨bNotZero, idInRange, idAddr⟩
          by_cases here : id = lineId
          · rw [here, Function.update_self] at idAddr
            exact absurd (evicted.trans idAddr.symm) isNew
          · rw [Function.update_of_ne here] at idAddr
            exact absurd (apart _ id bNotZero idInRange idAddr rfl) here
      · rw [Function.update_of_ne evicted, inv.inverse]
        by_cases here : id = lineId
        · rw [here, Function.update_self]
          exact ⟨fun old => absurd old.2.2.symm evicted, fun new => absurd new.2.2.symm isNew⟩
        · rw [Function.update_of_ne here]

theorem Inv.step {stack : List Nat} (inv : Inv numLines (stack.take numLines) s lines)
    (pos : 1 ≤ numLines) {e : Event} (notZero : e.lineAddr ≠ 0) : ∃ s' lines',
      s.step e = some s' ∧ Inv numLines ((match e with
        | .access lineAddr => touch lineAddr stack
        | .probe _ => stack).take numLines) s' lines' := by
  cases e with
  | probe lineAddr =>
      refine ⟨s, lines, ?_, inv⟩
      cases found : s.lineMap lineAddr <;> simp [IdealLRUArray.step, lookup, found]
  | access lineAddr =>
      have notZero : lineAddr ≠ 0 := notZero
      dsimp only
      rw [← lruAccess_take, lruAccess]
      cases found : s.lineMap lineAddr with
      | some lineId =>
          have inCache := (inv.mem_cache_iff notZero).mpr ⟨lineId, found⟩
          obtain ⟨s', lines', moved, kept⟩ := inv.hit found
          rw [if_pos inCache]
          exact ⟨s', lines', by simp [IdealLRUArray.step, lookup, found, moved], kept⟩
      | none =>
          have notCached : lineAddr ∉ stack.take numLines := by
            rw [inv.mem_cache_iff notZero, found]
            nofun
          obtain ⟨wbLineAddr, lineId, s', lines', picked, inserted, kept⟩ := inv.miss pos notZero found
          rw [if_neg notCached]
          exact ⟨s', lines', by simp [IdealLRUArray.step, lookup, found, picked, inserted], kept⟩

theorem Inv.exact {stack : List Nat} (inv : Inv numLines (stack.take numLines) s lines)
    (pos : 1 ≤ numLines) : Exact numLines stack s where
  hit_iff := by
    intro lineAddr notZero updateReplacement
    rw [inv.mem_cache_iff notZero]
    cases found : s.lineMap lineAddr with
    | none => exact ⟨none, s, by simp [lookup, found], by simp⟩
    | some lineId =>
        cases updateReplacement with
        | false => exact ⟨some lineId, s, by simp [lookup, found], by simp⟩
        | true =>
            obtain ⟨s', -, moved, -⟩ := inv.hit found
            exact ⟨some lineId, s', by simp [lookup, found, moved], by simp⟩
  victim := by
    obtain ⟨before, lineId, rfl, addr, -⟩ := inv.back pos
    have inRange : lineId < numLines :=
      List.mem_range.mp (inv.perm.mem_iff.mp (List.mem_append_right _ List.mem_cons_self))
    rw [List.getElem?_take_of_lt (by omega)] at addr
    refine ⟨lineId, inRange, ?_, addr⟩
    rw [preinsert, inv.holds.back_eq, List.getLast?_concat, Option.map_some, addr]
  inverse := inv.inverse

/-- Every run of accesses and lookups passes all assertions, and in every state it reaches the
array is the cache of the `numLines` last addresses. -/
theorem exact_throughout {numLines : Nat} (pos : 1 ≤ numLines) {events : List Event}
    (nonzero : ∀ e ∈ events, e.lineAddr ≠ 0) : ∃ start final, new numLines = some start ∧
      machine.exec events start = some final ∧ Exact numLines (recency events) final := by
  obtain ⟨start, isNew, inv⟩ := new_spec numLines
  obtain ⟨final, run, lines, kept⟩ : ∃ final, machine.exec events start = some final ∧
      ∃ lines, Inv numLines ((recency events).take numLines) final lines := by
    induction events using List.reverseRecOn with
    | nil => exact ⟨start, rfl, _, by rw [recency, List.foldl_nil, List.take_nil]; exact inv⟩
    | append_singleton events e ih =>
        obtain ⟨mid, run, lines, kept⟩ := ih fun e member => nonzero e (List.mem_append_left _ member)
        obtain ⟨final, lines', step, kept⟩ := kept.step pos (nonzero e (by simp))
        refine ⟨final, ?_, lines', ?_⟩
        · rw [Machine.exec_concat, run]
          exact step
        · rw [recency, List.foldl_append]
          exact kept
  exact ⟨start, final, isNew, run, kept.exact pos⟩

/-- Two lines: line 5 is used again, so 9 takes the place of 7. -/
theorem exact_throughout_two : ∃ start final, new 2 = some start ∧
    machine.exec [.access 5, .access 7, .access 5, .probe 7, .access 9] start = some final ∧
      Exact 2 (recency [.access 5, .access 7, .access 5, .probe 7, .access 9]) final :=
  exact_throughout (by decide) (by decide)

end IdealLRUArray

end Zsim
