import Zsim.Arrays.ZArray

/-!
# The set-associative array

`SetAssocArray` of cache_arrays.cpp.  The hash family is any function; an address of 0
is that of a line that was never filled.
-/

set_option autoImplicit false

namespace Zsim

structure SetAssocConfig where
  numSets : Nat
  assoc : Nat
  hash : Nat → Nat
  isPow2 : numSets ≠ 0 ∧ numSets &&& (numSets - 1) = 0
  assocPos : 0 < assoc

/-- Maps a line id to its address. -/
abbrev SetAssocArray := Nat → Nat

namespace SetAssocConfig

variable (c : SetAssocConfig)

def setMask : Nat := c.numSets - 1

/-- The line ids of the set of an address, in the order of the loops. -/
def set (lineAddr : Nat) : List Nat :=
  let first := (c.hash lineAddr &&& c.setMask) * c.assoc
  (List.range c.assoc).map (first + ·)

/-- The line id, or `none` for -1. -/
def lookup (array : SetAssocArray) (lineAddr : Nat) : Option Nat :=
  (c.set lineAddr).find? fun id => array id = lineAddr

/-- The candidate and the address it gives up. -/
def preinsert (array : SetAssocArray) (lineAddr : Nat) (rp : RankCands) : Nat × Nat :=
  let candidate := rp.rank (c.set lineAddr)
  (candidate, array candidate)

def postinsert (array : SetAssocArray) (lineAddr candidate : Nat) : SetAssocArray :=
  Function.update array candidate lineAddr

variable {c}

theorem set_ne_nil (lineAddr : Nat) : c.set lineAddr ≠ [] := by
  have := c.assocPos
  simp only [set, ne_eq, List.map_eq_nil_iff, List.range_eq_nil]
  omega

theorem lookup_sound {array : SetAssocArray} {lineAddr id : Nat}
    (found : c.lookup array lineAddr = some id) : id ∈ c.set lineAddr ∧ array id = lineAddr :=
  ⟨List.mem_of_find?_eq_some found, by simpa using List.find?_some found⟩

theorem lookup_missed {array : SetAssocArray} {lineAddr id : Nat}
    (missed : c.lookup array lineAddr = none) (member : id ∈ c.set lineAddr) : array id ≠ lineAddr := by
  simpa using List.find?_eq_none.mp missed id member

/-- The set of an address. -/
def index (c : SetAssocConfig) (lineAddr : Nat) : Nat := c.hash lineAddr &&& c.setMask

theorem index_of_mem_set {lineAddr id : Nat} (member : id ∈ c.set lineAddr) :
    id / c.assoc = c.index lineAddr := by
  obtain ⟨way, isWay, rfl⟩ := List.mem_map.mp member
  have inRange := List.mem_range.mp isWay
  rw [Nat.add_comm, Nat.add_mul_div_right _ _ c.assocPos, Nat.div_eq_of_lt inRange, Nat.zero_add]
  rfl

theorem mem_set_iff {lineAddr id : Nat} : id ∈ c.set lineAddr ↔ id / c.assoc = c.index lineAddr := by
  refine ⟨index_of_mem_set, fun here => List.mem_map.mpr ⟨id % c.assoc, ?_, ?_⟩⟩
  · exact List.mem_range.mpr (Nat.mod_lt _ c.assocPos)
  · have split := Nat.div_add_mod id c.assoc
    rw [here, Nat.mul_comm] at split
    exact split

theorem length_set (lineAddr : Nat) : (c.set lineAddr).length = c.assoc := by
  rw [set, List.length_map, List.length_range]

theorem index_lt (lineAddr : Nat) : c.index lineAddr < c.numSets := by
  have pos : c.numSets ≠ 0 := c.isPow2.1
  have le : c.hash lineAddr &&& c.setMask ≤ c.numSets - 1 := Nat.and_le_right
  unfold index
  omega

theorem lt_of_mem_set {lineAddr id : Nat} (member : id ∈ c.set lineAddr) : id < c.numSets * c.assoc := by
  obtain ⟨way, isWay, rfl⟩ := List.mem_map.mp member
  have way := List.mem_range.mp isWay
  have row : (c.index lineAddr + 1) * c.assoc ≤ c.numSets * c.assoc :=
    Nat.mul_le_mul_right _ (index_lt lineAddr)
  unfold index at row
  rw [Nat.succ_mul] at row
  omega

theorem set_lt_lines (c : SetAssocConfig) {numLines : Nat} (isSets : c.numSets = numLines / c.assoc)
    {lineAddr id : Nat} (member : id ∈ c.set lineAddr) : id < numLines :=
  Nat.lt_of_lt_of_le (lt_of_mem_set member) (isSets ▸ Nat.div_mul_le_self numLines c.assoc)

theorem find?_congr_off {α : Type*} {p q : α → Bool} {a : α} (lost : q a = false)
    (same : ∀ x, x ≠ a → q x = p x) {l : List α} (other : l.find? p ≠ some a) :
    l.find? q = l.find? p := by
  induction l with
  | nil => rfl
  | cons x rest ih =>
      by_cases here : x = a
      · subst here
        cases hit : p x with
        | true => exact absurd (List.find?_cons_of_pos hit) other
        | false =>
            simp only [List.find?_cons, hit] at other
            simp only [List.find?_cons, hit, lost]
            exact ih other
      · have eq := same x here
        cases hit : p x with
        | true => simp only [List.find?_cons, eq, hit]
        | false =>
            simp only [List.find?_cons, hit] at other
            simp only [List.find?_cons, eq, hit]
            exact ih other

theorem lookup_postinsert {array : SetAssocArray} {lineAddr candidate : Nat}
    (missed : c.lookup array lineAddr = none) (member : candidate ∈ c.set lineAddr) :
    c.lookup (postinsert array lineAddr candidate) lineAddr = some candidate := by
  cases found : c.lookup (postinsert array lineAddr candidate) lineAddr with
  | none => exact absurd (Function.update_self ..) (lookup_missed found member)
  | some id =>
      obtain ⟨isCand, here⟩ := lookup_sound found
      by_contra other
      have apart : id ≠ candidate := fun h => other (congrArg some h)
      exact lookup_missed missed isCand ((Function.update_of_ne apart ..).symm.trans here)

theorem lookup_postinsert_of_ne {array : SetAssocArray} {lineAddr candidate other : Nat}
    (apart : other ≠ lineAddr) (notVictim : c.lookup array other ≠ some candidate) :
    c.lookup (postinsert array lineAddr candidate) other = c.lookup array other := by
  refine find?_congr_off ?_ (fun id isOther => ?_) notVictim
  · rw [postinsert, Function.update_self]
    exact decide_eq_false (Ne.symm apart)
  · rw [postinsert, Function.update_of_ne isOther]

end SetAssocConfig

end Zsim
