import Zsim.IdealPart.Model
import Zsim.InLists.Runs

/-!
# The sizes of the partitions

A line is in the list of the partition of its entry, and in no other.  What moves it between the lists
moves it between the counters.
-/

set_option autoImplicit false

namespace Zsim.IdealLRUPart

open Zsim.Partition (MemReq)

/-- The sequences `seqs` of the lists, and what is known of a state -/
structure Inv (c : IdPartConfig) (s : IdealLRUPart) (seqs : Nat → List Nat) : Prop where
  holds : s.lruList.Holds seqs
  mem_iff : ∀ p id, id ∈ seqs p ↔ id < c.numLines ∧ (s.array id).p = p
  inRange : ∀ id < c.numLines, (s.array id).p < c.partitions
  tally : Tally (Finset.range c.numLines) s.array IdPartEntry.p fun p => (s.partInfo p).size
  mapped : ∀ lineAddr id, s.lineMap lineAddr = some id → id < c.numLines

/-- The indices between two states are below the number of partitions. -/
def InBounds (c : IdPartConfig) (s next : IdealLRUPart) : Prop :=
  ∃ later, next.touched = later ++ s.touched ∧ ∀ p ∈ later, p < c.partitions

variable {c : IdPartConfig} {s mid next : IdealLRUPart} {seqs : Nat → List Nat} {id p q : Nat} {req : MemReq}

theorem InBounds.refl (c : IdPartConfig) (s : IdealLRUPart) : InBounds c s s :=
  ⟨[], rfl, fun _ none => absurd none List.not_mem_nil⟩

theorem InBounds.trans (first : InBounds c s mid) (second : InBounds c mid next) : InBounds c s next := by
  obtain ⟨early, isEarly, earlyLt⟩ := first
  obtain ⟨late, isLate, lateLt⟩ := second
  refine ⟨late ++ early, by rw [isLate, isEarly, List.append_assoc], fun p member => ?_⟩
  rcases List.mem_append.mp member with isLate | isEarly
  · exact lateLt p isLate
  · exact earlyLt p isEarly

theorem InBounds.cons (bounds : InBounds c s mid) (lt : p < c.partitions)
    (isNext : next.touched = p :: mid.touched) : InBounds c s next :=
  bounds.trans ⟨[p], isNext, fun _ member => List.mem_singleton.mp member ▸ lt⟩

/-! ## What the invariant gives -/

theorem Inv.length_eq (inv : Inv c s seqs) (p : Nat) : (seqs p).length = (s.partInfo p).size := by
  have size : (s.partInfo p).size = countIn (Finset.range c.numLines) s.array fun e => e.p = p := inv.tally p
  rw [size, countIn, ← List.toFinset_card_of_nodup (inv.holds.nodup p)]
  congr 1
  ext id
  rw [List.mem_toFinset, inv.mem_iff, Finset.mem_filter, Finset.mem_range]

theorem Inv.size_le (inv : Inv c s seqs) (p : Nat) : (s.partInfo p).size ≤ c.numLines := by
  have le := inv.tally.le_card p
  rwa [Finset.card_range] at le

theorem Inv.size_word (inv : Inv c s seqs) (p : Nat) : (s.partInfo p).size + 1 < 2 ^ 64 := by
  have le := inv.size_le p
  have word := c.lines_word
  omega

theorem Inv.sum_eq (inv : Inv c s seqs) :
    ∑ p ∈ Finset.range c.partitions, (s.partInfo p).size = c.numLines := by
  have inside : ∀ id ∈ Finset.range c.numLines, (s.array id).p ∈ Finset.range c.partitions :=
    fun id line => Finset.mem_range.mpr (inv.inRange id (Finset.mem_range.mp line))
  rw [inv.tally.sum_eq inside, Finset.card_range]

/-- Some partition has a line. -/
theorem Inv.exists_filled (inv : Inv c s seqs) : ∃ p < c.partitions, 0 < (s.partInfo p).size :=
  ⟨_, inv.inRange 0 c.lines_pos, inv.tally.pos (Finset.mem_range.mpr c.lines_pos)⟩

/-! ## Moves -/

theorem moveToFront_spec (inv : Inv c s seqs) (line : id < c.numLines) (newPart : Nat)
    {t : IdealLRUPart} (lists : t.lruList = s.lruList) :
    ∃ l seqs', t.moveToFront (s.array id).p newPart id =
        some (({ t with lruList := l }.touch (s.array id).p).touch newPart) ∧ l.Holds seqs' ∧
      ∀ p other, other ∈ seqs' p ↔ if other = id then p = newPart else other ∈ seqs p := by
  have isMember : id ∈ seqs (s.array id).p := (inv.mem_iff _ id).mpr ⟨line, rfl⟩
  have removable : InLists.Legal seqs (.remove (s.array id).p id) := isMember
  obtain ⟨removed, remove, holds⟩ := inv.holds.step removable
  have left : ∀ p other, other ∈ InLists.onSequences seqs (.remove (s.array id).p id) p ↔
      other ≠ id ∧ other ∈ seqs p := by
    intro p other
    by_cases here : p = (s.array id).p
    · subst here
      rw [InLists.onSequences, Function.update_self, (inv.holds.nodup _).mem_erase_iff]
    · rw [InLists.onSequences, Function.update_of_ne here]
      refine (and_iff_right_of_imp fun member same => here ?_).symm
      rw [inv.mem_iff, same] at member
      exact member.2.symm
  have absent : InLists.Legal (InLists.onSequences seqs (.remove (s.array id).p id)) (.pushFront newPart id) :=
    fun p member => ((left p id).mp member).1 rfl
  obtain ⟨pushed, push, holds⟩ := holds.step absent
  refine ⟨pushed, _, ?_, holds, ?_⟩
  · have run : t.lruList.remove (s.array id).p id = some removed := lists ▸ remove
    have run' : removed.pushFront newPart id = some pushed := push
    rw [moveToFront, run, Option.bind_eq_bind, Option.bind_some, run']
    rfl
  · intro p other
    by_cases same : other = id
    · subst same
      rw [if_pos rfl]
      by_cases here : p = newPart
      · subst here
        simp [InLists.onSequences]
      · rw [InLists.onSequences, Function.update_of_ne here]
        exact iff_of_false (absent p) here
    · rw [if_neg same]
      by_cases here : p = newPart
      · subst here
        rw [InLists.onSequences, Function.update_self, List.mem_cons, or_iff_right same, left]
        exact and_iff_right same
      · rw [InLists.onSequences, Function.update_of_ne here, left]
        exact and_iff_right same

theorem moveSize_size (other : p ≠ q) (k : Nat) : ((s.moveSize p q).partInfo k).size =
    incr (decr (fun k => (s.partInfo k).size) p) q k := by
  unfold moveSize setInfo incr decr
  rw [if_pos other]
  by_cases here : k = q
  · subst here
    simp [Ne.symm other]
  · by_cases there : k = p
    · subst there
      simp [here]
    · simp [here, there]

theorem moveSize_change (pos : 0 < (s.partInfo p).size)
    (fits : ∀ k, (s.partInfo k).size + 1 < 2 ^ 64) (k : Nat) :
    ((s.moveSize p q).partInfo k).size + (if p = k then 1 else 0) =
      (s.partInfo k).size + (if q = k then 1 else 0) := by
  by_cases same : p = q
  · subst same
    rw [moveSize, if_neg (not_not.mpr rfl)]
    rfl
  · obtain ⟨size, isSize⟩ : ∃ size : Nat → Nat, (fun k => (s.partInfo k).size) = size := ⟨_, rfl⟩
    have sizes : ∀ k, (s.partInfo k).size = size k := congrFun isSize
    rw [sizes] at pos
    have fits' : ∀ k, size k + 1 < 2 ^ 64 := fun k => sizes k ▸ fits k
    have out := decr_add pos (Nat.lt_of_succ_lt (fits' p)) k
    have room : decr size p q + 1 < 2 ^ 64 := by
      rw [decr, Function.update_of_ne (Ne.symm same)]
      exact fits' q
    rw [moveSize_size same, isSize, sizes, incr_eq _ _ room, Nat.add_right_comm, out]

theorem moveSize_target (s : IdealLRUPart) (p q k : Nat) :
    ((s.moveSize p q).partInfo k).targetSize = (s.partInfo k).targetSize := by
  unfold moveSize setInfo touch
  split
  · by_cases here : k = q
    · subst here
      by_cases there : k = p
      · subst there
        simp
      · simp [there]
    · by_cases there : k = p
      · subst there
        simp [here]
      · simp [here, there]
  · rfl

theorem moveSize_inBounds (s : IdealLRUPart) (lt : p < c.partitions) (lt' : q < c.partitions) :
    InBounds c s (s.moveSize p q) := by
  unfold moveSize setInfo touch
  split
  · exact ((InBounds.refl c s).cons lt rfl).cons lt' rfl
  · exact (InBounds.refl c s).cons lt rfl

structure Keeps (c : IdPartConfig) (s next : IdealLRUPart) : Prop where
  bounds : InBounds c s next
  targets : ∀ p, (next.partInfo p).targetSize = (s.partInfo p).targetSize

theorem Keeps.trans (first : Keeps c s mid) (second : Keeps c mid next) : Keeps c s next where
  bounds := first.bounds.trans second.bounds
  targets p := (second.targets p).trans (first.targets p)

theorem Inv.update (inv : Inv c s seqs) (line : id < c.numLines) (inRange : InRange c req) :
    ∃ next seqs', s.update c id req = some next ∧ Inv c next seqs' ∧ Keeps c s next := by
  have oldLt := inv.inRange id line
  unfold IdealLRUPart.update
  dsimp only
  split
  case isTrue =>
    obtain ⟨l, seqs', run, holds, members⟩ := moveToFront_spec inv line (s.array id).p rfl
    rw [run]
    refine ⟨_, seqs', rfl, ?_, ?_⟩
    · exact {
        holds := holds
        mem_iff := by
          intro p other
          rw [members]
          by_cases same : other = id
          · subst same
            rw [if_pos rfl]
            exact ⟨fun here => ⟨line, here.symm⟩, fun holds => holds.2.symm⟩
          · rw [if_neg same]
            exact inv.mem_iff p other
        inRange := inv.inRange
        tally := inv.tally
        mapped := inv.mapped }
    · exact {
        bounds := (((InBounds.refl c s).cons oldLt rfl).cons oldLt rfl).cons oldLt rfl
        targets := fun _ => rfl }
  case isFalse =>
    obtain ⟨newPart, newLt, isNew⟩ := inRange
    obtain ⟨moved, isMoved⟩ : ∃ moved, { s.moveSize (s.array id).p newPart with
        array := Function.update (s.moveSize (s.array id).p newPart).array id ⟨newPart, true⟩ } = moved :=
      ⟨_, rfl⟩
    have fields : (s.moveSize (s.array id).p newPart).array = s.array ∧
        (s.moveSize (s.array id).p newPart).lruList = s.lruList ∧
        (s.moveSize (s.array id).p newPart).lineMap = s.lineMap := by
      unfold moveSize
      split <;> exact ⟨rfl, rfl, rfl⟩
    obtain ⟨array, lists, lineMap⟩ := fields
    have lists' : moved.lruList = s.lruList := by
      rw [← isMoved]
      exact lists
    have array' : moved.array = Function.update s.array id ⟨newPart, true⟩ := by
      rw [← isMoved, array]
    have lineMap' : moved.lineMap = s.lineMap := by
      rw [← isMoved]
      exact lineMap
    have info : moved.partInfo = (s.moveSize (s.array id).p newPart).partInfo := by rw [← isMoved]
    have bounds : InBounds c s moved := by
      rw [← isMoved]
      exact moveSize_inBounds s oldLt newLt
    obtain ⟨l, seqs', run, holds, members⟩ := moveToFront_spec inv line newPart lists'
    rw [isNew, Option.bind_eq_bind, Option.bind_some, isMoved, run]
    refine ⟨_, seqs', rfl, ?_, ?_⟩
    · have lineMember := Finset.mem_range.mpr line
      exact {
        holds := holds
        mem_iff := by
          intro p other
          simp only [touch, array']
          rw [members]
          by_cases same : other = id
          · subst same
            rw [if_pos rfl, Function.update_self]
            exact ⟨fun here => ⟨line, here.symm⟩, fun holds => holds.2.symm⟩
          · rw [if_neg same, Function.update_of_ne same]
            exact inv.mem_iff p other
        inRange := by
          intro other isLine
          simp only [touch, array']
          by_cases same : other = id
          · subst same
            rwa [Function.update_self]
          · rw [Function.update_of_ne same]
            exact inv.inRange other isLine
        tally := by
          simp only [touch, array', info]
          apply inv.tally.write lineMember
          exact moveSize_change (inv.tally.pos lineMember) inv.size_word
        mapped := by
          intro lineAddr other isMapped
          simp only [touch, lineMap'] at isMapped
          exact inv.mapped lineAddr other isMapped }
    · exact {
        bounds := ((bounds.cons oldLt rfl).cons newLt rfl).cons newLt rfl
        targets := by
          intro p
          simp only [touch, info]
          exact moveSize_target s _ _ p }

end Zsim.IdealLRUPart
