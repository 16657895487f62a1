import Mathlib.Data.List.Nodup
import Zsim.InLists.Model

/-!
# The lists are sequences

The links of every list describe one sequence in both directions.  An operation changes one of the
sequences, and nothing of the other lists.
-/

set_option autoImplicit false

namespace Zsim.InLists

variable {T L : Type*}

/-- The lists hold these sequences; a node in none of them has null links and no owner. -/
structure Holds (s : InLists T L) (seqs : L → List T) : Prop where
  linked : ∀ lst, DoublyLinked s.next s.prev (s.head lst) (s.tail lst) (seqs lst)
  nodup : ∀ lst, (seqs lst).Nodup
  elems_eq : ∀ lst, s.elems lst = (seqs lst).length
  owner_iff : ∀ lst e, s.owner e = some lst ↔ e ∈ seqs lst
  unlinked : ∀ e, s.owner e = none → s.next e = none ∧ s.prev e = none

/-- One list has become `objs`, by nodes that were its own or no list's. -/
structure Changed (s next : InLists T L) (lst : L) (objs : List T) : Prop where
  linked : DoublyLinked next.next next.prev (next.head lst) (next.tail lst) objs
  nodup : objs.Nodup
  elems_eq : next.elems lst = objs.length
  owner_iff : ∀ e, next.owner e = some lst ↔ e ∈ objs
  gained : ∀ e ∈ objs, s.owner e = some lst ∨ s.owner e = none
  freed : ∀ e, s.owner e = some lst → e ∉ objs →
    next.next e = none ∧ next.prev e = none ∧ next.owner e = none
  elsewhere : ∀ e, s.owner e ≠ some lst → e ∉ objs →
    next.next e = s.next e ∧ next.prev e = s.prev e ∧ next.owner e = s.owner e
  others : ∀ l, l ≠ lst → next.head l = s.head l ∧ next.tail l = s.tail l ∧ next.elems l = s.elems l

variable {s next : InLists T L} {seqs : L → List T} {lst : L} {objs before after : List T} {e p : T}

theorem Holds.new : Holds (new : InLists T L) fun _ => [] where
  linked _ := DoublyLinked.nil _ _
  nodup _ := List.nodup_nil
  elems_eq _ := rfl
  owner_iff _ _ := by simp [InLists.new]
  unlinked _ _ := ⟨rfl, rfl⟩

/-! ## Reading a list -/

theorem Holds.front_eq (holds : s.Holds seqs) (lst : L) : s.front lst = (seqs lst).head? :=
  (holds.linked lst).head_eq

theorem Holds.back_eq (holds : s.Holds seqs) (lst : L) : s.back lst = (seqs lst).getLast? :=
  (holds.linked lst).tail_eq

theorem Holds.size_eq (holds : s.Holds seqs) (lst : L) : s.size lst = (seqs lst).length :=
  holds.elems_eq lst

theorem Holds.empty_iff (holds : s.Holds seqs) (lst : L) : s.empty lst = true ↔ seqs lst = [] := by
  rw [empty, Option.isNone_iff_eq_none]
  exact (holds.linked lst).forward.head_none_iff

theorem Holds.owner_eq_none_iff (holds : s.Holds seqs) :
    s.owner e = none ↔ ∀ lst, e ∉ seqs lst := by
  constructor
  · intro none lst member
    rw [(holds.owner_iff lst e).mpr member] at none
    cases none
  · intro absent
    cases owner : s.owner e with
    | none => rfl
    | some lst => exact absurd ((holds.owner_iff lst e).mp owner) (absent lst)

theorem Holds.unlinked_iff (holds : s.Holds seqs) : s.Unlinked e ↔ ∀ lst, e ∉ seqs lst := by
  rw [← holds.owner_eq_none_iff]
  exact ⟨fun unlinked => unlinked.2.2, fun none =>
    ⟨(holds.unlinked e none).1, (holds.unlinked e none).2, none⟩⟩

theorem Holds.next_eq (holds : s.Holds seqs) (split : seqs lst = before ++ e :: after) :
    s.next e = after.head? := by
  have linked := holds.linked lst
  rw [split] at linked
  exact linked.next_eq

theorem Holds.prev_eq (holds : s.Holds seqs) (split : seqs lst = before ++ e :: after) :
    s.prev e = before.getLast? := by
  have linked := holds.linked lst
  rw [split] at linked
  exact linked.prev_eq

theorem Holds.absent (holds : s.Holds seqs) (split : seqs lst = before ++ e :: after) :
    e ∉ before ++ after ∧ (before ++ after).Nodup := by
  have nodup := holds.nodup lst
  rw [split] at nodup
  exact List.nodup_cons.mp (List.perm_middle.nodup nodup)

theorem Holds.not_next_self (holds : s.Holds seqs) (split : seqs lst = before ++ e :: after) :
    s.next e ≠ some e := by
  rw [holds.next_eq split]
  exact fun same => (holds.absent split).1 (List.mem_append_right _ (List.mem_of_head? same))

/-! ## One list at a time -/

section
variable [DecidableEq T] [DecidableEq L]

omit [DecidableEq T] in
theorem Holds.changed (holds : s.Holds seqs) (changed : Changed s next lst objs) :
    next.Holds (Function.update seqs lst objs) where
  linked := by
    intro l
    by_cases same : l = lst
    · subst same
      rw [Function.update_self]
      exact changed.linked
    · rw [Function.update_of_ne same, (changed.others l same).1, (changed.others l same).2.1]
      apply (holds.linked l).congr
      intro x member
      have owner := (holds.owner_iff l x).mpr member
      have notOurs : s.owner x ≠ some lst := by
        rw [owner]
        exact fun h => same (Option.some.inj h)
      have absent : x ∉ objs := fun inObjs => by
        rcases changed.gained x inObjs with ours | none
        · exact notOurs ours
        · rw [owner] at none
          cases none
      obtain ⟨nextSame, prevSame, -⟩ := changed.elsewhere x notOurs absent
      exact ⟨nextSame, prevSame⟩
  nodup := by
    intro l
    by_cases same : l = lst
    · subst same
      rw [Function.update_self]
      exact changed.nodup
    · rw [Function.update_of_ne same]
      exact holds.nodup l
  elems_eq := by
    intro l
    by_cases same : l = lst
    · subst same
      rw [Function.update_self]
      exact changed.elems_eq
    · rw [Function.update_of_ne same, (changed.others l same).2.2]
      exact holds.elems_eq l
  owner_iff := by
    intro l x
    by_cases same : l = lst
    · subst same
      rw [Function.update_self]
      exact changed.owner_iff x
    · rw [Function.update_of_ne same, ← holds.owner_iff l x]
      have apart : some lst ≠ some l := fun h => same (Option.some.inj h).symm
      by_cases inObjs : x ∈ objs
      · rw [(changed.owner_iff x).mpr inObjs]
        rcases changed.gained x inObjs with ours | none
        · rw [ours]
        · rw [none]
          exact iff_of_false apart nofun
      · by_cases ours : s.owner x = some lst
        · rw [(changed.freed x ours inObjs).2.2, ours]
          exact iff_of_false nofun apart
        · rw [(changed.elsewhere x ours inObjs).2.2]
  unlinked := by
    intro x none
    have absent : x ∉ objs := fun inObjs => by
      rw [(changed.owner_iff x).mpr inObjs] at none
      cases none
    by_cases ours : s.owner x = some lst
    · obtain ⟨nextNone, prevNone, -⟩ := changed.freed x ours absent
      exact ⟨nextNone, prevNone⟩
    · obtain ⟨nextSame, prevSame, ownerSame⟩ := changed.elsewhere x ours absent
      rw [nextSame, prevSame]
      rw [ownerSame] at none
      exact holds.unlinked x none

/-! ## Taking a node out -/

/-- What `unlink` leaves if the node is not its own neighbour. -/
def unlinkedFrom (s : InLists T L) (e : T) : InLists T L :=
  { s with
    next := Function.update (redirect s.next (s.prev e) (s.next e)) e none
    prev := Function.update (redirect s.prev (s.next e) (s.prev e)) e none
    owner := Function.update s.owner e none }

theorem unlink_eq (apart : s.next e ≠ some e) (owned : s.owner e = some lst) :
    s.unlink e lst = some (s.unlinkedFrom e) := by
  have prev : redirect s.prev (s.next e) (s.prev e) e = s.prev e := redirect_of_ne apart
  rw [unlink]
  dsimp only
  rw [if_pos owned, prev]
  rfl

omit [DecidableEq T] in
theorem ite_update {α : Type*} {f : L → α} {a : α} {c : Prop} [Decidable c] :
    (if c then Function.update f lst a else f) = Function.update f lst (if c then a else f lst) := by
  split
  next => rfl
  next => rw [Function.update_eq_self]

/-- The lists after a removal, with the fields as `remove` sets them. -/
def removedFrom (s : InLists T L) (lst : L) (e : T) : InLists T L :=
  { s.unlinkedFrom e with
    head := Function.update s.head lst (if s.head lst = some e then s.next e else s.head lst)
    tail := Function.update s.tail lst (if s.tail lst = some e then s.prev e else s.tail lst)
    elems := Function.update s.elems lst (s.elems lst - 1) }

variable (lst) in
/-- A node that is not linked to `e` keeps its links when `e` is taken out. -/
theorem links_removedFrom {x : T} (other : x ≠ e) (notAfter : s.next e ≠ some x)
    (notBefore : s.prev e ≠ some x) :
    (s.removedFrom lst e).next x = s.next x ∧ (s.removedFrom lst e).prev x = s.prev x := by
  show Function.update (redirect s.next _ _) e none x = _ ∧ Function.update (redirect s.prev _ _) e none x = _
  rw [Function.update_of_ne other, Function.update_of_ne other]
  exact ⟨redirect_of_ne notBefore, redirect_of_ne notAfter⟩

theorem Holds.removed (holds : s.Holds seqs) (split : seqs lst = before ++ e :: after) :
    Changed s (s.removedFrom lst e) lst (before ++ after) := by
  have linked := holds.linked lst
  have nodup := holds.nodup lst
  have next_eq := holds.next_eq split
  have prev_eq := holds.prev_eq split
  obtain ⟨absent, nodup'⟩ := holds.absent split
  have members : ∀ x, s.owner x = some lst ↔ x = e ∨ x ∈ before ++ after := by
    intro x
    have middle : (before ++ e :: after).Perm (e :: (before ++ after)) := List.perm_middle
    rw [holds.owner_iff, split, middle.mem_iff, List.mem_cons]
  have owner_eq : ∀ x, (s.removedFrom lst e).owner x = if x = e then none else s.owner x :=
    fun x => Function.update_apply s.owner e none x
  rw [split] at linked nodup
  exact {
    linked := by
      have removed := linked.remove nodup
      show DoublyLinked _ _ (Function.update s.head lst _ lst) (Function.update s.tail lst _ lst) _
      rw [Function.update_self, Function.update_self]
      exact removed
    nodup := nodup'
    elems_eq := by
      show Function.update s.elems lst (s.elems lst - 1) lst = _
      rw [Function.update_self, holds.elems_eq, split]
      simp
    owner_iff := by
      intro x
      rw [owner_eq]
      by_cases same : x = e
      · rw [if_pos same, same]
        exact iff_of_false nofun absent
      · rw [if_neg same, members]
        exact or_iff_right same
    gained := fun x member => .inl ((members x).mpr (.inr member))
    freed := by
      intro x ours outside
      have same : x = e := ((members x).mp ours).resolve_right outside
      subst same
      exact ⟨Function.update_self .., Function.update_self .., Function.update_self ..⟩
    elsewhere := by
      intro x notOurs outside
      have notMember : ¬ (x = e ∨ x ∈ before ++ after) := fun member => notOurs ((members x).mpr member)
      have other : x ≠ e := fun same => notMember (.inl same)
      -- the neighbours of `e` are in the list
      have notAfter : s.next e ≠ some x := fun same =>
        outside (List.mem_append_right _ (List.mem_of_head? (next_eq.symm.trans same)))
      have notBefore : s.prev e ≠ some x := fun same =>
        outside (List.mem_append_left _ (List.mem_of_getLast? (prev_eq.symm.trans same)))
      obtain ⟨nextSame, prevSame⟩ := links_removedFrom lst other notAfter notBefore
      exact ⟨nextSame, prevSame, by rw [owner_eq, if_neg other]⟩
    others := fun l other => ⟨Function.update_of_ne other .., Function.update_of_ne other ..,
      Function.update_of_ne other ..⟩ }

theorem Holds.remove (holds : s.Holds seqs) (split : seqs lst = before ++ e :: after) :
    s.remove lst e = some (s.removedFrom lst e) := by
  have owned : s.owner e = some lst := by
    rw [holds.owner_iff, split]
    exact List.mem_append_right _ List.mem_cons_self
  have unlinks := unlink_eq (s := { s with
    head := if s.head lst = some e then Function.update s.head lst (s.next e) else s.head
    tail := if s.tail lst = some e then Function.update s.tail lst (s.prev e) else s.tail })
    (holds.not_next_self split) owned
  rw [InLists.remove]
  dsimp only
  rw [unlinks, Option.map_some, removedFrom, ite_update, ite_update]
  rfl

theorem Holds.popFront_cons (holds : s.Holds seqs) (split : seqs lst = e :: after) :
    s.popFront lst = some (s.removedFrom lst e) := by
  have split : seqs lst = [] ++ e :: after := split
  have linked := holds.linked lst
  rw [split] at linked
  have isHead : s.head lst = some e := linked.head_eq
  have isTail : s.tail lst = ([] ++ e :: after).getLast? := linked.tail_eq
  have next_eq := holds.next_eq split
  have prev_eq : s.prev e = none := holds.prev_eq split
  have owned : s.owner e = some lst := by
    rw [holds.owner_iff, split]
    exact List.mem_cons_self
  have last : s.next e = none ↔ s.tail lst = some e := by
    rw [next_eq, isTail]
    cases after with
    | nil => simp
    | cons second rest =>
        have notLast : (e :: second :: rest).getLast? ≠ some e := by
          rw [List.getLast?_cons_cons]
          exact fun last => (holds.absent split).1 (List.mem_of_getLast? last)
        exact iff_of_false nofun notLast
  have unlinks := unlink_eq (s := { s with head := Function.update s.head lst (s.next e) })
    (holds.not_next_self split) owned
  rw [InLists.popFront, isHead]
  dsimp only
  rw [unlinks, Option.map_some, removedFrom, isHead, if_pos rfl, prev_eq, ← ite_update]
  have newHead : ({ s with head := Function.update s.head lst (s.next e) }.unlinkedFrom e).head lst =
      s.next e := Function.update_self ..
  simp only [newHead, last]
  rfl

/-- And one of the back. -/
theorem Holds.popBack_concat (holds : s.Holds seqs) (split : seqs lst = before ++ [e]) :
    s.popBack lst = some (s.removedFrom lst e) := by
  have linked := holds.linked lst
  rw [split] at linked
  have isTail : s.tail lst = some e := by
    rw [linked.tail_eq, List.getLast?_concat]
  have isHead : s.head lst = (before ++ [e]).head? := linked.head_eq
  have next_eq : s.next e = none := holds.next_eq split
  have prev_eq := holds.prev_eq split
  have owned : s.owner e = some lst := by
    rw [holds.owner_iff, split]
    exact List.mem_append_right _ List.mem_cons_self
  have first : s.prev e = none ↔ s.head lst = some e := by
    rw [prev_eq, isHead]
    cases before with
    | nil => simp
    | cons head rest =>
        have other : head ≠ e := by
          rintro rfl
          exact (holds.absent split).1 List.mem_cons_self
        simpa using other
  have notEmpty : ∃ h, s.head lst = some h := by
    rw [isHead]
    cases before with
    | nil => exact ⟨e, rfl⟩
    | cons head rest => exact ⟨head, rfl⟩
  obtain ⟨h, isFirst⟩ := notEmpty
  have unlinks := unlink_eq (s := { s with tail := Function.update s.tail lst (s.prev e) })
    (holds.not_next_self split) owned
  rw [InLists.popBack, isFirst, isTail]
  dsimp only
  rw [unlinks, Option.map_some, removedFrom, isTail, if_pos rfl, next_eq, ← ite_update]
  have newTail : ({ s with tail := Function.update s.tail lst (s.prev e) }.unlinkedFrom e).tail lst =
      s.prev e := Function.update_self ..
  simp only [newTail, first]
  rfl

/-! ## Putting a node in -/

/-- The lists after `e` has come to stand behind `p`. -/
def insertedInto (s : InLists T L) (lst : L) (p e : T) : InLists T L :=
  { s with
    next := Function.update (Function.update s.next e (s.next p)) p (some e)
    prev := Function.update (redirect s.prev (s.next p) (some e)) e (some p)
    owner := Function.update s.owner e (some lst)
    tail := Function.update s.tail lst (if s.tail lst = some p then some e else s.tail lst)
    elems := Function.update s.elems lst (s.elems lst + 1) }

omit [DecidableEq L] in
theorem Holds.gained (holds : s.Holds seqs) (absent : ∀ l, e ∉ seqs l)
    (members : ∀ x, x ∈ objs ↔ x = e ∨ x ∈ seqs lst)
    (owners : next.owner = Function.update s.owner e (some lst))
    (linked : DoublyLinked next.next next.prev (next.head lst) (next.tail lst) objs)
    (nodup : objs.Nodup) (size : next.elems lst = objs.length)
    (links : ∀ x, x ∉ objs → next.next x = s.next x ∧ next.prev x = s.prev x)
    (others : ∀ l, l ≠ lst →
      next.head l = s.head l ∧ next.tail l = s.tail l ∧ next.elems l = s.elems l) :
    Changed s next lst objs where
  linked := linked
  nodup := nodup
  elems_eq := size
  owner_iff := by
    intro x
    rw [owners, members]
    by_cases same : x = e
    · rw [same, Function.update_self]
      exact iff_of_true rfl (.inl rfl)
    · rw [Function.update_of_ne same, holds.owner_iff]
      exact (or_iff_right same).symm
  gained := by
    intro x member
    rcases (members x).mp member with rfl | old
    · exact .inr (holds.owner_eq_none_iff.mpr absent)
    · exact .inl ((holds.owner_iff lst x).mpr old)
  freed := fun x ours outside =>
    absurd ((members x).mpr (.inr ((holds.owner_iff lst x).mp ours))) outside
  elsewhere := by
    intro x notOurs outside
    have other : x ≠ e := fun same => outside ((members x).mpr (.inl same))
    obtain ⟨nextSame, prevSame⟩ := links x outside
    exact ⟨nextSame, prevSame, by rw [owners, Function.update_of_ne other]⟩
  others := others

theorem Holds.inserted (holds : s.Holds seqs) (split : seqs lst = before ++ p :: after)
    (absent : ∀ l, e ∉ seqs l) : Changed s (s.insertedInto lst p e) lst (before ++ p :: e :: after) := by
  have linked := holds.linked lst
  have nodup := holds.nodup lst
  have here := absent lst
  have next_eq := holds.next_eq split
  rw [split] at linked nodup here
  have inserted := linked.insertAfter nodup here
  have shifted : (before ++ p :: e :: after).Perm (e :: (before ++ p :: after)) := by
    have middle : ((before ++ [p]) ++ e :: after).Perm (e :: ((before ++ [p]) ++ after)) :=
      List.perm_middle
    rwa [List.append_assoc, List.append_assoc] at middle
  refine holds.gained absent ?_ rfl ?_ (shifted.nodup_iff.mpr (List.nodup_cons.mpr ⟨here, nodup⟩)) ?_ ?_ ?_
  · intro x
    rw [shifted.mem_iff, List.mem_cons, split]
  · show DoublyLinked _ _ (s.head lst) (Function.update s.tail lst _ lst) _
    rw [Function.update_self]
    exact inserted
  · show Function.update s.elems lst (s.elems lst + 1) lst = _
    rw [Function.update_self, holds.elems_eq, split, shifted.length_eq, List.length_cons]
  · intro x outside
    have other : x ≠ e := by
      rintro rfl
      exact outside (shifted.mem_iff.mpr List.mem_cons_self)
    have notP : x ≠ p := by
      rintro rfl
      exact outside (List.mem_append_right _ List.mem_cons_self)
    have notAfter : s.next p ≠ some x := fun same =>
      outside (List.mem_append_right _ (List.mem_cons_of_mem _
        (List.mem_cons_of_mem _ (List.mem_of_head? (next_eq.symm.trans same)))))
    show Function.update (Function.update s.next e _) p _ x = _ ∧ Function.update (redirect s.prev _ _) e _ x = _
    rw [Function.update_of_ne notP, Function.update_of_ne other, Function.update_of_ne other]
    exact ⟨rfl, redirect_of_ne notAfter⟩
  · exact fun l other => ⟨rfl, Function.update_of_ne other .., Function.update_of_ne other ..⟩

omit [DecidableEq L] in
/-- `linkPrev` behind a member. -/
theorem Holds.linkPrev (holds : s.Holds seqs) (split : seqs lst = before ++ p :: after)
    (absent : ∀ l, e ∉ seqs l) : s.linkPrev e p lst = some { s with
      next := Function.update (Function.update s.next e (s.next p)) p (some e)
      prev := Function.update (redirect s.prev (s.next p) (some e)) e (some p)
      owner := Function.update s.owner e (some lst) } := by
  obtain ⟨nextNone, prevNone, noOwner⟩ := holds.unlinked_iff.mpr absent
  have next_eq := holds.next_eq split
  rw [InLists.linkPrev, if_pos ⟨noOwner, prevNone, nextNone⟩]
  cases after with
  | nil =>
      have last : s.next p = none := next_eq
      have same : Function.update s.next e none = s.next := by
        rw [← nextNone, Function.update_eq_self]
      rw [last]
      simp only [redirect, same]
  | cons second rest =>
      have isNext : s.next p = some second := next_eq
      have split : seqs lst = (before ++ [p]) ++ second :: rest := by
        rw [split, List.append_assoc, List.singleton_append]
      have isPrev : s.prev second = some p := by
        rw [holds.prev_eq split, List.getLast?_concat]
      rw [isNext]
      simp only [redirect, if_pos isPrev]

theorem Holds.insertAfter (holds : s.Holds seqs) (split : seqs lst = before ++ p :: after)
    (absent : ∀ l, e ∉ seqs l) : s.insertAfter lst p e = some (s.insertedInto lst p e) := by
  have noOwner := holds.owner_eq_none_iff.mpr absent
  have owned : s.owner p = some lst := by
    rw [holds.owner_iff, split]
    exact List.mem_append_right _ List.mem_cons_self
  rw [InLists.insertAfter, if_pos ⟨noOwner, owned⟩, holds.linkPrev split absent, Option.map_some, ite_update]
  rfl

theorem Holds.pushBack_concat (holds : s.Holds seqs) (split : seqs lst = before ++ [p])
    (absent : ∀ l, e ∉ seqs l) : s.pushBack lst e = some (s.insertedInto lst p e) := by
  have linked := holds.linked lst
  rw [split] at linked
  have isTail : s.tail lst = some p := by
    rw [linked.tail_eq, List.getLast?_concat]
  have notEmpty : ∃ h, s.head lst = some h := by
    rw [linked.head_eq]
    cases before with
    | nil => exact ⟨p, rfl⟩
    | cons head rest => exact ⟨head, rfl⟩
  obtain ⟨h, isFirst⟩ := notEmpty
  rw [InLists.pushBack, if_pos (holds.unlinked_iff.mpr absent), isFirst, isTail]
  dsimp only
  rw [holds.linkPrev split absent, Option.map_some, insertedInto, if_pos isTail]

/-- The lists after `e` has come to stand in front. -/
def pushedOnto (s : InLists T L) (lst : L) (e : T) : InLists T L :=
  { s with
    next := Function.update s.next e (s.head lst)
    prev := redirect s.prev (s.head lst) (some e)
    owner := Function.update s.owner e (some lst)
    head := Function.update s.head lst (some e)
    tail := Function.update s.tail lst (if s.head lst = none then some e else s.tail lst)
    elems := Function.update s.elems lst (s.elems lst + 1) }

theorem Holds.pushed (holds : s.Holds seqs) (absent : ∀ l, e ∉ seqs l) :
    Changed s (s.pushedOnto lst e) lst (e :: seqs lst) := by
  have linked := holds.linked lst
  have pushed := linked.push (absent lst) (holds.nodup lst) (holds.unlinked_iff.mpr absent).2.1
  refine holds.gained absent (fun x => List.mem_cons) rfl ?_
    (List.nodup_cons.mpr ⟨absent lst, holds.nodup lst⟩) ?_ ?_ ?_
  · show DoublyLinked _ _ (Function.update s.head lst _ lst) (Function.update s.tail lst _ lst) _
    rw [Function.update_self, Function.update_self]
    exact pushed
  · show Function.update s.elems lst (s.elems lst + 1) lst = _
    rw [Function.update_self, holds.elems_eq, List.length_cons]
  · intro x outside
    obtain ⟨other, outside⟩ := List.ne_and_not_mem_of_not_mem_cons outside
    have notHead : s.head lst ≠ some x := fun same =>
      outside (List.mem_of_head? (linked.head_eq.symm.trans same))
    exact ⟨Function.update_of_ne other .., redirect_of_ne notHead⟩
  · exact fun l other => ⟨Function.update_of_ne other .., Function.update_of_ne other ..,
      Function.update_of_ne other ..⟩

theorem Holds.pushOnly (holds : s.Holds seqs) (isEmpty : s.head lst = none) (absent : ∀ l, e ∉ seqs l) :
    s.pushOnly lst e = s.pushedOnto lst e := by
  have same : Function.update s.next e none = s.next := by
    rw [← (holds.unlinked_iff.mpr absent).1, Function.update_eq_self]
  rw [pushedOnto, isEmpty, if_pos rfl, same]
  rfl

theorem Holds.pushFront (holds : s.Holds seqs) (absent : ∀ l, e ∉ seqs l) :
    s.pushFront lst e = some (s.pushedOnto lst e) := by
  rw [InLists.pushFront, if_pos (holds.unlinked_iff.mpr absent)]
  cases isHead : s.head lst with
  | none => exact congrArg some (holds.pushOnly isHead absent)
  | some h =>
      have linked := holds.linked lst
      cases split : seqs lst with
      | nil =>
          rw [linked.head_eq, split] at isHead
          cases isHead
      | cons first rest =>
          have isFirst : h = first := by
            rw [linked.head_eq, split] at isHead
            exact (Option.some.inj isHead).symm
          subst isFirst
          have front : seqs lst = [] ++ h :: rest := split
          have prevNone : s.prev h = none := holds.prev_eq front
          have owned : s.owner h = some lst := by
            rw [holds.owner_iff, split]
            exact List.mem_cons_self
          dsimp only
          rw [if_pos ⟨prevNone, owned⟩, pushedOnto, isHead]
          simp only [redirect, reduceCtorEq, if_false, Function.update_eq_self]

/-! ## Runs -/

omit [DecidableEq L] in
theorem insertBehind_append (notBefore : p ∉ before) :
    insertBehind p e (before ++ p :: after) = before ++ p :: e :: after := by
  induction before with
  | nil => simp [insertBehind]
  | cons first rest ih =>
      obtain ⟨other, notBefore⟩ := List.ne_and_not_mem_of_not_mem_cons notBefore
      rw [List.cons_append, insertBehind, if_neg other.symm, ih notBefore, List.cons_append]

theorem erase_middle (notBefore : e ∉ before) : (before ++ e :: after).erase e = before ++ after := by
  rw [List.erase_append_right _ notBefore, List.erase_cons_head]

/-- An operation has the effect of its counterpart on sequences. -/
theorem Holds.step (holds : s.Holds seqs) {op : Op T L} (legal : Legal seqs op) :
    ∃ next, s.step op = some next ∧ next.Holds (onSequences seqs op) := by
  cases op with
  | pushFront lst e => exact ⟨_, holds.pushFront legal, holds.changed (holds.pushed legal)⟩
  | pushBack lst e =>
      rcases List.eq_nil_or_concat (seqs lst) with isEmpty | ⟨before, p, split⟩
      · have noHead : s.head lst = none := by
          rw [(holds.linked lst).head_eq, isEmpty]
          rfl
        have pushed : Changed s (s.pushedOnto lst e) lst (e :: seqs lst) := holds.pushed legal
        refine ⟨s.pushedOnto lst e, ?_, ?_⟩
        · rw [InLists.step, InLists.pushBack, if_pos (holds.unlinked_iff.mpr legal), noHead]
          exact congrArg some (holds.pushOnly noHead legal)
        · have changed := holds.changed pushed
          rw [onSequences, isEmpty]
          rw [isEmpty] at changed
          exact changed
      · rw [List.concat_eq_append] at split
        have changed := holds.changed (holds.inserted split legal)
        refine ⟨_, holds.pushBack_concat split legal, ?_⟩
        rw [onSequences, split, List.append_assoc]
        exact changed
  | popFront lst =>
      cases split : seqs lst with
      | nil =>
          have noHead : s.head lst = none := by
            rw [(holds.linked lst).head_eq, split]
            rfl
          refine ⟨s, by rw [InLists.step, InLists.popFront, noHead], ?_⟩
          rw [onSequences, split, List.tail_nil, ← split, Function.update_eq_self]
          exact holds
      | cons first rest =>
          have front : seqs lst = [] ++ first :: rest := split
          refine ⟨_, holds.popFront_cons split, ?_⟩
          rw [onSequences, split]
          exact holds.changed (holds.removed front)
  | popBack lst =>
      rcases List.eq_nil_or_concat (seqs lst) with isEmpty | ⟨before, last, split⟩
      · have noHead : s.head lst = none := by
          rw [(holds.linked lst).head_eq, isEmpty]
          rfl
        refine ⟨s, by rw [InLists.step, InLists.popBack, noHead], ?_⟩
        rw [onSequences, isEmpty, List.dropLast_nil, ← isEmpty, Function.update_eq_self]
        exact holds
      · rw [List.concat_eq_append] at split
        have changed := holds.changed (holds.removed split)
        refine ⟨_, holds.popBack_concat split, ?_⟩
        rw [onSequences, split, List.dropLast_concat]
        rw [List.append_nil] at changed
        exact changed
  | remove lst e =>
      obtain ⟨before, after, split⟩ := List.append_of_mem legal
      have notBefore : e ∉ before := fun member =>
        (holds.absent split).1 (List.mem_append_left after member)
      refine ⟨_, holds.remove split, ?_⟩
      rw [onSequences, split, erase_middle notBefore]
      exact holds.changed (holds.removed split)
  | insertAfter lst p e =>
      obtain ⟨member, absent⟩ := legal
      obtain ⟨before, after, split⟩ := List.append_of_mem member
      have notBefore : p ∉ before := fun member =>
        (holds.absent split).1 (List.mem_append_left after member)
      refine ⟨_, holds.insertAfter split absent, ?_⟩
      rw [onSequences, split, insertBehind_append notBefore]
      exact holds.changed (holds.inserted split absent)

/-- In every legal run no assertion fails, and the lists hold what the operations make of sequences. -/
theorem lists_are_sequences {ops : List (Op T L)}
    (legal : (sequences : Machine (L → List T) (Op T L)).LegalRun ops fun _ => []) :
    ∃ seqs s, sequences.exec ops (fun _ => []) = some seqs ∧ lists.exec ops new = some s ∧
      s.Holds seqs := by
  have related : ∀ (op : Op T L) (seqs : L → List T) (s : InLists T L), s.Holds seqs →
      Legal seqs op → True → ∃ seqs' next, some (onSequences seqs op) = some seqs' ∧
        s.step op = some next ∧ next.Holds seqs' := by
    intro op seqs s holds legal _
    obtain ⟨next, run, kept⟩ := holds.step legal
    exact ⟨onSequences seqs op, next, rfl, run, kept⟩
  exact legal.simulates related Holds.new (legal.imp fun _ _ _ => trivial)

end

/-- Nodes go from one list to the other, from both ends and from the middle. -/
def swappingOps : List (Op Nat Bool) :=
  [.pushBack false 1, .pushFront false 2, .insertAfter false 2 3, .insertAfter false 1 4,
    .remove false 3, .pushBack true 3, .popBack false, .pushFront true 4, .popFront false,
    .pushBack true 2, .popFront true, .popBack true]

theorem lists_are_sequences_swapping :
    ∃ seqs s, sequences.exec swappingOps (fun _ => []) = some seqs ∧
      lists.exec swappingOps new = some s ∧ s.Holds seqs :=
  lists_are_sequences (by decide)

end Zsim.InLists
