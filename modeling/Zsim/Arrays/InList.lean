import Mathlib.Data.List.Nodup
import Zsim.Lib.LinkedList

/-!
# Intrusive lists

`InList` of intrusive_list.h.  The links and the owner are fields of the nodes; here they are
tables, for the nodes of one list.
-/

set_option autoImplicit false

namespace Zsim

structure InList (T : Type*) where
  head : Option T
  tail : Option T
  elems : Nat
  next : T → Option T
  prev : T → Option T
  /-- the node's owner is this list, and not null -/
  owner : T → Bool

namespace InList

variable {T : Type*}

def new : InList T := ⟨none, none, 0, fun _ => none, fun _ => none, fun _ => false⟩

def empty (l : InList T) : Bool := l.head.isNone

def front (l : InList T) : Option T := l.head

def back (l : InList T) : Option T := l.tail

section
variable [DecidableEq T]

def pushFront (l : InList T) (e : T) : Option (InList T) :=
  if l.next e = none ∧ l.prev e = none ∧ l.owner e = false then
    match l.head with
    | none =>
      some { l with
        head := some e, tail := some e, owner := Function.update l.owner e true,
        elems := l.elems + 1 }
    | some h =>
      if l.prev h = none ∧ l.owner h = true then
        some { l with
          next := Function.update l.next e (some h), prev := Function.update l.prev h (some e),
          head := some e, owner := Function.update l.owner e true, elems := l.elems + 1 }
      else none
  else none

def unlink (l : InList T) (e : T) : Option (InList T) :=
  if l.owner e = true then
    some { l with
      prev := Function.update (redirect l.prev (l.next e) (l.prev e)) e none
      next := Function.update (redirect l.next (l.prev e) (l.next e)) e none
      owner := Function.update l.owner e false }
  else none

def popFront (l : InList T) : Option (InList T) :=
  match l.head with
  | none => some l
  | some e =>
    (unlink { l with head := l.next e } e).map fun l =>
      { l with tail := if l.head = none then none else l.tail, elems := l.elems - 1 }

/-- Note how remove is O(1). -/
def remove (l : InList T) (e : T) : Option (InList T) :=
  let head := if l.head = some e then l.next e else l.head
  let tail := if l.tail = some e then l.prev e else l.tail
  (unlink { l with head := head, tail := tail } e).map fun l => { l with elems := l.elems - 1 }

end

/-- The nodes of the list, from the front; all other nodes are unlinked. -/
structure Holds (l : InList T) (objs : List T) : Prop where
  linked : DoublyLinked l.next l.prev l.head l.tail objs
  nodup : objs.Nodup
  elems_eq : l.elems = objs.length
  owner_iff : ∀ e, l.owner e = true ↔ e ∈ objs
  unlinked : ∀ e, e ∉ objs → l.next e = none ∧ l.prev e = none

theorem Holds.new : Holds (new : InList T) [] where
  linked := DoublyLinked.nil _ _
  nodup := List.nodup_nil
  elems_eq := rfl
  owner_iff _ := by simp [InList.new]
  unlinked _ _ := ⟨rfl, rfl⟩

variable {l : InList T} {objs before after : List T} {e : T}

theorem Holds.back_eq (holds : l.Holds objs) : l.back = objs.getLast? := holds.linked.tail_eq

section
variable [DecidableEq T]

theorem Holds.pushFront (holds : l.Holds objs) (absent : e ∉ objs) :
    ∃ l', l.pushFront e = some l' ∧ l'.Holds (e :: objs) := by
  have free := holds.unlinked e absent
  have notOwned : l.owner e = false := by
    rw [← Bool.not_eq_true, holds.owner_iff]
    exact absent
  have pushed := holds.linked.push absent holds.nodup free.2
  have owner_iff : ∀ x, Function.update l.owner e true x = true ↔ x ∈ e :: objs := by
    intro x
    rcases eq_or_ne x e with rfl | other
    · simp
    · simp [other, holds.owner_iff]
  rw [InList.pushFront, if_pos ⟨free.1, free.2, notOwned⟩]
  cases objs with
  | nil =>
      have head : l.head = none := holds.linked.head_eq
      rw [head] at pushed
      rw [head]
      refine ⟨_, rfl, ?_, List.nodup_singleton e, by simp [holds.elems_eq], owner_iff, ?_⟩
      · have same : Function.update l.next e none = l.next := by
          rw [← free.1, Function.update_eq_self]
        rw [same] at pushed
        exact pushed
      · exact fun x _ => holds.unlinked x (List.not_mem_nil)
  | cons first rest =>
      have head : l.head = some first := holds.linked.head_eq
      have linked : DoublyLinked l.next l.prev l.head l.tail ([] ++ first :: rest) := holds.linked
      have notPrev : l.prev first = none := linked.prev_eq
      have owned := (holds.owner_iff first).mpr List.mem_cons_self
      rw [head] at pushed
      rw [head]
      dsimp only
      rw [if_pos ⟨notPrev, owned⟩]
      refine ⟨_, rfl, pushed, List.nodup_cons.mpr ⟨absent, holds.nodup⟩, by simp [holds.elems_eq],
        owner_iff, ?_⟩
      intro x outside
      obtain ⟨other, outside⟩ := List.ne_and_not_mem_of_not_mem_cons outside
      have notFirst : x ≠ first := fun same => outside (same ▸ List.mem_cons_self)
      show Function.update l.next e _ x = none ∧ Function.update l.prev first _ x = none
      rw [Function.update_of_ne other, Function.update_of_ne notFirst]
      exact holds.unlinked x outside

theorem Holds.remove (holds : l.Holds (before ++ e :: after)) :
    ∃ l', l.remove e = some l' ∧ l'.Holds (before ++ after) := by
  have owned := (holds.owner_iff e).mpr (List.mem_append_right _ List.mem_cons_self)
  have middle : (before ++ e :: after).Perm (e :: (before ++ after)) := List.perm_middle
  obtain ⟨absent, nodup⟩ := List.nodup_cons.mp (middle.nodup holds.nodup)
  have removed := holds.linked.remove holds.nodup
  refine ⟨_, by rw [InList.remove, unlink, if_pos owned]; rfl, removed, nodup, ?_, ?_, ?_⟩
  · show l.elems - 1 = _
    rw [holds.elems_eq, middle.length_eq]
    rfl
  · intro x
    show Function.update l.owner e false x = true ↔ _
    rcases eq_or_ne x e with rfl | other
    · simpa using absent
    · rw [Function.update_of_ne other, holds.owner_iff, middle.mem_iff, List.mem_cons]
      exact or_iff_right other
  · intro x outside
    show Function.update (redirect l.next _ _) e none x = none ∧
      Function.update (redirect l.prev _ _) e none x = none
    rcases eq_or_ne x e with rfl | other
    · simp
    · rw [Function.update_of_ne other, Function.update_of_ne other]
      have free := holds.unlinked x (by simpa [other] using outside)
      -- the neighbours of `e`, whose links are changed, are in the list
      have notBefore : l.prev e ≠ some x := by
        intro same
        rw [holds.linked.prev_eq] at same
        exact outside (List.mem_append_left _ (List.mem_of_getLast? same))
      have notAfter : l.next e ≠ some x := by
        intro same
        rw [holds.linked.next_eq] at same
        exact outside (List.mem_append_right _ (List.mem_of_head? same))
      exact ⟨(redirect_of_ne notBefore).trans free.1, (redirect_of_ne notAfter).trans free.2⟩

theorem Holds.popFront (holds : l.Holds objs) :
    ∃ l', l.popFront = some l' ∧ l'.Holds objs.tail := by
  cases objs with
  | nil =>
      have head : l.head = none := holds.linked.head_eq
      exact ⟨l, by rw [InList.popFront, head], holds⟩
  | cons first rest =>
      have head : l.head = some first := holds.linked.head_eq
      have holds : l.Holds ([] ++ first :: rest) := holds
      obtain ⟨l', removed, holds'⟩ := holds.remove
      have owned := (holds.owner_iff first).mpr List.mem_cons_self
      have next : l.next first = rest.head? := holds.linked.next_eq
      have tail_eq : (if l.next first = none then none else l.tail) =
          if l.tail = some first then l.prev first else l.tail := by
        rw [next, holds.linked.tail_eq, holds.linked.prev_eq]
        cases rest with
        | nil => simp
        | cons second rest =>
            have notLast : (first :: second :: rest).getLast? ≠ some first := by
              rw [List.getLast?_cons_cons]
              exact fun last => (List.nodup_cons.mp holds.nodup).1 (List.mem_of_getLast? last)
            simp only [List.nil_append]
            rw [if_neg notLast, if_neg (by simp)]
      refine ⟨l', ?_, holds'⟩
      rw [← removed, InList.popFront, InList.remove, ← tail_eq, head, if_pos rfl]
      simp only [unlink, if_pos owned, Option.map_some]

end

end InList

end Zsim
