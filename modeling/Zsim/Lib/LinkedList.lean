import Mathlib.Logic.Function.Basic
import Mathlib.Tactic.Common

/-!
# Intrusive linked lists

The elements carry the link to their successor themselves: `next` is that field
of every element, and a list is known by its head.  A list linked in both directions is
one of its elements from the head, and one of the same elements in reverse from the tail.
-/

set_option autoImplicit false

namespace Zsim

variable {T : Type*}

/-- `head` is the head of the list `objs` that is linked through `next`. -/
def Linked (next : T → Option T) : Option T → List T → Prop
  | head, [] => head = none
  | head, obj :: rest => head = some obj ∧ Linked next (next obj) rest

theorem Linked.head_eq {next : T → Option T} {head : Option T} {objs : List T}
    (linked : Linked next head objs) : head = objs.head? := by
  cases objs with
  | nil => exact linked
  | cons obj rest => exact linked.1

theorem Linked.head_none_iff {next : T → Option T} {head : Option T} {objs : List T}
    (linked : Linked next head objs) : head = none ↔ objs = [] := by
  rw [linked.head_eq]
  exact List.head?_eq_none_iff

theorem Linked.last_next {next : T → Option T} {head : Option T} {before : List T} {obj : T}
    (linked : Linked next head (before ++ [obj])) : next obj = none := by
  induction before generalizing head with
  | nil => exact linked.2
  | cons first rest ih => exact ih linked.2

section
variable [DecidableEq T]

theorem Linked.frame {next : T → Option T} {head : Option T} {objs : List T}
    (linked : Linked next head objs) {obj : T} (absent : obj ∉ objs) (link : Option T) :
    Linked (Function.update next obj link) head objs := by
  induction objs generalizing head with
  | nil => exact linked
  | cons first rest ih =>
      obtain ⟨here, linked⟩ := linked
      have other : first ≠ obj := fun h => absent (h ▸ List.mem_cons_self)
      refine ⟨here, ?_⟩
      rw [Function.update_of_ne other]
      exact ih linked fun h => absent (List.mem_cons_of_mem first h)

theorem Linked.push {next : T → Option T} {head : Option T} {objs : List T}
    (linked : Linked next head objs) {obj : T} (absent : obj ∉ objs) :
    Linked (Function.update next obj head) (some obj) (obj :: objs) := by
  refine ⟨rfl, ?_⟩
  rw [Function.update_self]
  exact linked.frame absent head

theorem Linked.pop {next : T → Option T} {head : Option T} {obj : T} {rest : List T}
    (linked : Linked next head (obj :: rest)) (once : obj ∉ rest) :
    Linked (Function.update next obj none) (next obj) rest :=
  linked.2.frame once none

/-- The link of `p` is led past its successor. -/
theorem Linked.unlink {next : T → Option T} {head : Option T} {before after : List T} {p obj : T}
    (linked : Linked next head (before ++ p :: obj :: after))
    (nodup : (before ++ p :: obj :: after).Nodup) :
    Linked (Function.update next p (next obj)) head (before ++ p :: after) := by
  induction before generalizing head with
  | nil =>
      obtain ⟨here, -, linked⟩ := linked
      have once : p ∉ after := fun member =>
        (List.nodup_cons.mp nodup).1 (List.mem_cons_of_mem obj member)
      refine ⟨here, ?_⟩
      rw [Function.update_self]
      exact linked.frame once (next obj)
  | cons first rest ih =>
      obtain ⟨here, linked⟩ := linked
      obtain ⟨apart, nodup⟩ := List.nodup_cons.mp nodup
      have other : first ≠ p := by
        rintro rfl
        exact apart (List.mem_append_right rest List.mem_cons_self)
      refine ⟨here, ?_⟩
      rw [Function.update_of_ne other]
      exact ih linked nodup

/-- An element behind `p` is taken out and put in front of the head. -/
theorem Linked.moveToFront {next : T → Option T} {head : T} {before after : List T} {p obj : T}
    (linked : Linked next (some head) (before ++ p :: obj :: after))
    (nodup : (before ++ p :: obj :: after).Nodup) :
    Linked (Function.update (Function.update next p (next obj)) obj (some head)) (some obj)
      (obj :: (before ++ p :: after)) := by
  have absent : obj ∉ before ++ p :: after := by
    have shifted : ((before ++ [p]) ++ obj :: after).Perm (obj :: ((before ++ [p]) ++ after)) :=
      List.perm_middle
    rw [List.append_assoc, List.append_assoc] at shifted
    exact (List.nodup_cons.mp (shifted.nodup nodup)).1
  refine ⟨rfl, ?_⟩
  rw [Function.update_self]
  exact (linked.unlink nodup).frame absent (some head)

end

/-! ## Doubly linked lists -/

structure DoublyLinked (next prev : T → Option T) (head tail : Option T) (objs : List T) : Prop where
  forward : Linked next head objs
  backward : Linked prev tail objs.reverse

theorem Linked.next_eq {next : T → Option T} {head : Option T} {before after : List T} {obj : T}
    (linked : Linked next head (before ++ obj :: after)) : next obj = after.head? := by
  induction before generalizing head with
  | nil => exact linked.2.head_eq
  | cons first rest ih => exact ih linked.2

theorem Linked.congr {next next' : T → Option T} {head : Option T} {objs : List T}
    (linked : Linked next head objs) (same : ∀ x ∈ objs, next' x = next x) :
    Linked next' head objs := by
  induction objs generalizing head with
  | nil => exact linked
  | cons first rest ih =>
      refine ⟨linked.1, ?_⟩
      rw [same first List.mem_cons_self]
      exact ih linked.2 fun x member => same x (List.mem_cons_of_mem first member)

namespace DoublyLinked

variable {next prev : T → Option T} {head tail : Option T} {objs before after : List T} {obj : T}

theorem nil (next prev : T → Option T) : DoublyLinked next prev none none [] := ⟨rfl, rfl⟩

theorem head_eq (linked : DoublyLinked next prev head tail objs) : head = objs.head? :=
  linked.forward.head_eq

theorem tail_eq (linked : DoublyLinked next prev head tail objs) : tail = objs.getLast? := by
  rw [linked.backward.head_eq, List.head?_reverse]

theorem next_eq (linked : DoublyLinked next prev head tail (before ++ obj :: after)) :
    next obj = after.head? :=
  linked.forward.next_eq

theorem prev_eq (linked : DoublyLinked next prev head tail (before ++ obj :: after)) :
    prev obj = before.getLast? := by
  have backward := linked.backward
  rw [List.reverse_append, List.reverse_cons, List.append_assoc, List.singleton_append] at backward
  rw [backward.next_eq, List.head?_reverse]

theorem congr {next' prev' : T → Option T} (linked : DoublyLinked next prev head tail objs)
    (same : ∀ x ∈ objs, next' x = next x ∧ prev' x = prev x) :
    DoublyLinked next' prev' head tail objs where
  forward := linked.forward.congr fun x member => (same x member).1
  backward := linked.backward.congr fun x member => (same x (List.mem_reverse.mp member)).2

end DoublyLinked

section
variable [DecidableEq T] {next : T → Option T} {head : Option T} {before after : List T} {obj : T}

/-- A write through a link that may be null. -/
def redirect (links : T → Option T) (place : Option T) (link : Option T) : T → Option T :=
  match place with
  | some p => Function.update links p link
  | none => links

theorem redirect_of_ne {links : T → Option T} {place link : Option T} (other : place ≠ some obj) :
    redirect links place link obj = links obj := by
  cases place with
  | none => rfl
  | some p =>
      apply Function.update_of_ne
      rintro rfl
      exact other rfl

theorem Linked.extend {p : T} (linked : Linked next head (before ++ [p])) (once : p ∉ before)
    (other : obj ≠ p) (unlinked : next obj = none) :
    Linked (Function.update next p (some obj)) head (before ++ [p] ++ [obj]) := by
  induction before generalizing head with
  | nil =>
      refine ⟨linked.1, ?_⟩
      rw [Function.update_self]
      refine ⟨rfl, ?_⟩
      rw [Function.update_of_ne other]
      exact unlinked
  | cons first rest ih =>
      have apart : first ≠ p := fun same => once (same ▸ List.mem_cons_self)
      refine ⟨linked.1, ?_⟩
      rw [Function.update_of_ne apart]
      exact ih linked.2 fun member => once (List.mem_cons_of_mem first member)

theorem Linked.insertAfter {p : T} (linked : Linked next head (before ++ p :: after))
    (nodup : (before ++ p :: after).Nodup) (absent : obj ∉ before ++ p :: after) :
    Linked (Function.update (Function.update next obj (next p)) p (some obj)) head
      (before ++ p :: obj :: after) := by
  induction before generalizing head with
  | nil =>
      obtain ⟨here, linked⟩ := linked
      obtain ⟨other, absent⟩ := List.ne_and_not_mem_of_not_mem_cons absent
      refine ⟨here, ?_⟩
      rw [Function.update_self]
      refine ⟨rfl, ?_⟩
      rw [Function.update_of_ne other, Function.update_self]
      exact (linked.frame absent _).frame (List.nodup_cons.mp nodup).1 _
  | cons first rest ih =>
      obtain ⟨here, linked⟩ := linked
      obtain ⟨once, nodup⟩ := List.nodup_cons.mp nodup
      obtain ⟨other, absent⟩ := List.ne_and_not_mem_of_not_mem_cons absent
      have apart : first ≠ p := by
        rintro rfl
        exact once (List.mem_append_right rest List.mem_cons_self)
      refine ⟨here, ?_⟩
      rw [Function.update_of_ne apart, Function.update_of_ne other.symm]
      exact ih linked nodup absent

/-- In front of `p`: what led to `p`, a link or the head, now leads to the new element. -/
theorem Linked.insertBefore {p : T} (linked : Linked next head (before ++ p :: after))
    (nodup : (before ++ p :: after).Nodup) (absent : obj ∉ before ++ p :: after) :
    Linked (Function.update (redirect next before.getLast? (some obj)) obj (some p))
      (if head = some p then some obj else head) (before ++ obj :: p :: after) := by
  rcases List.eq_nil_or_concat before with rfl | ⟨before, q, rfl⟩
  · have isHead : head = some p := linked.1
    rw [if_pos isHead, ← isHead]
    exact linked.push absent
  · rw [List.concat_eq_append, List.append_assoc, List.singleton_append] at linked nodup absent ⊢
    have notHead : head ≠ some p := by
      rw [linked.head_eq]
      intro same
      have inFront : p ∈ before ++ [q] := by
        apply List.mem_of_head?
        cases before with
        | nil => exact same
        | cons first rest => exact same
      have moved : ((before ++ [q]) ++ p :: after).Nodup := by simpa using nodup
      exact (List.nodup_append.mp moved).2.2 p inFront p List.mem_cons_self rfl
    have next_eq : next q = some p := linked.next_eq
    have other : obj ≠ q := fun same => absent (same ▸ List.mem_append_right before List.mem_cons_self)
    have inserted := linked.insertAfter nodup absent
    rw [if_neg notHead, List.getLast?_concat, redirect, Function.update_comm other.symm, ← next_eq]
    exact inserted

/-- The link into `obj`, which comes from its predecessor or is the head, is led past it. -/
theorem Linked.remove (linked : Linked next head (before ++ obj :: after))
    (nodup : (before ++ obj :: after).Nodup) :
    Linked (Function.update (redirect next before.getLast? (next obj)) obj none)
      (if head = some obj then next obj else head) (before ++ after) := by
  have absent : obj ∉ before ++ after :=
    (List.nodup_cons.mp (List.perm_middle.nodup nodup)).1
  rcases List.eq_nil_or_concat before with rfl | ⟨before, p, rfl⟩
  · rw [if_pos linked.1]
    exact linked.2.frame absent none
  · rw [List.concat_eq_append] at linked nodup absent ⊢
    have notHead : head ≠ some obj := by
      rw [linked.head_eq]
      intro same
      apply absent
      cases before with
      | nil => simp_all
      | cons first rest => simp_all
    rw [if_neg notHead, List.getLast?_concat]
    rw [List.append_assoc, List.singleton_append] at linked nodup absent ⊢
    exact (linked.unlink nodup).frame absent none

namespace DoublyLinked

variable {prev : T → Option T} {tail : Option T} {objs : List T}

theorem push (linked : DoublyLinked next prev head tail objs) (absent : obj ∉ objs)
    (nodup : objs.Nodup) (unlinked : prev obj = none) :
    DoublyLinked (Function.update next obj head) (redirect prev head (some obj)) (some obj)
      (if head = none then some obj else tail) (obj :: objs) := by
  refine ⟨linked.forward.push absent, ?_⟩
  have head_eq := linked.head_eq
  cases objs with
  | nil =>
      subst head_eq
      exact ⟨rfl, unlinked⟩
  | cons first rest =>
      subst head_eq
      have other : obj ≠ first := fun same => absent (same ▸ List.mem_cons_self)
      have backward := linked.backward
      rw [List.reverse_cons] at backward
      rw [List.reverse_cons, List.reverse_cons]
      exact backward.extend (fun member => (List.nodup_cons.mp nodup).1 (List.mem_reverse.mp member))
        other unlinked

theorem remove (linked : DoublyLinked next prev head tail (before ++ obj :: after))
    (nodup : (before ++ obj :: after).Nodup) :
    DoublyLinked
      (Function.update (redirect next (prev obj) (next obj)) obj none)
      (Function.update (redirect prev (next obj) (prev obj)) obj none)
      (if head = some obj then next obj else head) (if tail = some obj then prev obj else tail)
      (before ++ after) := by
  have reversed : (before ++ obj :: after).reverse = after.reverse ++ obj :: before.reverse := by
    rw [List.reverse_append, List.reverse_cons, List.append_assoc, List.singleton_append]
  constructor
  · have forward := linked.forward.remove nodup
    rw [← linked.prev_eq] at forward
    exact forward
  · have backward := linked.backward
    rw [reversed] at backward
    have removed := backward.remove (reversed ▸ (List.reverse_perm _).nodup_iff.mpr nodup)
    rw [List.getLast?_reverse, ← linked.next_eq] at removed
    rw [List.reverse_append]
    exact removed

theorem insertAfter {p : T} (linked : DoublyLinked next prev head tail (before ++ p :: after))
    (nodup : (before ++ p :: after).Nodup) (absent : obj ∉ before ++ p :: after) :
    DoublyLinked (Function.update (Function.update next obj (next p)) p (some obj))
      (Function.update (redirect prev (next p) (some obj)) obj (some p)) head
      (if tail = some p then some obj else tail) (before ++ p :: obj :: after) := by
  refine ⟨linked.forward.insertAfter nodup absent, ?_⟩
  have reversed : (before ++ p :: after).reverse = after.reverse ++ p :: before.reverse := by
    rw [List.reverse_append, List.reverse_cons, List.append_assoc, List.singleton_append]
  have backward := linked.backward
  rw [reversed] at backward
  have nodup' := reversed ▸ (List.reverse_perm _).nodup_iff.mpr nodup
  have absent' : obj ∉ after.reverse ++ p :: before.reverse := by
    rw [← reversed, List.mem_reverse]
    exact absent
  have inserted := backward.insertBefore nodup' absent'
  rw [List.getLast?_reverse, ← linked.next_eq] at inserted
  rw [List.reverse_append, List.reverse_cons, List.reverse_cons, List.append_assoc, List.append_assoc,
    List.singleton_append, List.singleton_append]
  exact inserted

end DoublyLinked

end

end Zsim
