import Mathlib.Data.List.Nodup
import Mathlib.Tactic.Common

/-!
# Priority queues, by their history

A history lists, newest first, what was put into a queue with which key and what
was taken out with which key.  What is inside follows from the history.  A
history is served well if no element is put in twice at a time and every element
taken out was inside, with the least key there.
-/

set_option autoImplicit false

namespace Zsim.PriorityQueue

variable {κ T : Type*}

inductive Entry (κ T : Type*) where
  | enqueued (obj : T) (key : κ)
  | dequeued (obj : T) (key : κ)
  deriving DecidableEq

variable [DecidableEq κ] [DecidableEq T]

def inside : List (Entry κ T) → List (κ × T)
  | [] => []
  | .enqueued obj key :: h => (key, obj) :: inside h
  | .dequeued obj key :: h => (inside h).erase (key, obj)

/-- `obj` is not in the queue. -/
def Outside (obj : T) (h : List (Entry κ T)) : Prop := obj ∉ (inside h).map Prod.snd

instance (obj : T) (h : List (Entry κ T)) : Decidable (Outside obj h) :=
  inferInstanceAs (Decidable (_ ∉ _))

variable [LE κ]

/-- `(key, obj)` is inside and no key there is below `key`. -/
def First (obj : T) (key : κ) (h : List (Entry κ T)) : Prop :=
  (key, obj) ∈ inside h ∧ ∀ e ∈ inside h, key ≤ e.1

def Served : List (Entry κ T) → Prop
  | [] => True
  | .enqueued obj _ :: h => Outside obj h ∧ Served h
  | .dequeued obj key :: h => First obj key h ∧ Served h

theorem Served.of_append {later earlier : List (Entry κ T)} (served : Served (later ++ earlier)) :
    Served earlier := by
  induction later with
  | nil => exact served
  | cons entry later ih =>
      cases entry with
      | enqueued => exact ih served.2
      | dequeued => exact ih served.2

omit [LE κ] in
theorem inside_append {during earlier : List (Entry κ T)} {e : κ × T}
    (member : e ∈ inside (during ++ earlier)) :
    .enqueued e.2 e.1 ∈ during ∨ e ∈ inside earlier := by
  induction during with
  | nil => exact .inr member
  | cons entry during ih =>
      cases entry with
      | enqueued obj key =>
          rcases List.mem_cons.mp member with rfl | member
          · exact .inl List.mem_cons_self
          · exact (ih member).imp_left (List.mem_cons_of_mem _)
      | dequeued obj key =>
          exact (ih (List.mem_of_mem_erase member)).imp_left (List.mem_cons_of_mem _)

omit [LE κ] in
theorem inside_or_dequeued (later earlier : List (Entry κ T)) (obj : T) (key : κ) :
    (key, obj) ∈ inside (later ++ .enqueued obj key :: earlier) ∨ .dequeued obj key ∈ later := by
  induction later with
  | nil => exact .inl List.mem_cons_self
  | cons entry later ih =>
      rcases ih with member | left
      · cases entry with
        | enqueued => exact .inl (List.mem_cons_of_mem _ member)
        | dequeued other otherKey =>
            by_cases same : (key, obj) = (otherKey, other)
            · obtain ⟨rfl, rfl⟩ := Prod.mk.inj same
              exact .inr List.mem_cons_self
            · exact .inl ((List.mem_erase_of_ne same).mpr member)
      · exact .inr (List.mem_cons_of_mem _ left)

theorem Served.nodup {h : List (Entry κ T)} (served : Served h) :
    ((inside h).map Prod.snd).Nodup := by
  induction h with
  | nil => exact List.nodup_nil
  | cons entry h ih =>
      cases entry with
      | enqueued obj key => exact List.nodup_cons.mpr ⟨served.1, ih served.2⟩
      | dequeued obj key =>
          exact (ih served.2).sublist (List.Sublist.map Prod.snd List.erase_sublist)

theorem Served.outside_dequeued {h : List (Entry κ T)} {obj : T} {key : κ}
    (served : Served (.dequeued obj key :: h)) (other : κ) :
    (other, obj) ∉ inside (.dequeued obj key :: h) := by
  have once := served.2.nodup
  intro member
  have inj := List.inj_on_of_nodup_map once (List.mem_of_mem_erase member) served.1.1 rfl
  rw [inj] at member
  exact (List.Nodup.of_map _ once).not_mem_erase member

theorem Served.once {later during earlier : List (Entry κ T)} {obj : T} {first second : κ}
    (served : Served
      (later ++ .dequeued obj second :: (during ++ .dequeued obj first :: earlier))) :
    .enqueued obj second ∈ during := by
  have tail := served.of_append
  rcases inside_append tail.1.1 with back | member
  · exact back
  · exact absurd member (tail.2.of_append.outside_dequeued second)

theorem Served.nondecreasing {later during earlier : List (Entry κ T)} {obj other : T}
    {first second : κ}
    (served : Served
      (later ++ .dequeued other second :: (during ++ .dequeued obj first :: earlier)))
    (notBefore : ∀ o key, .enqueued o key ∈ during → first ≤ key) : first ≤ second := by
  have tail := served.of_append
  rcases inside_append tail.1.1 with back | member
  · exact notBefore _ _ back
  · exact tail.2.of_append.1.2 _ (List.mem_of_mem_erase member)

end Zsim.PriorityQueue
