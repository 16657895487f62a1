import Mathlib.Data.List.Chain
import Mathlib.Data.Set.Function
import Mathlib.Logic.Equiv.Basic

/-!
# Rotating a table along a chain of places

Every place of a chain takes over what the next place held, in order, and the
last one takes a value from outside.  On distinct places this is a permutation
of the table if that value is what the first place held.
-/

set_option autoImplicit false

namespace Zsim

variable {α β : Type*} [DecidableEq α]

def rotate (last : β) : List α → (α → β) → α → β
  | [], f => f
  | [p], f => Function.update f p last
  | p :: q :: rest, f => rotate last (q :: rest) (Function.update f p (f q))

theorem rotate_of_notMem (last : β) {places : List α} (f : α → β) {x : α} (outside : x ∉ places) :
    rotate last places f x = f x := by
  induction places generalizing f with
  | nil => rfl
  | cons p rest ih =>
      obtain ⟨other, outside⟩ := List.ne_and_not_mem_of_not_mem_cons outside
      cases rest with
      | nil => exact Function.update_of_ne other last f
      | cons q rest =>
          rw [rotate, ih _ outside]
          exact Function.update_of_ne other (f q) f

/-- What a place of the chain holds afterwards: what its successor held, or the
value from outside. -/
theorem rotate_of_mem (last : β) {Next : α → α → Prop} {places : List α} (f : α → β)
    (nodup : places.Nodup) (chain : places.IsChain Next) {x : α} (member : x ∈ places) :
    (places.getLast? = some x ∧ rotate last places f x = last) ∨
      ∃ y ∈ places.tail, Next x y ∧ rotate last places f x = f y := by
  induction places generalizing f with
  | nil => exact absurd member List.not_mem_nil
  | cons p rest ih =>
      obtain ⟨fresh, nodup⟩ := List.nodup_cons.mp nodup
      cases rest with
      | nil =>
          cases List.mem_singleton.mp member
          exact .inl ⟨rfl, Function.update_self ..⟩
      | cons q rest =>
          obtain ⟨next, chain⟩ := List.isChain_cons_cons.mp chain
          rw [rotate]
          rcases List.mem_cons.mp member with rfl | member
          · refine .inr ⟨q, List.mem_cons_self, next, ?_⟩
            rw [rotate_of_notMem last _ fresh, Function.update_self]
          · rcases ih (Function.update f p (f q)) nodup chain member with ⟨isLast, value⟩ | later
            · exact .inl ⟨by rw [List.getLast?_cons_cons]; exact isLast, value⟩
            · obtain ⟨y, later, next, value⟩ := later
              have inTail : y ∈ q :: rest := List.mem_cons_of_mem q later
              have other : y ≠ p := fun h => fresh (h ▸ inTail)
              refine .inr ⟨y, inTail, next, ?_⟩
              rw [value, Function.update_of_ne other]

theorem update_swap (f : α → β) {p q : α} (apart : p ≠ q) (last : β) :
    Function.update (Function.update f p (f q)) q last =
      Function.update f p last ∘ Equiv.swap p q := by
  funext x
  rcases eq_or_ne x q with rfl | notQ
  · simp
  · rw [Function.update_of_ne notQ]
    rcases eq_or_ne x p with rfl | notP
    · simp [apart.symm]
    · simp [notP, Equiv.swap_apply_of_ne_of_ne notP notQ]

theorem rotate_eq_comp (last : β) (p : α) (rest : List α) (f : α → β) (nodup : (p :: rest).Nodup) :
    ∃ σ : Equiv.Perm α, (∀ x, x ∉ p :: rest → σ x = x) ∧
      rotate last (p :: rest) f = Function.update f p last ∘ σ := by
  induction rest generalizing p f with
  | nil => exact ⟨Equiv.refl α, fun _ _ => rfl, rfl⟩
  | cons q rest ih =>
      obtain ⟨fresh, nodup⟩ := List.nodup_cons.mp nodup
      obtain ⟨σ, fixed, eq⟩ := ih q (Function.update f p (f q)) nodup
      have apart : p ≠ q := fun h => fresh (h ▸ List.mem_cons_self)
      refine ⟨σ.trans (Equiv.swap p q), fun x outside => ?_, ?_⟩
      · obtain ⟨notP, outside⟩ := List.ne_and_not_mem_of_not_mem_cons outside
        have notQ : x ≠ q := (List.ne_and_not_mem_of_not_mem_cons outside).1
        rw [Equiv.trans_apply, fixed x outside, Equiv.swap_apply_of_ne_of_ne notP notQ]
      · rw [rotate, eq, update_swap f apart, Function.comp_assoc]
        rfl

theorem rotate_bijOn {p : α} {rest : List α} {f : α → β} {D : Set α} {E : Set β}
    (nodup : (p :: rest).Nodup) (inside : ∀ x ∈ p :: rest, x ∈ D) (bij : Set.BijOn f D E) :
    Set.BijOn (rotate (f p) (p :: rest) f) D E := by
  obtain ⟨σ, fixed, eq⟩ := rotate_eq_comp (f p) p rest f nodup
  rw [eq, Function.update_eq_self]
  refine bij.comp (Set.BijOn.mk ?_ σ.injective.injOn ?_)
  · intro x inD
    by_cases moved : σ x ∈ p :: rest
    · exact inside _ moved
    · rwa [σ.injective (fixed _ moved)]
  · intro x inD
    by_cases moved : σ.symm x ∈ p :: rest
    · exact ⟨σ.symm x, inside _ moved, σ.apply_symm_apply x⟩
    · have still := fixed _ moved
      rw [σ.apply_symm_apply] at still
      exact ⟨x, inD, by rw [still, σ.apply_symm_apply, ← still]⟩

end Zsim
