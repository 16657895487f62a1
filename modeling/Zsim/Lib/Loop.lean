import Mathlib.Data.List.Induction
import Mathlib.Tactic.Common

/-!
# Loops

A loop that runs its body for 0, 1, ..., n - 1 or for the items of a list, and may stop with `none` or
with an error.
-/

set_option autoImplicit false

namespace Zsim

/-- The rule for a counted loop: `Holds k` is what is known before iteration `k`. -/
theorem foldlM_range {σ : Type*} {body : σ → Nat → Option σ} {Holds : Nat → σ → Prop} (n : Nat)
    {s : σ} (start : Holds 0 s)
    (step : ∀ k s, k < n → Holds k s → ∃ next, body s k = some next ∧ Holds (k + 1) next) :
    ∃ final, (List.range n).foldlM body s = some final ∧ Holds n final := by
  induction n with
  | zero => exact ⟨s, rfl, start⟩
  | succ n ih =>
      obtain ⟨mid, run, holds⟩ := ih fun k s lt => step k s (Nat.lt_succ_of_lt lt)
      obtain ⟨final, last, holdsFinal⟩ := step n mid (Nat.lt_succ_self n) holds
      refine ⟨final, ?_, holdsFinal⟩
      rw [List.range_succ, List.foldlM_append, run]
      simp [last]

/-- The rule for a counted loop that does not stop. -/
theorem foldl_range {σ : Type*} {body : σ → Nat → σ} (Holds : Nat → σ → Prop) (n : Nat) {s : σ}
    (start : Holds 0 s) (step : ∀ k s, k < n → Holds k s → Holds (k + 1) (body s k)) :
    Holds n ((List.range n).foldl body s) := by
  induction n with
  | zero => exact start
  | succ n ih =>
      rw [List.range_succ, List.foldl_append]
      apply step n _ (Nat.lt_succ_self n)
      exact ih fun k s lt => step k s (Nat.lt_succ_of_lt lt)

/-- The rule for a loop over a list: `Holds seen` is what is known after the items in `seen`. -/
theorem foldlM_prefix {σ ι : Type*} {body : σ → ι → Option σ} (Holds : List ι → σ → Prop)
    {items : List ι} {s : σ} (start : Holds [] s)
    (step : ∀ seen i s, seen ++ [i] <+: items → Holds seen s →
      ∃ next, body s i = some next ∧ Holds (seen ++ [i]) next) :
    ∃ final, items.foldlM body s = some final ∧ Holds items final := by
  induction items using List.reverseRecOn with
  | nil => exact ⟨s, rfl, start⟩
  | append_singleton items i ih =>
      obtain ⟨mid, run, holds⟩ := ih fun seen j s isPrefix =>
        step seen j s (isPrefix.trans (List.prefix_append items [i]))
      obtain ⟨final, last, holdsFinal⟩ := step items i mid (List.prefix_refl _) holds
      refine ⟨final, ?_, holdsFinal⟩
      rw [List.foldlM_append, run]
      simp [last]

/-- The rule for a loop that may stop: what the rounds keep that do not stop holds after it. -/
theorem foldlM_keeps {σ ι : Type*} {body : σ → ι → Option σ} (Holds : σ → Prop) {items : List ι}
    (keeps : ∀ i ∈ items, ∀ s next, Holds s → body s i = some next → Holds next) {s final : σ}
    (start : Holds s) (run : items.foldlM body s = some final) : Holds final := by
  induction items generalizing s with
  | nil =>
      cases Option.some.inj run
      exact start
  | cons i rest ih =>
      rw [List.foldlM_cons] at run
      obtain ⟨next, step, run⟩ := Option.bind_eq_some_iff.mp run
      exact ih (fun j member => keeps j (List.mem_cons_of_mem i member))
        (keeps i List.mem_cons_self s next start step) run

/-! ## Errors -/

section Errors

universe u

variable {α β σ : Type u} {ι ε : Type*}

theorem bind_eq_ok {x : Except ε α} {f : α → Except ε β} {b : β} :
    (x >>= f) = .ok b ↔ ∃ a, x = .ok a ∧ f a = .ok b := by
  cases x with
  | error e => exact ⟨nofun, nofun⟩
  | ok a =>
      constructor
      · intro run
        exact ⟨a, rfl, run⟩
      · rintro ⟨_, ⟨⟩, run⟩
        exact run

@[simp] theorem pure_eq_ok {a b : α} : (pure a : Except ε α) = .ok b ↔ a = b :=
  Except.ok.injEq a b ▸ Iff.rfl

theorem foldlM_ok_prefix {body : σ → ι → Except ε σ} (Holds : List ι → σ → Prop) {items : List ι}
    (keeps : ∀ seen i s next, seen ++ [i] <+: items → Holds seen s → body s i = .ok next →
      Holds (seen ++ [i]) next) {s final : σ} (start : Holds [] s) (run : items.foldlM body s = .ok final) :
    Holds items final := by
  induction items using List.reverseRecOn generalizing final with
  | nil =>
      cases run
      exact start
  | append_singleton items i ih =>
      rw [List.foldlM_append] at run
      obtain ⟨mid, first, run⟩ := bind_eq_ok.mp run
      rw [List.foldlM_cons] at run
      obtain ⟨next, last, done⟩ := bind_eq_ok.mp run
      cases done
      have holds := ih (fun seen j s next isPrefix =>
        keeps seen j s next (isPrefix.trans (List.prefix_append items [i]))) first
      exact keeps items i mid final (List.prefix_refl _) holds last

theorem mapM_ok {f : ι → Except ε α} {items : List ι} {results : List α} (run : items.mapM f = .ok results) :
    List.Forall₂ (fun i a => f i = .ok a) items results := by
  induction items generalizing results with
  | nil =>
      cases run
      exact .nil
  | cons i rest ih =>
      rw [List.mapM_cons] at run
      obtain ⟨a, first, run⟩ := bind_eq_ok.mp run
      obtain ⟨more, later, done⟩ := bind_eq_ok.mp run
      cases done
      exact .cons first (ih later)

theorem forM_ok {f : ι → Except ε PUnit} {items : List ι} (run : items.forM f = .ok ⟨⟩) :
    ∀ i ∈ items, f i = .ok ⟨⟩ := by
  induction items with
  | nil => nofun
  | cons i rest ih =>
      obtain ⟨_, first, run⟩ := bind_eq_ok.mp run
      intro j member
      rcases List.mem_cons.mp member with rfl | member
      · exact first
      · exact ih run j member

/-! ## Outcomes -/

variable {May May' : ε → Prop} {Post Post' : α → Prop} {Mid : β → Prop}

/-- The outcome is a value that `Post` holds of, or an error that may happen. -/
structure Ends (May : ε → Prop) (Post : α → Prop) (x : Except ε α) : Prop where
  ok : ∀ a, x = .ok a → Post a
  error : ∀ e, x = .error e → May e

theorem Ends.of_ok {a : α} (holds : Post a) : Ends May Post (.ok a) := by
  refine ⟨?_, nofun⟩
  rintro _ ⟨⟩
  exact holds

theorem Ends.of_error {e : ε} (may : May e) : Ends May Post (.error e : Except ε α) := by
  refine ⟨nofun, ?_⟩
  rintro _ ⟨⟩
  exact may

theorem Ends.mono {x : Except ε α} (ends : Ends May Post x) (post : ∀ a, Post a → Post' a) :
    Ends May Post' x :=
  ⟨fun a run => post a (ends.ok a run), ends.error⟩

theorem Ends.weaken {x : Except ε α} (ends : Ends May Post x) (may : ∀ e, May e → May' e) :
    Ends May' Post x :=
  ⟨ends.ok, fun e run => may e (ends.error e run)⟩

theorem Ends.bind {x : Except ε β} {f : β → Except ε α} (first : Ends May Mid x)
    (rest : ∀ b, Mid b → Ends May Post (f b)) : Ends May Post (x >>= f) := by
  cases x with
  | ok b => exact rest b (first.ok b rfl)
  | error e => exact .of_error (first.error e rfl)

theorem Ends.exists_ok {x : Except ε α} (ends : Ends May Post x) (none : ∀ e, ¬ May e) :
    ∃ a, x = .ok a ∧ Post a := by
  cases x with
  | ok a => exact ⟨a, rfl, ends.ok a rfl⟩
  | error e => exact absurd (ends.error e rfl) (none e)

/-- The rule for a loop over a list: `Holds seen` is what is known after the items in `seen`. -/
theorem Ends.foldlM {body : σ → ι → Except ε σ} (Holds : List ι → σ → Prop) {items : List ι} {s : σ}
    (start : Holds [] s)
    (step : ∀ seen i s, seen ++ [i] <+: items → Holds seen s → Ends May (Holds (seen ++ [i])) (body s i)) :
    Ends May (Holds items) (items.foldlM body s) := by
  induction items using List.reverseRecOn with
  | nil => exact .of_ok start
  | append_singleton items i ih =>
      have first := ih fun seen j s isPrefix => step seen j s (isPrefix.trans (List.prefix_append items [i]))
      rw [List.foldlM_append]
      refine first.bind fun mid holds => ?_
      rw [List.foldlM_cons]
      refine (step items i mid (List.prefix_refl _) holds).bind fun next holds => ?_
      exact .of_ok holds

end Errors

end Zsim
