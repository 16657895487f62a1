import Mathlib.Logic.Function.Basic
import Mathlib.Order.Defs.PartialOrder
import Mathlib.Tactic.Common

/-!
# Machines that may panic

A machine takes one input at a time.  `step` returns `none` when an assertion
of the modelled code fails or it panics; `legal` says which inputs its callers
may present in a state.  The rules below turn a fact about one step into a fact
about every legal run; a run that reaches its end has passed every assertion on
its way.
-/

set_option autoImplicit false

namespace Zsim

structure Machine (σ ι : Type*) where
  legal : σ → ι → Prop
  step : σ → ι → Option σ

namespace Machine

variable {σ ι : Type*} (m : Machine σ ι)

def exec : List ι → σ → Option σ
  | [], s => some s
  | i :: rest, s => (m.step s i).bind (exec rest)

/-- Every input of a run satisfies `cond` in the state in which it is presented. -/
def Along (cond : σ → ι → Prop) : List ι → σ → Prop
  | [], _ => True
  | i :: rest, s => cond s i ∧ ∀ next, m.step s i = some next → Along cond rest next

/-- `Holds` in every state of a run. -/
def Throughout (Holds : σ → Prop) (inputs : List ι) (s : σ) : Prop :=
  ∀ first rest mid, inputs = first ++ rest → m.exec first s = some mid → Holds mid

def LegalRun (inputs : List ι) (s : σ) : Prop := m.Along m.legal inputs s

/-- The same machine, with one more condition on the inputs presented to it. -/
def restrict (cond : σ → ι → Prop) : Machine σ ι where
  legal s i := m.legal s i ∧ cond s i
  step := m.step

/-- `Holds` is an inductive invariant: a legal input neither panics nor breaks it. -/
def Preserves (Holds : σ → Prop) : Prop :=
  ∀ s i, Holds s → m.legal s i → ∃ next, m.step s i = some next ∧ Holds next

@[simp] theorem exec_nil (s : σ) : m.exec [] s = some s := rfl

@[simp] theorem exec_cons (i : ι) (rest : List ι) (s : σ) :
    m.exec (i :: rest) s = (m.step s i).bind (m.exec rest) := rfl

theorem exec_eq_foldlM (inputs : List ι) (s : σ) : m.exec inputs s = inputs.foldlM m.step s := by
  induction inputs generalizing s with
  | nil => rfl
  | cons i rest ih =>
      rw [exec_cons, List.foldlM_cons]
      exact congrArg _ (funext ih)

@[simp] theorem restrict_step (cond : σ → ι → Prop) : (m.restrict cond).step = m.step := rfl

@[simp] theorem restrict_exec (cond : σ → ι → Prop) : (m.restrict cond).exec = m.exec := by
  funext inputs
  induction inputs with
  | nil => rfl
  | cons i rest ih => funext s; simp [exec, ih]

theorem exec_append (first second : List ι) (s : σ) :
    m.exec (first ++ second) s = (m.exec first s).bind (m.exec second) := by
  induction first generalizing s with
  | nil => rfl
  | cons i rest ih =>
      simp only [List.cons_append, exec_cons, Option.bind_assoc]
      congr 1
      funext next
      exact ih next

theorem exec_concat (first : List ι) (i : ι) (s : σ) :
    m.exec (first ++ [i]) s = (m.exec first s).bind fun mid => m.step mid i := by
  rw [exec_append]
  congr 1
  funext mid
  exact Option.bind_fun_some (m.step mid i)

theorem along_restrict (cond other : σ → ι → Prop) (inputs : List ι) (s : σ) :
    (m.restrict cond).Along other inputs s ↔ m.Along other inputs s := by
  induction inputs generalizing s with
  | nil => exact Iff.rfl
  | cons i rest ih => exact and_congr_right' (forall₂_congr fun next _ => ih next)

instance decidableAlong (cond : σ → ι → Prop) [∀ s i, Decidable (cond s i)] :
    ∀ (inputs : List ι) (s : σ), Decidable (m.Along cond inputs s)
  | [], _ => .isTrue trivial
  | i :: rest, s =>
    match step : m.step s i with
    | none => decidable_of_iff (cond s i)
        ⟨fun holds => ⟨holds, fun next h => by simp [step] at h⟩, fun along => along.1⟩
    | some next =>
        have := decidableAlong cond rest next
        decidable_of_iff (cond s i ∧ m.Along cond rest next)
          ⟨fun both => ⟨both.1, fun other h => by
              cases Option.some.inj (step.symm.trans h)
              exact both.2⟩,
            fun along => ⟨along.1, along.2 next step⟩⟩

instance decidableLegalRun [∀ s i, Decidable (m.legal s i)] (inputs : List ι) (s : σ) :
    Decidable (m.LegalRun inputs s) :=
  m.decidableAlong m.legal inputs s

instance decidableRestrictLegal (cond : σ → ι → Prop) [∀ s i, Decidable (m.legal s i)]
    [∀ s i, Decidable (cond s i)] (s : σ) (i : ι) : Decidable ((m.restrict cond).legal s i) :=
  inferInstanceAs (Decidable (m.legal s i ∧ cond s i))

variable {m}

/-- The states between the inputs of a run are those at the end of its prefixes,
and these are runs themselves. -/
theorem Along.of_append {cond : σ → ι → Prop} {first second : List ι} {s : σ}
    (along : m.Along cond (first ++ second) s) : m.Along cond first s := by
  induction first generalizing s with
  | nil => trivial
  | cons i rest ih => exact ⟨along.1, fun next step => ih (along.2 next step)⟩

theorem Along.append {cond : σ → ι → Prop} {first second : List ι} {s : σ} (along : m.Along cond first s)
    (later : ∀ mid, m.exec first s = some mid → m.Along cond second mid) :
    m.Along cond (first ++ second) s := by
  induction first generalizing s with
  | nil => exact later s rfl
  | cons i rest ih =>
      refine ⟨along.1, fun next step => ih (along.2 next step) fun mid run => later mid ?_⟩
      rw [exec_cons, step]
      exact run

theorem Along.append_right {cond : σ → ι → Prop} {first second : List ι} {s mid : σ}
    (along : m.Along cond (first ++ second) s) (run : m.exec first s = some mid) :
    m.Along cond second mid := by
  induction first generalizing s with
  | nil =>
      cases Option.some.inj run
      exact along
  | cons i rest ih =>
      obtain ⟨next, step, run⟩ := Option.bind_eq_some_iff.mp run
      exact ih (along.2 next step) run

theorem Along.imp {cond other : σ → ι → Prop} (imp : ∀ s i, cond s i → other s i) {inputs : List ι}
    {s : σ} (along : m.Along cond inputs s) : m.Along other inputs s := by
  induction inputs generalizing s with
  | nil => trivial
  | cons i rest ih => exact ⟨imp s i along.1, fun next step => ih (along.2 next step)⟩

theorem Along.and {cond other : σ → ι → Prop} {inputs : List ι} {s : σ}
    (first : m.Along cond inputs s) (second : m.Along other inputs s) :
    m.Along (fun s i => cond s i ∧ other s i) inputs s := by
  induction inputs generalizing s with
  | nil => trivial
  | cons i rest ih =>
      exact ⟨⟨first.1, second.1⟩, fun next step => ih (first.2 next step) (second.2 next step)⟩

theorem exists_along_le (needed : σ → ι → Nat) (inputs : List ι) (s : σ) :
    ∃ enough, m.Along (fun s i => needed s i ≤ enough) inputs s := by
  induction inputs generalizing s with
  | nil => exact ⟨0, trivial⟩
  | cons i rest ih =>
      cases step : m.step s i with
      | none =>
          refine ⟨needed s i, Nat.le_refl _, fun next other => ?_⟩
          rw [step] at other
          cases other
      | some next =>
          obtain ⟨enough, along⟩ := ih next
          refine ⟨max (needed s i) enough, Nat.le_max_left _ _, fun other same => ?_⟩
          cases Option.some.inj (step.symm.trans same)
          exact along.imp fun _ _ le => Nat.le_trans le (Nat.le_max_right _ _)

theorem along_of_forall {cond : σ → ι → Prop} {inputs : List ι} (always : ∀ i ∈ inputs, ∀ s, cond s i)
    (s : σ) : m.Along cond inputs s := by
  induction inputs generalizing s with
  | nil => trivial
  | cons i rest ih =>
      exact ⟨always i List.mem_cons_self s,
        fun next _ => ih (fun j member => always j (List.mem_cons_of_mem i member)) next⟩

theorem LegalRun.restrict {cond : σ → ι → Prop} {inputs : List ι} {s : σ}
    (legal : m.LegalRun inputs s) (meets : m.Along cond inputs s) :
    (m.restrict cond).LegalRun inputs s :=
  (m.along_restrict cond _ inputs s).mpr (legal.and meets)

theorem throughout_restrict {cond : σ → ι → Prop} {Holds : σ → Prop} {inputs : List ι} {s : σ} :
    (m.restrict cond).Throughout Holds inputs s ↔ m.Throughout Holds inputs s := by
  unfold Throughout
  rw [restrict_exec]

theorem Preserves.keeps {Holds : σ → Prop} (preserves : m.Preserves Holds) {s next : σ} {i : ι}
    (holds : Holds s) (legal : m.legal s i) (step : m.step s i = some next) : Holds next := by
  obtain ⟨other, stepped, kept⟩ := preserves s i holds legal
  cases Option.some.inj (step.symm.trans stepped)
  exact kept

/-- The invariant rule: no legal run panics, and the invariant holds at its end. -/
theorem Preserves.exec {Holds : σ → Prop} (preserves : m.Preserves Holds) {inputs : List ι}
    {s : σ} (start : Holds s) (legal : m.LegalRun inputs s) :
    ∃ final, m.exec inputs s = some final ∧ Holds final := by
  induction inputs generalizing s with
  | nil => exact ⟨s, rfl, start⟩
  | cons i rest ih =>
      obtain ⟨next, step, holds⟩ := preserves s i start legal.1
      obtain ⟨final, run, holdsFinal⟩ := ih holds (legal.2 next step)
      exact ⟨final, by rw [exec_cons, step]; exact run, holdsFinal⟩

/-- The invariant rule for a machine that panics on other inputs. -/
theorem Preserves.exec_restrict {Holds : σ → Prop} {cond : σ → ι → Prop}
    (preserves : (m.restrict cond).Preserves Holds) {inputs : List ι} {s : σ} (start : Holds s)
    (legal : (m.restrict cond).LegalRun inputs s) :
    ∃ final, m.exec inputs s = some final ∧ Holds final := by
  rw [← m.restrict_exec cond]
  exact preserves.exec start legal

/-- The rule for a machine that may panic: what a step keeps that does not panic holds
at the end of every run that does not. -/
theorem exec_keeps {Holds : σ → Prop}
    (keeps : ∀ s i next, Holds s → m.legal s i → m.step s i = some next → Holds next)
    {inputs : List ι} {s final : σ} (start : Holds s) (legal : m.LegalRun inputs s)
    (run : m.exec inputs s = some final) : Holds final := by
  induction inputs generalizing s with
  | nil =>
      cases Option.some.inj run
      exact start
  | cons i rest ih =>
      obtain ⟨next, step, run⟩ := Option.bind_eq_some_iff.mp run
      exact ih (keeps s i next start legal.1 step) (legal.2 next step) run

/-- The same of what is kept only by the inputs that meet `cond`. -/
theorem exec_keeps_restrict {Holds : σ → Prop} {cond : σ → ι → Prop}
    (keeps : ∀ s i next, Holds s → m.legal s i → cond s i → m.step s i = some next → Holds next)
    {inputs : List ι} {s final : σ} (start : Holds s) (legal : (m.restrict cond).LegalRun inputs s)
    (run : m.exec inputs s = some final) : Holds final := by
  rw [← m.restrict_exec cond] at run
  have both : ∀ s i next, Holds s → (m.restrict cond).legal s i → (m.restrict cond).step s i = some next →
      Holds next := fun s i next holds legal step => keeps s i next holds legal.1 legal.2 step
  exact exec_keeps both start legal run

/-- The lockstep rule: two machines take the same inputs, and a relation that may depend
on the inputs still to come is kept. -/
theorem LegalRun.lockstep {τ : Type*} {m' : Machine τ ι} {cond : σ → ι → Prop}
    {Related : List ι → σ → τ → Prop}
    (related : ∀ i rest s t, Related (i :: rest) s t → m.legal s i → cond s i →
      Option.Rel (Related rest) (m.step s i) (m'.step t i))
    {inputs : List ι} {s : σ} {t : τ} (start : Related inputs s t) (legal : m.LegalRun inputs s)
    (meets : m.Along cond inputs s) :
    Option.Rel (Related []) (m.exec inputs s) (m'.exec inputs t) := by
  induction inputs generalizing s t with
  | nil => exact .some start
  | cons i rest ih =>
      have step := related i rest s t start legal.1 meets.1
      rw [exec_cons, exec_cons]
      cases first : m.step s i with
      | none =>
          rw [first] at step
          cases second : m'.step t i with
          | none => exact .none
          | some next' =>
              rw [second] at step
              cases step
      | some next =>
          rw [first] at step
          cases second : m'.step t i with
          | none =>
              rw [second] at step
              cases step
          | some next' =>
              rw [second] at step
              cases step with
              | some both => exact ih both (legal.2 next first) (meets.2 next first)

/-- The simulation rule: as long as `cond` is met neither machine panics, and they stay related. -/
theorem LegalRun.simulates {τ : Type*} {m' : Machine τ ι} {cond : σ → ι → Prop}
    {Related : σ → τ → Prop}
    (related : ∀ i s t, Related s t → m.legal s i → cond s i →
      ∃ next next', m.step s i = some next ∧ m'.step t i = some next' ∧ Related next next')
    {inputs : List ι} {s : σ} {t : τ} (start : Related s t) (legal : m.LegalRun inputs s)
    (meets : m.Along cond inputs s) :
    ∃ final final', m.exec inputs s = some final ∧ m'.exec inputs t = some final' ∧
      Related final final' := by
  induction inputs generalizing s t with
  | nil => exact ⟨s, t, rfl, rfl, start⟩
  | cons i rest ih =>
      obtain ⟨next, next', step, step', both⟩ := related i s t start legal.1 meets.1
      obtain ⟨final, final', run, run', both⟩ := ih both (legal.2 next step) (meets.2 next step)
      refine ⟨final, final', ?_, ?_, both⟩
      · rw [exec_cons, step]
        exact run
      · rw [exec_cons, step']
        exact run'

/-- What the first step gives, the second one gives too, up to a relation. -/
def Forward {α β : Type*} (Related : α → β → Prop) (first : Option α) (second : Option β) : Prop :=
  ∀ a, first = some a → ∃ b, second = some b ∧ Related a b

section
variable {α β γ δ : Type*} {Related : α → β → Prop} {Related' : γ → δ → Prop}

theorem Forward.some {a : α} {b : β} (related : Related a b) : Forward Related (.some a) (.some b) := by
  intro a' same
  cases same
  exact ⟨b, rfl, related⟩

theorem Forward.none (second : Option β) : Forward Related .none second := nofun

theorem Forward.bind {first : Option α} {second : Option β} {f : α → Option γ} {g : β → Option δ}
    (forward : Forward Related first second)
    (later : ∀ a b, Related a b → Forward Related' (f a) (g b)) :
    Forward Related' (first.bind f) (second.bind g) := by
  intro c run
  obtain ⟨a, step, run⟩ := Option.bind_eq_some_iff.mp run
  obtain ⟨b, step', related⟩ := forward a step
  rw [step']
  exact later a b related c run

theorem Forward.map {first : Option α} {second : Option β} {f : α → γ} {g : β → δ}
    (forward : Forward Related first second) (later : ∀ a b, Related a b → Related' (f a) (g b)) :
    Forward Related' (first.map f) (second.map g) := by
  rw [Option.map_eq_bind, Option.map_eq_bind]
  exact forward.bind fun a b related => .some (later a b related)

theorem Forward.ite {p q : Prop} [Decidable p] [Decidable q] {first first' : Option α}
    {second second' : Option β} (same : q ↔ p) (forward : Forward Related first second)
    (forward' : Forward Related first' second') :
    Forward Related (if p then first else first') (if q then second else second') := by
  by_cases holds : p
  · rw [if_pos holds, if_pos (same.mpr holds)]
    exact forward
  · rw [if_neg holds, if_neg fun holds' => holds (same.mp holds')]
    exact forward'

end

/-- The forward rule: a machine that follows another one step by step follows all its runs. -/
theorem forward_exec {τ : Type*} {m' : Machine τ ι} {Related : σ → τ → Prop}
    (related : ∀ i s t, Related s t → Forward Related (m.step s i) (m'.step t i)) (inputs : List ι)
    {s : σ} {t : τ} (start : Related s t) : Forward Related (m.exec inputs s) (m'.exec inputs t) := by
  induction inputs generalizing s t with
  | nil => exact .some start
  | cons i rest ih =>
      rw [exec_cons, exec_cons]
      exact (related i s t start).bind fun _ _ both => ih both

theorem throughout_cons {Holds : σ → Prop} {i : ι} {rest : List ι} {s : σ} :
    m.Throughout Holds (i :: rest) s ↔
      Holds s ∧ ∀ next, m.step s i = some next → m.Throughout Holds rest next := by
  constructor
  · intro throughout
    refine ⟨throughout [] (i :: rest) s rfl rfl, fun next step first rest' mid split run => ?_⟩
    refine throughout (i :: first) rest' mid (by rw [split]; rfl) ?_
    rw [exec_cons, step]
    exact run
  · rintro ⟨holds, later⟩ first rest' mid split run
    cases first with
    | nil =>
        cases Option.some.inj run
        exact holds
    | cons j first =>
        cases split
        obtain ⟨next, step, run⟩ := Option.bind_eq_some_iff.mp run
        exact later next step first rest' mid rfl run

/-- What holds of every state an invariant run goes through: it is kept exactly by the
inputs that meet `cond`, so it holds throughout exactly if all inputs do. -/
theorem LegalRun.throughout_iff {Inv Holds : σ → Prop} {cond : σ → ι → Prop}
    (keeps : ∀ s i next, Inv s → m.legal s i → m.step s i = some next → Inv next)
    (exact' : ∀ s i next, Inv s → Holds s → m.legal s i → m.step s i = some next →
      (Holds next ↔ cond s i))
    {inputs : List ι} {s final : σ} (start : Inv s) (holds : Holds s)
    (legal : m.LegalRun inputs s) (run : m.exec inputs s = some final) :
    m.Throughout Holds inputs s ↔ m.Along cond inputs s := by
  induction inputs generalizing s with
  | nil =>
      refine ⟨fun _ => trivial, fun _ first rest mid split run => ?_⟩
      cases List.append_eq_nil_iff.mp split.symm |>.1
      cases Option.some.inj run
      exact holds
  | cons i rest ih =>
      obtain ⟨next, step, run⟩ := Option.bind_eq_some_iff.mp run
      have inv := keeps s i next start legal.1 step
      have same := exact' s i next start holds legal.1 step
      have later := fun holds => ih inv holds (legal.2 next step) run
      rw [throughout_cons]
      constructor
      · rintro ⟨-, throughout⟩
        have holds := throughout next step [] rest next rfl rfl
        refine ⟨same.mp holds, fun other stepped => ?_⟩
        cases Option.some.inj (step.symm.trans stepped)
        exact (later holds).mp (throughout next step)
      · rintro ⟨meets, along⟩
        refine ⟨holds, fun other stepped => ?_⟩
        cases Option.some.inj (step.symm.trans stepped)
        exact (later (same.mpr meets)).mpr (along next step)

theorem LegalRun.along {Inv : σ → Prop} {cond other : σ → ι → Prop}
    (keeps : ∀ s i next, Inv s → cond s i → m.legal s i → m.step s i = some next → Inv next)
    (holds : ∀ s i, Inv s → cond s i → m.legal s i → other s i)
    {inputs : List ι} {s : σ} (start : Inv s) (legal : m.LegalRun inputs s)
    (meets : m.Along cond inputs s) : m.Along other inputs s := by
  induction inputs generalizing s with
  | nil => trivial
  | cons i rest ih =>
      refine ⟨holds s i start meets.1 legal.1, fun next step => ?_⟩
      exact ih (keeps s i next start meets.1 legal.1 step) (legal.2 next step) (meets.2 next step)

theorem LegalRun.along_iff {Inv : σ → Prop} {cond other : σ → ι → Prop}
    (keeps : ∀ s i next, Inv s → m.legal s i → m.step s i = some next → Inv next)
    (same : ∀ s i, Inv s → m.legal s i → (cond s i ↔ other s i))
    {inputs : List ι} {s : σ} (start : Inv s) (legal : m.LegalRun inputs s) :
    m.Along cond inputs s ↔ m.Along other inputs s := by
  constructor
  · intro meets
    have keeps' : ∀ s i next, Inv s → cond s i → m.legal s i → m.step s i = some next → Inv next :=
      fun s i next inv _ => keeps s i next inv
    exact legal.along keeps' (fun s i inv holds here => (same s i inv here).mp holds) start meets
  · intro meets
    have keeps' : ∀ s i next, Inv s → other s i → m.legal s i → m.step s i = some next → Inv next :=
      fun s i next inv _ => keeps s i next inv
    exact legal.along keeps' (fun s i inv holds here => (same s i inv here).mpr holds) start meets

/-- A run gets to its end only through inputs that do not make the machine panic. -/
theorem LegalRun.along_of_exec {Inv : σ → Prop} {cond : σ → ι → Prop}
    (keeps : ∀ s i next, Inv s → cond s i → m.legal s i → m.step s i = some next → Inv next)
    (panics : ∀ s i, Inv s → m.legal s i → ¬ cond s i → m.step s i = none)
    {inputs : List ι} {s final : σ} (start : Inv s) (legal : m.LegalRun inputs s)
    (run : m.exec inputs s = some final) : m.Along cond inputs s := by
  induction inputs generalizing s with
  | nil => trivial
  | cons i rest ih =>
      obtain ⟨next, step, run⟩ := Option.bind_eq_some_iff.mp run
      have meets : cond s i := by
        by_contra fails
        rw [panics s i start legal.1 fails] at step
        cases step
      refine ⟨meets, fun other stepped => ?_⟩
      cases Option.some.inj (step.symm.trans stepped)
      exact ih (keeps s i next start meets legal.1 step) (legal.2 next step) run

/-- A run is safe, without a panic and with `Safe` in every state of it, exactly if its inputs meet
`cond`: an input that does keeps the invariant, and one that does not panics or breaks `Safe`. -/
theorem LegalRun.safe_iff {Inv Safe : σ → Prop} {cond : σ → ι → Prop} (safe : ∀ s, Inv s → Safe s)
    (sound : ∀ s i, Inv s → m.legal s i → cond s i → ∃ next, m.step s i = some next ∧ Inv next)
    (complete : ∀ s i next, Inv s → m.legal s i → m.step s i = some next → Safe next → cond s i)
    {inputs : List ι} {s : σ} (start : Inv s) (legal : m.LegalRun inputs s) :
    ((∃ final, m.exec inputs s = some final) ∧ m.Throughout Safe inputs s) ↔ m.Along cond inputs s := by
  induction inputs generalizing s with
  | nil =>
      refine ⟨fun _ => trivial, fun _ => ⟨⟨s, rfl⟩, fun first rest mid split run => ?_⟩⟩
      cases List.append_eq_nil_iff.mp split.symm |>.1
      cases Option.some.inj run
      exact safe s start
  | cons i rest ih =>
      rw [throughout_cons]
      constructor
      · rintro ⟨⟨final, run⟩, -, later⟩
        obtain ⟨next, step, run⟩ := Option.bind_eq_some_iff.mp run
        have throughout := later next step
        have meets := complete s i next start legal.1 step (throughout [] rest next rfl rfl)
        obtain ⟨other, step', inv⟩ := sound s i start legal.1 meets
        cases Option.some.inj (step.symm.trans step')
        refine ⟨meets, fun other step' => ?_⟩
        cases Option.some.inj (step.symm.trans step')
        exact (ih inv (legal.2 next step)).mp ⟨⟨final, run⟩, throughout⟩
      · rintro ⟨meets, along⟩
        obtain ⟨next, step, inv⟩ := sound s i start legal.1 meets
        obtain ⟨⟨final, run⟩, throughout⟩ := (ih inv (legal.2 next step)).mpr (along next step)
        refine ⟨⟨final, ?_⟩, safe s start, fun other step' => ?_⟩
        · rw [exec_cons, step]
          exact run
        · cases Option.some.inj (step.symm.trans step')
          exact throughout

/-- What is broken by an input that fails `cond` and stays broken shows at the end. -/
theorem LegalRun.along_of_unbroken {Inv Broken : σ → Prop} {cond : σ → ι → Prop}
    (keeps : ∀ s i next, Inv s → m.legal s i → m.step s i = some next → Inv next)
    (stays : ∀ s i next, Inv s → Broken s → m.legal s i → m.step s i = some next → Broken next)
    (breaks : ∀ s i next, Inv s → ¬ cond s i → m.legal s i → m.step s i = some next → Broken next)
    {inputs : List ι} {s final : σ} (start : Inv s) (legal : m.LegalRun inputs s)
    (run : m.exec inputs s = some final) (unbroken : ¬ Broken final) : m.Along cond inputs s := by
  induction inputs generalizing s with
  | nil => trivial
  | cons i rest ih =>
      obtain ⟨next, step, run⟩ := Option.bind_eq_some_iff.mp run
      have inv := keeps s i next start legal.1 step
      have later := legal.2 next step
      refine ⟨?_, fun other stepped => ?_⟩
      · by_contra fails
        have both : ∀ s i next, Inv s ∧ Broken s → m.legal s i → m.step s i = some next →
            Inv next ∧ Broken next := fun s i next holds legal step =>
          ⟨keeps s i next holds.1 legal step, stays s i next holds.1 holds.2 legal step⟩
        exact unbroken (exec_keeps both ⟨inv, breaks s i next start fails legal.1 step⟩ later run).2
      · cases Option.some.inj (step.symm.trans stepped)
        exact ih inv later run

/-! ## Views of a run

A part of a machine may be a machine of its own, which is shown some of the inputs of the whole.
The view of a run is what the part is shown; equal views leave the part in the same state. -/

section View

variable {τ κ : Type*} (m) (part : Machine τ κ)

/-- What a part is shown of a run, if `seen` is what it is shown of an input. -/
def view (seen : σ → ι → List κ) : List ι → σ → List κ
  | [], _ => []
  | i :: rest, s => seen s i ++ (m.step s i).elim [] (view seen rest)

/-- The part goes along with the inputs it is shown, and does not see the others. -/
def Projects (seen : σ → ι → List κ) (Shows : σ → τ → Prop) : Prop :=
  ∀ s t i next, Shows s t → m.legal s i → m.step s i = some next →
    ∃ t', part.exec (seen s i) t = some t' ∧ Shows next t'

variable {m part} {seen : σ → ι → List κ} {Shows : σ → τ → Prop}

theorem Projects.exec (projects : m.Projects part seen Shows) {inputs : List ι} {s final : σ} {t : τ}
    (start : Shows s t) (legal : m.LegalRun inputs s) (run : m.exec inputs s = some final) :
    ∃ t', part.exec (m.view seen inputs s) t = some t' ∧ Shows final t' := by
  induction inputs generalizing s t with
  | nil =>
      cases Option.some.inj run
      exact ⟨t, rfl, start⟩
  | cons i rest ih =>
      obtain ⟨next, step, run⟩ := Option.bind_eq_some_iff.mp run
      obtain ⟨mid, first, shows'⟩ := projects s t i next start legal.1 step
      obtain ⟨t', later, showsFinal⟩ := ih shows' (legal.2 next step) run
      refine ⟨t', ?_, showsFinal⟩
      rw [view, step, Option.elim_some, exec_append, first]
      exact later

/-- The two-run law: runs with the same view show the same part. -/
theorem Projects.same_view (projects : m.Projects part seen Shows) {inputs inputs' : List ι}
    {s s' final final' : σ} {t : τ} (start : Shows s t) (start' : Shows s' t)
    (legal : m.LegalRun inputs s) (legal' : m.LegalRun inputs' s')
    (run : m.exec inputs s = some final) (run' : m.exec inputs' s' = some final')
    (same : m.view seen inputs s = m.view seen inputs' s') :
    ∃ t', Shows final t' ∧ Shows final' t' := by
  obtain ⟨t', ends, shows'⟩ := projects.exec start legal run
  obtain ⟨t'', ends', shows''⟩ := projects.exec start' legal' run'
  rw [← same, ends] at ends'
  cases Option.some.inj ends'
  exact ⟨t', shows', shows''⟩

end View

end Machine

end Zsim
