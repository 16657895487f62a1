import Mathlib.Data.Finset.Max
import Mathlib.Data.Fintype.Basic
import Zsim.Lib.Machine
import Zsim.Lib.Count

/-!
# Locks taken in an order

Threads that take locks one at a time.  What a thread still has to do is a list of calls; it
waits at a call for a lock that another one holds.  If every thread takes its locks in the
order of a rank, then no run gets stuck, and every run can go on until all threads are done
and all locks are free.
-/

set_option autoImplicit false

namespace Zsim

inductive LockOp (α : Type*)
  | lock (a : α)
  | unlock (a : α)
  deriving DecidableEq, Repr

namespace LockOp

variable {α β : Type*} [DecidableEq α]

section
variable [LinearOrder β] (rank : α → β)

/-- With `held` in its hands a thread can make these calls, and then it has `after`: it takes
a lock only above all those it holds, and gives back only what it holds. -/
def Ordered : List (LockOp α) → Finset α → Finset α → Prop
  | [], held, after => held = after
  | lock a :: rest, held, after => (∀ b ∈ held, rank b < rank a) ∧ Ordered rest (insert a held) after
  | unlock a :: rest, held, after => a ∈ held ∧ Ordered rest (held.erase a) after

variable {rank}

theorem Ordered.append {first second : List (LockOp α)} {held mid after : Finset α}
    (ordered : Ordered rank first held mid) (later : Ordered rank second mid after) :
    Ordered rank (first ++ second) held after := by
  induction first generalizing held with
  | nil =>
      cases ordered
      exact later
  | cons op rest ih =>
      cases op with
      | lock a => exact ⟨ordered.1, ih ordered.2⟩
      | unlock a => exact ⟨ordered.1, ih ordered.2⟩

theorem ordered_pair {a : α} {held : Finset α} (above : ∀ b ∈ held, rank b < rank a) :
    Ordered rank [lock a, unlock a] held held := by
  have fresh : a ∉ held := fun member => lt_irrefl _ (above a member)
  exact ⟨above, Finset.mem_insert_self a held, Finset.erase_insert fresh⟩

end

/-! ## Threads -/

/-- The locks each thread holds, and what it still has to do. -/
structure Threads (τ α : Type*) where
  held : τ → Finset α
  todo : τ → List (LockOp α)

namespace Threads

variable {τ : Type*}

/-- The thread is not done, and does not wait for a lock. -/
def Ready (s : Threads τ α) (t : τ) : Prop :=
  match s.todo t with
  | [] => False
  | lock a :: _ => ∀ u, a ∉ s.held u
  | unlock _ :: _ => True

/-- A thread's next call; it must not give back what it does not hold. -/
def step [DecidableEq τ] (s : Threads τ α) (t : τ) : Option (Threads τ α) :=
  match s.todo t with
  | [] => none
  | lock a :: rest =>
      some ⟨Function.update s.held t (insert a (s.held t)), Function.update s.todo t rest⟩
  | unlock a :: rest =>
      if a ∈ s.held t then
        some ⟨Function.update s.held t ((s.held t).erase a), Function.update s.todo t rest⟩
      else none

def machine (τ α : Type*) [DecidableEq τ] [DecidableEq α] : Machine (Threads τ α) τ where
  legal := Ready
  step := step

def Done (s : Threads τ α) : Prop := ∀ t, s.todo t = [] ∧ s.held t = ∅

def start (todo : τ → List (LockOp α)) : Threads τ α := ⟨fun _ => ∅, todo⟩

def Exclusive (s : Threads τ α) : Prop := ∀ a t u, a ∈ s.held t → a ∈ s.held u → t = u

variable [LinearOrder β] {rank : α → β}

variable (rank) in
structure Inv (s : Threads τ α) : Prop where
  ordered : ∀ t, Ordered rank (s.todo t) (s.held t) ∅
  exclusive : s.Exclusive

theorem inv_start {todo : τ → List (LockOp α)} (ordered : ∀ t, Ordered rank (todo t) ∅ ∅) :
    Inv rank (start todo) :=
  ⟨ordered, fun _ _ _ member => absurd member (Finset.notMem_empty _)⟩

theorem Inv.empty_of_nil {s : Threads τ α} (inv : Inv rank s) {t : τ} (done : s.todo t = []) :
    s.held t = ∅ := by
  have ordered := inv.ordered t
  rw [done] at ordered
  exact ordered

theorem Inv.todo_of_held {s : Threads τ α} (inv : Inv rank s) {t : τ} {a : α} (holds : a ∈ s.held t) :
    s.todo t ≠ [] := by
  intro done
  rw [inv.empty_of_nil done] at holds
  exact Finset.notMem_empty a holds

/-- One call of a thread that is ready: it does not fail, and leaves the others alone. -/
theorem Inv.step [DecidableEq τ] {s : Threads τ α} (inv : Inv rank s) {t : τ} (ready : s.Ready t) :
    ∃ next, s.step t = some next ∧ Inv rank next ∧
      next.todo = Function.update s.todo t (s.todo t).tail := by
  have ordered := inv.ordered t
  cases todo : s.todo t with
  | nil => simp [Ready, todo] at ready
  | cons op rest =>
      rw [todo] at ordered
      cases op with
      | lock a =>
          have free : ∀ u, a ∉ s.held u := by simpa [Ready, todo] using ready
          have run : s.step t =
              some ⟨Function.update s.held t (insert a (s.held t)), Function.update s.todo t rest⟩ := by
            simp only [Threads.step, todo]
          refine ⟨_, run, ⟨fun u => ?_, fun b u v left right => ?_⟩, rfl⟩
          · by_cases same : u = t
            · subst same
              simpa using ordered.2
            · simpa [same] using inv.ordered u
          · by_cases taken : b = a
            · -- nobody held the lock before, so both are the thread that took it
              subst taken
              have only : ∀ w, b ∈ Function.update s.held t (insert b (s.held t)) w → w = t := by
                intro w member
                by_contra other
                rw [Function.update_of_ne other] at member
                exact free w member
              rw [only u left, only v right]
            · have before : ∀ w, b ∈ Function.update s.held t (insert a (s.held t)) w → b ∈ s.held w := by
                intro w member
                by_cases same : w = t
                · subst same
                  rw [Function.update_self] at member
                  exact (Finset.mem_insert.mp member).resolve_left taken
                · rwa [Function.update_of_ne same] at member
              exact inv.exclusive b u v (before u left) (before v right)
      | unlock a =>
          have run : s.step t =
              some ⟨Function.update s.held t ((s.held t).erase a), Function.update s.todo t rest⟩ := by
            simp only [Threads.step, todo, if_pos ordered.1]
          refine ⟨_, run, ⟨fun u => ?_, fun b u v left right => ?_⟩, rfl⟩
          · by_cases same : u = t
            · subst same
              simpa using ordered.2
            · simpa [same] using inv.ordered u
          · have before : ∀ w, b ∈ Function.update s.held t ((s.held t).erase a) w → b ∈ s.held w := by
              intro w member
              by_cases same : w = t
              · subst same
                rw [Function.update_self] at member
                exact Finset.mem_of_mem_erase member
              · rwa [Function.update_of_ne same] at member
            exact inv.exclusive b u v (before u left) (before v right)

theorem preserves_inv [DecidableEq τ] : (machine τ α).Preserves (Inv rank) := by
  intro s t inv ready
  obtain ⟨next, step, inv, -⟩ := inv.step ready
  exact ⟨next, step, inv⟩

/-! ## Nobody waits for ever -/

variable (rank) in
/-- The rank of the lock that a thread takes next, if it takes one. -/
def wanted (s : Threads τ α) (t : τ) : WithBot β :=
  match s.todo t with
  | lock a :: _ => rank a
  | _ => ⊥

/-- A thread that is not done and not ready waits for a lock that another one holds, which
in turn is above all those it holds itself. -/
theorem Inv.waits {s : Threads τ α} (inv : Inv rank s) {t : τ} (left : s.todo t ≠ []) (waits : ¬ s.Ready t) :
    ∃ a u, s.wanted rank t = rank a ∧ a ∈ s.held u ∧ ∀ b ∈ s.held t, rank b < rank a := by
  have ordered := inv.ordered t
  cases todo : s.todo t with
  | nil => exact absurd todo left
  | cons op rest =>
      rw [todo] at ordered
      cases op with
      | lock a =>
          have taken : ∃ u, a ∈ s.held u := by
            by_contra free
            exact waits (by simpa [Ready, todo] using free)
          obtain ⟨u, holds⟩ := taken
          exact ⟨a, u, by simp [wanted, todo], holds, ordered.1⟩
      | unlock a => simp [Ready, todo] at waits

section
variable [Fintype τ]

theorem Inv.exists_ready {s : Threads τ α} (inv : Inv rank s) (left : ∃ t, s.todo t ≠ []) :
    ∃ t, s.Ready t := by
  by_contra stuck
  push Not at stuck
  obtain ⟨first, begun⟩ := left
  have waits := fun t (begun : s.todo t ≠ []) => inv.waits begun (stuck t)
  let waiting := Finset.univ.filter fun t => s.todo t ≠ []
  obtain ⟨top, member, highest⟩ := waiting.exists_max_image (s.wanted rank)
    ⟨first, Finset.mem_filter.mpr ⟨Finset.mem_univ first, begun⟩⟩
  obtain ⟨a, holder, wants, holds, -⟩ := waits top (Finset.mem_filter.mp member).2
  have busy := inv.todo_of_held holds
  obtain ⟨b, -, wants', -, above⟩ := waits holder busy
  have le := highest holder (Finset.mem_filter.mpr ⟨Finset.mem_univ holder, busy⟩)
  rw [wants, wants'] at le
  exact absurd (above a holds) (not_lt_of_ge (WithBot.coe_le_coe.mp le))

def remaining (s : Threads τ α) : Nat := total List.length s.todo

theorem Inv.done_of_remaining {s : Threads τ α} (inv : Inv rank s) (none : s.remaining = 0) : s.Done := by
  intro t
  have nil := List.length_eq_zero_iff.mp (total_eq_zero_iff.mp none t)
  exact ⟨nil, inv.empty_of_nil nil⟩

variable [DecidableEq τ]

theorem Inv.remaining_step {s next : Threads τ α} (inv : Inv rank s) {t : τ} (ready : s.Ready t)
    (step : s.step t = some next) : next.remaining + 1 = s.remaining := by
  obtain ⟨other, stepped, -, todo⟩ := inv.step ready
  cases Option.some.inj (step.symm.trans stepped)
  have left : s.todo t ≠ [] := fun nil => by simp [Ready, nil] at ready
  have here : (s.todo t).tail.length + 1 = (s.todo t).length := by
    cases todo : s.todo t with
    | nil => exact absurd todo left
    | cons op rest => rfl
  have moved := total_update List.length s.todo t (s.todo t).tail
  unfold remaining
  rw [todo]
  omega

theorem Inv.remaining_run {s final : Threads τ α} (inv : Inv rank s) {turns : List τ}
    (legal : (machine τ α).LegalRun turns s) (run : (machine τ α).exec turns s = some final) :
    final.remaining + turns.length = s.remaining := by
  induction turns generalizing s with
  | nil =>
      cases Option.some.inj run
      rfl
  | cons t rest ih =>
      obtain ⟨next, step, run⟩ := Option.bind_eq_some_iff.mp run
      have fewer := inv.remaining_step legal.1 step
      have later := ih (preserves_inv.keeps inv legal.1 step) (legal.2 next step) run
      rw [List.length_cons]
      omega

/-- From every state of a run the threads can go on until all are done. -/
theorem Inv.can_finish {s : Threads τ α} (inv : Inv rank s) :
    ∃ turns final, (machine τ α).LegalRun turns s ∧ (machine τ α).exec turns s = some final ∧ final.Done := by
  induction left : s.remaining generalizing s with
  | zero => exact ⟨[], s, trivial, rfl, inv.done_of_remaining left⟩
  | succ n ih =>
      have busy : ∃ t, s.todo t ≠ [] := by
        by_contra idle
        push Not at idle
        have zero : s.remaining = 0 := total_eq_zero_iff.mpr fun t => by rw [idle t]; rfl
        omega
      obtain ⟨t, ready⟩ := inv.exists_ready busy
      obtain ⟨next, step, inv', -⟩ := inv.step ready
      have fewer := inv.remaining_step ready step
      obtain ⟨turns, final, legal, run, done⟩ := ih inv' (by omega)
      refine ⟨t :: turns, final, ⟨ready, fun other stepped => ?_⟩, ?_, done⟩
      · cases Option.some.inj (step.symm.trans stepped)
        exact legal
      · exact (congrArg (Option.bind · _) step).trans run

/-- Threads that take their locks in an order: in every run each lock has one holder at most and
no thread gives back what it does not hold; while a thread is not done some thread is ready;
and a run that nobody can continue has made every call, with all locks free at its end. -/
theorem runs_finish {todo : τ → List (LockOp α)} (ordered : ∀ t, Ordered rank (todo t) ∅ ∅) {turns : List τ}
    (legal : (machine τ α).LegalRun turns (start todo)) :
    ∃ mid, (machine τ α).exec turns (start todo) = some mid ∧ mid.Exclusive ∧
      (mid.Done ∨ ∃ t, mid.Ready t) ∧
      mid.remaining + turns.length = ∑ t, (todo t).length ∧
      ∃ more final, (machine τ α).LegalRun more mid ∧ (machine τ α).exec more mid = some final ∧
        final.Done := by
  obtain ⟨mid, run, inv⟩ := preserves_inv.exec (inv_start ordered) legal
  refine ⟨mid, run, inv.exclusive, ?_, (inv_start ordered).remaining_run legal run, inv.can_finish⟩
  by_cases busy : ∃ t, mid.todo t ≠ []
  · exact .inr (inv.exists_ready busy)
  · push Not at busy
    exact .inl fun t => ⟨busy t, inv.empty_of_nil (busy t)⟩

end

end Threads

end LockOp

end Zsim
