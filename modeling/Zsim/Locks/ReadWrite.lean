import Mathlib.Tactic.Common
import Zsim.Lib.Count
import Zsim.Lib.Machine
import Zsim.Lib.Word

/-!
# The read-write lock

`rwmutex` of mutex.h, used by any number of threads: a turn is one operation on one of its two
mutexes or on its counter.  A mutex is taken only while nobody has it (Futex.lean), and a thread
that finds it taken has no turn.  `step` returns `none` where `downgrade` asserts.
-/

set_option autoImplicit false

namespace Zsim.Locks

inductive RwCall
  | rdLock | rdUnlock | wrLock | wrUnlock | upgrade | downgrade
  deriving DecidableEq, Repr

/-- What a thread does next.  `up` tells whether it is in `upgrade`, and will want to write. -/
inductive RwPc
  | outside
  /-- `rb.lock()` of `rdLock` -/
  | rdEnter
  /-- `xadd(1)` -/
  | rdCount
  /-- `wq.lock()` of the first reader -/
  | rdBlock
  /-- `rb.unlock()`, at the end of the scope -/
  | rdLeave
  | reading
  /-- `xadd(-1)` -/
  | rdUncount (up : Bool)
  /-- `wq.unlock()` of the last reader -/
  | rdUnblock (up : Bool)
  /-- `rb.lock()` of `wrLock` -/
  | wrEnter
  /-- `wq.lock()` of `wrLock` -/
  | wrBlock
  /-- `rb.unlock()`, at the end of the scope -/
  | wrLeave
  | writing
  /-- `wq.unlock()` of `wrUnlock` -/
  | wrUnblock
  /-- `xadd(1)` of `downgrade` -/
  | downCount
  /-- `wq.unlock()` of `downgrade` -/
  | downUnblock
  deriving DecidableEq, Repr

structure Rwmutex (τ : Type*) where
  /-- held by a writer, or by all readers together -/
  wq : Bool
  /-- held by a thread that enters -/
  rb : Bool
  readers : Nat
  pc : τ → RwPc

inductive RwTurn (τ : Type*)
  | call (t : τ) (call : RwCall)
  | go (t : τ)

/-- Where a call may be made. -/
def RwCall.place : RwCall → RwPc
  | .rdLock | .wrLock => .outside
  | .rdUnlock | .upgrade => .reading
  | .wrUnlock | .downgrade => .writing

def RwCall.first : RwCall → RwPc
  | .rdLock => .rdEnter
  | .rdUnlock => .rdUncount false
  | .wrLock => .wrEnter
  | .wrUnlock => .wrUnblock
  | .upgrade => .rdUncount true
  | .downgrade => .downCount

/-- After `rdUnlock`, which `upgrade` follows with `wrLock`. -/
def afterRdUnlock (up : Bool) : RwPc := if up then .wrEnter else .outside

namespace Rwmutex

variable {τ : Type*}

def init : Rwmutex τ := ⟨false, false, 0, fun _ => .outside⟩

/-- The thread can make its next step; it may have to wait for a mutex. -/
def canGo (s : Rwmutex τ) (t : τ) : Bool :=
  match s.pc t with
  | .outside | .reading | .writing => false
  | .rdEnter | .wrEnter => !s.rb
  | .rdBlock | .wrBlock => !s.wq
  | _ => true

def Legal (s : Rwmutex τ) : RwTurn τ → Prop
  | .call t call => s.pc t = call.place
  | .go t => s.canGo t

instance (s : Rwmutex τ) : ∀ turn, Decidable (s.Legal turn)
  | .call t call => decEq (s.pc t) call.place
  | .go t => decEq (s.canGo t) true

variable [DecidableEq τ]

def jump (s : Rwmutex τ) (t : τ) (pc : RwPc) : Rwmutex τ := { s with pc := Function.update s.pc t pc }

def go (s : Rwmutex τ) (t : τ) : Option (Rwmutex τ) :=
  match s.pc t with
  | .rdEnter => some { s.jump t .rdCount with rb := true }
  | .rdCount =>
    let next := if s.readers = 0 then .rdBlock else .rdLeave
    some { s.jump t next with readers := u32 (s.readers + 1) }
  | .rdBlock => some { s.jump t .rdLeave with wq := true }
  | .rdLeave => some { s.jump t .reading with rb := false }
  | .rdUncount up =>
    let next := if s.readers = 1 then .rdUnblock up else afterRdUnlock up
    some { s.jump t next with readers := u32Sub s.readers 1 }
  | .rdUnblock up => some { s.jump t (afterRdUnlock up) with wq := false }
  | .wrEnter => some { s.jump t .wrBlock with rb := true }
  | .wrBlock => some { s.jump t .wrLeave with wq := true }
  | .wrLeave => some { s.jump t .writing with rb := false }
  | .wrUnblock => some { s.jump t .outside with wq := false }
  | .downCount =>
    -- a reader that waits for `wq` is let in
    if s.readers = 0 then some { s.jump t .reading with readers := u32 (s.readers + 1) }
    else if s.readers = 1 then some { s.jump t .downUnblock with readers := u32 (s.readers + 1) }
    else none
  | .downUnblock => some { s.jump t .reading with wq := false }
  | .outside | .reading | .writing => none

def step (s : Rwmutex τ) : RwTurn τ → Option (Rwmutex τ)
  | .call t call => some (s.jump t call.first)
  | .go t => s.go t

def machine (τ : Type*) [DecidableEq τ] : Machine (Rwmutex τ) (RwTurn τ) where
  legal := Legal
  step := step

instance (s : Rwmutex τ) (turn : RwTurn τ) : Decidable ((machine τ).legal s turn) :=
  inferInstanceAs (Decidable (s.Legal turn))

end Rwmutex

/-! ## Who has what -/

namespace RwPc

@[simp] def isFirst : RwPc → Bool
  | .rdBlock => true
  | _ => false

@[simp] def isEntering : RwPc → Bool
  | .rdCount | .rdLeave | .wrBlock | .wrLeave => true
  | _ => false

/-- The readers that together have `wq`. -/
@[simp] def isReader : RwPc → Bool
  | .rdLeave | .reading | .rdUncount _ => true
  | _ => false

/-- Has become a reader, and lets in the first reader. -/
@[simp] def isHanding : RwPc → Bool
  | .downUnblock => true
  | _ => false

@[simp] def isWriter : RwPc → Bool
  | .wrLeave | .writing | .wrUnblock | .downCount => true
  | _ => false

/-- The last reader, which still has `wq`. -/
@[simp] def isLast : RwPc → Bool
  | .rdUnblock _ => true
  | _ => false

/-- How many steps are left until the thread is outside, if it gives the lock back as soon as it has it. -/
def left : RwPc → Nat
  | .outside => 0
  | .rdUnblock up => if up then 6 else 1
  | .rdUncount up => if up then 7 else 2
  | .reading => 3
  | .downUnblock | .rdLeave => 4
  | .downCount | .rdBlock => 5
  | .rdCount => 6
  | .rdEnter => 7
  | .wrUnblock => 1
  | .writing => 2
  | .wrLeave => 3
  | .wrBlock => 4
  | .wrEnter => 5

/-- The counter counts it. -/
@[simp] def isCounted : RwPc → Bool
  | .rdBlock | .rdLeave | .reading | .rdUncount _ | .downUnblock => true
  | _ => false

end RwPc

/-- The counter counts the readers.  If nobody waits as the first reader, `wq` belongs to the readers, or
else to one writer or last reader.  If one does, then besides it there is a writer or
a last reader, or a thread that was the writer and reads by now, or no other reader. -/
def RwBalanced (wq rb readers first entering reader handing writer last counted : Nat) : Prop :=
  readers = counted ∧ counted = first + reader + handing ∧ first + entering = rb ∧ rb ≤ 1 ∧ wq ≤ 1 ∧
    (first = 0 → handing = 0 ∧ (0 < reader → wq = 1 ∧ writer + last = 0) ∧
      (reader = 0 → wq = writer + last)) ∧
    (first = 1 → wq = writer + last + handing ∧ reader + handing ≤ 1 ∧
      (0 < writer + last → reader + handing = 0))

namespace Rwmutex

variable {τ : Type*} [Fintype τ]

def Inv (s : Rwmutex τ) : Prop :=
  RwBalanced s.wq.toNat s.rb.toNat s.readers (population s.pc RwPc.isFirst) (population s.pc RwPc.isEntering)
    (population s.pc RwPc.isReader) (population s.pc RwPc.isHanding) (population s.pc RwPc.isWriter)
    (population s.pc RwPc.isLast) (population s.pc RwPc.isCounted)

theorem inv_init : Inv (init : Rwmutex τ) := by
  have none (p : RwPc → Bool) (out : p .outside = false) : population (init : Rwmutex τ).pc p = 0 :=
    population_eq_zero fun _ => out
  unfold Inv
  rw [none RwPc.isFirst rfl, none RwPc.isEntering rfl, none RwPc.isReader rfl, none RwPc.isHanding rfl,
    none RwPc.isWriter rfl, none RwPc.isLast rfl, none RwPc.isCounted rfl]
  simp [RwBalanced, init]

variable [DecidableEq τ]

theorem Inv.write {s : Rwmutex τ} (inv : Inv s) (t : τ) (pc : RwPc) (wq rb : Bool) (readers : Nat)
    (balanced : ∀ {first entering reader handing writer last counted : Nat},
      counted < Fintype.card τ →
      RwBalanced s.wq.toNat s.rb.toNat s.readers (first + (s.pc t).isFirst.toNat)
        (entering + (s.pc t).isEntering.toNat)
        (reader + (s.pc t).isReader.toNat) (handing + (s.pc t).isHanding.toNat)
        (writer + (s.pc t).isWriter.toNat) (last + (s.pc t).isLast.toNat)
        (counted + (s.pc t).isCounted.toNat) →
      RwBalanced wq.toNat rb.toNat readers (first + pc.isFirst.toNat) (entering + pc.isEntering.toNat)
        (reader + pc.isReader.toNat) (handing + pc.isHanding.toNat) (writer + pc.isWriter.toNat)
        (last + pc.isLast.toNat) (counted + pc.isCounted.toNat)) :
    Inv { s.jump t pc with wq := wq, rb := rb, readers := readers } := by
  obtain ⟨first, first₀, first₁⟩ := population_split s.pc RwPc.isFirst t
  obtain ⟨entering, entering₀, entering₁⟩ := population_split s.pc RwPc.isEntering t
  obtain ⟨reader, reader₀, reader₁⟩ := population_split s.pc RwPc.isReader t
  obtain ⟨handing, handing₀, handing₁⟩ := population_split s.pc RwPc.isHanding t
  obtain ⟨writer, writer₀, writer₁⟩ := population_split s.pc RwPc.isWriter t
  obtain ⟨last, last₀, last₁⟩ := population_split s.pc RwPc.isLast t
  obtain ⟨counted, counted₀, counted₁⟩ := population_split s.pc RwPc.isCounted t
  have fits : counted + 1 ≤ Fintype.card τ :=
    counted₁ .reading ▸ population_le_card (Function.update s.pc t .reading) RwPc.isCounted
  unfold Inv at *
  rw [first₀, entering₀, reader₀, handing₀, writer₀, last₀, counted₀] at inv
  simp only [jump, first₁, entering₁, reader₁, handing₁, writer₁, last₁, counted₁]
  exact balanced fits inv

/-- A step of the thread `t` that it can make: what has the locks and what is counted still agree. -/
theorem Inv.go {s : Rwmutex τ} (inv : Inv s) (few : Fintype.card τ < 2 ^ 32) {t : τ} (can : s.canGo t) :
    ∃ next, s.go t = some next ∧ Inv next := by
  cases here : s.pc t with
  | outside => simp [canGo, here] at can
  | reading => simp [canGo, here] at can
  | writing => simp [canGo, here] at can
  | rdEnter =>
      have free : s.rb = false := by simpa [canGo, here] using can
      refine ⟨_, by simp only [Rwmutex.go, here]; rfl, ?_⟩
      refine inv.write t .rdCount s.wq true s.readers fun _ balanced => ?_
      simp [here, free] at balanced ⊢
      unfold RwBalanced at *
      omega
  | rdCount =>
      refine ⟨_, by simp only [Rwmutex.go, here]; rfl, ?_⟩
      by_cases alone : s.readers = 0
      · rw [if_pos alone]
        refine inv.write t .rdBlock s.wq s.rb _ fun fits balanced => ?_
        simp [here] at balanced ⊢
        unfold RwBalanced at *
        rw [u32_of_lt (by omega)]
        omega
      · rw [if_neg alone]
        refine inv.write t .rdLeave s.wq s.rb _ fun fits balanced => ?_
        simp [here] at balanced ⊢
        unfold RwBalanced at *
        rw [u32_of_lt (by omega)]
        omega
  | rdBlock =>
      have free : s.wq = false := by simpa [canGo, here] using can
      refine ⟨_, by simp only [Rwmutex.go, here]; rfl, ?_⟩
      refine inv.write t .rdLeave true s.rb s.readers fun _ balanced => ?_
      simp [here, free] at balanced ⊢
      unfold RwBalanced at *
      omega
  | rdLeave =>
      refine ⟨_, by simp only [Rwmutex.go, here]; rfl, ?_⟩
      refine inv.write t .reading s.wq false s.readers fun _ balanced => ?_
      simp [here] at balanced ⊢
      unfold RwBalanced at *
      omega
  | rdUncount up =>
      refine ⟨_, by simp only [Rwmutex.go, here]; rfl, ?_⟩
      by_cases alone : s.readers = 1
      · rw [if_pos alone]
        refine inv.write t (.rdUnblock up) s.wq s.rb _ fun _ balanced => ?_
        simp [here] at balanced ⊢
        unfold RwBalanced at *
        rw [u32Sub_of_le (by omega) (by omega)]
        omega
      · rw [if_neg alone]
        refine inv.write t (afterRdUnlock up) s.wq s.rb _ fun fits balanced => ?_
        cases up
        all_goals
          simp [here, afterRdUnlock] at balanced ⊢
          unfold RwBalanced at *
          rw [u32Sub_of_le (by omega) (by omega)]
          omega
  | rdUnblock up =>
      refine ⟨_, by simp only [Rwmutex.go, here]; rfl, ?_⟩
      refine inv.write t (afterRdUnlock up) false s.rb s.readers fun _ balanced => ?_
      cases up
      all_goals
        simp [here, afterRdUnlock] at balanced ⊢
        unfold RwBalanced at *
        omega
  | wrEnter =>
      have free : s.rb = false := by simpa [canGo, here] using can
      refine ⟨_, by simp only [Rwmutex.go, here]; rfl, ?_⟩
      refine inv.write t .wrBlock s.wq true s.readers fun _ balanced => ?_
      simp [here, free] at balanced ⊢
      unfold RwBalanced at *
      omega
  | wrBlock =>
      have free : s.wq = false := by simpa [canGo, here] using can
      refine ⟨_, by simp only [Rwmutex.go, here]; rfl, ?_⟩
      refine inv.write t .wrLeave true s.rb s.readers fun _ balanced => ?_
      simp [here, free] at balanced ⊢
      unfold RwBalanced at *
      omega
  | wrLeave =>
      refine ⟨_, by simp only [Rwmutex.go, here]; rfl, ?_⟩
      refine inv.write t .writing s.wq false s.readers fun _ balanced => ?_
      simp [here] at balanced ⊢
      unfold RwBalanced at *
      omega
  | wrUnblock =>
      refine ⟨_, by simp only [Rwmutex.go, here]; rfl, ?_⟩
      refine inv.write t .outside false s.rb s.readers fun _ balanced => ?_
      simp [here] at balanced ⊢
      unfold RwBalanced at *
      omega
  | downCount =>
      -- besides the writer there is the first reader at most, and it waits
      have readers : s.readers = 0 ∨ s.readers = 1 := by
        obtain ⟨writer, writer₀, -⟩ := population_split s.pc RwPc.isWriter t
        rw [here, RwPc.isWriter, Bool.toNat_true] at writer₀
        unfold Inv RwBalanced at inv
        omega
      rcases readers with none | one
      · refine ⟨_, by simp only [Rwmutex.go, here, if_pos none]; rfl, ?_⟩
        refine inv.write t .reading s.wq s.rb _ fun fits balanced => ?_
        simp [here] at balanced ⊢
        unfold RwBalanced at *
        rw [u32_of_lt (by omega)]
        omega
      · refine ⟨_, by simp only [Rwmutex.go, here, one, if_neg one_ne_zero, if_pos]; rfl, ?_⟩
        refine inv.write t .downUnblock s.wq s.rb _ fun fits balanced => ?_
        simp [here] at balanced ⊢
        unfold RwBalanced at *
        rw [u32_of_lt (by omega)]
        omega
  | downUnblock =>
      refine ⟨_, by simp only [Rwmutex.go, here]; rfl, ?_⟩
      refine inv.write t .reading false s.rb s.readers fun _ balanced => ?_
      simp [here] at balanced ⊢
      unfold RwBalanced at *
      omega

theorem Inv.call {s : Rwmutex τ} (inv : Inv s) {t : τ} (call : RwCall) (here : s.pc t = call.place) :
    Inv (s.jump t call.first) := by
  refine inv.write t call.first s.wq s.rb s.readers fun _ balanced => ?_
  rw [here] at balanced
  cases call
  all_goals exact balanced

theorem Inv.step {s : Rwmutex τ} (inv : Inv s) (few : Fintype.card τ < 2 ^ 32) {turn : RwTurn τ}
    (legal : s.Legal turn) : ∃ next, s.step turn = some next ∧ Inv next := by
  cases turn with
  | call t call => exact ⟨_, rfl, inv.call call legal⟩
  | go t => exact inv.go few legal

theorem preserves_inv (few : Fintype.card τ < 2 ^ 32) : (machine τ).Preserves Inv :=
  fun _ _ inv legal => inv.step few legal

omit [DecidableEq τ] in
theorem Inv.writer {s : Rwmutex τ} (inv : Inv s) {t u : τ} (writes : (s.pc t).isWriter)
    (has : (s.pc u).isWriter ∨ (s.pc u).isReader ∨ (s.pc u).isHanding) : u = t := by
  have one : 0 < population s.pc RwPc.isWriter := population_pos_iff.mpr ⟨t, writes⟩
  unfold Inv RwBalanced at inv
  rcases has with writes' | reads | hands
  · exact eq_of_population_le_one (by omega) writes' writes
  · have readers : 0 < population s.pc RwPc.isReader := population_pos_iff.mpr ⟨u, reads⟩
    omega
  · have handing : 0 < population s.pc RwPc.isHanding := population_pos_iff.mpr ⟨u, hands⟩
    omega

/-! ## Nobody waits for ever -/

omit [DecidableEq τ] in
/-- A thread in a call can go on, or waits for one that can go on or that has the lock. -/
theorem Inv.exists_next {s : Rwmutex τ} (inv : Inv s) (busy : ∃ t, s.pc t ≠ .outside) :
    ∃ t, s.canGo t ∨ s.pc t = .reading ∨ s.pc t = .writing := by
  by_contra stuck
  push Not at stuck
  have waits : ∀ t, s.pc t = .outside ∨ (s.pc t = .rdEnter ∨ s.pc t = .wrEnter) ∧ s.rb = true ∨
      (s.pc t = .rdBlock ∨ s.pc t = .wrBlock) ∧ s.wq = true := by
    intro t
    have here := stuck t
    unfold canGo at here
    cases at' : s.pc t
    all_goals simp [at'] at here ⊢
    all_goals exact here
  have nobody (p : RwPc → Bool) (out : p .outside = false ∧ p .rdEnter = false ∧ p .wrEnter = false)
      (blocked : (p .rdBlock = false ∧ p .wrBlock = false) ∨ s.wq = false) : population s.pc p = 0 := by
    refine population_eq_zero fun t => ?_
    rcases waits t with here | ⟨here | here, -⟩ | ⟨here | here, taken⟩
    · rw [here, out.1]
    · rw [here, out.2.1]
    · rw [here, out.2.2]
    · rw [here, (blocked.resolve_right (by simp [taken])).1]
    · rw [here, (blocked.resolve_right (by simp [taken])).2]
  -- nobody has `wq`, so nobody waits for it, so nobody has `rb`
  have reader := nobody RwPc.isReader ⟨rfl, rfl, rfl⟩ (.inl ⟨rfl, rfl⟩)
  have handing := nobody RwPc.isHanding ⟨rfl, rfl, rfl⟩ (.inl ⟨rfl, rfl⟩)
  have writer := nobody RwPc.isWriter ⟨rfl, rfl, rfl⟩ (.inl ⟨rfl, rfl⟩)
  have last := nobody RwPc.isLast ⟨rfl, rfl, rfl⟩ (.inl ⟨rfl, rfl⟩)
  unfold Inv RwBalanced at inv
  have wq : s.wq = false := Bool.toNat_eq_zero.mp (by omega)
  have first := nobody RwPc.isFirst ⟨rfl, rfl, rfl⟩ (.inr wq)
  have entering := nobody RwPc.isEntering ⟨rfl, rfl, rfl⟩ (.inr wq)
  have rb : s.rb = false := Bool.toNat_eq_zero.mp (by omega)
  obtain ⟨t, inside⟩ := busy
  rcases waits t with out | ⟨-, taken⟩ | ⟨-, taken⟩
  · exact inside out
  · exact absurd taken (by simp [rb])
  · exact absurd taken (by simp [wq])

omit [Fintype τ] in
theorem go_left {s next : Rwmutex τ} {t : τ} (step : s.go t = some next) :
    ∃ pc, next.pc = Function.update s.pc t pc ∧ pc.left < (s.pc t).left := by
  have moved {pc : RwPc} {wq rb : Bool} {readers : Nat}
      (move : some { s.jump t pc with wq := wq, rb := rb, readers := readers } = some next)
      (less : pc.left < (s.pc t).left) :
      ∃ pc, next.pc = Function.update s.pc t pc ∧ pc.left < (s.pc t).left := by
    cases Option.some.inj move
    exact ⟨pc, rfl, less⟩
  unfold go at step
  cases here : s.pc t with
  | outside => simp [here] at step
  | reading => simp [here] at step
  | writing => simp [here] at step
  | rdCount =>
      simp only [here] at step
      rw [← here]
      refine moved step ?_
      rw [here]
      split <;> decide
  | rdUncount up =>
      simp only [here] at step
      rw [← here]
      refine moved step ?_
      rw [here]
      split
      · cases up <;> decide
      · cases up <;> decide
  | rdUnblock up =>
      simp only [here] at step
      rw [← here]
      refine moved step ?_
      rw [here]
      cases up <;> decide
  | downCount =>
      simp only [here] at step
      rw [← here]
      split at step
      · exact moved step (by rw [here]; decide)
      · split at step
        · exact moved step (by rw [here]; decide)
        · cases step
  | _ =>
      simp only [here] at step
      rw [← here]
      exact moved step (by rw [here]; decide)

def Idle (s : Rwmutex τ) : Prop :=
  (∀ t, s.pc t = .outside) ∧ s.wq = false ∧ s.rb = false ∧ s.readers = 0

omit [DecidableEq τ] in
theorem Inv.idle {s : Rwmutex τ} (inv : Inv s) (out : ∀ t, s.pc t = .outside) : s.Idle := by
  have nobody (p : RwPc → Bool) (none : p .outside = false) : population s.pc p = 0 :=
    population_eq_zero fun t => by rw [out t, none]
  have first := nobody RwPc.isFirst rfl
  have entering := nobody RwPc.isEntering rfl
  have reader := nobody RwPc.isReader rfl
  have handing := nobody RwPc.isHanding rfl
  have writer := nobody RwPc.isWriter rfl
  have last := nobody RwPc.isLast rfl
  unfold Inv RwBalanced at inv
  exact ⟨out, Bool.toNat_eq_zero.mp (by omega), Bool.toNat_eq_zero.mp (by omega), by omega⟩

theorem Inv.fewer {s : Rwmutex τ} (inv : Inv s) (few : Fintype.card τ < 2 ^ 32)
    (busy : ∃ t, s.pc t ≠ .outside) :
    ∃ turn next, s.Legal turn ∧ s.step turn = some next ∧ Inv next ∧
      total RwPc.left next.pc < total RwPc.left s.pc := by
  obtain ⟨t, can | reads | writes⟩ := inv.exists_next busy
  · obtain ⟨next, step, inv'⟩ := inv.go few can
    obtain ⟨pc, moved, less⟩ := go_left step
    have sum := total_update RwPc.left s.pc t pc
    refine ⟨.go t, next, can, step, inv', ?_⟩
    rw [moved]
    omega
  · have sum := total_update RwPc.left s.pc t (.rdUncount false)
    have lefts : RwPc.left .reading = 3 ∧ RwPc.left (.rdUncount false) = 2 := ⟨rfl, rfl⟩
    rw [reads] at sum
    refine ⟨.call t .rdUnlock, _, reads, rfl, inv.call .rdUnlock reads, ?_⟩
    simp only [jump, RwCall.first]
    omega
  · have sum := total_update RwPc.left s.pc t .wrUnblock
    have lefts : RwPc.left .writing = 2 ∧ RwPc.left .wrUnblock = 1 := ⟨rfl, rfl⟩
    rw [writes] at sum
    refine ⟨.call t .wrUnlock, _, writes, rfl, inv.call .wrUnlock writes, ?_⟩
    simp only [jump, RwCall.first]
    omega

theorem Inv.can_leave {s : Rwmutex τ} (inv : Inv s) (few : Fintype.card τ < 2 ^ 32) :
    ∃ turns final, (machine τ).LegalRun turns s ∧ (machine τ).exec turns s = some final ∧ final.Idle := by
  induction left : total RwPc.left s.pc using Nat.strong_induction_on generalizing s with
  | _ n ih =>
      by_cases busy : ∃ t, s.pc t ≠ .outside
      · obtain ⟨turn, next, legal, step, inv', less⟩ := inv.fewer few busy
        obtain ⟨turns, final, later, run, idle⟩ := ih _ (by omega) inv' rfl
        refine ⟨turn :: turns, final, ⟨legal, fun other stepped => ?_⟩, ?_, idle⟩
        · cases Option.some.inj (step.symm.trans stepped)
          exact later
        · exact (congrArg (Option.bind · _) step).trans run
      · push Not at busy
        exact ⟨[], s, trivial, rfl, inv.idle busy⟩

/-- In every run of fewer than 2^32 threads the assertion of `downgrade` holds, a writer has the lock
to itself, also while it becomes a reader, and the threads can all leave. -/
theorem rwmutex_excludes (few : Fintype.card τ < 2 ^ 32) {turns : List (RwTurn τ)}
    (legal : (machine τ).LegalRun turns init) :
    ∃ mid, (machine τ).exec turns init = some mid ∧
      (∀ t u, (mid.pc t).isWriter →
        (mid.pc u).isWriter ∨ (mid.pc u).isReader ∨ (mid.pc u).isHanding → u = t) ∧
      ∃ more final, (machine τ).LegalRun more mid ∧ (machine τ).exec more mid = some final ∧ final.Idle := by
  obtain ⟨mid, run, inv⟩ := (preserves_inv few).exec inv_init legal
  exact ⟨mid, run, fun t u writes has => inv.writer writes has, inv.can_leave few⟩

/-- A writer becomes a reader while another thread waits to read. -/
def downgrades : List (RwTurn Bool) :=
  [.call false .wrLock, .go false, .go false, .go false, .call true .rdLock, .go true, .go true,
    .call false .downgrade, .go false, .go false, .go true]

theorem rwmutex_excludes_downgrades :
    ∃ mid, (machine Bool).exec downgrades init = some mid ∧
      (∀ t u, (mid.pc t).isWriter →
        (mid.pc u).isWriter ∨ (mid.pc u).isReader ∨ (mid.pc u).isHanding → u = t) ∧
      ∃ more final, (machine Bool).LegalRun more mid ∧ (machine Bool).exec more mid = some final ∧
        final.Idle := by
  exact rwmutex_excludes (by decide) (by decide)

end Rwmutex

end Zsim.Locks
