import Mathlib.Tactic.Common
import Zsim.Lib.Count
import Zsim.Lib.Machine
import Zsim.Lib.Word

/-!
# The futex lock

`futex_lock`, `futex_lock_nospin`, `futex_trylock_nospin_timeout` and `futex_unlock` of locks.h,
run by any number of threads on one word; one turn is one access to the word or one system
call.  FUTEX_WAIT puts the thread to sleep if the word is 2 at that moment, and FUTEX_WAKE
wakes one sleeper, whichever the kernel takes.  A sleeper may also wake by itself: by its
timeout, by a signal, or for no reason.  The lock has no owner: the thread that unlocks it need
not be the one that locked it, as with the locks that a thread waits on for another one.
-/

set_option autoImplicit false

namespace Zsim.Locks

/-- The function that a thread locks with. -/
inductive Entry
  | futexLock | futexLockNospin | futexTrylockNospinTimeout
  deriving DecidableEq, Repr

/-- How often it tries before it blocks. -/
def Entry.spins : Entry → Nat
  | .futexLock => 5
  | _ => 1

inductive Pc
  | outside
  /-- `*lock == 0`, in the spin loop's iteration `i` -/
  | test (entry : Entry) (i : Nat)
  /-- the compare and swap of 0 to 1 -/
  | swap (entry : Entry) (i : Nat)
  /-- the exchange with 2 before the wait -/
  | exchange (entry : Entry)
  | wait (entry : Entry)
  | asleep (entry : Entry)
  /-- the exchange with 2 after the wait -/
  | again (entry : Entry)
  /-- `*lock = 0` of `futex_unlock` -/
  | store
  | wake
  deriving DecidableEq, Repr

structure Futex (τ : Type*) where
  /-- the lock's 32-bit word -/
  word : Nat
  pc : τ → Pc
  /-- how many calls have returned with the lock, less the calls of `futex_unlock` -/
  held : Nat

/-- Who is next, and what the kernel does: `wake t (some u)` is the FUTEX_WAKE of `t` that wakes `u`. -/
inductive Turn (τ : Type*)
  | call (t : τ) (entry : Entry)
  | unlock (t : τ)
  | go (t : τ)
  | rouse (t : τ)
  | wake (t : τ) (sleeper : Option τ)

def Turn.isOwn {τ : Type*} : Turn τ → Bool
  | .go _ | .wake _ _ => true
  | _ => false

/-- The iteration `i` of the spin loop has failed. -/
def Entry.failed (entry : Entry) (i : Nat) : Pc :=
  if i + 1 < entry.spins then .test entry (i + 1) else .exchange entry

def Pc.isAsleep : Pc → Bool
  | .asleep _ => true
  | _ => false

theorem Pc.exists_of_isAsleep {pc : Pc} (asleep : pc.isAsleep) : ∃ entry, pc = .asleep entry := by
  cases pc with
  | asleep entry => exact ⟨entry, rfl⟩
  | _ => cases asleep

def Pc.isLocking : Pc → Bool
  | .outside | .store | .wake => false
  | _ => true

namespace Futex

variable {τ : Type*} [DecidableEq τ]

/-- `futex_init` -/
def init : Futex τ := ⟨0, fun _ => .outside, 0⟩

/-- `futex_haswaiters` -/
def haswaiters (s : Futex τ) : Bool := s.word == 2

def jump (s : Futex τ) (t : τ) (pc : Pc) : Futex τ := { s with pc := Function.update s.pc t pc }

def acquire (s : Futex τ) (t : τ) : Futex τ := { s.jump t .outside with held := s.held + 1 }

/-- A thread's next step, where the kernel has no choice. -/
def go (s : Futex τ) (t : τ) : Futex τ :=
  match s.pc t with
  | .test entry i => if s.word = 0 then s.jump t (.swap entry i) else s.jump t (entry.failed i)
  | .swap entry i => if s.word = 0 then { s.acquire t with word := 1 } else s.jump t (entry.failed i)
  | .exchange entry =>
    if s.word = 0 then { s.acquire t with word := 2 } else { s.jump t (.wait entry) with word := 2 }
  | .wait entry => if s.word = 2 then s.jump t (.asleep entry) else s.jump t (.again entry)
  | .again entry =>
    if s.word = 0 then { s.acquire t with word := 2 }
    else if entry = .futexTrylockNospinTimeout then { s.jump t .outside with word := 2 }
    else { s.jump t (.test entry 0) with word := 2 }
  | .store => { s.jump t .wake with word := 0 }
  | .outside | .asleep _ | .wake => s

/-- `__sync_fetch_and_add(lock, -1)` and what follows from its result. -/
def beginUnlock (s : Futex τ) (t : τ) : Futex τ :=
  let after := { s with word := u32Sub s.word 1, held := s.held - 1 }
  if s.word = 1 then after else after.jump t .store

def rouse (s : Futex τ) (t : τ) : Futex τ :=
  match s.pc t with
  | .asleep entry => s.jump t (.again entry)
  | _ => s

theorem rouse_asleep {s : Futex τ} {t : τ} {entry : Entry} (here : s.pc t = .asleep entry) :
    s.rouse t = s.jump t (.again entry) := by
  simp only [rouse, here]

def step (s : Futex τ) : Turn τ → Futex τ
  | .call t entry => s.jump t (.test entry 0)
  | .unlock t => s.beginUnlock t
  | .go t => s.go t
  | .rouse t => s.rouse t
  | .wake t none => s.jump t .outside
  | .wake t (some u) => (s.jump t .outside).rouse u

/-- Only a lock that is held may be unlocked.  FUTEX_WAKE wakes a sleeper if there is one. -/
def Legal (s : Futex τ) : Turn τ → Prop
  | .call t _ => s.pc t = .outside
  | .unlock t => s.pc t = .outside ∧ 0 < s.held
  | .go t => s.pc t ≠ .outside ∧ s.pc t ≠ .wake ∧ (s.pc t).isAsleep = false
  | .rouse t => (s.pc t).isAsleep
  | .wake t none => s.pc t = .wake ∧ ∀ u, (s.pc u).isAsleep = false
  | .wake t (some u) => s.pc t = .wake ∧ (s.pc u).isAsleep

def machine (τ : Type*) [DecidableEq τ] : Machine (Futex τ) (Turn τ) where
  legal := Legal
  step s turn := some (s.step turn)

theorem legalRun_cons {turn : Turn τ} {rest : List (Turn τ)} {s : Futex τ} (legal : s.Legal turn)
    (later : (machine τ).LegalRun rest (s.step turn)) : (machine τ).LegalRun (turn :: rest) s :=
  ⟨legal, fun _ step => Option.some.inj step ▸ later⟩

/-! ## Progress -/

/-- Without another call, and without a sleeper that wakes by itself, some thread gets the lock. -/
def CanLock (s : Futex τ) : Prop :=
  ∃ turns final, (machine τ).LegalRun turns s ∧ (∀ turn ∈ turns, turn.isOwn) ∧
    (machine τ).exec turns s = some final ∧ final.held = 1

theorem canLock_of_held {s : Futex τ} (held : s.held = 1) : s.CanLock :=
  ⟨[], s, trivial, fun _ member => absurd member List.not_mem_nil, rfl, held⟩

theorem CanLock.cons {s : Futex τ} {turn : Turn τ} (legal : s.Legal turn) (own : turn.isOwn)
    (later : (s.step turn).CanLock) : s.CanLock := by
  obtain ⟨turns, final, rest, owns, run, held⟩ := later
  refine ⟨turn :: turns, final, legalRun_cons legal rest, ?_, run, held⟩
  intro other member
  rcases List.mem_cons.mp member with rfl | member
  · exact own
  · exact owns other member

/-- With the word at 0 a thread that is at a compare and swap, or at an exchange, gets the lock. -/
theorem CanLock.of_go {s : Futex τ} {t : τ} (gets : (s.go t).held = s.held + 1) (free : s.held = 0)
    (active : s.pc t ≠ .outside ∧ s.pc t ≠ .wake ∧ (s.pc t).isAsleep = false) : s.CanLock := by
  have held : (s.go t).held = 1 := by rw [gets, free]
  have legal : s.Legal (.go t) := active
  exact CanLock.cons legal rfl (canLock_of_held held)

theorem canLock_of_again {s : Futex τ} {t : τ} {entry : Entry} (here : s.pc t = .again entry)
    (word : s.word = 0) (free : s.held = 0) : s.CanLock := by
  refine CanLock.of_go ?_ free (by rw [here]; exact ⟨nofun, nofun, rfl⟩)
  simp only [go, here, if_pos word, acquire]

end Futex

/-! ## The invariant -/

/-- About to free the word. -/
def Pc.isStoring : Pc → Bool
  | .store => true
  | _ => false

/-- About to wake a sleeper, or to leave a 2 behind for one. -/
def Pc.isHanding : Pc → Bool
  | .wake | .again _ => true
  | _ => false

theorem Pc.eq_store {pc : Pc} (stores : pc.isStoring) : pc = .store := by
  cases pc with
  | store => rfl
  | _ => cases stores

theorem Pc.of_isHanding {pc : Pc} (hands : pc.isHanding) : pc = .wake ∨ ∃ entry, pc = .again entry := by
  cases pc with
  | wake => exact .inl rfl
  | again entry => exact .inr ⟨entry, rfl⟩
  | _ => cases hands

theorem Entry.failed_spins (entry : Entry) (i : Nat) : (entry.failed i).isStoring = false ∧
    (entry.failed i).isHanding = false ∧ (entry.failed i).isAsleep = false := by
  unfold Entry.failed
  split <;> exact ⟨rfl, rfl, rfl⟩

namespace Futex

section
variable {τ : Type*} [Fintype τ]

/-- How many threads are at a point of the code. -/
def number (s : Futex τ) (at' : Pc → Bool) : Nat := population s.pc at'

/-- The word is 0 exactly when the lock is free and nobody is about to free it; while a thread sleeps
the word is 2, or somebody will look after the sleepers. -/
def Balanced (word held storing handing sleeping : Nat) : Prop :=
  word ≤ 2 ∧ (word = 0 ↔ held + storing = 0) ∧ held + storing ≤ 1 ∧
    (0 < sleeping → word = 2 ∨ 0 < storing + handing)

def Inv (s : Futex τ) : Prop :=
  Balanced s.word s.held (s.number Pc.isStoring) (s.number Pc.isHanding) (s.number Pc.isAsleep)

theorem inv_init : Inv (init : Futex τ) := by
  have none (at' : Pc → Bool) (out : at' .outside = false) : (init : Futex τ).number at' = 0 :=
    population_eq_zero fun _ => out
  unfold Inv
  rw [none Pc.isStoring rfl, none Pc.isHanding rfl, none Pc.isAsleep rfl]
  simp [Balanced, init]

end

variable {τ : Type*} [DecidableEq τ] [Fintype τ]

theorem number_jump (s : Futex τ) (t : τ) (pc : Pc) (at' : Pc → Bool) :
    (s.jump t pc).number at' + (at' (s.pc t)).toNat = s.number at' + (at' pc).toNat :=
  population_update s.pc at' t pc

theorem Inv.write {s : Futex τ} (inv : Inv s) (t : τ) (pc : Pc) (word held : Nat)
    (balanced : ∀ {storing handing sleeping storing' handing' sleeping' : Nat},
      storing' + (s.pc t).isStoring.toNat = storing + pc.isStoring.toNat →
      handing' + (s.pc t).isHanding.toNat = handing + pc.isHanding.toNat →
      sleeping' + (s.pc t).isAsleep.toNat = sleeping + pc.isAsleep.toNat →
      Balanced s.word s.held storing handing sleeping → Balanced word held storing' handing' sleeping') :
    Inv { s.jump t pc with word := word, held := held } :=
  balanced (s.number_jump t pc _) (s.number_jump t pc _) (s.number_jump t pc _) inv

theorem Inv.spin {s : Futex τ} (inv : Inv s) {t : τ} {pc : Pc}
    (before : (s.pc t).isStoring = false ∧ (s.pc t).isHanding = false ∧ (s.pc t).isAsleep = false)
    (after : pc.isStoring = false ∧ pc.isHanding = false ∧ pc.isAsleep = false) : Inv (s.jump t pc) := by
  refine inv.write t pc s.word s.held fun storing handing sleeping balanced => ?_
  rw [before.1, after.1] at storing
  rw [before.2.1, after.2.1] at handing
  rw [before.2.2, after.2.2] at sleeping
  rwa [Nat.add_right_cancel storing, Nat.add_right_cancel handing, Nat.add_right_cancel sleeping]

theorem Inv.acquire {s : Futex τ} (inv : Inv s) {t : τ} (free : s.word = 0)
    (locking : (s.pc t).isStoring = false) {word : Nat}
    (mark : word = 2 ∨ word = 1 ∧ (s.pc t).isHanding = false) :
    Inv { s.acquire t with word := word } := by
  refine inv.write t .outside word (s.held + 1) fun storing handing sleeping balanced => ?_
  have out : Pc.outside.isStoring.toNat = 0 ∧ Pc.outside.isHanding.toNat = 0 ∧ Pc.outside.isAsleep.toNat = 0 :=
    ⟨rfl, rfl, rfl⟩
  rw [locking, Bool.toNat_false] at storing
  unfold Balanced at *
  rcases mark with rfl | ⟨rfl, other⟩
  · omega
  · rw [other, Bool.toNat_false] at handing
    omega

theorem Inv.mark {s : Futex τ} (inv : Inv s) {t : τ} {pc : Pc} (taken : s.word ≠ 0)
    (before : (s.pc t).isStoring = false) (after : pc.isStoring = false) :
    Inv { s.jump t pc with word := 2 } := by
  refine inv.write t pc 2 s.held fun storing handing sleeping balanced => ?_
  simp only [before, after, Bool.toNat_false] at storing
  unfold Balanced at *
  omega

theorem Inv.go {s : Futex τ} (inv : Inv s) (t : τ) : Inv (s.go t) := by
  cases here : s.pc t with
  | outside => simpa only [Futex.go, here] using inv
  | asleep entry => simpa only [Futex.go, here] using inv
  | wake => simpa only [Futex.go, here] using inv
  | test entry i =>
      simp only [Futex.go, here]
      split
      · exact inv.spin (by rw [here]; exact ⟨rfl, rfl, rfl⟩) ⟨rfl, rfl, rfl⟩
      · exact inv.spin (by rw [here]; exact ⟨rfl, rfl, rfl⟩) (entry.failed_spins i)
  | swap entry i =>
      simp only [Futex.go, here]
      split
      case isTrue free => exact inv.acquire free (by rw [here]; rfl) (.inr ⟨rfl, by rw [here]; rfl⟩)
      case isFalse => exact inv.spin (by rw [here]; exact ⟨rfl, rfl, rfl⟩) (entry.failed_spins i)
  | exchange entry =>
      simp only [Futex.go, here]
      split
      case isTrue free => exact inv.acquire free (by rw [here]; rfl) (.inl rfl)
      case isFalse taken => exact inv.mark taken (by rw [here]; rfl) rfl
  | wait entry =>
      -- the kernel compares the word and queues the thread in one step
      simp only [Futex.go, here]
      split
      · refine inv.write t (.asleep entry) s.word s.held fun storing handing sleeping balanced => ?_
        simp only [here, Pc.isStoring, Pc.isHanding, Bool.toNat_false] at storing handing
        unfold Balanced at *
        omega
      · refine inv.write t (.again entry) s.word s.held fun storing handing sleeping balanced => ?_
        simp only [here, Pc.isStoring, Pc.isHanding, Pc.isAsleep, Bool.toNat_false, Bool.toNat_true]
          at storing handing sleeping
        unfold Balanced at *
        omega
  | again entry =>
      simp only [Futex.go, here]
      split
      case isTrue free => exact inv.acquire free (by rw [here]; rfl) (.inl rfl)
      case isFalse taken =>
        split
        · exact inv.mark taken (by rw [here]; rfl) rfl
        · exact inv.mark taken (by rw [here]; rfl) rfl
  | store =>
      simp only [Futex.go, here]
      refine inv.write t .wake 0 s.held fun storing handing sleeping balanced => ?_
      simp only [here, Pc.isStoring, Pc.isHanding, Pc.isAsleep, Bool.toNat_false, Bool.toNat_true]
        at storing handing sleeping
      unfold Balanced at *
      omega

theorem Inv.beginUnlock {s : Futex τ} (inv : Inv s) {t : τ} (out : s.pc t = .outside) (held : 0 < s.held) :
    Inv (s.beginUnlock t) := by
  have word : s.word = 1 ∨ s.word = 2 := by
    unfold Inv Balanced at inv
    omega
  unfold Futex.beginUnlock
  rcases word with one | two
  · have balanced : Balanced 0 (s.held - 1) (s.number Pc.isStoring) (s.number Pc.isHanding)
        (s.number Pc.isAsleep) := by
      unfold Inv Balanced at *
      omega
    rw [one, if_pos rfl, u32Sub_of_le (by decide) (le_refl 1)]
    exact balanced
  · rw [two]
    rw [if_neg (by decide), u32Sub_of_le (by decide) (by decide)]
    refine inv.write t .store 1 (s.held - 1) fun storing handing sleeping balanced => ?_
    simp only [out, Pc.isStoring, Pc.isHanding, Pc.isAsleep, Bool.toNat_false, Bool.toNat_true]
      at storing handing sleeping
    unfold Balanced at *
    omega

theorem Inv.rouse {s : Futex τ} (inv : Inv s) {t : τ} (asleep : (s.pc t).isAsleep) : Inv (s.rouse t) := by
  obtain ⟨entry, here⟩ := Pc.exists_of_isAsleep asleep
  rw [rouse_asleep here]
  refine inv.write t (.again entry) s.word s.held fun storing handing sleeping balanced => ?_
  simp only [here, Pc.isStoring, Pc.isHanding, Pc.isAsleep, Bool.toNat_false, Bool.toNat_true]
    at storing handing sleeping
  unfold Balanced at *
  omega

/-- The waker has done its part: as many sleep as before, and another thread looks after the rest,
or nobody sleeps. -/
theorem Inv.wake {s : Futex τ} (inv : Inv s) {t : τ} (here : s.pc t = .wake) {sleeper : Option τ}
    (legal : s.Legal (.wake t sleeper)) : Inv (s.step (.wake t sleeper)) := by
  have storing := s.number_jump t .outside Pc.isStoring
  have handing := s.number_jump t .outside Pc.isHanding
  have sleeping := s.number_jump t .outside Pc.isAsleep
  simp only [here, Pc.isStoring, Pc.isHanding, Pc.isAsleep, Bool.toNat_false, Bool.toNat_true]
    at storing handing sleeping
  cases sleeper with
  | none =>
      have nobody : s.number Pc.isAsleep = 0 :=
        population_eq_zero legal.2
      have balanced : Balanced s.word s.held ((s.jump t .outside).number Pc.isStoring)
          ((s.jump t .outside).number Pc.isHanding) ((s.jump t .outside).number Pc.isAsleep) := by
        unfold Inv Balanced at *
        omega
      exact balanced
  | some u =>
      have asleep := legal.2
      have other : u ≠ t := by
        rintro rfl
        rw [here] at asleep
        cases asleep
      have stays : (s.jump t .outside).pc u = s.pc u := Function.update_of_ne other _ _
      obtain ⟨entry, there⟩ := Pc.exists_of_isAsleep asleep
      rw [← stays] at there
      have storing' := (s.jump t .outside).number_jump u (.again entry) Pc.isStoring
      have handing' := (s.jump t .outside).number_jump u (.again entry) Pc.isHanding
      have sleeping' := (s.jump t .outside).number_jump u (.again entry) Pc.isAsleep
      simp only [there, Pc.isStoring, Pc.isHanding, Pc.isAsleep, Bool.toNat_false, Bool.toNat_true]
        at storing' handing' sleeping'
      have balanced : Balanced s.word s.held (((s.jump t .outside).jump u (.again entry)).number Pc.isStoring)
          (((s.jump t .outside).jump u (.again entry)).number Pc.isHanding)
          (((s.jump t .outside).jump u (.again entry)).number Pc.isAsleep) := by
        unfold Inv Balanced at *
        omega
      rw [step, rouse_asleep there]
      exact balanced

theorem Inv.step {s : Futex τ} (inv : Inv s) {turn : Turn τ} (legal : s.Legal turn) : Inv (s.step turn) := by
  cases turn with
  | call t entry =>
      have out : s.pc t = .outside := legal
      exact inv.spin (by rw [out]; exact ⟨rfl, rfl, rfl⟩) ⟨rfl, rfl, rfl⟩
  | unlock t => exact inv.beginUnlock legal.1 legal.2
  | go t => exact inv.go t
  | rouse t => exact inv.rouse legal
  | wake t sleeper =>
      cases sleeper with
      | none => exact inv.wake legal.1 legal
      | some u => exact inv.wake legal.1 legal

theorem preserves_inv : (machine τ).Preserves Inv :=
  fun s turn inv legal => ⟨s.step turn, rfl, inv.step legal⟩

/-- A thread that sleeps before a free lock is woken by another one that is at work. -/
theorem Inv.canLock_asleep {s : Futex τ} (inv : Inv s) (word : s.word = 0) {t : τ}
    (asleep : (s.pc t).isAsleep) : s.CanLock := by
  have sleeps : 0 < s.number Pc.isAsleep := population_pos_iff.mpr ⟨t, asleep⟩
  have free : s.held = 0 := by
    unfold Inv Balanced at inv
    omega
  have hands : 0 < s.number Pc.isHanding := by
    unfold Inv Balanced at inv
    omega
  obtain ⟨u, handing⟩ := population_pos_iff.mp hands
  rcases Pc.of_isHanding handing with there | ⟨entry, there⟩
  · have legal : s.Legal (.wake u (some t)) := ⟨there, asleep⟩
    have other : t ≠ u := by
      rintro rfl
      rw [there] at asleep
      cases asleep
    have stays : (s.jump u .outside).pc t = s.pc t := Function.update_of_ne other _ _
    obtain ⟨entry, here⟩ := Pc.exists_of_isAsleep asleep
    have woken : s.step (.wake u (some t)) = (s.jump u .outside).jump t (.again entry) :=
      rouse_asleep (stays.trans here)
    refine CanLock.cons legal rfl ?_
    rw [woken]
    exact canLock_of_again (Function.update_self _ _ _) word free
  · exact canLock_of_again there word free

theorem Inv.canLock_zero {s : Futex τ} (inv : Inv s) (word : s.word = 0) {t : τ}
    (locking : (s.pc t).isLocking) : s.CanLock := by
  have free : s.held = 0 := by
    unfold Inv Balanced at inv
    omega
  cases here : s.pc t with
  | asleep entry => exact inv.canLock_asleep word (by rw [here]; rfl)
  | again entry => exact canLock_of_again here word free
  | swap entry i =>
      refine CanLock.of_go ?_ free (by rw [here]; exact ⟨nofun, nofun, rfl⟩)
      simp only [Futex.go, here, if_pos word, Futex.acquire]
  | exchange entry =>
      refine CanLock.of_go ?_ free (by rw [here]; exact ⟨nofun, nofun, rfl⟩)
      simp only [Futex.go, here, if_pos word, Futex.acquire]
  | test entry i =>
      have legal : s.Legal (.go t) := by
        refine ⟨?_, ?_, ?_⟩ <;> simp [here, Pc.isAsleep]
      have tested : s.step (.go t) = s.jump t (.swap entry i) := by
        simp only [Futex.step, Futex.go, here, if_pos word]
      have swaps : (s.jump t (.swap entry i)).pc t = .swap entry i := Function.update_self _ _ _
      refine CanLock.cons legal rfl ?_
      rw [tested]
      refine CanLock.of_go ?_ free (by rw [swaps]; exact ⟨nofun, nofun, rfl⟩)
      have word' : (s.jump t (.swap entry i)).word = 0 := word
      simp only [Futex.go, swaps, if_pos word', Futex.acquire]
  | wait entry =>
      have legal : s.Legal (.go t) := by
        refine ⟨?_, ?_, ?_⟩ <;> simp [here, Pc.isAsleep]
      have returned : s.step (.go t) = s.jump t (.again entry) := by
        have changed : s.word ≠ 2 := by
          rw [word]
          decide
        simp only [Futex.step, Futex.go, here, if_neg changed]
      refine CanLock.cons legal rfl ?_
      rw [returned]
      exact canLock_of_again (Function.update_self _ _ _) word free
  | _ =>
      rw [here] at locking
      cases locking

theorem Inv.canLock {s : Futex τ} (inv : Inv s) (free : s.held = 0) {t : τ}
    (locking : (s.pc t).isLocking) : s.CanLock := by
  by_cases word : s.word = 0
  · exact inv.canLock_zero word locking
  · -- the one that unlocks has not yet written the word
    have storing : 0 < s.number Pc.isStoring := by
      unfold Inv Balanced at inv
      omega
    obtain ⟨u, stores⟩ := population_pos_iff.mp storing
    have there := Pc.eq_store stores
    have legal : s.Legal (.go u) := by
      refine ⟨?_, ?_, ?_⟩ <;> simp [there, Pc.isAsleep]
    have stored : s.step (.go u) = { s.jump u .wake with word := 0 } := by
      simp only [Futex.step, Futex.go, there]
    have other : t ≠ u := by
      rintro rfl
      rw [there] at locking
      cases locking
    have stays : ({ s.jump u .wake with word := 0 } : Futex τ).pc t = s.pc t :=
      Function.update_of_ne other _ _
    refine CanLock.cons legal rfl ?_
    have inv' := inv.step legal
    rw [stored] at inv' ⊢
    exact inv'.canLock_zero rfl (by rw [stays]; exact locking)

/-- Any number of threads that lock and unlock, in any order and however they wake: the lock is never
held twice; while a thread sleeps `futex_haswaiters` says so, or another thread has the
waiters in hand; and a free lock that some thread waits for can be had without a wake from outside. -/
theorem futexLock_excludes_and_wakes {turns : List (Turn τ)} (legal : (machine τ).LegalRun turns init) :
    ∃ mid, (machine τ).exec turns init = some mid ∧ mid.held ≤ 1 ∧
      ((∃ t, (mid.pc t).isAsleep) →
        mid.haswaiters ∨ ∃ t, (mid.pc t).isStoring ∨ (mid.pc t).isHanding) ∧
      (mid.held = 0 → (∃ t, (mid.pc t).isLocking) → mid.CanLock) := by
  obtain ⟨mid, run, inv⟩ := preserves_inv.exec inv_init legal
  refine ⟨mid, run, ?_, ?_, fun free ⟨t, locking⟩ => inv.canLock free locking⟩
  · unfold Inv Balanced at inv
    omega
  · rintro ⟨t, asleep⟩
    have sleeps : 0 < mid.number Pc.isAsleep := population_pos_iff.mpr ⟨t, asleep⟩
    rcases inv.2.2.2 sleeps with two | busy
    · exact .inl (by simp [haswaiters, two])
    · rcases Nat.eq_zero_or_pos (mid.number Pc.isStoring) with none | storing
      · have handing : 0 < mid.number Pc.isHanding := by omega
        obtain ⟨u, hands⟩ := population_pos_iff.mp handing
        exact .inr ⟨u, .inr hands⟩
      · obtain ⟨u, stores⟩ := population_pos_iff.mp storing
        exact .inr ⟨u, .inl stores⟩

def contended : List (Turn Bool) :=
  [.call false .futexLock, .go false, .go false, .call true .futexLockNospin, .go true, .go true, .go true]

theorem futexLock_excludes_and_wakes_contended :
    ∃ mid, (machine Bool).exec contended init = some mid ∧ mid.held ≤ 1 ∧
      ((∃ t, (mid.pc t).isAsleep) →
        mid.haswaiters ∨ ∃ t, (mid.pc t).isStoring ∨ (mid.pc t).isHanding) ∧
      (mid.held = 0 → (∃ t, (mid.pc t).isLocking) → mid.CanLock) := by
  refine futexLock_excludes_and_wakes ?_
  refine legalRun_cons rfl (legalRun_cons ?_ (legalRun_cons ?_ (legalRun_cons rfl (legalRun_cons ?_
    (legalRun_cons ?_ (legalRun_cons ?_ trivial))))))
  all_goals exact ⟨by decide, by decide, rfl⟩

end Futex

end Zsim.Locks
