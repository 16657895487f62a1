import Zsim.Lib.Machine
import Zsim.Lib.Word
import Zsim.Scheduler.Model

/-!
# Forced leaves

The loop of `watchdogThreadFunc` that turns fake leaves into real ones.  It drops `schedLock` around
each `leave`, so the scheduler is another one when the lock is taken again.  The loop keeps the pid
of the first thread for all of them, and compares it with that of the thread that has just left.
-/

set_option autoImplicit false

namespace Zsim

namespace Scheduler

def getGid (pid tid : Nat) : Nat := u32 (pid <<< 16) ||| tid

def getPid (gid : Nat) : Nat := gid >>> 16

def getTid (gid : Nat) : Nat := gid &&& 0xFFFF

/-- Where the loop stands: before `finishFakeLeave`, before `leave`, or after it. -/
inductive Place where
  | finish | leave | look | done
  deriving DecidableEq, Repr

end Scheduler

open Scheduler

/-- The variables of the loop, with the scheduler as it was when the lock was last held. -/
structure ForcedLeaves where
  s : Scheduler
  /-- the pc of the entry of a thread in `fakeLeaves` -/
  fakePc : Nat → Nat
  place : Place
  /-- `th`, by its gid -/
  th : Nat
  pid : Nat
  tid : Nat
  cid : Nat
  pc : Nat

namespace ForcedLeaves

/-- The part of an iteration that comes next, with the scheduler in which it takes the lock. -/
inductive Turn where
  | finish
  | leave (s : Scheduler) (draws : Draws)
  | look (s : Scheduler) (fakePc : Nat → Nat)

/-- The loop is entered with the lock held, at the front of the list. -/
def start (s : Scheduler) (fakePc : Nat → Nat) (th : Nat) : ForcedLeaves where
  s := s
  fakePc := fakePc
  place := .finish
  th := th
  pid := getPid th
  tid := getTid th
  cid := s.cidOf th
  pc := fakePc th

/-- The thread is still where it was: a running thread keeps its context until it leaves. -/
def Stays (w : ForcedLeaves) (s : Scheduler) : Prop :=
  (s.contexts (w.s.cidOf w.th)).curThread = some w.th

instance (w : ForcedLeaves) (s : Scheduler) : Decidable (w.Stays s) :=
  inferInstanceAs (Decidable (_ = _))

def GidsOk (s : Scheduler) : Prop := ∀ gid ∈ s.fakeLeaves, gid < 2 ^ 32

instance (s : Scheduler) : Decidable (GidsOk s) := inferInstanceAs (Decidable (∀ _ ∈ _, _))

def legal (w : ForcedLeaves) : Turn → Prop
  | .finish => w.place = .finish
  | .leave s _ => w.place = .leave ∧ w.Stays s
  | .look s _ => w.place = .look ∧ GidsOk s

def look (w : ForcedLeaves) (s : Scheduler) (fakePc : Nat → Nat) : ForcedLeaves :=
  let w := { w with s := s, fakePc := fakePc }
  match s.fakeLeaves.head? with
  | none => { w with place := .done }
  | some fl =>
    if getPid w.th ≠ w.pid ∨ fakePc fl ≠ w.pc then { w with place := .done }
    else
      let w := { w with th := fl, tid := getTid fl, cid := s.cidOf fl }
      if 8 < s.fakeLeaves.length then { w with place := .finish } else { w with place := .done }

def step (w : ForcedLeaves) : Turn → Option ForcedLeaves
  | .finish => (w.s.finishFakeLeave w.th).map fun s => { w with s := s, place := .leave }
  | .leave s draws =>
    (s.leave draws (getGid w.pid w.tid) w.cid).map fun s => { w with s := s, place := .look }
  | .look s fakePc => some (w.look s fakePc)

def machine : Machine ForcedLeaves Turn := ⟨legal, step⟩

instance (w : ForcedLeaves) : ∀ turn, Decidable (machine.legal w turn)
  | .finish => inferInstanceAs (Decidable (w.place = .finish))
  | .leave s _ => inferInstanceAs (Decidable (w.place = .leave ∧ w.Stays s))
  | .look s _ => inferInstanceAs (Decidable (w.place = .look ∧ GidsOk s))

def Forcing (w : ForcedLeaves) : Prop := w.place = .finish ∨ w.place = .leave

/-- The thread that is forced to leave is of the first process and at the first pc, the arguments of
`leave` are its own, and the assertion of `leave` will not fail. -/
structure Matching (first pc : Nat) (w : ForcedLeaves) : Prop where
  arguments : w.Forcing → w.pid = getPid w.th ∧ w.tid = getTid w.th ∧ w.cid = w.s.cidOf w.th
  process : w.Forcing → getPid w.th = first
  atPc : w.place = .finish → w.th ∈ w.s.fakeLeaves ∧ w.fakePc w.th = pc
  asserted : w.place = .leave → ∀ s, w.Stays s →
    (s.contexts w.cid).curThread = some (getGid w.pid w.tid)

/-- The loop does not go on with a thread of another process. -/
def SameProcess (w : ForcedLeaves) : Turn → Prop
  | .look s fakePc => ∀ fl ∈ s.fakeLeaves.head?, fakePc fl = w.pc → 8 < s.fakeLeaves.length →
      getPid fl = w.pid
  | _ => True

/-! ## Gids -/

theorem getGid_eq (pid : Nat) {tid : Nat} (small : tid < 2 ^ 16) :
    getGid pid tid = pid % 2 ^ 16 * 2 ^ 16 + tid := by
  have shifted : u32 (pid <<< 16) = 2 ^ 16 * (pid % 2 ^ 16) := by
    rw [Nat.shiftLeft_eq]
    unfold u32
    omega
  rw [getGid, shifted, ← Nat.two_pow_add_eq_or_of_lt small, Nat.mul_comm]

theorem getTid_eq (gid : Nat) : getTid gid = gid % 2 ^ 16 := Nat.and_two_pow_sub_one_eq_mod gid 16

theorem getPid_eq (gid : Nat) : getPid gid = gid / 2 ^ 16 := Nat.shiftRight_eq_div_pow gid 16

theorem getGid_getPid_getTid {gid : Nat} (fits : gid < 2 ^ 32) :
    getGid (getPid gid) (getTid gid) = gid := by
  rw [getTid_eq, getPid_eq, getGid_eq _ (Nat.mod_lt _ (by decide))]
  omega

theorem getPid_getGid {pid gid : Nat} (fits : pid < 2 ^ 16) : getPid (getGid pid (getTid gid)) = pid := by
  rw [getTid_eq, getPid_eq, getGid_eq _ (Nat.mod_lt _ (by decide))]
  omega

/-! ## One turn -/

structure Inv (first pc : Nat) (w : ForcedLeaves) : Prop where
  pid : w.pid = first
  fits : first < 2 ^ 16
  pcEq : w.pc = pc
  forcing : w.Forcing → w.th < 2 ^ 32 ∧ w.tid = getTid w.th ∧ w.cid = w.s.cidOf w.th
  finish : w.place = .finish → w.th ∈ w.s.fakeLeaves ∧ w.fakePc w.th = pc
  look : w.place = .look → getPid w.th = first

variable {first pc : Nat} {w next : ForcedLeaves}

/-- Of a thread that is forced to leave, only the process may be the wrong one. -/
theorem Inv.matching (inv : Inv first pc w) (process : w.Forcing → getPid w.th = first) :
    Matching first pc w where
  arguments forcing := ⟨inv.pid.trans (process forcing).symm, (inv.forcing forcing).2⟩
  process := process
  atPc := inv.finish
  asserted isLeave s stays := by
    have forcing : w.Forcing := .inr isLeave
    obtain ⟨fits, tid, cid⟩ := inv.forcing forcing
    rw [cid, tid, inv.pid, ← process forcing, getGid_getPid_getTid fits]
    exact stays

theorem cidOf_finishFakeLeave {s s' : Scheduler} {gid : Nat} (run : s.finishFakeLeave gid = some s') :
    s'.cidOf gid = s.cidOf gid := by
  obtain ⟨th, isThread, run⟩ := Option.bind_eq_some_iff.mp run
  obtain ⟨-, run⟩ := Option.ite_none_right_eq_some.mp run
  cases Option.some.inj run
  unfold cidOf setThread
  dsimp only
  rw [Function.update_self, isThread]
  rfl

theorem leave_curThread {s s' : Scheduler} {draws : Draws} {gid cid : Nat}
    (run : s.leave draws gid cid = some s') : (s.contexts cid).curThread = some gid := by
  obtain ⟨th, -, run⟩ := Option.bind_eq_some_iff.mp run
  split at run
  case isTrue asserted => exact asserted.1
  case isFalse => cases run

theorem look_cases (w : ForcedLeaves) (s : Scheduler) (fakePc : Nat → Nat) :
    (w.look s fakePc).pid = w.pid ∧ (w.look s fakePc).pc = w.pc ∧
      ((w.look s fakePc).place = .done ∨ ∃ fl, s.fakeLeaves.head? = some fl ∧ fakePc fl = w.pc ∧
        8 < s.fakeLeaves.length ∧ w.look s fakePc =
          { w with s := s, fakePc := fakePc, th := fl, tid := getTid fl, cid := s.cidOf fl,
                   place := .finish }) := by
  unfold look
  dsimp only
  split
  case h_1 => exact ⟨rfl, rfl, .inl rfl⟩
  case h_2 fl isFront =>
    split
    case isTrue => exact ⟨rfl, rfl, .inl rfl⟩
    case isFalse same =>
      have samePc : fakePc fl = w.pc := by
        by_contra other
        exact same (.inr other)
      split
      case isTrue long => exact ⟨rfl, rfl, .inr ⟨fl, isFront, samePc, long, rfl⟩⟩
      case isFalse => exact ⟨rfl, rfl, .inl rfl⟩

theorem Inv.step {turn : Turn} (inv : Inv first pc w) (isLegal : legal w turn)
    (step : w.step turn = some next) : Inv first pc next := by
  cases turn with
  | finish =>
      obtain ⟨s, run, rfl⟩ := Option.map_eq_some_iff.mp step
      obtain ⟨fits, tid, cid⟩ := inv.forcing (.inl isLegal)
      refine ⟨inv.pid, inv.fits, inv.pcEq, fun _ => ⟨fits, tid, ?_⟩, fun isFinish => ?_, fun isLook => ?_⟩
      · exact cid.trans (cidOf_finishFakeLeave run).symm
      · cases isFinish
      · cases isLook
  | leave s draws =>
      obtain ⟨s', run, rfl⟩ := Option.map_eq_some_iff.mp step
      obtain ⟨isLeave, stays⟩ := isLegal
      obtain ⟨-, tid, cid⟩ := inv.forcing (.inr isLeave)
      refine ⟨inv.pid, inv.fits, inv.pcEq, fun forcing => ?_, fun isFinish => ?_, fun _ => ?_⟩
      · rcases forcing with isFinish | isLeave'
        · cases isFinish
        · cases isLeave'
      · cases isFinish
      -- the assertion has passed, so the gid is that of the thread
      · have passed := leave_curThread run
        rw [cid, stays, tid] at passed
        dsimp only
        rw [Option.some.inj passed, inv.pid, getPid_getGid inv.fits]
  | look s fakePc =>
      cases Option.some.inj step
      obtain ⟨pid, pcEq, ended | ⟨fl, isFront, samePc, -, next⟩⟩ := look_cases w s fakePc
      · refine ⟨pid.trans inv.pid, inv.fits, pcEq.trans inv.pcEq, fun forcing => ?_, fun isFinish => ?_,
          fun isLook => ?_⟩
        · rcases forcing with isFinish | isLeave
          · exact absurd (ended.symm.trans isFinish) (by decide)
          · exact absurd (ended.symm.trans isLeave) (by decide)
        · exact absurd (ended.symm.trans isFinish) (by decide)
        · exact absurd (ended.symm.trans isLook) (by decide)
      · have member : fl ∈ s.fakeLeaves := List.mem_of_head? isFront
        rw [next]
        refine ⟨inv.pid, inv.fits, inv.pcEq, fun _ => ⟨isLegal.2 fl member, rfl, rfl⟩,
          fun _ => ⟨member, samePc.trans inv.pcEq⟩, fun isLook => ?_⟩
        cases isLook

theorem Inv.matching_step {turn : Turn} (inv : Inv first pc w) (matching : Matching first pc w)
    (isLegal : legal w turn) (step : w.step turn = some next) :
    Matching first pc next ↔ SameProcess w turn := by
  have nextInv := inv.step isLegal step
  cases turn with
  | finish =>
      obtain ⟨s, run, rfl⟩ := Option.map_eq_some_iff.mp step
      exact ⟨fun _ => trivial, fun _ => nextInv.matching fun _ => matching.process (.inl isLegal)⟩
  | leave s draws =>
      obtain ⟨s', run, rfl⟩ := Option.map_eq_some_iff.mp step
      exact ⟨fun _ => trivial, fun _ => nextInv.matching fun _ =>
        matching.process (.inr isLegal.1)⟩
  | look s fakePc =>
      cases Option.some.inj step
      obtain ⟨-, -, ended | ⟨fl, isFront, samePc, long, next⟩⟩ := look_cases w s fakePc
      · constructor
        · intro _ fl isFront samePc long
          have same : getPid w.th = w.pid := (inv.look isLegal.1).trans inv.pid.symm
          have goesOn : (w.look s fakePc).place = .finish := by
            unfold ForcedLeaves.look
            dsimp only
            have isFront : s.fakeLeaves.head? = some fl := isFront
            rw [isFront]
            dsimp only
            rw [if_neg (by simp [same, samePc]), if_pos long]
          exact absurd (ended.symm.trans goesOn) (by decide)
        · refine fun _ => nextInv.matching fun forcing => ?_
          rcases forcing with isFinish | isLeave
          · exact absurd (ended.symm.trans isFinish) (by decide)
          · exact absurd (ended.symm.trans isLeave) (by decide)
      · have isFinish : (w.look s fakePc).place = .finish := by rw [next]
        have isTh : (w.look s fakePc).th = fl := by rw [next]
        constructor
        · intro matching' fl' isFront' _ _
          cases Option.some.inj (isFront.symm.trans isFront')
          rw [← isTh, matching'.process (.inl isFinish), inv.pid]
        · intro same
          refine nextInv.matching fun _ => ?_
          rw [isTh, same fl isFront samePc long, inv.pid]

/-- For every content of the list at each look, the loop forces out threads of the first process at the
first pc, with their own identities, exactly if no look finds a thread of another process at that pc
in front of a list that is still too long. -/
theorem forced_leaves_iff {s : Scheduler} {fakePc : Nat → Nat} {th : Nat} (gids : GidsOk s)
    (isFront : s.fakeLeaves.head? = some th) {turns : List Turn} {final : ForcedLeaves}
    (isLegal : machine.LegalRun turns (start s fakePc th))
    (run : machine.exec turns (start s fakePc th) = some final) :
    machine.Throughout (Matching (getPid th) (fakePc th)) turns (start s fakePc th) ↔
      machine.Along SameProcess turns (start s fakePc th) := by
  have member : th ∈ s.fakeLeaves := List.mem_of_head? isFront
  have fits := gids th member
  have inv : Inv (getPid th) (fakePc th) (start s fakePc th) := by
    refine ⟨rfl, ?_, rfl, fun _ => ⟨fits, rfl, rfl⟩, fun _ => ⟨member, rfl⟩, fun isLook => ?_⟩
    · rw [getPid_eq]
      omega
    · cases isLook
  exact isLegal.throughout_iff (fun _ _ _ inv isLegal step => inv.step isLegal step)
    (fun _ _ _ inv matching isLegal step => inv.matching_step matching isLegal step) inv
    (inv.matching fun _ => rfl) run

/-! ## Two processes -/

def noDraws : Draws := ⟨fun _ => 0, fun _ => 0⟩

def block (s : Scheduler) (gid : Nat) : Option Scheduler := do
  let started ← s.start gid fun _ => true
  let joined ← started.join noDraws gid
  let back ← joined.resume noDraws gid
  back.syscallLeave noDraws gid (back.cidOf gid) false

/-- A thread of process 1 is followed by nine threads of process 2. -/
def tenBlocked : Option Scheduler :=
  (65536 :: (List.range 9).map (131072 + ·)).foldlM block (Scheduler.init 10 10 1 fun _ => 0)

/-- The first iteration, with no other thread at work, and the list after it. -/
def firstIteration (s : Scheduler) : Option (List Turn) := do
  let finished ← s.finishFakeLeave 65536
  let left ← finished.leave noDraws 65536 0
  some [.finish, .leave finished noDraws, .look left fun _ => 0]

theorem forced_leaves_iff_tenBlocked : ∃ s, tenBlocked = some s ∧
    (machine.Throughout (Matching 1 0) [.finish] (start s (fun _ => 0) 65536) ↔
      machine.Along SameProcess [.finish] (start s (fun _ => 0) 65536)) := by
  have blocked : (tenBlocked.bind fun s => if GidsOk s ∧ s.fakeLeaves.head? = some 65536 ∧
      machine.LegalRun [.finish] (start s (fun _ => 0) 65536) then
        (machine.exec [.finish] (start s (fun _ => 0) 65536)) else none).isSome = true := by
    decide +kernel
  obtain ⟨final, blocked⟩ := Option.isSome_iff_exists.mp blocked
  obtain ⟨s, isBlocked, run⟩ := Option.bind_eq_some_iff.mp blocked
  obtain ⟨⟨gids, isFront, isLegal⟩, run⟩ := Option.ite_none_right_eq_some.mp run
  exact ⟨s, isBlocked, forced_leaves_iff gids isFront isLegal run⟩

/-- The second iteration calls `leave` with the pid of process 1 for a thread of process 2. -/
theorem forces_other_process :
    ¬ ∀ (s : Scheduler) (fakePc : Nat → Nat) (th : Nat) (turns : List Turn) (final : ForcedLeaves),
      GidsOk s → s.fakeLeaves.head? = some th → machine.LegalRun turns (start s fakePc th) →
      machine.exec turns (start s fakePc th) = some final →
      machine.Throughout (Matching (getPid th) (fakePc th)) turns (start s fakePc th) := by
  intro claim
  have reached : (tenBlocked.bind fun s => (firstIteration s).bind fun turns =>
      if GidsOk s ∧ s.fakeLeaves.head? = some 65536 ∧
        machine.LegalRun turns (start s (fun _ => 0) 65536) then
        (machine.exec turns (start s (fun _ => 0) 65536)).map fun w =>
          (w.place, w.th, w.pid, w.tid)
      else none) = some (.finish, 131072, 1, 0) := by
    decide +kernel
  obtain ⟨s, -, reached⟩ := Option.bind_eq_some_iff.mp reached
  obtain ⟨turns, -, reached⟩ := Option.bind_eq_some_iff.mp reached
  obtain ⟨⟨gids, isFront, isLegal⟩, reached⟩ := Option.ite_none_right_eq_some.mp reached
  obtain ⟨final, run, isNext⟩ := Option.map_eq_some_iff.mp reached
  have matching := claim s _ _ turns final gids isFront isLegal run turns [] final
    (List.append_nil turns).symm run
  simp only [Prod.mk.injEq] at isNext
  obtain ⟨isFinish, isTh, -⟩ := isNext
  have process := matching.process (.inl isFinish)
  rw [isTh] at process
  exact absurd process (by decide)

end ForcedLeaves

end Zsim
