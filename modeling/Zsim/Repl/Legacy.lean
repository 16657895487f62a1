import Zsim.Lib.Loop
import Zsim.Lib.Machine
import Zsim.Lib.Word

/-!
# Legacy policies

`LegacyReplPolicy` of repl_policies.h: `rank` records every candidate and asks for the best one,
and `replaced` ends the replacement.  There may be updates between the two, but no other `rank`.
-/

set_option autoImplicit false

namespace Zsim.Repl

/-- What a policy asks the coherence controller.  Only valid lines have sharers. -/
structure CC where
  numSharers : Nat → Nat
  isValid : Nat → Bool
  sharersValid : ∀ id, 0 < numSharers id → isValid id = true

namespace CC

/-- Every line is valid and has no sharers. -/
def allValid : CC := ⟨fun _ => 0, fun _ => true, fun _ _ => rfl⟩

end CC

/-- `none` is a failed assertion or a write past the end of `candArray`. -/
structure LegacyReplPolicy where
  State : Type
  init : State
  update : Nat → State → State
  recordCandidate : CC → Nat → State → Option State
  /-- a random policy draws a number -/
  getBestCandidate : State → Option (Nat × State)
  replaced : Nat → State → State

namespace LegacyReplPolicy

variable (p : LegacyReplPolicy)

def record (cc : CC) (cands : List Nat) (s : p.State) : Option p.State :=
  cands.foldlM (fun s id => p.recordCandidate cc id s) s

def rank (cc : CC) (cands : List Nat) (s : p.State) : Option (Nat × p.State) :=
  (p.record cc cands s).bind p.getBestCandidate

theorem record_cons (cc : CC) (id : Nat) (rest : List Nat) (s : p.State) :
    p.record cc (id :: rest) s = (p.recordCandidate cc id s).bind (p.record cc rest) := rfl

/-- A policy of a bank, and the victim of a replacement that has not ended. -/
structure Bank where
  policy : p.State
  pending : Option Nat

def Bank.init : Bank p := ⟨p.init, none⟩

end LegacyReplPolicy

/-- The calls of an array: an update on a hit, and on a miss a search and an insertion, which is
a replacement and an update. -/
inductive BankOp where
  | update (id : Nat)
  | rank (cc : CC) (cands : List Nat)
  | insert

def Presented (numLines : Nat) (cands : List Nat) : Prop :=
  cands ≠ [] ∧ ∀ id ∈ cands, id < numLines

instance (numLines : Nat) (cands : List Nat) : Decidable (Presented numLines cands) :=
  inferInstanceAs (Decidable (_ ∧ _))

/-- The candidates of a search are such that `Accepts` holds of them. -/
def Accepted (Accepts : List Nat → Prop) : BankOp → Prop
  | .rank _ cands => Accepts cands
  | .update _ | .insert => True

instance decidableAccepted (Accepts : List Nat → Prop) [DecidablePred Accepts] :
    ∀ op, Decidable (Accepted Accepts op)
  | .rank _ cands => inferInstanceAs (Decidable (Accepts cands))
  | .update _ | .insert => .isTrue trivial

theorem accepted_all (op : BankOp) : Accepted (fun _ => True) op := by
  cases op <;> trivial

namespace LegacyReplPolicy

variable (p : LegacyReplPolicy)

def Bank.step (s : Bank p) : BankOp → Option (Bank p)
  | .update id => some { s with policy := p.update id s.policy }
  | .rank cc cands => (p.rank cc cands s.policy).map fun (victim, policy) => ⟨policy, some victim⟩
  | .insert => s.pending.map fun victim => ⟨p.update victim (p.replaced victim s.policy), none⟩

def Bank.legal (numLines : Nat) (s : Bank p) : BankOp → Prop
  | .update id => id < numLines
  | .rank _ cands => s.pending = none ∧ Presented numLines cands
  | .insert => s.pending.isSome = true

def machine (numLines : Nat) : Machine (Bank p) BankOp := ⟨Bank.legal p numLines, Bank.step p⟩

instance (numLines : Nat) (s : Bank p) : ∀ op, Decidable ((p.machine numLines).legal s op)
  | .update id => inferInstanceAs (Decidable (id < numLines))
  | .rank _ cands => inferInstanceAs (Decidable (s.pending = none ∧ Presented numLines cands))
  | .insert => inferInstanceAs (Decidable (s.pending.isSome = true))

/-- `Inv` holds of the policy at all times, and `Ready` between two replacements; a search of
candidates that `Accepts` holds of ends with one of them. -/
structure Keeps (numLines : Nat) (Inv Ready : p.State → Prop) (Accepts : List Nat → Prop) : Prop where
  init : Inv p.init ∧ Ready p.init
  update : ∀ {s id}, id < numLines → Inv s → Inv (p.update id s)
  updateReady : ∀ {s} id, Ready s → Ready (p.update id s)
  rank : ∀ {s cands} (cc : CC), Inv s → Ready s → Presented numLines cands → Accepts cands →
    ∃ victim next, p.rank cc cands s = some (victim, next) ∧ victim ∈ cands ∧ Inv next
  replaced : ∀ {s id}, id < numLines → Inv s → Inv (p.replaced id s) ∧ Ready (p.replaced id s)

structure Bank.Ok (numLines : Nat) (Inv Ready : p.State → Prop) (s : Bank p) : Prop where
  inv : Inv s.policy
  ready : s.pending = none → Ready s.policy
  line : ∀ victim, s.pending = some victim → victim < numLines

variable {p} {numLines : Nat} {Inv Ready : p.State → Prop} {Accepts : List Nat → Prop}

theorem Keeps.start (keeps : p.Keeps numLines Inv Ready Accepts) : Bank.Ok p numLines Inv Ready (.init p) where
  inv := keeps.init.1
  ready _ := keeps.init.2
  line _ isPending := by cases isPending

theorem Keeps.search (keeps : p.Keeps numLines Inv Ready Accepts) {s : Bank p} (cc : CC) {cands : List Nat}
    (ok : Bank.Ok p numLines Inv Ready s) (free : s.pending = none) (presented : Presented numLines cands)
    (accepts : Accepts cands) : ∃ victim next, p.rank cc cands s.policy = some (victim, next) ∧
      Bank.step p s (.rank cc cands) = some ⟨next, some victim⟩ ∧ victim ∈ cands ∧
      Bank.Ok p numLines Inv Ready ⟨next, some victim⟩ := by
  obtain ⟨victim, next, run, member, inv⟩ := keeps.rank cc ok.inv (ok.ready free) presented accepts
  refine ⟨victim, next, run, ?_, member, inv, fun isFree => (by cases isFree), fun other isVictim => ?_⟩
  · change (p.rank cc cands s.policy).map _ = _
    rw [run]
    rfl
  · cases Option.some.inj isVictim
    exact presented.2 victim member

theorem Keeps.step (keeps : p.Keeps numLines Inv Ready Accepts) {s : Bank p} {op : BankOp}
    (ok : Bank.Ok p numLines Inv Ready s) (legal : (p.machine numLines).legal s op)
    (accepts : Accepted Accepts op) :
    ∃ next, (p.machine numLines).step s op = some next ∧ Bank.Ok p numLines Inv Ready next := by
  cases op with
  | update id =>
      exact ⟨_, rfl, keeps.update legal ok.inv, fun free => keeps.updateReady id (ok.ready free), ok.line⟩
  | rank cc cands =>
      obtain ⟨victim, next, -, run, -, okNext⟩ := keeps.search cc ok legal.1 legal.2 accepts
      exact ⟨_, run, okNext⟩
  | insert =>
      obtain ⟨victim, isPending⟩ := Option.isSome_iff_exists.mp legal
      have line := ok.line victim isPending
      obtain ⟨inv, ready⟩ := keeps.replaced line ok.inv
      refine ⟨⟨p.update victim (p.replaced victim s.policy), none⟩, ?_, keeps.update line inv,
        fun _ => keeps.updateReady victim ready, fun _ isPending => by cases isPending⟩
      change s.pending.map _ = _
      rw [isPending]
      rfl

theorem Keeps.preserves (keeps : p.Keeps numLines Inv Ready Accepts) :
    ((p.machine numLines).restrict fun _ => Accepted Accepts).Preserves (Bank.Ok p numLines Inv Ready) :=
  fun _ _ ok legal => keeps.step ok legal.1 legal.2

theorem Keeps.exec (keeps : p.Keeps numLines Inv Ready Accepts) {ops : List BankOp}
    (legal : (p.machine numLines).LegalRun ops (.init p))
    (accepts : (p.machine numLines).Along (fun _ => Accepted Accepts) ops (.init p)) :
    ∃ final, (p.machine numLines).exec ops (.init p) = some final ∧
      Bank.Ok p numLines Inv Ready final :=
  keeps.preserves.exec_restrict keeps.start (legal.restrict accepts)

end LegacyReplPolicy

end Zsim.Repl
