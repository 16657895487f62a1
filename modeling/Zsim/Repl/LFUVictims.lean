import Zsim.Repl.LFU

/-!
# The victims of LFU

What a search promises as long as the timestamp does not wrap.
-/

set_option autoImplicit false

namespace Zsim.Repl

open LegacyReplPolicy (Bank)

/-- The timestamp does not wrap. -/
def Room (s : Bank lfu) : BankOp → Prop
  | .update _ | .insert => s.policy.timestamp + 1000 < 2 ^ 64
  | .rank _ _ => True

instance decidableRoom (s : Bank lfu) : ∀ op, Decidable (Room s op)
  | .update _ | .insert => inferInstanceAs (Decidable (s.policy.timestamp + 1000 < 2 ^ 64))
  | .rank _ _ => .isTrue trivial

/-- Nothing but the best candidate changes in a search. -/
structure SameLines (s s' : LFUReplPolicy) : Prop where
  timestamp : s'.timestamp = s.timestamp
  array : s'.array = s.array

theorem sameLines_recordCandidate (cc : CC) (id : Nat) (s : LFUReplPolicy) :
    SameLines s (s.recordCandidate cc id) := by
  unfold LFUReplPolicy.recordCandidate
  split
  · exact ⟨rfl, rfl⟩
  · exact ⟨rfl, rfl⟩

theorem sameLines_rank {cc : CC} {cands : List Nat} {s next : LFUReplPolicy} {victim : Nat}
    (run : lfu.rank cc cands s = some (victim, next)) : SameLines s next := by
  obtain ⟨recorded, records, best⟩ := Option.bind_eq_some_iff.mp run
  have same : SameLines s recorded := by
    refine foldlM_keeps (SameLines s) (fun id _ mid after before step => ?_) ⟨rfl, rfl⟩ records
    have step : some (mid.recordCandidate cc id) = some after := step
    cases Option.some.inj step
    have now := sameLines_recordCandidate cc id mid
    exact ⟨now.timestamp.trans before.timestamp, now.array.trans before.array⟩
  have best : (if recorded.bestCandidate ≠ LFUReplPolicy.noCandidate then
      some (recorded.bestCandidate, recorded) else none) = some (victim, next) := best
  split at best
  · cases Option.some.inj best
    exact same
  · cases best

namespace LFUReplPolicy

theorem Timed.congr {s s' : LFUReplPolicy} (timed : Timed s) (same : SameLines s s') : Timed s' := by
  refine ⟨?_, ?_, ?_⟩
  · rw [same.timestamp]
    exact timed.word
  · rw [same.timestamp, same.array]
    exact timed.past
  · rw [same.timestamp, same.array]
    exact timed.room

end LFUReplPolicy

open LFUReplPolicy (Timed Ready keeps ne_noCandidate)

theorem timed_step {numLines : Nat} {s next : Bank lfu} {op : BankOp} (timed : Timed s.policy)
    (room : Room s op) (step : (lfu.machine numLines).step s op = some next) : Timed next.policy := by
  cases op with
  | update id =>
      cases Option.some.inj step
      exact timed.update room id
  | rank cc cands =>
      obtain ⟨result, run, isNext⟩ := Option.map_eq_some_iff.mp step
      subst isNext
      exact timed.congr (sameLines_rank run)
  | insert =>
      obtain ⟨victim, -, isNext⟩ := Option.map_eq_some_iff.mp step
      subst isNext
      exact (timed.replaced victim).update room victim

theorem lfu_exec {numLines : Nat} (word : numLines < 2 ^ 32) {ops : List BankOp}
    (legal : (lfu.machine numLines).LegalRun ops (.init lfu))
    (room : (lfu.machine numLines).Along Room ops (.init lfu)) :
    ∃ final, (lfu.machine numLines).exec ops (.init lfu) = some final ∧ Timed final.policy ∧
      (final.pending = none → Ready final.policy) := by
  have preserves : ((lfu.machine numLines).restrict Room).Preserves fun s =>
      Bank.Ok lfu numLines (fun _ => True) Ready s ∧ Timed s.policy := by
    rintro s op ⟨ok, timed⟩ ⟨legal, room⟩
    obtain ⟨next, step, okNext⟩ := (keeps word).step ok legal (accepted_all op)
    exact ⟨next, step, okNext, timed_step timed room step⟩
  obtain ⟨final, run, ok, timed⟩ :=
    preserves.exec_restrict ⟨(keeps word).start, Timed.init⟩ (legal.restrict room)
  exact ⟨final, run, timed, ok.ready⟩

/-- No candidate should rather have been the victim. -/
structure IsVictim (cc : CC) (s : LFUReplPolicy) (cands : List Nat) (victim : Nat) : Prop where
  presented : victim ∈ cands
  valid : ∀ id ∈ cands, cc.isValid id = false → cc.isValid victim = false
  sharers : ∀ id ∈ cands, cc.isValid id = cc.isValid victim → cc.numSharers id = 0 →
    cc.numSharers victim = 0
  /-- a line that was not accessed counts as the one with the largest inverse frequency -/
  invFreq : ∀ id ∈ cands, cc.isValid id = cc.isValid victim →
    (cc.numSharers id = 0 ↔ cc.numSharers victim = 0) →
    (s.candRank cc id).invFreq s.timestamp ≤ (s.candRank cc victim).invFreq s.timestamp

/-- Two lines between which the policy has no order. -/
structure Tied (cc : CC) (s : LFUReplPolicy) (a b : Nat) : Prop where
  valid : cc.isValid a = cc.isValid b
  sharers : cc.numSharers a = 0 ↔ cc.numSharers b = 0
  invFreq : (s.candRank cc a).invFreq s.timestamp = (s.candRank cc b).invFreq s.timestamp

theorem isVictim_of_least {cc : CC} {s : LFUReplPolicy} {cands : List Nat} {victim : Nat}
    (isLeast : Least (s.victimKey cc) cands victim) : IsVictim cc s cands victim := by
  have order := fun id (isCand : id ∈ cands) => Rank.key_le_iff.mp (isLeast.2 id isCand)
  refine ⟨isLeast.1, fun id isCand invalid => ?_, fun id isCand same unshared => ?_,
    fun id isCand same alike => ?_⟩
  · rcases order id isCand with ⟨notValid, -⟩ | ⟨same, -⟩
    · exact notValid
    · exact same.trans invalid
  · rcases order id isCand with ⟨notValid, isValid⟩ | ⟨-, ⟨-, shared⟩ | ⟨alike, -⟩⟩
    · exact absurd (notValid.symm.trans (same.symm.trans isValid)) Bool.false_ne_true
    · exact absurd unshared (Nat.ne_of_gt shared)
    · exact alike.mpr unshared
  · rcases order id isCand with ⟨notValid, isValid⟩ | ⟨-, ⟨unshared, shared⟩ | ⟨-, atMost⟩⟩
    · exact absurd (notValid.symm.trans (same.symm.trans isValid)) Bool.false_ne_true
    · exact absurd (alike.mpr unshared) (Nat.ne_of_gt shared)
    · exact atMost

theorem tied_of_least {cc : CC} {s : LFUReplPolicy} {cands : List Nat} {a b : Nat}
    (isA : Least (s.victimKey cc) cands a) (isB : Least (s.victimKey cc) cands b) : Tied cc s a b := by
  have le := Rank.key_le_iff.mp (isA.2 b isB.1)
  have ge := Rank.key_le_iff.mp (isB.2 a isA.1)
  rcases le with ⟨invalid, valid⟩ | ⟨same, rest⟩
  · rcases ge with ⟨invalid', -⟩ | ⟨same, -⟩
    · exact absurd (invalid'.symm.trans valid) Bool.false_ne_true
    · exact absurd (invalid.symm.trans (same.symm.trans valid)) Bool.false_ne_true
  · rcases ge with ⟨invalid', valid'⟩ | ⟨-, rest'⟩
    · exact absurd (invalid'.symm.trans (same.symm.trans valid')) Bool.false_ne_true
    · rcases rest with ⟨unshared, shared⟩ | ⟨alike, atMost⟩
      · rcases rest' with ⟨unshared', -⟩ | ⟨alike, -⟩
        · exact absurd unshared' (Nat.ne_of_gt shared)
        · exact absurd (alike.mpr unshared) (Nat.ne_of_gt shared)
      · rcases rest' with ⟨unshared', shared'⟩ | ⟨-, atLeast⟩
        · exact absurd (alike.mpr unshared') (Nat.ne_of_gt shared')
        · exact ⟨same, alike, le_antisymm atLeast atMost⟩

theorem Timed.search {s : LFUReplPolicy} (timed : Timed s) {numLines : Nat} (word : numLines < 2 ^ 32)
    (cc : CC) {cands : List Nat} (presented : Presented numLines cands) :
    ∃ victim, Least (s.victimKey cc) cands victim ∧
      ∀ s', SameLines s s' → Ready s' → ∃ next, lfu.rank cc cands s' = some (victim, next) := by
  obtain ⟨some, lines⟩ := presented
  cases cands with
  | nil => exact absurd rfl some
  | cons id rest =>
      refine ⟨_, timed.least cc id rest, fun s' same ready' => ?_⟩
      have sameRank : s'.candRank cc = s.candRank cc := by
        funext x
        unfold LFUReplPolicy.candRank
        rw [same.array]
      have sameChoice : s'.choose cc = s.choose cc := by
        funext best x
        unfold LFUReplPolicy.choose
        rw [sameRank, same.timestamp]
      have run := (ready'.rank cc fun x isCand => ne_noCandidate word (lines x isCand)).1
      rw [sameChoice] at run
      exact ⟨_, run⟩

/-- In every reachable state: the victim of a search comes before all candidates; it is the same
in another order but for ties, and in every other reachable state with the same lines. -/
theorem lfu_victim {numLines : Nat} (word : numLines < 2 ^ 32) {ops : List BankOp}
    (legal : (lfu.machine numLines).LegalRun ops (.init lfu))
    (room : (lfu.machine numLines).Along Room ops (.init lfu)) :
    ∃ final, (lfu.machine numLines).exec ops (.init lfu) = some final ∧
      (final.pending = none → ∀ cc cands, Presented numLines cands →
        ∃ victim next, lfu.rank cc cands final.policy = some (victim, next) ∧
          IsVictim cc final.policy cands victim ∧
          (∀ cands', cands.Perm cands' → ∃ victim' next',
            lfu.rank cc cands' final.policy = some (victim', next') ∧ Tied cc final.policy victim victim') ∧
          ∀ ops' final', (lfu.machine numLines).LegalRun ops' (.init lfu) →
            (lfu.machine numLines).exec ops' (.init lfu) = some final' → final'.pending = none →
            SameLines final.policy final'.policy →
            ∃ next', lfu.rank cc cands final'.policy = some (victim, next')) := by
  obtain ⟨final, run, timed, ready⟩ := lfu_exec word legal room
  refine ⟨final, run, fun free cc cands presented => ?_⟩
  have ready := ready free
  have self : SameLines final.policy final.policy := ⟨rfl, rfl⟩
  obtain ⟨victim, isLeast, search⟩ := Timed.search timed word cc presented
  obtain ⟨next, ranks⟩ := search final.policy self ready
  refine ⟨victim, next, ranks, isVictim_of_least isLeast, fun cands' perm => ?_,
    fun ops' final' legal' run' free' same => ?_⟩
  · have presented' : Presented numLines cands' := by
      refine ⟨fun none => presented.1 ?_, fun id isCand => presented.2 id (perm.mem_iff.mpr isCand)⟩
      rw [none] at perm
      exact perm.eq_nil
    obtain ⟨victim', isLeast', search'⟩ := Timed.search timed word cc presented'
    obtain ⟨next', ranks'⟩ := search' final.policy self ready
    exact ⟨victim', next', ranks', tied_of_least isLeast (isLeast'.perm perm.symm)⟩
  · obtain ⟨other, otherRun, ok⟩ :=
      (keeps word).exec legal' (Machine.along_of_forall (fun op _ _ => accepted_all op) _)
    cases Option.some.inj (otherRun.symm.trans run')
    exact search final'.policy same (ok.ready free')

/-- Three accesses, and a line that gives way to a fourth. -/
def threeUpdates : List BankOp := [.update 0, .update 1, .update 0, .rank .allValid [0, 1], .update 0, .insert]

theorem lfu_victim_threeUpdates :
    ∃ final, (lfu.machine 4).exec threeUpdates (.init lfu) = some final ∧
      (final.pending = none → ∃ victim next,
        lfu.rank .allValid [0, 1] final.policy = some (victim, next) ∧
          IsVictim .allValid final.policy [0, 1] victim) := by
  obtain ⟨final, run, search⟩ := lfu_victim (show 4 < 2 ^ 32 by decide)
    (show (lfu.machine 4).LegalRun threeUpdates (.init lfu) by decide +kernel)
    (show (lfu.machine 4).Along Room threeUpdates (.init lfu) by decide +kernel)
  refine ⟨final, run, fun free => ?_⟩
  obtain ⟨victim, next, ranks, isVictim, -⟩ := search free .allValid [0, 1] (by decide)
  exact ⟨victim, next, ranks, isVictim⟩

end Zsim.Repl
