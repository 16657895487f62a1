import Zsim.Repl.NRU

/-!
# The counter of young lines

A replacement clears the young bit of its line and does not count it, and the update that follows
counts the line as one more.  The counter is right again after the next shift.
-/

set_option autoImplicit false

namespace Zsim.Repl

open LegacyReplPolicy (Bank)

namespace NRUReplPolicy

/-- The number of lines whose young bit is set. -/
def countYoung (c : NRUConfig) (s : NRUReplPolicy) : Nat :=
  countIn (Finset.range c.numLines) s.array Young

/-- What holds in every state. -/
structure Bounded (c : NRUConfig) (s : NRUReplPolicy) : Prop where
  values : ∀ id, s.array id ≤ 3
  few : s.youngLines < c.numLines / 2

variable {c : NRUConfig} {s : NRUReplPolicy}

theorem u32Sub_shift : ∀ value ≤ 3, u32Sub 1 (value >>> 1) = if Young value then 0 else 1 := by decide

/-- The state of an update before it may shift. -/
def marked (id : Nat) (s : NRUReplPolicy) : NRUReplPolicy :=
  { s with
    youngLines := s.youngLines + if Young (s.array id) then 0 else 1
    array := Function.update s.array id (s.array id ||| 2) }

theorem Bounded.update_eq (bounded : Bounded c s) (id : Nat) : s.update c id =
    if c.numLines / 2 ≤ (s.marked id).youngLines then (s.marked id).shift c else s.marked id := by
  have few := bounded.few
  have word := c.linesWord
  have counts : u32 (s.youngLines + u32Sub 1 (s.array id >>> 1)) =
      s.youngLines + if Young (s.array id) then 0 else 1 := by
    rw [u32Sub_shift _ (bounded.values id)]
    apply u32_of_lt
    split <;> omega
  unfold update marked
  dsimp only
  rw [counts]

theorem Bounded.marked_values (bounded : Bounded c s) (id other : Nat) : (s.marked id).array other ≤ 3 := by
  unfold marked
  dsimp only
  rw [Function.update_apply]
  split
  · exact (young_lor _ (bounded.values id)).2
  · exact bounded.values other

theorem Bounded.countYoung_marked (bounded : Bounded c s) {id : Nat} (line : id < c.numLines) :
    (s.marked id).countYoung c = s.countYoung c + if Young (s.array id) then 0 else 1 := by
  have written := countIn_update (Finset.range c.numLines) s.array Young (Finset.mem_range.mpr line)
    (s.array id ||| 2)
  have young := (young_lor _ (bounded.values id)).1
  rw [if_pos young] at written
  change countIn _ (Function.update s.array id (s.array id ||| 2)) Young = countIn _ s.array Young + _
  split at written
  case isTrue old =>
    rw [if_pos old]
    omega
  case isFalse old =>
    rw [if_neg old]
    omega

theorem shift_spec (values : ∀ id, s.array id ≤ 3) :
    (s.shift c).youngLines = 0 ∧ (s.shift c).countYoung c = 0 ∧ ∀ id, (s.shift c).array id ≤ 3 := by
  refine ⟨rfl, countIn_eq_zero _ _ _ fun id member => ?_, fun id => ?_⟩
  · unfold shift
    dsimp only
    rw [if_pos (Finset.mem_range.mp member)]
    exact (not_young_shift _ (values id)).1
  · unfold shift
    dsimp only
    split
    · exact (not_young_shift _ (values id)).2
    · exact values id

theorem Bounded.update (bounded : Bounded c s) {id : Nat} (line : id < c.numLines) :
    Bounded c (s.update c id) ∧
      ((c.numLines / 2 ≤ s.youngLines + (if Young (s.array id) then 0 else 1) ∧
          (s.update c id).youngLines = 0 ∧ (s.update c id).countYoung c = 0) ∨
        (s.youngLines + (if Young (s.array id) then 0 else 1) < c.numLines / 2 ∧
          (s.update c id).youngLines = s.youngLines + (if Young (s.array id) then 0 else 1) ∧
          (s.update c id).countYoung c = s.countYoung c + if Young (s.array id) then 0 else 1)) := by
  have few := bounded.few
  rw [bounded.update_eq id]
  split
  case isTrue many =>
    obtain ⟨zero, none, values⟩ := shift_spec (c := c) (bounded.marked_values id)
    exact ⟨⟨values, by omega⟩, .inl ⟨many, zero, none⟩⟩
  case isFalse notMany =>
    have less : s.youngLines + (if Young (s.array id) then 0 else 1) < c.numLines / 2 :=
      Nat.not_le.mp notMany
    exact ⟨⟨bounded.marked_values id, less⟩, .inr ⟨less, rfl, bounded.countYoung_marked line⟩⟩

theorem Bounded.replaced (bounded : Bounded c s) (id : Nat) : Bounded c (s.replaced id) :=
  ⟨replaced_values bounded.values id, bounded.few⟩

theorem not_young_zero : ¬ Young 0 := by decide

theorem countYoung_replaced (s : NRUReplPolicy) {id : Nat} (line : id < c.numLines) :
    (s.replaced id).countYoung c + (if Young (s.array id) then 1 else 0) = s.countYoung c := by
  have written := countIn_update (Finset.range c.numLines) s.array Young (Finset.mem_range.mpr line) 0
  rw [if_neg not_young_zero] at written
  exact written

def Counted (c : NRUConfig) (s : NRUReplPolicy) : Prop := s.youngLines = s.countYoung c

theorem Bounded.counted_update (bounded : Bounded c s) {id : Nat} (line : id < c.numLines)
    (counted : Counted c s) : Counted c (s.update c id) := by
  have counted : s.youngLines = s.countYoung c := counted
  unfold Counted
  obtain ⟨-, ⟨-, zero, none⟩ | ⟨-, counts, isCount⟩⟩ := bounded.update line
  · rw [zero, none]
  · rw [counts, isCount, counted]

/-- What is replaced has to be old, or the update after it has to shift. -/
theorem Bounded.counted_insert (bounded : Bounded c s) {id : Nat} (line : id < c.numLines)
    (counted : Counted c s) : Counted c ((s.replaced id).update c id) ↔
      ¬ Young (s.array id) ∨ c.numLines / 2 ≤ s.youngLines + 1 := by
  have counted : s.youngLines = s.countYoung c := counted
  have cleared := countYoung_replaced s line
  have old : ¬ Young ((s.replaced id).array id) := by
    have zero : (s.replaced id).array id = 0 := Function.update_self ..
    rw [zero]
    exact not_young_zero
  have sameYoung : (s.replaced id).youngLines = s.youngLines := rfl
  obtain ⟨-, ⟨many, zero, none⟩ | ⟨notMany, counts, isCount⟩⟩ := (bounded.replaced id).update line
  · rw [if_neg old, sameYoung] at many
    unfold Counted
    rw [zero, none]
    exact iff_of_true rfl (.inr many)
  · rw [if_neg old, sameYoung] at notMany counts
    rw [if_neg old] at isCount
    unfold Counted
    rw [counts, isCount]
    split at cleared
    case isTrue young =>
      refine iff_of_false (by omega) ?_
      rintro (notYoung | many)
      · exact notYoung young
      · omega
    case isFalse notYoung => exact iff_of_true (by omega) (.inl notYoung)

theorem Bounded.congr {s' : NRUReplPolicy} (bounded : Bounded c s) (same : SameValues s s') :
    Bounded c s' := by
  refine ⟨?_, ?_⟩
  · rw [same.array]
    exact bounded.values
  · rw [same.youngLines]
    exact bounded.few

theorem keeps (half : 0 < c.numLines / 2) :
    (nru c).Keeps c.numLines (Bounded c) Ready fun cands => cands.length ≤ c.numCands where
  init := ⟨⟨fun _ => Nat.zero_le 3, half⟩, ⟨rfl, rfl⟩⟩
  update line bounded := (bounded.update line).1
  updateReady id ready := ready.update id
  rank cc bounded ready presented room := by
    obtain ⟨victim, next, run, least, same⟩ := ready.rank bounded.values cc presented.1 room
    exact ⟨victim, next, run, least.1, bounded.congr same⟩
  replaced _ bounded := ⟨bounded.replaced _, ⟨rfl, rfl⟩⟩

end NRUReplPolicy

/-! ## Runs -/

open NRUReplPolicy (Bounded Counted Ready keeps)

/-- A line that is replaced is old, or the update after it shifts. -/
def ReplacesOld (c : NRUConfig) (s : Bank (nru c)) : BankOp → Prop
  | .insert => ∀ victim ∈ s.pending,
      ¬ Young (s.policy.array victim) ∨ c.numLines / 2 ≤ s.policy.youngLines + 1
  | .update _ | .rank _ _ => True

instance decidableReplacesOld (c : NRUConfig) (s : Bank (nru c)) : ∀ op, Decidable (ReplacesOld c s op)
  | .insert => inferInstanceAs (Decidable (∀ victim ∈ s.pending,
      ¬ Young (s.policy.array victim) ∨ c.numLines / 2 ≤ s.policy.youngLines + 1))
  | .update _ | .rank _ _ => .isTrue trivial

/-- What every state keeps, and the victim of a search that may begin. -/
structure Sound (c : NRUConfig) (s : Bank (nru c)) : Prop where
  few : s.policy.youngLines < c.numLines / 2
  values : ∀ id, s.policy.array id ≤ 3
  victim : s.pending = none → ∀ cc cands, Presented c.numLines cands → cands.length ≤ c.numCands →
    ∃ victim next, (nru c).rank cc cands s.policy = some (victim, next) ∧
      Least s.policy.array cands victim

theorem sound_of_ok {c : NRUConfig} {s : Bank (nru c)} (ok : Bank.Ok (nru c) c.numLines (Bounded c) Ready s) :
    Sound c s where
  few := ok.inv.few
  values := ok.inv.values
  victim free cc cands presented room := by
    obtain ⟨victim, next, run, least, -⟩ :=
      (ok.ready free).rank (c := c) ok.inv.values cc presented.1 room
    exact ⟨victim, next, run, least⟩

/-- A step keeps the counter right exactly if it replaces an old line. -/
theorem counted_step {c : NRUConfig} {s next : Bank (nru c)} {op : BankOp}
    (ok : Bank.Ok (nru c) c.numLines (Bounded c) Ready s) (counted : Counted c s.policy)
    (legal : ((nru c).machine c.numLines).legal s op)
    (accepts : Accepted (fun cands => cands.length ≤ c.numCands) op)
    (step : ((nru c).machine c.numLines).step s op = some next) :
    Counted c next.policy ↔ ReplacesOld c s op := by
  cases op with
  | update id =>
      cases Option.some.inj step
      exact iff_of_true (ok.inv.counted_update legal counted) trivial
  | rank cc cands =>
      obtain ⟨free, presented⟩ := legal
      obtain ⟨victim, policy, run, -, same⟩ :=
        (ok.ready free).rank (c := c) ok.inv.values cc presented.1 accepts
      have step : ((nru c).rank cc cands s.policy).map _ = some next := step
      rw [run] at step
      cases Option.some.inj step
      refine iff_of_true ?_ trivial
      unfold Counted NRUReplPolicy.countYoung at counted ⊢
      rw [same.youngLines, same.array]
      exact counted
  | insert =>
      obtain ⟨victim, isPending⟩ := Option.isSome_iff_exists.mp legal
      have step : s.pending.map _ = some next := step
      rw [isPending] at step
      cases Option.some.inj step
      unfold ReplacesOld
      rw [isPending]
      simp only [Option.mem_def, Option.some.injEq, forall_eq']
      exact ok.inv.counted_insert (ok.line victim isPending) counted

/-- In every run the counter stays below half of the lines, the values are of two bits, and a victim
has the least value; the counter is right in every state exactly if no young line is replaced,
unless the update after it shifts. -/
theorem nru_counted_iff (c : NRUConfig) (two : 2 ≤ c.numLines) {ops : List BankOp}
    (legal : ((nru c).machine c.numLines).LegalRun ops (.init (nru c)))
    (accepts : ((nru c).machine c.numLines).Along
      (fun _ => Accepted fun cands => cands.length ≤ c.numCands) ops (.init (nru c))) :
    ∃ final, ((nru c).machine c.numLines).exec ops (.init (nru c)) = some final ∧
      ((nru c).machine c.numLines).Throughout (Sound c) ops (.init (nru c)) ∧
      (((nru c).machine c.numLines).Throughout (fun s => Counted c s.policy) ops (.init (nru c)) ↔
        ((nru c).machine c.numLines).Along (ReplacesOld c) ops (.init (nru c))) := by
  have half : 0 < c.numLines / 2 := by omega
  obtain ⟨final, run, -⟩ := (keeps half).exec legal accepts
  refine ⟨final, run, ?_, ?_⟩
  · intro first rest mid split reached
    subst split
    obtain ⟨other, otherRun, ok⟩ := (keeps half).exec (Machine.Along.of_append legal) accepts.of_append
    cases Option.some.inj (otherRun.symm.trans reached)
    exact sound_of_ok ok
  · have zero : Counted c (LegacyReplPolicy.Bank.init (nru c)).policy :=
      (countIn_eq_zero _ _ _ fun _ _ => NRUReplPolicy.not_young_zero).symm
    rw [← Machine.restrict_exec] at run
    have iff := (legal.restrict accepts).throughout_iff
      (fun s op next ok isLegal step => (keeps half).preserves.keeps ok isLegal step)
      (fun s op next ok counted isLegal step => counted_step ok counted isLegal.1 isLegal.2 step)
      (keeps half).start zero run
    rw [Machine.along_restrict] at iff
    exact Machine.throughout_restrict.symm.trans iff

/-- Eight lines in sets of one. -/
def directMapped : NRUConfig := ⟨8, 1, by decide⟩

def replaceYoung : List BankOp := [.update 0, .rank .allValid [0], .insert]

theorem nru_counted_iff_directMapped :
    ∃ final, ((nru directMapped).machine 8).exec [.update 0, .rank .allValid [1], .update 2, .insert]
        (.init (nru directMapped)) = some final ∧
      (((nru directMapped).machine 8).Throughout (fun s => Counted directMapped s.policy)
          [.update 0, .rank .allValid [1], .update 2, .insert] (.init (nru directMapped)) ↔
        ((nru directMapped).machine 8).Along (ReplacesOld directMapped)
          [.update 0, .rank .allValid [1], .update 2, .insert] (.init (nru directMapped))) := by
  obtain ⟨final, run, -, iff⟩ := nru_counted_iff directMapped (by decide)
    (show ((nru directMapped).machine 8).LegalRun [.update 0, .rank .allValid [1], .update 2, .insert]
      (.init (nru directMapped)) by decide +kernel)
    (show ((nru directMapped).machine 8).Along
      (fun _ => Accepted fun cands => cands.length ≤ directMapped.numCands)
      [.update 0, .rank .allValid [1], .update 2, .insert] (.init (nru directMapped)) by decide +kernel)
  exact ⟨final, run, iff⟩

/-- A young line is replaced: it is counted twice. -/
theorem nru_counted_twice :
    ¬ ∀ (c : NRUConfig) (ops : List BankOp), 2 ≤ c.numLines →
      ((nru c).machine c.numLines).LegalRun ops (.init (nru c)) →
      ((nru c).machine c.numLines).Along
        (fun _ => Accepted fun cands => cands.length ≤ c.numCands) ops (.init (nru c)) →
      ((nru c).machine c.numLines).Throughout (fun s => Counted c s.policy) ops (.init (nru c)) := by
  intro claim
  have counted := claim directMapped replaceYoung (by decide) (by decide +kernel) (by decide +kernel)
  have reached : (((nru directMapped).machine 8).exec replaceYoung (.init (nru directMapped))).map
      (fun s => (s.policy.youngLines, s.policy.countYoung directMapped)) = some (2, 1) := by decide +kernel
  obtain ⟨final, run, values⟩ := Option.map_eq_some_iff.mp reached
  have same : final.policy.youngLines = final.policy.countYoung directMapped :=
    counted _ [] final (List.append_nil _).symm run
  obtain ⟨two, one⟩ := Prod.mk.inj values
  omega

end Zsim.Repl
