import Mathlib.Data.List.Induction
import Zsim.Decoder.Model
import Zsim.Lib.Loop

/-!
# The 4-1-1-1 rule

One decoder of four takes a complex instruction.  A cycle that is full of simple instructions is
closed to a simple one only; what a complex one does there breaks the rule, and keeps it broken.
-/

set_option autoImplicit false

namespace Zsim.Decoder

structure Rule4111 (decoded : List Decoded) : Prop where
  nondecreasing : decoded.Pairwise fun a b => a.decCycle ≤ b.decCycle
  predecoded : ∀ d ∈ decoded, d.predecCycle ≤ d.decCycle
  four : ∀ cycle, decoded.countP (fun d => d.decCycle = cycle) ≤ 4
  one_complex : ∀ cycle, decoded.countP (fun d => d.decCycle = cycle ∧ d.ins.simple = false) ≤ 1

/-- The instructions with uops got their cycles in program order, and all their uops carry them. -/
structure Decodes (instrs : List Instr) (st : DecState) : Prop where
  program_order : st.decoded.map (fun d => ⟨d.ins, d.predecCycle⟩) =
    (predecoded instrs).filter fun pre => pre.ins.uops ≠ 0
  rule : Rule4111 st.decoded
  uopIdx_eq : st.uopIdx = uops instrs
  uopVec_eq : st.uopVec = st.decoded.flatMap fun d => List.replicate d.ins.uops (some d.decCycle)

/-- The cycle fits `decCycle`, and a complex instruction is not the fifth in it. -/
def Fits (st : DecState) (pre : Predecoded) : Prop :=
  pre.ins.uops ≠ 0 → (st.place pre).dcyc < 2 ^ 16 ∧
    ¬ (pre.ins.simple = false ∧ (st.await pre.predecCycle).dsimple = 4 ∧
      (st.await pre.predecCycle).dcomplex = 0)

/-! ## What the counters count -/

def countAt (decoded : List Decoded) (cycle : Nat) (simple : Bool) : Nat :=
  decoded.countP fun d => d.dcyc = cycle ∧ d.ins.simple = simple

structure Counted (st : DecState) : Prop where
  nondecreasing : st.decoded.Pairwise fun a b => a.dcyc ≤ b.dcyc
  predecoded : ∀ d ∈ st.decoded, d.predecCycle ≤ d.dcyc
  upTo : ∀ d ∈ st.decoded, d.dcyc ≤ st.dcyc
  dsimple_eq : st.dsimple = countAt st.decoded st.dcyc true
  dcomplex_eq : st.dcomplex = countAt st.decoded st.dcyc false

variable {st : DecState} {pre : Predecoded} {instrs : List Instr} {decoded : List Decoded}

theorem countAt_eq_zero {cycle : Nat} (upTo : ∀ d ∈ decoded, d.dcyc < cycle) (simple : Bool) :
    countAt decoded cycle simple = 0 := by
  rw [countAt, List.countP_eq_zero]
  intro d member both
  have less := upTo d member
  have same := (of_decide_eq_true both).1
  omega

theorem countAt_concat (d : Decoded) (cycle : Nat) (simple : Bool) :
    countAt (decoded ++ [d]) cycle simple =
      countAt decoded cycle simple + if d.dcyc = cycle ∧ d.ins.simple = simple then 1 else 0 := by
  simp [countAt, List.countP_append, List.countP_cons]

theorem countP_dcyc (decoded : List Decoded) (cycle : Nat) :
    decoded.countP (fun d => d.dcyc = cycle) = countAt decoded cycle true + countAt decoded cycle false := by
  induction decoded using List.reverseRecOn with
  | nil => rfl
  | append_singleton decoded d ih =>
      rw [countAt_concat, countAt_concat, List.countP_append, ih]
      cases d.ins.simple <;> simp [List.countP_cons] <;> omega

theorem Counted.later (counted : Counted st) {cycle : Nat} (later : st.dcyc < cycle) :
    Counted { st with dcyc := cycle, dsimple := 0, dcomplex := 0 } where
  nondecreasing := counted.nondecreasing
  predecoded := counted.predecoded
  upTo d member := Nat.le_of_lt (Nat.lt_of_le_of_lt (counted.upTo d member) later)
  dsimple_eq := (countAt_eq_zero (fun d member =>
    Nat.lt_of_le_of_lt (counted.upTo d member) later) true).symm
  dcomplex_eq := (countAt_eq_zero (fun d member =>
    Nat.lt_of_le_of_lt (counted.upTo d member) later) false).symm

theorem Counted.await (counted : Counted st) (pcyc : Nat) : Counted (st.await pcyc) := by
  unfold DecState.await
  split
  case isTrue later => exact counted.later later
  case isFalse => exact counted

theorem place_of_full (full : (st.await pre.predecCycle).full pre.ins.simple = true) :
    st.place pre = (st.await pre.predecCycle).nextCycle := if_pos full

theorem place_of_not_full (notFull : ¬ (st.await pre.predecCycle).full pre.ins.simple = true) :
    st.place pre = st.await pre.predecCycle := if_neg notFull

theorem Counted.place (counted : Counted st) (pre : Predecoded) : Counted (st.place pre) := by
  have awaited := counted.await pre.predecCycle
  by_cases full : (st.await pre.predecCycle).full pre.ins.simple = true
  · rw [place_of_full full]
    exact awaited.later (Nat.lt_succ_self _)
  · rw [place_of_not_full full]
    exact awaited

theorem le_await (st : DecState) (pcyc : Nat) : pcyc ≤ (st.await pcyc).dcyc := by
  unfold DecState.await
  split
  case isTrue => exact Nat.le_refl pcyc
  case isFalse notLater => exact Nat.le_of_not_lt notLater

theorem le_place (st : DecState) (pre : Predecoded) : pre.predecCycle ≤ (st.place pre).dcyc := by
  have awaited := le_await st pre.predecCycle
  by_cases full : (st.await pre.predecCycle).full pre.ins.simple = true
  · rw [place_of_full full]
    exact Nat.le_succ_of_le awaited
  · rw [place_of_not_full full]
    exact awaited

@[simp] theorem await_decoded (st : DecState) (pcyc : Nat) : (st.await pcyc).decoded = st.decoded := by
  unfold DecState.await
  split <;> rfl

@[simp] theorem await_uopIdx (st : DecState) (pcyc : Nat) : (st.await pcyc).uopIdx = st.uopIdx := by
  unfold DecState.await
  split <;> rfl

@[simp] theorem await_uopVec (st : DecState) (pcyc : Nat) : (st.await pcyc).uopVec = st.uopVec := by
  unfold DecState.await
  split <;> rfl

theorem place_frame (st : DecState) (pre : Predecoded) : (st.place pre).decoded = st.decoded ∧
    (st.place pre).uopIdx = st.uopIdx ∧ (st.place pre).uopVec = st.uopVec := by
  by_cases full : (st.await pre.predecCycle).full pre.ins.simple = true
  · rw [place_of_full full]
    simp [DecState.nextCycle]
  · rw [place_of_not_full full]
    simp

theorem place_decoded (st : DecState) (pre : Predecoded) : (st.place pre).decoded = st.decoded :=
  (place_frame st pre).1

theorem Counted.take (counted : Counted st) (ready : pre.predecCycle ≤ st.dcyc) :
    Counted (st.take pre) where
  nondecreasing := by
    refine List.pairwise_append.mpr ⟨counted.nondecreasing, List.pairwise_singleton _ _, ?_⟩
    intro a member b isLast
    cases List.mem_singleton.mp isLast
    exact counted.upTo a member
  predecoded d member := by
    rcases List.mem_append.mp member with earlier | isLast
    · exact counted.predecoded d earlier
    · cases List.mem_singleton.mp isLast
      exact ready
  upTo d member := by
    rcases List.mem_append.mp member with earlier | isLast
    · exact counted.upTo d earlier
    · cases List.mem_singleton.mp isLast
      exact Nat.le_refl _
  dsimple_eq := by
    have before := counted.dsimple_eq
    simp only [DecState.take, countAt_concat, true_and]
    split <;> omega
  dcomplex_eq := by
    have before := counted.dcomplex_eq
    simp only [DecState.take, countAt_concat, true_and]
    cases pre.ins.simple <;> simp [before]

theorem Counted.decode (counted : Counted st) (pre : Predecoded) : Counted (st.decode pre) := by
  unfold DecState.decode
  split
  case isTrue => exact counted
  case isFalse => exact (counted.place pre).take (le_place st pre)

theorem Counted.start (instrs : List Instr) : Counted (start instrs) where
  nondecreasing := List.Pairwise.nil
  predecoded _ member := absurd member List.not_mem_nil
  upTo _ member := absurd member List.not_mem_nil
  dsimple_eq := rfl
  dcomplex_eq := rfl

theorem Counted.exists_mem (counted : Counted st) (used : 0 < st.dsimple + st.dcomplex) :
    ∃ d ∈ st.decoded, d.dcyc = st.dcyc := by
  have counts : 0 < countAt st.decoded st.dcyc true ∨ 0 < countAt st.decoded st.dcyc false := by
    rw [counted.dsimple_eq, counted.dcomplex_eq] at used
    omega
  rcases counts with some | some <;>
  · obtain ⟨d, member, both⟩ := List.countP_pos_iff.mp some
    exact ⟨d, member, (of_decide_eq_true both).1⟩

/-! ## The rule is kept -/

/-- No cycle has more than it may have; they all fit `decCycle`. -/
structure Packed (st : DecState) : Prop where
  counted : Counted st
  fits : st.dcyc < 2 ^ 16
  four : ∀ cycle, countAt st.decoded cycle true + countAt st.decoded cycle false ≤ 4
  one_complex : ∀ cycle, countAt st.decoded cycle false ≤ 1

theorem Packed.start (instrs : List Instr) : Packed (start instrs) where
  counted := Counted.start instrs
  fits := Nat.two_pow_pos 16
  four _ := Nat.zero_le 4
  one_complex _ := Nat.zero_le 1

theorem Packed.room (packed : Packed st)
    (fifth : ¬ (pre.ins.simple = false ∧ (st.await pre.predecCycle).dsimple = 4 ∧
      (st.await pre.predecCycle).dcomplex = 0)) :
    (st.place pre).dsimple + (st.place pre).dcomplex ≤ 3 ∧
      (pre.ins.simple = false → (st.place pre).dcomplex = 0) := by
  have awaited := packed.counted.await pre.predecCycle
  have four := packed.four (st.await pre.predecCycle).dcyc
  have one := packed.one_complex (st.await pre.predecCycle).dcyc
  rw [← await_decoded st pre.predecCycle, ← awaited.dcomplex_eq] at four one
  rw [← awaited.dsimple_eq] at four
  by_cases full : (st.await pre.predecCycle).full pre.ins.simple = true
  · rw [place_of_full full]
    exact ⟨Nat.zero_le 3, fun _ => rfl⟩
  · rw [place_of_not_full full]
    simp only [DecState.full, Bool.or_eq_true, Bool.and_eq_true, beq_iff_eq, Bool.not_eq_true'] at full
    cases simple : pre.ins.simple with
    | true =>
        simp only [simple, true_and, Bool.true_eq_false, false_and, or_false] at full
        exact ⟨by omega, fun isFalse => by cases isFalse⟩
    | false =>
        simp only [simple, true_and, false_and, Bool.false_eq_true, false_or] at full fifth
        exact ⟨by omega, fun _ => by omega⟩

theorem Packed.take (packed : Packed st) (ready : pre.predecCycle ≤ st.dcyc)
    (room : st.dsimple + st.dcomplex ≤ 3) (noComplex : pre.ins.simple = false → st.dcomplex = 0) :
    Packed (st.take pre) where
  counted := packed.counted.take ready
  fits := packed.fits
  four cycle := by
    have before := packed.four cycle
    have simple := packed.counted.dsimple_eq
    have complex := packed.counted.dcomplex_eq
    simp only [DecState.take, countAt_concat]
    by_cases here : st.dcyc = cycle
    · subst here
      cases pre.ins.simple <;> simp <;> omega
    · simp only [here, false_and, if_false, Nat.add_zero]
      exact before
  one_complex cycle := by
    have before := packed.one_complex cycle
    have complex := packed.counted.dcomplex_eq
    simp only [DecState.take, countAt_concat]
    split
    case isTrue both =>
      have none := noComplex both.2
      rw [complex, both.1] at none
      omega
    case isFalse => exact before

theorem Packed.decode (packed : Packed st) (fits : Fits st pre) : Packed (st.decode pre) := by
  unfold DecState.decode
  split
  case isTrue => exact packed
  case isFalse hasUops =>
    obtain ⟨inRange, fifth⟩ := fits hasUops
    obtain ⟨room, noComplex⟩ := packed.room fifth
    have placed : Packed (st.place pre) := {
      counted := packed.counted.place pre
      fits := inRange
      four := fun cycle => by
        rw [place_decoded]
        exact packed.four cycle
      one_complex := fun cycle => by
        rw [place_decoded]
        exact packed.one_complex cycle }
    exact placed.take (le_place st pre) room noComplex

theorem Packed.decCycle_eq (packed : Packed st) {d : Decoded} (member : d ∈ st.decoded) :
    d.decCycle = d.dcyc :=
  Nat.mod_eq_of_lt (Nat.lt_of_le_of_lt (packed.counted.upTo d member) packed.fits)

theorem Packed.rule (packed : Packed st) : Rule4111 st.decoded where
  nondecreasing := by
    refine packed.counted.nondecreasing.imp_of_mem ?_
    intro a b first second le
    rw [packed.decCycle_eq first, packed.decCycle_eq second]
    exact le
  predecoded d member := by
    rw [packed.decCycle_eq member]
    exact packed.counted.predecoded d member
  four cycle := by
    refine Nat.le_trans (Nat.le_of_eq ?_) (packed.four cycle)
    rw [← countP_dcyc]
    refine List.countP_congr fun d member => ?_
    rw [packed.decCycle_eq member]
  one_complex cycle := by
    refine Nat.le_trans (Nat.le_of_eq ?_) (packed.one_complex cycle)
    refine List.countP_congr fun d member => ?_
    rw [packed.decCycle_eq member]

/-! ## The rule is broken -/

theorem Rule4111.prefix {later : List Decoded} (rule : Rule4111 (decoded ++ later)) : Rule4111 decoded where
  nondecreasing := (List.pairwise_append.mp rule.nondecreasing).1
  predecoded d member := rule.predecoded d (List.mem_append_left later member)
  four cycle := by
    have both := rule.four cycle
    rw [List.countP_append] at both
    omega
  one_complex cycle := by
    have both := rule.one_complex cycle
    rw [List.countP_append] at both
    omega

/-- The rule leaves no cycle beyond the last that `decCycle` can hold: it is 0 there. -/
theorem Counted.place_lt (counted : Counted st) (small : st.dcyc < 2 ^ 16)
    (rule : Rule4111 (st.decoded ++ [⟨pre.ins, pre.predecCycle, (st.place pre).dcyc⟩])) :
    (st.place pre).dcyc < 2 ^ 16 := by
  have isLast := List.mem_append_right st.decoded
    (List.mem_singleton_self (⟨pre.ins, pre.predecCycle, (st.place pre).dcyc⟩ : Decoded))
  have afterPredecode := rule.predecoded _ isLast
  have inOrder := (List.pairwise_append.mp rule.nondecreasing).2.2
  simp only [Decoded.decCycle] at afterPredecode
  by_cases later : st.dcyc < pre.predecCycle
  · -- the cycle of the predecoder, and nothing in it yet
    have awaited : st.await pre.predecCycle =
        { st with dcyc := pre.predecCycle, dsimple := 0, dcomplex := 0 } := if_pos later
    have notFull : ¬ (st.await pre.predecCycle).full pre.ins.simple = true := by
      rw [awaited]
      cases pre.ins.simple <;> exact Bool.false_ne_true
    rw [place_of_not_full notFull, awaited] at afterPredecode ⊢
    exact Nat.lt_of_le_of_lt afterPredecode (Nat.mod_lt _ (Nat.two_pow_pos 16))
  · have awaited : st.await pre.predecCycle = st := if_neg later
    by_cases full : (st.await pre.predecCycle).full pre.ins.simple = true
    · rw [place_of_full full] at inOrder ⊢
      rw [awaited] at full inOrder ⊢
      have used : 0 < st.dsimple + st.dcomplex := by
        simp only [DecState.full, Bool.or_eq_true, Bool.and_eq_true, beq_iff_eq] at full
        omega
      obtain ⟨d, member, atLast⟩ := counted.exists_mem used
      have le := inOrder d member _ (List.mem_singleton_self _)
      simp only [Decoded.decCycle, atLast, DecState.nextCycle, Nat.mod_eq_of_lt small] at le ⊢
      by_contra tooLate
      have wraps : st.dcyc + 1 = 2 ^ 16 := by omega
      rw [wraps, Nat.mod_self] at le
      omega
    · rw [place_of_not_full full, awaited]
      exact small

theorem Counted.not_fifth (counted : Counted st)
    (rule : Rule4111 (st.decoded ++ [⟨pre.ins, pre.predecCycle, (st.place pre).dcyc⟩])) :
    ¬ (pre.ins.simple = false ∧ (st.await pre.predecCycle).dsimple = 4 ∧
      (st.await pre.predecCycle).dcomplex = 0) := by
  rintro ⟨complex, foursimple, none⟩
  have notFull : ¬ (st.await pre.predecCycle).full pre.ins.simple = true := by
    rw [DecState.full, complex, none]
    simp
  have awaited := counted.await pre.predecCycle
  rw [place_of_not_full notFull] at rule
  have four := rule.four ((st.await pre.predecCycle).dcyc % 2 ^ 16)
  have atCycle : countAt st.decoded (st.await pre.predecCycle).dcyc true ≤
      st.decoded.countP fun d => d.decCycle = (st.await pre.predecCycle).dcyc % 2 ^ 16 := by
    refine List.countP_mono_left fun d _ both => ?_
    have same := (of_decide_eq_true both).1
    exact decide_eq_true (congrArg (· % 2 ^ 16) same)
  have counts := awaited.dsimple_eq
  rw [await_decoded] at counts
  simp only [List.countP_append, List.countP_singleton, Decoded.decCycle, decide_true, if_true] at four
  simp only [Decoded.decCycle] at atCycle
  omega

theorem Counted.fits (counted : Counted st) (small : st.dcyc < 2 ^ 16)
    (rule : Rule4111 (st.decode pre).decoded) : Fits st pre := by
  intro hasUops
  rw [DecState.decode, if_neg hasUops, DecState.take, place_decoded] at rule
  exact ⟨counted.place_lt small rule, counted.not_fifth rule⟩

theorem decode_decoded (st : DecState) (pre : Predecoded) :
    ∃ later, (st.decode pre).decoded = st.decoded ++ later := by
  unfold DecState.decode
  split
  case isTrue => exact ⟨[], (List.append_nil _).symm⟩
  case isFalse => exact ⟨_, congrArg (· ++ _) (place_decoded st pre)⟩

theorem rule_of_decode (rule : Rule4111 (st.decode pre).decoded) : Rule4111 st.decoded := by
  obtain ⟨later, decoded⟩ := decode_decoded st pre
  rw [decoded] at rule
  exact rule.prefix

theorem dcyc_decode (small : st.dcyc < 2 ^ 16) (fits : Fits st pre) : (st.decode pre).dcyc < 2 ^ 16 := by
  unfold DecState.decode
  split
  case isTrue => exact small
  case isFalse hasUops => exact (fits hasUops).1

theorem rule_iff_along (instrs : List Instr) :
    Rule4111 (decodeBbl instrs).decoded ↔ decoder.Along Fits (predecoded instrs) (start instrs) := by
  have legal := legalRun (predecoded instrs) (start instrs)
  have run := exec_decodeBbl instrs
  constructor
  · intro rule
    have keeps : ∀ st pre next, (Counted st ∧ (Rule4111 st.decoded → st.dcyc < 2 ^ 16)) →
        decoder.legal st pre → decoder.step st pre = some next →
        Counted next ∧ (Rule4111 next.decoded → next.dcyc < 2 ^ 16) := by
      rintro st pre next ⟨counted, small⟩ - step
      cases Option.some.inj step
      refine ⟨counted.decode pre, fun rule => ?_⟩
      have wasSmall := small (rule_of_decode rule)
      exact dcyc_decode wasSmall (counted.fits wasSmall rule)
    have stays : ∀ st pre next, (Counted st ∧ (Rule4111 st.decoded → st.dcyc < 2 ^ 16)) →
        ¬ Rule4111 st.decoded → decoder.legal st pre → decoder.step st pre = some next →
        ¬ Rule4111 next.decoded := by
      intro st pre next _ broken _ step rule
      cases Option.some.inj step
      exact broken (rule_of_decode rule)
    have breaks : ∀ st pre next, (Counted st ∧ (Rule4111 st.decoded → st.dcyc < 2 ^ 16)) →
        ¬ Fits st pre → decoder.legal st pre → decoder.step st pre = some next →
        ¬ Rule4111 next.decoded := by
      rintro st pre next ⟨counted, small⟩ fifth - step rule
      cases Option.some.inj step
      exact fifth (counted.fits (small (rule_of_decode rule)) rule)
    exact legal.along_of_unbroken keeps stays breaks
      ⟨Counted.start instrs, fun _ => Nat.two_pow_pos 16⟩ run (not_not_intro rule)
  · intro along
    have keeps : ∀ st pre next, Packed st → decoder.legal st pre → Fits st pre →
        decoder.step st pre = some next → Packed next := by
      intro st pre next packed _ fits step
      cases Option.some.inj step
      exact packed.decode fits
    exact (Machine.exec_keeps_restrict keeps (Packed.start instrs) (legal.restrict along) run).rule

/-! ## The uops -/

/-- The uops of the instructions decoded, with their cycles. -/
def uopCycles (decoded : List Decoded) : List (Option Nat) :=
  decoded.flatMap fun d => List.replicate d.ins.uops (some d.decCycle)

theorem uopCycles_concat (d : Decoded) : uopCycles (decoded ++ [d]) =
    uopCycles decoded ++ List.replicate d.ins.uops (some d.decCycle) := by
  simp [uopCycles]

theorem setCycles_eq (assigned : List (Option Nat)) (decCycle uops left : Nat)
    (fits : assigned.length + uops + left < 2 ^ 32) :
    DecState.setCycles (assigned ++ List.replicate (uops + left) none) assigned.length decCycle uops =
      assigned ++ List.replicate uops (some decCycle) ++ List.replicate left none := by
  have rounds : ∀ k uopVec, k < uops →
      uopVec = assigned ++ List.replicate k (some decCycle) ++ List.replicate (uops - k + left) none →
      uopVec.set (u32 (assigned.length + k)) (some decCycle) = assigned ++
        List.replicate (k + 1) (some decCycle) ++ List.replicate (uops - (k + 1) + left) none := by
    intro k uopVec lt isVec
    have here : u32 (assigned.length + k) = (assigned ++ List.replicate k (some decCycle)).length := by
      rw [u32_of_lt (by omega), List.length_append, List.length_replicate]
    have one : uops - k + left = (uops - (k + 1) + left) + 1 := by omega
    rw [isVec, here, List.set_append_right _ _ (Nat.le_refl _), Nat.sub_self, one, List.replicate_succ,
      List.set_cons_zero, List.replicate_succ']
    simp
  have first : assigned ++ List.replicate (uops + left) none =
      assigned ++ List.replicate 0 (some decCycle) ++ List.replicate (uops - 0 + left) none := by simp
  have last := foldl_range (fun k uopVec => uopVec = assigned ++ List.replicate k (some decCycle) ++
    List.replicate (uops - k + left) none) uops first rounds
  rw [Nat.sub_self, Nat.zero_add] at last
  exact last

/-- What is decoded has its cycles, and the uops that are `left` have none. -/
structure Assigned (st : DecState) (left : Nat) : Prop where
  uopIdx_eq : st.uopIdx = (uopCycles st.decoded).length
  uopVec_eq : st.uopVec = uopCycles st.decoded ++ List.replicate left none

theorem Assigned.start (instrs : List Instr) : Assigned (start instrs) (uops instrs) := ⟨rfl, rfl⟩

theorem Assigned.decode {left : Nat} (assigned : Assigned st (pre.ins.uops + left))
    (fits : (uopCycles st.decoded).length + pre.ins.uops + left < 2 ^ 32) :
    Assigned (st.decode pre) left := by
  obtain ⟨decoded, uopIdx, uopVec⟩ := place_frame st pre
  unfold DecState.decode
  split
  case isTrue none =>
    rw [none, Nat.zero_add] at assigned
    exact assigned
  case isFalse =>
    refine ⟨?_, ?_⟩
    · rw [DecState.take, uopCycles_concat, decoded, uopIdx, assigned.uopIdx_eq, List.length_append,
        List.length_replicate, u32_of_lt (by omega)]
    · simp only [DecState.take]
      rw [uopCycles_concat, decoded, uopVec, uopIdx, assigned.uopIdx_eq, assigned.uopVec_eq,
        setCycles_eq _ _ _ _ fits]

theorem uopIdx_decode (counts : st.uopIdx = u32 (uopCycles st.decoded).length) :
    (st.decode pre).uopIdx = u32 (uopCycles (st.decode pre).decoded).length := by
  obtain ⟨decoded, uopIdx, -⟩ := place_frame st pre
  unfold DecState.decode
  split
  case isTrue => exact counts
  case isFalse =>
    rw [DecState.take, uopCycles_concat, decoded, uopIdx, counts, List.length_append, List.length_replicate]
    exact Nat.mod_add_mod _ _ _

theorem length_uopCycles_decode (st : DecState) (pre : Predecoded) :
    (uopCycles (st.decode pre).decoded).length = (uopCycles st.decoded).length + pre.ins.uops := by
  unfold DecState.decode
  split
  case isTrue none => rw [none, Nat.add_zero]
  case isFalse =>
    rw [DecState.take, uopCycles_concat, place_decoded, List.length_append, List.length_replicate]

/-- `uopVec.size()` of the instructions still to come. -/
def uopsOf (pres : List Predecoded) : Nat := uops (pres.map Predecoded.ins)

theorem uopsOf_cons (pre : Predecoded) (rest : List Predecoded) :
    uopsOf (pre :: rest) = pre.ins.uops + uopsOf rest := rfl

theorem predecodeAll_map_ins (startAddr : Nat) (pre : Predecoder) (instrs : List Instr) :
    (predecodeAll startAddr pre instrs).map Predecoded.ins = instrs := by
  induction instrs generalizing pre with
  | nil => rfl
  | cons ins rest ih => exact congrArg (ins :: ·) (ih _)

theorem uopsOf_predecoded (instrs : List Instr) : uopsOf (predecoded instrs) = uops instrs :=
  congrArg uops (predecodeAll_map_ins _ _ instrs)

variable {inputs : List Predecoded}

theorem Assigned.foldl (assigned : Assigned st (uopsOf inputs))
    (fits : (uopCycles st.decoded).length + uopsOf inputs < 2 ^ 32) :
    Assigned (inputs.foldl DecState.decode st) 0 := by
  induction inputs generalizing st with
  | nil => exact assigned
  | cons pre rest ih =>
      rw [uopsOf_cons] at fits assigned
      rw [← Nat.add_assoc] at fits
      apply ih (assigned.decode fits)
      rw [length_uopCycles_decode]
      exact fits

theorem uopIdx_foldl (inputs : List Predecoded) (st : DecState)
    (counts : st.uopIdx = u32 (uopCycles st.decoded).length) :
    (inputs.foldl DecState.decode st).uopIdx = u32 ((uopCycles st.decoded).length + uopsOf inputs) := by
  induction inputs generalizing st with
  | nil => exact counts
  | cons pre rest ih =>
      rw [List.foldl_cons, ih _ (uopIdx_decode counts), length_uopCycles_decode, uopsOf_cons, Nat.add_assoc]

theorem uopIdx_decodeBbl (instrs : List Instr) : (decodeBbl instrs).uopIdx = u32 (uops instrs) := by
  have counted := uopIdx_foldl (predecoded instrs) (start instrs) rfl
  have none : (uopCycles (start instrs).decoded).length = 0 := rfl
  rw [none, Nat.zero_add, uopsOf_predecoded] at counted
  exact counted

theorem uops_iff (instrs : List Instr) :
    ((decodeBbl instrs).uopIdx = uops instrs ∧
      (decodeBbl instrs).uopVec = uopCycles (decodeBbl instrs).decoded) ↔ uops instrs < 2 ^ 32 := by
  constructor
  · rintro ⟨uopIdx, -⟩
    rw [← uopIdx, uopIdx_decodeBbl]
    exact Nat.mod_lt _ (Nat.two_pow_pos 32)
  · intro fits
    have assigned := Assigned.start instrs
    rw [← uopsOf_predecoded] at assigned fits
    have done : Assigned (decodeBbl instrs) 0 := assigned.foldl (by rw [Nat.add_comm]; exact fits)
    rw [uopsOf_predecoded] at fits
    refine ⟨(uopIdx_decodeBbl instrs).trans (u32_of_lt fits), ?_⟩
    rw [done.uopVec_eq]
    exact List.append_nil _

theorem foldl_decoded (inputs : List Predecoded) (st : DecState) :
    (inputs.foldl DecState.decode st).decoded.map (fun d => ⟨d.ins, d.predecCycle⟩) =
      st.decoded.map (fun d => (⟨d.ins, d.predecCycle⟩ : Predecoded)) ++
        inputs.filter fun pre => pre.ins.uops ≠ 0 := by
  induction inputs generalizing st with
  | nil => exact (List.append_nil _).symm
  | cons pre rest ih =>
      rw [List.foldl_cons, ih]
      by_cases none : pre.ins.uops = 0
      · simp [DecState.decode, none]
      · simp [DecState.decode, DecState.take, place_decoded, none]

theorem decodes_iff (instrs : List Instr) : Decodes instrs (decodeBbl instrs) ↔
    decoder.Along Fits (predecoded instrs) (start instrs) ∧ uops instrs < 2 ^ 32 := by
  rw [← rule_iff_along, ← uops_iff]
  constructor
  · intro decodes
    exact ⟨decodes.rule, decodes.uopIdx_eq, decodes.uopVec_eq⟩
  · rintro ⟨rule, uopIdx, uopVec⟩
    exact ⟨foldl_decoded (predecoded instrs) (start instrs), rule, uopIdx, uopVec⟩

/-- Four simple instructions and a complex one are decoded in one cycle. -/
theorem five_in_a_cycle :
    (decodeBbl [⟨0, 2, 1⟩, ⟨2, 2, 1⟩, ⟨4, 2, 1⟩, ⟨6, 2, 1⟩, ⟨8, 2, 2⟩]).decoded.map Decoded.decCycle =
      [0, 0, 0, 0, 0] ∧
      ¬ Decodes [⟨0, 2, 1⟩, ⟨2, 2, 1⟩, ⟨4, 2, 1⟩, ⟨6, 2, 1⟩, ⟨8, 2, 2⟩]
        (decodeBbl [⟨0, 2, 1⟩, ⟨2, 2, 1⟩, ⟨4, 2, 1⟩, ⟨6, 2, 1⟩, ⟨8, 2, 2⟩]) := by
  refine ⟨by decide, fun decodes => ?_⟩
  exact absurd (decodes.rule.four 0) (by decide)

end Zsim.Decoder
