import Zsim.OOO.CoreRuns
import Zsim.OOO.WindowRuns

/-!
# The core and its window

A core with the window of the code against a core with the table that the window stands for.
They differ in nothing but the window, as long as what the core asks of it fits.
-/

set_option autoImplicit false

namespace Zsim.OOO

/-- A window that gives what another one gives. -/
structure Window.Follows {ω ω' : Type} (W : Window ω) (W' : Window ω') (R : ω → ω' → Prop) : Prop where
  curCycle : ∀ w w', R w w' → W'.curCycle w' = W.curCycle w
  advancePos : ∀ w w', R w w' → Machine.Forward R (W.advancePos w) (W'.advancePos w')
  schedule : ∀ w w' schedCycle portMask extraSlots, R w w' →
    Machine.Forward (fun a b => R a.1 b.1 ∧ a.2 = b.2) (W.schedule w schedCycle portMask extraSlots)
      (W'.schedule w' schedCycle portMask extraSlots)
  longAdvance : ∀ w w' targetCycle, R w w' →
    Machine.Forward R (W.longAdvance w targetCycle) (W'.longAdvance w' targetCycle)

namespace Core

open Machine (Forward)

variable {ω ω' κ : Type} {W : Window ω} {W' : Window ω'} {C : Caches κ} {R : ω → ω' → Prop}

/-- But for the window the cores are the same. -/
def Like (R : ω → ω' → Prop) (s : Core ω κ) (t : Core ω' κ) : Prop :=
  ∃ w, R s.insWindow w ∧ t = s.withWindow w

def LikeAnd {α : Type} (R : ω → ω' → Prop) (a : Core ω κ × α) (b : Core ω' κ × α) : Prop :=
  Like R a.1 b.1 ∧ a.2 = b.2

section
variable (follows : W.Follows W' R) {s : Core ω κ} {t : Core ω' κ} (like : Like R s t)
include follows like

theorem Like.curCycle : t.curCycle W' = s.curCycle W := by
  obtain ⟨w, related, rfl⟩ := like
  exact follows.curCycle _ _ related

/-! ### Issue -/

theorem Like.advancePos : Forward (Like R) (s.advancePos W) (t.advancePos W') := by
  obtain ⟨w, related, rfl⟩ := like
  exact (follows.advancePos _ _ related).map fun next next' related => ⟨next', related, rfl⟩

theorem Like.advancePosTimes (n : Nat) :
    Forward (Like R) (s.advancePosTimes W n) (t.advancePosTimes W' n) := by
  induction n generalizing s t with
  | zero => exact .some like
  | succ n ih => exact (like.advancePos follows).bind fun _ _ like => ih like

omit follows in
theorem Like.resetCycle : Like R s.resetCycle t.resetCycle := by
  obtain ⟨w, related, rfl⟩ := like
  exact ⟨w, related, rfl⟩

omit follows in
theorem Like.decodeCycle : t.decodeCycle = s.decodeCycle := by
  obtain ⟨w, related, rfl⟩ := like
  rfl

theorem Like.catchUp : Forward (Like R) (s.catchUp W) (t.catchUp W') := by
  have behind : t.curCycle W' < t.decodeCycle ↔ s.curCycle W < s.decodeCycle := by
    rw [like.curCycle follows, like.decodeCycle]
  unfold Core.catchUp
  refine .ite behind ?_ (.some like)
  rw [like.curCycle follows, like.decodeCycle]
  exact like.resetCycle.advancePosTimes follows _

theorem Like.decodeTo (decodeCycle : Nat) :
    Forward (Like R) (s.decodeTo W decodeCycle) (t.decodeTo W' decodeCycle) := by
  have decoded : Like R { s with decodeCycle := decodeCycle } { t with decodeCycle := decodeCycle } := by
    obtain ⟨w, related, rfl⟩ := like
    exact ⟨w, related, rfl⟩
  refine (decoded.catchUp follows).map fun s t like => ?_
  rw [like.curCycle follows]
  obtain ⟨w, related, rfl⟩ := like
  exact ⟨w, related, rfl⟩

omit follows in
theorem Like.decodeCycleOf (uop : DynUop) (prevDecCycle : Nat) :
    t.decodeCycleOf uop prevDecCycle = s.decodeCycleOf uop prevDecCycle := by
  obtain ⟨w, related, rfl⟩ := like
  unfold Core.decodeCycleOf
  rfl

theorem Like.decodeStall (uop : DynUop) (prevDecCycle : Nat) :
    Forward (Like R) (s.decodeStall W uop prevDecCycle) (t.decodeStall W' uop prevDecCycle) := by
  unfold Core.decodeStall
  rw [like.decodeCycleOf]
  exact like.decodeTo follows _

theorem Like.issueWidth : Forward (Like R) (s.issueWidth W) (t.issueWidth W') := by
  have full : issuesPerCycle ≤ t.curCycleIssuedUops ↔ issuesPerCycle ≤ s.curCycleIssuedUops := by
    obtain ⟨w, related, rfl⟩ := like
    exact Iff.rfl
  have stall := Forward.ite full (like.resetCycle.advancePos follows) (.some like)
  refine stall.map fun s t like => ?_
  obtain ⟨w, related, rfl⟩ := like
  exact ⟨w, related, rfl⟩

theorem Like.clearInvalid : Like R (s.clearInvalid W) (t.clearInvalid W') := by
  unfold Core.clearInvalid
  rw [like.curCycle follows]
  obtain ⟨w, related, rfl⟩ := like
  exact ⟨w, related, rfl⟩

theorem Like.rfReads (c0 c1 : Nat) : t.rfReads W' c0 c1 = s.rfReads W c0 c1 := by
  unfold Core.rfReads
  rw [like.curCycle follows]
  obtain ⟨w, related, rfl⟩ := like
  rfl

theorem Like.rfStall (c0 c1 : Nat) : Forward (Like R) (s.rfStall W c0 c1) (t.rfStall W' c0 c1) := by
  have stalled (reads : Nat) :
      Like R { s with curCycleRFReads := reads, curCycleIssuedUops := 0 }
        { t with curCycleRFReads := reads, curCycleIssuedUops := 0 } := by
    obtain ⟨w, related, rfl⟩ := like
    exact ⟨w, related, rfl⟩
  have read (reads : Nat) : Like R { s with curCycleRFReads := reads } { t with curCycleRFReads := reads } := by
    obtain ⟨w, related, rfl⟩ := like
    exact ⟨w, related, rfl⟩
  unfold Core.rfStall
  rw [like.rfReads follows]
  exact .ite Iff.rfl ((stalled _).advancePos follows) (.some (read _))

theorem Like.dispatchFrom (c0 c1 : Nat) : t.dispatchFrom W' c0 c1 = s.dispatchFrom W c0 c1 := by
  unfold Core.dispatchFrom
  rw [like.curCycle follows]
  obtain ⟨w, related, rfl⟩ := like
  rfl

theorem Like.schedule (uop : DynUop) (c0 c1 : Nat) :
    Forward (LikeAnd R) (s.schedule W uop c0 c1) (t.schedule W' uop c0 c1) := by
  unfold Core.schedule
  rw [like.dispatchFrom follows]
  have cycle := like.curCycle follows
  obtain ⟨w, related, rfl⟩ := like
  refine (follows.schedule _ _ _ _ _ related).map ?_
  rintro ⟨next, dispatchCycle⟩ ⟨next', dispatchCycle'⟩ ⟨related, same⟩
  have taken : Like R (s.withWindow next) (s.withWindow next') := ⟨next', related, rfl⟩
  have advanced := taken.curCycle follows
  cases same
  refine ⟨?_, rfl⟩
  show Like R (if s.curCycle W < (s.withWindow next).curCycle W then _ else _)
    (if (s.withWindow w).curCycle W' < (s.withWindow next').curCycle W' then _ else _)
  rw [cycle, advanced]
  split
  · exact taken.resetCycle
  · exact taken

theorem Like.issue (uop : DynUop) (prevDecCycle : Nat) :
    Forward (LikeAnd R) (s.issue W uop prevDecCycle) (t.issue W' uop prevDecCycle) := by
  refine (like.decodeStall follows uop prevDecCycle).bind fun s t like => ?_
  refine (like.issueWidth follows).bind fun s t like => ?_
  have cleared := like.clearInvalid follows
  have scoreboard : (t.clearInvalid W').regScoreboard = (s.clearInvalid W).regScoreboard := by
    obtain ⟨w, related, same⟩ := cleared
    rw [same]
    rfl
  dsimp only
  rw [scoreboard]
  exact (cleared.rfStall follows _ _).bind fun s t like => like.schedule follows uop _ _

/-! ### Accesses -/

variable (C)

theorem Like.record (dispatchCycle respCycle : Nat) (tr : Option Recorder.TimingRecord) :
    Like R (s.record W dispatchCycle respCycle tr) (t.record W' dispatchCycle respCycle tr) := by
  have cycle := like.curCycle follows
  obtain ⟨w, related, rfl⟩ := like
  cases tr with
  | none => exact ⟨w, related, rfl⟩
  | some tr =>
      refine ⟨w, related, ?_⟩
      simp only [Core.record, cycle]
      rfl

theorem Like.request (type : Access) (op : MemOp) (dispatchCycle lat : Nat) :
    LikeAnd R (s.request W C type op dispatchCycle lat) (t.request W' C type op dispatchCycle lat) := by
  have asked : t.ask C type op dispatchCycle = s.ask C type op dispatchCycle := by
    obtain ⟨w, related, rfl⟩ := like
    rfl
  unfold Core.request
  rw [asked]
  refine ⟨Like.record follows ?_ _ _ _, rfl⟩
  obtain ⟨w, related, rfl⟩ := like
  exact ⟨w, related, rfl⟩

omit follows in
theorem Like.forward (addr reqSatisfiedCycle : Nat) :
    t.forward addr reqSatisfiedCycle = s.forward addr reqSatisfiedCycle := by
  obtain ⟨w, related, rfl⟩ := like
  rfl

theorem Like.executeLoad (op : MemOp) (dispatchCycle : Nat) :
    LikeAnd R (s.executeLoad W C op dispatchCycle) (t.executeLoad W' C op dispatchCycle) := by
  have satisfied : LikeAnd R
      (if op.addr ≠ noAddr then s.request W C .load op dispatchCycle l1dLat else (s, dispatchCycle))
      (if op.addr ≠ noAddr then t.request W' C .load op dispatchCycle l1dLat else (t, dispatchCycle)) := by
    split
    · exact like.request C follows .load op dispatchCycle l1dLat
    · exact ⟨like, rfl⟩
  obtain ⟨like, same⟩ := satisfied
  unfold Core.executeLoad
  dsimp only
  rw [← same, like.forward]
  refine ⟨?_, rfl⟩
  obtain ⟨w, related, rest⟩ := like
  rw [rest]
  exact ⟨w, related, rfl⟩

theorem Like.executeStore (op : MemOp) (dispatchCycle : Nat) :
    LikeAnd R (s.executeStore W C op dispatchCycle) (t.executeStore W' C op dispatchCycle) := by
  obtain ⟨like, same⟩ := like.request C follows .store op dispatchCycle l1dLat
  unfold Core.executeStore
  dsimp only
  rw [← same]
  refine ⟨?_, rfl⟩
  obtain ⟨w, related, rest⟩ := like
  rw [rest]
  exact ⟨w, related, rfl⟩

theorem Like.execute (uop : DynUop) (dispatchCycle : Nat) :
    Forward (LikeAnd R) (s.execute W C uop dispatchCycle) (t.execute W' C uop dispatchCycle) := by
  obtain ⟨w, related, rfl⟩ := like
  cases type : uop.type with
  | general =>
      simp only [Core.execute, type]
      exact .some ⟨⟨w, related, rfl⟩, rfl⟩
  | storeAddr | fence =>
      simp only [Core.execute, type]
      exact .some ⟨⟨w, related, rfl⟩, rfl⟩
  | load =>
      cases pending : s.loads with
      | nil =>
          simp only [Core.execute, type, pending]
          exact .none _
      | cons op loads =>
          have pending' : (s.withWindow w).loads = op :: loads := pending
          simp only [Core.execute, type, pending, pending']
          have popped : Like R { s with loads := loads } { s.withWindow w with loads := loads } :=
            ⟨w, related, rfl⟩
          obtain ⟨like, same⟩ :=
            popped.executeLoad C follows op (s.accessFrom s.loadQueue dispatchCycle)
          exact .some ⟨like, congrArg (_, _, ·) same⟩
  | store =>
      cases pending : s.stores with
      | nil =>
          simp only [Core.execute, type, pending]
          exact .none _
      | cons op stores =>
          have pending' : (s.withWindow w).stores = op :: stores := pending
          simp only [Core.execute, type, pending, pending']
          have popped : Like R { s with stores := stores } { s.withWindow w with stores := stores } :=
            ⟨w, related, rfl⟩
          obtain ⟨like, same⟩ :=
            popped.executeStore C follows op (s.accessFrom s.storeQueue dispatchCycle)
          exact .some ⟨like, congrArg (_, _, ·) same⟩

/-! ### Blocks -/

theorem Like.runUop (uop : DynUop) (prevDecCycle : Nat) :
    Forward (LikeAnd R) (s.runUop W C uop prevDecCycle) (t.runUop W' C uop prevDecCycle) := by
  have ahead : t.decodeAhead W' uop prevDecCycle = s.decodeAhead W uop prevDecCycle := by
    unfold decodeAhead
    rw [like.decodeCycleOf, like.curCycle follows]
  unfold Core.runUop
  rw [ahead]
  refine (like.issue follows uop prevDecCycle).bind ?_
  rintro ⟨s, dispatchCycle⟩ ⟨t, _⟩ ⟨like, same⟩
  cases same
  dsimp only
  rw [like.curCycle follows]
  refine (like.execute C follows uop dispatchCycle).bind ?_
  rintro ⟨s', dispatchCycle', mem, commitCycle⟩ ⟨t', _⟩ ⟨⟨w, related, rest⟩, same⟩
  cases same
  cases rest
  exact .some ⟨⟨w, related, rfl⟩, rfl⟩

theorem Like.runUops (uops : List DynUop) (prevDecCycle lastCommitCycle : Nat) :
    Forward (LikeAnd R) (s.runUops W C uops prevDecCycle lastCommitCycle)
      (t.runUops W' C uops prevDecCycle lastCommitCycle) := by
  induction uops generalizing prevDecCycle lastCommitCycle s t with
  | nil => exact .some ⟨like, rfl⟩
  | cons uop rest ih =>
      refine (like.runUop C follows uop prevDecCycle).bind ?_
      rintro ⟨s, commitCycle⟩ ⟨t, _⟩ ⟨like, same⟩
      cases same
      exact ih like uop.decCycle commitCycle

theorem Like.fetch (addr : Nat) : LikeAnd R (s.fetch W C addr) (t.fetch W' C addr) := by
  unfold Core.fetch
  rw [like.curCycle follows]
  obtain ⟨like, same⟩ := like.request C follows .fetch ⟨addr, addr⟩ (s.curCycle W) 0
  exact ⟨like, congrArg (· - s.curCycle W) same⟩

variable (lineSize : Nat)

theorem Like.fetchWrongPath (lastCommitCycle left addr reqCycle : Nat) :
    Like R (s.fetchWrongPath W C lineSize lastCommitCycle left addr reqCycle)
      (t.fetchWrongPath W' C lineSize lastCommitCycle left addr reqCycle) := by
  induction left generalizing addr reqCycle s t with
  | zero => exact like
  | succ left ih =>
      obtain ⟨fetched, same⟩ := like.fetch C follows addr
      rw [Core.fetchWrongPath, Core.fetchWrongPath]
      dsimp only
      rw [← same]
      split
      · exact fetched
      · exact ih fetched _ _

theorem Like.fetchLines (left addr fetchCycle : Nat) :
    LikeAnd R (s.fetchLines W C lineSize left addr fetchCycle)
      (t.fetchLines W' C lineSize left addr fetchCycle) := by
  induction left generalizing addr fetchCycle s t with
  | zero => exact ⟨like, rfl⟩
  | succ left ih =>
      obtain ⟨fetched, same⟩ := like.fetch C follows addr
      rw [Core.fetchLines, Core.fetchLines]
      dsimp only
      rw [← same]
      exact ih fetched _ _

theorem Like.resolveBranch (lastCommitCycle fetchCycle : Nat) :
    LikeAnd R (s.resolveBranch W C lineSize lastCommitCycle fetchCycle)
      (t.resolveBranch W' C lineSize lastCommitCycle fetchCycle) := by
  obtain ⟨w, related, rfl⟩ := like
  have none : (s.withWindow w).branchPc = s.branchPc := rfl
  unfold Core.resolveBranch
  rw [none]
  split
  · exact ⟨⟨w, related, rfl⟩, rfl⟩
  · have pred : (s.withWindow w).branchPred = s.branchPred ∧ (s.withWindow w).branchTaken = s.branchTaken ∧
        (s.withWindow w).branchNotTakenNpc = s.branchNotTakenNpc ∧
        (s.withWindow w).branchTakenNpc = s.branchTakenNpc := ⟨rfl, rfl, rfl, rfl⟩
    obtain ⟨pred, taken, notTakenNpc, takenNpc⟩ := pred
    dsimp only
    rw [pred, taken, notTakenNpc, takenNpc]
    split
    · exact ⟨⟨w, related, rfl⟩, rfl⟩
    · refine ⟨Like.fetchWrongPath C follows ?_ lineSize _ _ _ _, rfl⟩
      exact ⟨w, related, rfl⟩

theorem Like.frontend (bblAddr bytes lastCommitCycle : Nat) :
    Like R (s.frontend W C lineSize bblAddr bytes lastCommitCycle)
      (t.frontend W' C lineSize bblAddr bytes lastCommitCycle) := by
  unfold Core.frontend
  rw [like.decodeCycle]
  obtain ⟨like, same⟩ := like.resolveBranch C follows lineSize lastCommitCycle
    (s.decodeCycle - (decodeStage - fetchStage))
  dsimp only
  rw [← same]
  have cleared : Like R
      { (s.resolveBranch W C lineSize lastCommitCycle (s.decodeCycle - (decodeStage - fetchStage))).1 with
        branchPc := 0 }
      { (t.resolveBranch W' C lineSize lastCommitCycle (s.decodeCycle - (decodeStage - fetchStage))).1 with
        branchPc := 0 } := by
    obtain ⟨w, related, rest⟩ := like
    rw [rest]
    exact ⟨w, related, rfl⟩
  obtain ⟨like, same⟩ := cleared.fetchLines C follows lineSize ((bytes + lineSize - 1) / lineSize) bblAddr
    (s.resolveBranch W C lineSize lastCommitCycle (s.decodeCycle - (decodeStage - fetchStage))).2
  rw [← same, like.decodeCycle]
  obtain ⟨w, related, rest⟩ := like
  rw [rest]
  exact ⟨w, related, rfl⟩

theorem Like.bbl (bblAddr : Nat) (bblInfo : BblInfo) :
    Forward (Like R) (s.bbl W C lineSize bblAddr bblInfo) (t.bbl W' C lineSize bblAddr bblInfo) := by
  obtain ⟨w, related, rfl⟩ := like
  cases prev : s.prevBbl with
  | none =>
      have prev' : (s.withWindow w).prevBbl = .none := prev
      simp only [Core.bbl, prev, prev']
      exact .some ⟨w, related, rfl⟩
  | some info =>
      have prev' : (s.withWindow w).prevBbl = .some info := prev
      have begun : Like R { s with prevBbl := .some bblInfo } { s.withWindow w with prevBbl := .some bblInfo } :=
        ⟨w, related, rfl⟩
      simp only [Core.bbl, prev, prev']
      refine (begun.runUops C follows info.uop 0 0).bind ?_
      rintro ⟨s, commitCycle⟩ ⟨t, _⟩ ⟨like, same⟩
      cases same
      have counted : Like R (s.count info) (t.count info) := by
        obtain ⟨w, related, rfl⟩ := like
        exact ⟨w, related, rfl⟩
      have matched : (t.count info).loads = [] ∧ (t.count info).stores = [] ↔
          (s.count info).loads = [] ∧ (s.count info).stores = [] := by
        obtain ⟨w, related, rfl⟩ := like
        exact Iff.rfl
      exact .ite matched (.some (counted.frontend C follows lineSize _ _ _)) (.none _)

omit C in
theorem Like.advance (targetCycle : Nat) :
    Forward (Like R) (s.advance W targetCycle) (t.advance W' targetCycle) := by
  have cycle := like.curCycle follows
  obtain ⟨w, related, rfl⟩ := like
  unfold Core.advance
  rw [cycle]
  refine .ite Iff.rfl ?_ (.none _)
  refine (follows.longAdvance _ _ targetCycle related).bind fun next next' related => ?_
  exact .some ⟨next', related, rfl⟩

theorem Like.step (call : Call) :
    Forward (Like R) (s.step W C lineSize call) (t.step W' C lineSize call) := by
  cases call with
  | bbl bblAddr bblInfo => exact like.bbl C follows lineSize bblAddr bblInfo
  | advance targetCycle => exact like.advance follows targetCycle
  | load _ | store _ | predFalseLoad | predFalseStore | branch _ _ _ _ | contextSwitch =>
      obtain ⟨w, related, rfl⟩ := like
      exact .some ⟨w, related, rfl⟩

end

end Core

/-! ## The two windows -/

section
variable (H WSZ : Nat)

/-- The window of the code. -/
def WindowStructure.window (fuel : Nat) : Window WindowStructure where
  curCycle := WindowStructure.curCycle
  advancePos w := w.advancePos H
  schedule w schedCycle portMask extraSlots :=
    (w.schedule H WSZ fuel schedCycle portMask extraSlots).map fun (w, cycle, _) => (w, cycle)
  longAdvance w targetCycle := w.longAdvance H fuel targetCycle

namespace Table

/-- A call that the window is sure to follow. -/
def Sure (t : Table) (call : WindowCall) : Prop := call.Legal t.now ∧ t.Fits H WSZ call ∧ t.Words H WSZ call

instance decidableSure (t : Table) (call : WindowCall) : Decidable (t.Sure H WSZ call) :=
  inferInstanceAs (Decidable (_ ∧ _ ∧ _))

/-- The table as a window, which fails at any other call. -/
def window : Window Table where
  curCycle := now
  advancePos t := if t.Sure H WSZ .advancePos then some (t.advance H 1) else none
  schedule t schedCycle portMask extraSlots :=
    if t.Sure H WSZ (.schedule schedCycle portMask extraSlots) then
      some (t.schedule H WSZ schedCycle portMask extraSlots, (t.stalled H WSZ).earliest portMask schedCycle)
    else none
  longAdvance t targetCycle :=
    if t.Sure H WSZ (.longAdvance targetCycle) then some (t.longAdvance H targetCycle) else none

end Table

end

namespace Table

variable {H WSZ : Nat}

theorem shadowed_schedule (t : Table) (schedCycle : Nat) (portMask : BitVec 8) (extraSlots : Nat) :
    Shadowed ((t.stalled H WSZ).uop portMask schedCycle)
      (t.schedule H WSZ schedCycle portMask extraSlots) :=
  shadowed_extra extraSlots

theorem grants_schedule (t : Table) (schedCycle : Nat) (portMask : BitVec 8) (extraSlots : Nat) :
    (t.schedule H WSZ schedCycle portMask extraSlots).grants.map Grant.cycle =
      (t.stalled H WSZ).earliest portMask schedCycle :: t.grants.map Grant.cycle := by
  rw [(shadowed_schedule t schedCycle portMask extraSlots).grants]
  rfl

theorem bound_le_schedule (t : Table) (schedCycle : Nat) (portMask : BitVec 8) (extraSlots : Nat) :
    t.res.bound ≤ (t.schedule H WSZ schedCycle portMask extraSlots).res.bound := by
  have uop : t.res.bound ≤ ((t.stalled H WSZ).uop portMask schedCycle).res.bound :=
    Reservations.bound_le_reserve
  exact uop.trans (shadowed_schedule t schedCycle portMask extraSlots).bound

theorem now_le_stalled {t : Table} (inv : t.Inv WSZ) (pos : 1 ≤ WSZ) : t.now ≤ (t.stalled H WSZ).now := by
  obtain ⟨cycles, stalled, -⟩ := inv.stalled_spec (H := H) pos
  rw [stalled]
  exact Nat.le_add_right _ _

theorem window_lawful (pos : 1 ≤ WSZ) : (window H WSZ).Lawful (Inv WSZ) where
  advancePos t next inv run := by
    obtain ⟨-, same⟩ := Option.ite_none_right_eq_some.mp run
    cases same
    exact ⟨inv.advance 1, rfl⟩
  schedule t schedCycle portMask extraSlots next cycle inv port run := by
    obtain ⟨sure, same⟩ := Option.ite_none_right_eq_some.mp run
    cases same
    have now : (t.schedule H WSZ schedCycle portMask extraSlots).now = (t.stalled H WSZ).now :=
      (shadowed_schedule t schedCycle portMask extraSlots).now
    have later := now_le_stalled (H := H) inv pos
    have notBefore : max (t.stalled H WSZ).now schedCycle ≤ (t.stalled H WSZ).earliest portMask schedCycle :=
      le_earliest
    have kept : Inv WSZ (t.call H WSZ (.schedule schedCycle portMask extraSlots)) := inv.call pos sure.1
    refine ⟨kept, later.trans now.ge, ?_, ?_⟩
    · exact (Nat.le_max_right _ _).trans notBefore
    · exact now.le.trans ((Nat.le_max_left _ _).trans notBefore)
  longAdvance t targetCycle next inv later run := by
    obtain ⟨-, same⟩ := Option.ite_none_right_eq_some.mp run
    cases same
    exact ⟨inv.longAdvance later, rfl⟩

end Table

section
variable {H WSZ : Nat}

/-- The window of the code keeps to its table, with as many rounds as there are cycles. -/
theorem window_follows (sizes : (1 ≤ H ∧ 2 * H < 2 ^ 32) ∧ 1 ≤ WSZ ∧ WSZ < 2 ^ 32) {fuel : Nat}
    (enough : 2 ^ 64 ≤ fuel) :
    (Table.window H WSZ).Follows (WindowStructure.window H WSZ fuel)
      fun t w => Follows H w t ∧ t.Inv WSZ where
  curCycle t w both := both.1.cycle
  advancePos t w both := by
    obtain ⟨follows, inv⟩ := both
    intro next run
    obtain ⟨sure, same⟩ := Option.ite_none_right_eq_some.mp run
    cases same
    have few := inv.width
    obtain ⟨win, run, kept⟩ := follows.advancePos sizes.1.2 sure.2.2.1 sure.2.2.2 (by omega)
    exact ⟨win, run, kept, inv.advance 1⟩
  schedule t w schedCycle portMask extraSlots both := by
    obtain ⟨follows, inv⟩ := both
    intro next run
    obtain ⟨⟨legal, fits, words⟩, same⟩ := Option.ite_none_right_eq_some.mp run
    cases same
    have bound : (t.schedule H WSZ schedCycle portMask extraSlots).res.bound < 2 ^ 64 := words.2
    have atMost : t.res.bound ≤ (t.schedule H WSZ schedCycle portMask extraSlots).res.bound :=
      t.bound_le_schedule schedCycle portMask extraSlots
    have rounds : t.res.bound < fuel := by omega
    obtain ⟨win, cycle, slots, run, kept, grants, -⟩ :=
      follows.schedule inv sizes.1.2 sizes.2.1 sizes.2.2 rounds legal fits words
    rw [t.grants_schedule] at grants
    have called : (t.call H WSZ (.schedule schedCycle portMask extraSlots)).Inv WSZ := inv.call sizes.2.1 legal
    refine ⟨(win, cycle), ?_, ⟨kept, called⟩, (List.cons.inj grants).1⟩
    show ((w.schedule H WSZ fuel schedCycle portMask extraSlots).map _) = _
    rw [run]
    rfl
  longAdvance t w targetCycle both := by
    obtain ⟨follows, inv⟩ := both
    intro next run
    obtain ⟨⟨legal, fits, words⟩, same⟩ := Option.ite_none_right_eq_some.mp run
    cases same
    have bound : t.res.bound < 2 ^ 64 := words.2
    have rounds : t.res.bound < fuel := by omega
    obtain ⟨win, run, kept⟩ :=
      follows.longAdvance inv sizes.1.2 sizes.2.2 rounds legal.1 fits words
    exact ⟨win, run, kept, inv.longAdvance legal.1⟩

end

/-! ## Runs of a core -/

namespace Core

/-- Caches that take three cycles for everything and leave a record of it. -/
def steadyCaches : Caches Unit where
  access _ _ _ curCycle _ := ((), ⟨curCycle + 3, some ⟨.get, curCycle + 1, curCycle + 2, 1⟩⟩)
  contextSwitch s := s
  le_avail _ _ _ _ _ := Nat.le_add_right _ 3
  record_within _ _ _ curCycle _ tr left := by
    cases Option.some.inj left
    exact ⟨Nat.le_add_right _ 1, Nat.le_succ _, Nat.le_succ _⟩

def plainUop : DynUop := ⟨0, 0, 0, 0, 1, 0, .general, 1, 0⟩

/-- The second uop has to wait for the register file, and four more are issued with it. -/
def crowded : BblInfo :=
  ⟨6, 24, 0, [{ plainUop with rs0 := 1, rs1 := 2 }, { plainUop with rs0 := 1, rs1 := 2 },
    plainUop, plainUop, plainUop, plainUop]⟩

/-- A store, a load of what it has written, a fence and another load. -/
def forwards : BblInfo :=
  ⟨5, 20, 0, [{ plainUop with type := .storeAddr }, { plainUop with type := .store },
    { plainUop with type := .load, rd0 := 3 }, { plainUop with type := .fence, lat := 9 },
    { plainUop with type := .load, rs0 := 3, rd0 := 3 }]⟩

def forwardCalls : List Call :=
  [.bbl 64 forwards, .store ⟨8, 1⟩, .load ⟨8, 2⟩, .branch 5 true 256 84, .load ⟨16, 3⟩, .bbl 256 crowded,
    .advance 400, .bbl 128 forwards]

theorem forwardCalls_run : ∃ final,
    (machine (Table.window 1024 36) steadyCaches 64).exec forwardCalls (init .init ()) = some final ∧
      (machine (Table.window 1024 36) steadyCaches 64).LegalRun forwardCalls (init .init ()) := by
  have runs : ((machine (Table.window 1024 36) steadyCaches 64).exec forwardCalls (init .init ())).isSome := by
    decide +kernel
  obtain ⟨final, run⟩ := Option.isSome_iff_exists.mp runs
  exact ⟨final, run, by decide +kernel⟩

theorem program_order_forwards : ∃ final,
    (machine (Table.window 1024 36) steadyCaches 64).exec forwardCalls (init .init ()) = some final ∧
      InOrder final.log := by
  obtain ⟨final, run, legal⟩ := forwardCalls_run
  exact ⟨final, run, program_order (Table.window_lawful (by decide)) Table.Inv.init legal run⟩

/-- One uop more than the width is possible. -/
theorem issue_width_exceeded : ∃ final,
    (machine (Table.window 1024 36) steadyCaches 64).exec forwardCalls (init .init ()) = some final ∧
      (∀ c, issuedIn final.log c ≤ issuesPerCycle + 1) ∧ issuedIn final.log 438 = issuesPerCycle + 1 := by
  obtain ⟨final, run, legal⟩ := forwardCalls_run
  have shown : ((machine (Table.window 1024 36) steadyCaches 64).exec forwardCalls (init .init ())).map
      (fun final => (decide (∀ e ∈ final.log, e.decodeAhead < 2 ^ 32), issuedIn final.log 438)) =
        some (true, issuesPerCycle + 1) := by
    decide +kernel
  rw [run] at shown
  obtain ⟨near, reached⟩ := Prod.mk.inj (Option.some.inj shown)
  have width := issue_width (Table.window_lawful (by decide)) Table.Inv.init legal run (of_decide_eq_true near)
  exact ⟨final, run, width.1, reached⟩

section
variable {κ : Type} (C : Caches κ) (lineSize : Nat) {calls : List Call} {caches : κ} {final : Core Table κ}

/-- A core with the window of the code does what it would do with an unbounded table of ports, in every run
in which the table is sure of all calls: it fails nowhere and differs in nothing else. -/
theorem core_follows_table {fuel : Nat} (enough : 2 ^ 64 ≤ fuel)
    (run : (machine (Table.window 1024 36) C lineSize).exec calls (init .init caches) = some final) :
    ∃ w, (machine (WindowStructure.window 1024 36 fuel) C lineSize).exec calls (init .init caches) =
        some (final.withWindow w) ∧ Follows 1024 w final.insWindow := by
  have follows : (Table.window 1024 36).Follows (WindowStructure.window 1024 36 fuel)
      fun t w => Follows 1024 w t ∧ t.Inv 36 := window_follows (by decide) enough
  have start : Like (fun t w => Follows 1024 w t ∧ t.Inv 36) (init Table.init caches)
      (init WindowStructure.init caches) := ⟨.init, ⟨Follows.init (by decide), Table.Inv.init⟩, rfl⟩
  have steps : Machine.Forward (Like fun t w => Follows 1024 w t ∧ t.Inv 36)
      ((machine (Table.window 1024 36) C lineSize).exec calls (init .init caches))
      ((machine (WindowStructure.window 1024 36 fuel) C lineSize).exec calls (init .init caches)) :=
    Machine.forward_exec (fun call _ _ like => like.step C follows lineSize call) calls start
  obtain ⟨t, run', w, ⟨kept, -⟩, rfl⟩ := steps final run
  exact ⟨w, run', kept⟩

end

theorem core_follows_table_forwards : ∃ final w,
    (machine (Table.window 1024 36) steadyCaches 64).exec forwardCalls (init .init ()) = some final ∧
      (machine (WindowStructure.window 1024 36 (2 ^ 64)) steadyCaches 64).exec forwardCalls (init .init ()) =
        some (final.withWindow w) ∧ Follows 1024 w final.insWindow := by
  obtain ⟨final, run, -⟩ := forwardCalls_run
  obtain ⟨w, run', kept⟩ := core_follows_table steadyCaches 64 (le_refl _) run
  exact ⟨final, w, run, run', kept⟩

end Core

end Zsim.OOO
