import Zsim.Partition.Regions

/-!
# The setpoint of Vantage

How far the setpoint of a partition is behind its timestamp.  Both are 64-bit counters, and their
difference is what the controller moves.
-/

set_option autoImplicit false

namespace Zsim.Partition

/-- What the decision is to do to the distance. -/
def Adjustment.steer : Adjustment → Nat → Nat
  | .increase, distance => distance - 1
  | .decrease, distance => if distance < 255 then distance + 1 else distance
  | .keep, distance => distance

/-- `curBts - setpointBts` -/
def VantagePartInfo.distance (info : VantagePartInfo) : Nat := u64Sub info.curBts info.setpointBts

namespace Vantage

/-- The partition whose interval a candidate ends, and what the feedback decides on its setpoint. -/
def decided (c : VantageConfig) (s : Vantage) (id : Nat) : Option (Nat × Adjustment) :=
  let e := s.array id
  if e.ts = 0 ∨ e.p = c.partitions ∨ u32 (s.size e.p) ≤ s.targetSize e.p then none
  else
    let s := if belowSetpoint (s.info e.p) e.bts then s.demote c id else s
    let cands := u32 ((s.info e.p).curIntervalCands + 1)
    if 256 ≤ cands then
      (c.feedback (s.targetSize e.p) (s.size e.p) cands (s.info e.p).curIntervalDems).map (e.p, ·)
    else none

/-- The rounds of the first loop of `getBestCandidate`, each for one candidate -/
def rounds (c : VantageConfig) : Machine Vantage Nat where
  legal _ _ := True
  step := considerDemotion c

/-- A round moves the distance of one partition as its feedback has decided, and no other. -/
def Steered (c : VantageConfig) (s : Vantage) (id : Nat) : Prop :=
  ∀ next, s.considerDemotion c id = some next → ∀ p, (next.info p).distance =
    match decided c s id with
    | some (q, adjustment) =>
      if p = q then adjustment.steer (s.info p).distance else (s.info p).distance
    | none => (s.info p).distance

/-- The distances change in the rounds only, each of which is as it should be. -/
def Controlled (c : VantageConfig) (s : Vantage) : Op → Prop
  | .getBestCandidate => (rounds c).Along (Steered c) s.candList s ∧
      ∀ next, s.step c .getBestCandidate = some next → (rounds c).exec s.candList s = some next
  | op => ∀ next, s.step c op = some next → ∀ p, (next.info p).distance = (s.info p).distance

def Bounded (s : Vantage) : Prop := ∀ p, (s.info p).distance ≤ 255

/-- When the setpoint is to be raised, it is not ahead of the timestamp as a number. -/
def NotAhead (c : VantageConfig) (s : Vantage) (id : Nat) : Prop :=
  ∀ p, decided c s id = some (p, .increase) → (s.info p).distance ≠ 0 →
    (s.info p).setpointBts < (s.info p).curBts

def NeverAhead (c : VantageConfig) (s : Vantage) : Op → Prop
  | .getBestCandidate => (rounds c).Along (NotAhead c) s.candList s
  | _ => True

variable {c : VantageConfig} {s next : Vantage} {info : VantagePartInfo} {id p : Nat}

/-! ## One adjustment -/

/-- The counters are words, and not far apart. -/
structure Near (info : VantagePartInfo) : Prop where
  curBts_lt : info.curBts < 2 ^ 64
  setpointBts_lt : info.setpointBts < 2 ^ 64
  distance_le : info.distance ≤ 255

theorem distance_congr {other : VantagePartInfo} (cur : other.curBts = info.curBts)
    (setpoint : other.setpointBts = info.setpointBts) : other.distance = info.distance := by
  rw [VantagePartInfo.distance, VantagePartInfo.distance, cur, setpoint]

theorem Near.congr {other : VantagePartInfo} (near : Near info) (cur : other.curBts = info.curBts)
    (setpoint : other.setpointBts = info.setpointBts) : Near other where
  curBts_lt := cur ▸ near.curBts_lt
  setpointBts_lt := setpoint ▸ near.setpointBts_lt
  distance_le := distance_congr cur setpoint ▸ near.distance_le

theorem Near.advance (near : Near info) {other : VantagePartInfo}
    (cur : other.curBts = u64 (info.curBts + 1)) (setpoint : other.setpointBts = u64 (info.setpointBts + 1)) :
    Near other ∧ other.distance = info.distance := by
  obtain ⟨curLt, setpointLt, le⟩ := near
  have same : other.distance = info.distance := by
    simp only [VantagePartInfo.distance, cur, setpoint, u64Sub, u64]
    omega
  refine ⟨⟨?_, ?_, same ▸ le⟩, same⟩
  · rw [cur]
    exact Nat.mod_lt _ (Nat.two_pow_pos 64)
  · rw [setpoint]
    exact Nat.mod_lt _ (Nat.two_pow_pos 64)

/-- The setpoint stays near, and goes where it should unless it is to be raised and is ahead. -/
theorem Near.adjust (near : Near info) (adjustment : Adjustment) {other : VantagePartInfo}
    (cur : other.curBts = info.curBts) (setpoint : other.setpointBts = adjustSetpoint info adjustment) :
    Near other ∧ (other.distance = adjustment.steer info.distance ↔
      (adjustment = .increase → info.distance ≠ 0 → info.setpointBts < info.curBts)) := by
  obtain ⟨curLt, setpointLt, le⟩ := near
  cases adjustment with
  | increase =>
      simp only [adjustSetpoint] at setpoint
      by_cases behind : info.setpointBts < info.curBts
      · rw [if_pos behind, u64_of_lt (by omega)] at setpoint
        have moved : other.distance = info.distance - 1 := by
          simp only [VantagePartInfo.distance, cur, setpoint, u64Sub, u64]
          omega
        refine ⟨⟨by omega, by omega, by omega⟩, iff_of_true ?_ fun _ _ => behind⟩
        rw [moved, Adjustment.steer]
      · rw [if_neg behind] at setpoint
        have same := distance_congr cur setpoint
        refine ⟨⟨by omega, by omega, by omega⟩, ?_⟩
        simp only [Adjustment.steer, same, true_imp_iff]
        omega
  | decrease =>
      simp only [adjustSetpoint] at setpoint
      have noRaise : Adjustment.decrease = .increase → info.distance ≠ 0 → info.setpointBts < info.curBts :=
        fun isRaise => by cases isRaise
      rw [← VantagePartInfo.distance] at setpoint
      by_cases room : info.distance < 255
      · rw [if_pos room] at setpoint
        have moved : other.distance = info.distance + 1 := by
          simp only [VantagePartInfo.distance, u64Sub, u64] at room
          simp only [VantagePartInfo.distance, cur, setpoint, u64Sub, u64]
          omega
        have wrapped : other.setpointBts < 2 ^ 64 := by
          rw [setpoint]
          exact Nat.mod_lt _ (Nat.two_pow_pos 64)
        refine ⟨⟨by omega, wrapped, by omega⟩, iff_of_true ?_ noRaise⟩
        rw [moved, Adjustment.steer, if_pos room]
      · rw [if_neg room] at setpoint
        have same := distance_congr cur setpoint
        refine ⟨⟨by omega, by omega, by omega⟩, iff_of_true ?_ noRaise⟩
        rw [same, Adjustment.steer, if_neg room]
  | keep =>
      simp only [adjustSetpoint] at setpoint
      have same := distance_congr cur setpoint
      refine ⟨⟨by omega, by omega, by omega⟩, iff_of_true ?_ fun isRaise => ?_⟩
      · rw [same, Adjustment.steer]
      · cases isRaise

/-! ## One round -/

theorem demote_clocks (c : VantageConfig) (s : Vantage) (id p : Nat) :
    ((s.demote c id).info p).curBts = (s.info p).curBts ∧
      ((s.demote c id).info p).setpointBts = (s.info p).setpointBts := by
  unfold demote setInfo setLine
  by_cases here : p = (s.array id).p
  · subst here
    simp
  · simp [here]

/-- What a round makes of the clocks of the partitions. -/
structure Turned (s next : Vantage) (decision : Option (Nat × Adjustment)) : Prop where
  curBts_eq : ∀ p, (next.info p).curBts = (s.info p).curBts
  kept : ∀ p, (∀ adjustment, decision ≠ some (p, adjustment)) →
    (next.info p).setpointBts = (s.info p).setpointBts
  adjusted : ∀ p adjustment, decision = some (p, adjustment) →
    (next.info p).setpointBts = adjustSetpoint (s.info p) adjustment

theorem Turned.none (cur : ∀ p, (next.info p).curBts = (s.info p).curBts)
    (setpoint : ∀ p, (next.info p).setpointBts = (s.info p).setpointBts) : Turned s next none where
  curBts_eq := cur
  kept p _ := setpoint p
  adjusted p adjustment decides := by cases decides

theorem countCandidate_turned (run : s.countCandidate c p = some next) : Turned s next
    (if 256 ≤ u32 ((s.info p).curIntervalCands + 1) then
      (c.feedback (s.targetSize p) (s.size p) (u32 ((s.info p).curIntervalCands + 1))
        (s.info p).curIntervalDems).map (p, ·)
    else none) := by
  unfold countCandidate at run
  dsimp only at run
  split
  case isTrue ends =>
    rw [if_pos ends] at run
    obtain ⟨adjustment, decides, run⟩ := Option.bind_eq_some_iff.mp run
    cases Option.some.inj run
    rw [decides]
    refine ⟨fun q => ?_, fun q others => ?_, fun q other decision => ?_⟩
    · by_cases here : q = p
      · subst here
        simp [setInfo]
      · simp [setInfo, here]
    · have other : q ≠ p := fun here => others adjustment (by rw [here]; rfl)
      simp [setInfo, other]
    · cases decision
      simp [setInfo]
  case isFalse goesOn =>
    rw [if_neg goesOn] at run
    cases Option.some.inj run
    apply Turned.none <;>
    · intro q
      by_cases here : q = p
      · subst here
        simp [setInfo]
      · simp [setInfo, here]

/-- A demotion before it does not change what a round does. -/
theorem Turned.after {mid : Vantage} {decision : Option (Nat × Adjustment)} (turned : Turned mid next decision)
    (cur : ∀ p, (mid.info p).curBts = (s.info p).curBts)
    (setpoint : ∀ p, (mid.info p).setpointBts = (s.info p).setpointBts) : Turned s next decision where
  curBts_eq p := (turned.curBts_eq p).trans (cur p)
  kept p others := (turned.kept p others).trans (setpoint p)
  adjusted p adjustment decides := by
    rw [turned.adjusted p adjustment decides]
    cases adjustment <;> simp only [adjustSetpoint, cur, setpoint]

theorem considerDemotion_turned (run : s.considerDemotion c id = some next) :
    Turned s next (decided c s id) := by
  unfold considerDemotion at run
  unfold decided
  dsimp only at run ⊢
  split at run
  case isTrue empty =>
    cases Option.some.inj run
    rw [if_pos (.inl empty)]
    exact Turned.none (fun _ => rfl) fun _ => rfl
  split at run
  case isTrue unmanaged =>
    cases Option.some.inj run
    rw [if_pos (.inr (.inl unmanaged))]
    exact Turned.none (fun _ => rfl) fun _ => rfl
  split at run
  case isTrue below =>
    cases Option.some.inj run
    rw [if_pos (.inr (.inr below))]
    exact Turned.none (fun _ => rfl) fun _ => rfl
  case _ filled managed above =>
  rw [if_neg (fun skipped => skipped.elim filled fun rest => rest.elim managed above)]
  split at run
  case isTrue below =>
    rw [if_pos below]
    exact (countCandidate_turned run).after (fun p => (demote_clocks c s id p).1)
      fun p => (demote_clocks c s id p).2
  case isFalse atLeast =>
    rw [if_neg atLeast]
    exact countCandidate_turned run

theorem considerDemotion_of_decided {decision : Nat × Adjustment} (decides : decided c s id = some decision) :
    ∃ next, s.considerDemotion c id = some next := by
  have counts : ∀ (s : Vantage) (p : Nat), (if 256 ≤ u32 ((s.info p).curIntervalCands + 1) then
      (c.feedback (s.targetSize p) (s.size p) (u32 ((s.info p).curIntervalCands + 1))
        (s.info p).curIntervalDems).map (p, ·)
      else none) = some decision → ∃ next, s.countCandidate c p = some next := by
    intro s p decides
    unfold countCandidate
    dsimp only
    split at decides
    case isTrue ends =>
      obtain ⟨adjustment, decides, -⟩ := Option.map_eq_some_iff.mp decides
      rw [if_pos ends, decides]
      exact ⟨_, rfl⟩
    case isFalse => cases decides
  unfold decided at decides
  dsimp only at decides
  split at decides
  case isTrue => cases decides
  case isFalse counted =>
    obtain ⟨filled, managed, above⟩ := not_or.mp counted |>.imp_right not_or.mp
    unfold considerDemotion
    dsimp only
    rw [if_neg filled, if_neg managed, if_neg above]
    split
    case isTrue below =>
      rw [if_pos below] at decides
      exact counts _ _ decides
    case isFalse atLeast =>
      rw [if_neg atLeast] at decides
      exact counts _ _ decides

def AllNear (s : Vantage) : Prop := ∀ p, Near (s.info p)

theorem AllNear.round (near : AllNear s) (run : s.considerDemotion c id = some next) : AllNear next := by
  have turned := considerDemotion_turned run
  intro p
  by_cases here : ∃ adjustment, decided c s id = some (p, adjustment)
  · obtain ⟨adjustment, decides⟩ := here
    exact ((near p).adjust adjustment (turned.curBts_eq p) (turned.adjusted p adjustment decides)).1
  · exact (near p).congr (turned.curBts_eq p)
      (turned.kept p fun adjustment decides => here ⟨adjustment, decides⟩)

theorem AllNear.steered_iff (near : AllNear s) (c : VantageConfig) (id : Nat) :
    Steered c s id ↔ NotAhead c s id := by
  constructor
  · intro steered p decides apart
    obtain ⟨next, run⟩ := considerDemotion_of_decided decides
    have turned := considerDemotion_turned run
    have moved := steered next run p
    rw [decides] at moved
    simp only [if_true] at moved
    exact ((near p).adjust .increase (turned.curBts_eq p) (turned.adjusted p .increase decides)).2.mp
      moved rfl apart
  · intro notAhead next run p
    have turned := considerDemotion_turned run
    split
    case h_1 q adjustment decides =>
      split
      case isTrue here =>
        subst here
        refine ((near p).adjust adjustment (turned.curBts_eq p) (turned.adjusted p adjustment decides)).2.mpr ?_
        intro isRaise
        subst isRaise
        exact notAhead p decides
      case isFalse other =>
        apply distance_congr (turned.curBts_eq p)
        refine turned.kept p fun another same => ?_
        rw [decides] at same
        cases same
        exact other rfl
    case h_2 decides =>
      apply distance_congr (turned.curBts_eq p)
      refine turned.kept p fun another same => ?_
      rw [decides] at same
      cases same

/-! ## The other operations -/

def SameClocks (s next : Vantage) : Prop := ∀ p,
  (next.info p).curBts = (s.info p).curBts ∧ (next.info p).setpointBts = (s.info p).setpointBts

def Together (s next : Vantage) : Prop :=
  AllNear s → AllNear next ∧ ∀ p, (next.info p).distance = (s.info p).distance

theorem SameClocks.together (same : SameClocks s next) : Together s next := by
  intro near
  exact ⟨fun p => (near p).congr (same p).1 (same p).2, fun p => distance_congr (same p).1 (same p).2⟩

theorem SameClocks.of_info (same : next.info = s.info) : SameClocks s next := by
  intro p
  rw [same]
  exact ⟨rfl, rfl⟩

theorem Together.after {mid : Vantage} (second : Together mid next) (first : SameClocks s mid) :
    Together s next := by
  intro near
  obtain ⟨nearMid, sameMid⟩ := first.together near
  obtain ⟨nearNext, same⟩ := second nearMid
  exact ⟨nearNext, fun p => (same p).trans (sameMid p)⟩

theorem takeOneLine_info (run : s.takeOneLine c = some next) : next.info = s.info := by
  obtain ⟨-, run⟩ := Option.ite_none_right_eq_some.mp run
  obtain ⟨p, -, run⟩ := Option.bind_eq_some_iff.mp run
  cases Option.some.inj run
  rfl

theorem takeLines_info {lines : Nat} (run : s.takeLines c lines = some next) : next.info = s.info := by
  induction lines generalizing s with
  | zero =>
      cases Option.some.inj run
      rfl
  | succ n ih =>
      obtain ⟨mid, first, rest⟩ := Option.bind_eq_some_iff.mp run
      exact (ih rest).trans (takeOneLine_info first)

theorem resize_info (sizes : Nat → Nat) (s : Vantage × Nat) (p : Nat) :
    (resize c sizes s p).1.info = s.1.info := by
  unfold resize
  dsimp only
  split
  · split <;> rfl
  · rfl

theorem setPartitionSizes_info {sizes : Nat → Nat} (run : s.setPartitionSizes c sizes = some next) :
    next.info = s.info := by
  have resized : ∀ (ps : List Nat) (s : Vantage × Nat), (ps.foldl (resize c sizes) s).1.info = s.1.info := by
    intro ps
    induction ps with
    | nil => exact fun _ => rfl
    | cons p rest ih => exact fun s => (ih _).trans (resize_info sizes s p)
  exact (takeLines_info run).trans (resized (List.range c.partitions) (s, 0))

theorem grow_info (run : s.grow c p = some next) : next.info = s.info := by
  unfold grow at run
  split at run
  · split at run
    · have same := takeOneLine_info run
      exact same
    · cases run
  · cases Option.some.inj run
    rfl

theorem SameClocks.of_update {q : Nat} (isNext : next.info = Function.update s.info q info)
    (cur : info.curBts = (s.info q).curBts) (setpoint : info.setpointBts = (s.info q).setpointBts) :
    SameClocks s next := by
  intro p
  rw [isNext]
  by_cases here : p = q
  · subst here
    simp [cur, setpoint]
  · simp [here]

theorem stamp_together (run : s.stamp c id = some next) : Together s next := by
  unfold stamp at run
  dsimp only at run
  split at run
  case isFalse => cases run
  case isTrue =>
    cases Option.some.inj run
    split
    case isFalse =>
      apply SameClocks.together
      intro p
      by_cases here : p = (s.array id).p
      · rw [here]
        simp [setInfo, setLine]
      · simp [setInfo, setLine, here]
    case isTrue =>
      intro near
      obtain ⟨q, isQ⟩ : ∃ q, (s.array id).p = q := ⟨_, rfl⟩
      rw [isQ]
      obtain ⟨advanced, isAdvanced⟩ : ∃ advanced, { s.info q with
        curBts := u64 ((s.info q).curBts + 1), setpointBts := u64 ((s.info q).setpointBts + 1)
        curBtsHits := 0 } = advanced := ⟨_, rfl⟩
      have both : Near advanced ∧ advanced.distance = (s.info q).distance := by
        subst isAdvanced
        exact (near q).advance rfl rfl
      rw [isAdvanced]
      constructor
      · intro p
        by_cases here : p = q
        · subst here
          simpa [setInfo, setLine] using both.1
        · simpa [setInfo, setLine, here] using near p
      · intro p
        by_cases here : p = q
        · subst here
          simpa [setInfo, setLine] using both.2
        · simp [setInfo, setLine, here]

theorem update_together {req : MemReq} (run : s.update c id req = some next) : Together s next := by
  unfold update at run
  dsimp only at run
  split at run
  case isTrue =>
    split at run
    case isTrue =>
      obtain ⟨p, -, run⟩ := Option.bind_eq_some_iff.mp run
      exact (stamp_together run).after (SameClocks.of_update rfl rfl rfl)
    case isFalse => exact (stamp_together run).after (SameClocks.of_info rfl)
  case isFalse =>
    obtain ⟨p, -, run⟩ := Option.bind_eq_some_iff.mp run
    obtain ⟨grown, grows, run⟩ := Option.bind_eq_some_iff.mp run
    have same := grow_info grows
    exact (stamp_together run).after (SameClocks.of_update same rfl rfl)

/-! ## All runs -/

theorem getBestCandidate_rounds (run : s.step c .getBestCandidate = some next) :
    (rounds c).exec s.candList s = some next := by
  obtain ⟨⟨victim, final⟩, found, same⟩ := Option.map_eq_some_iff.mp run
  cases same
  rw [Machine.exec_eq_foldlM]
  unfold getBestCandidate at found
  split at found
  case h_1 => cases found
  case h_2 isList =>
    rw [isList]
    obtain ⟨-, found⟩ := Option.ite_none_right_eq_some.mp found
    obtain ⟨demoted, loop, found⟩ := Option.bind_eq_some_iff.mp found
    obtain ⟨-, same⟩ := Option.ite_none_right_eq_some.mp found
    cases Option.some.inj same
    exact loop

theorem rounds_legal (c : VantageConfig) (ids : List Nat) (s : Vantage) : (rounds c).LegalRun ids s :=
  Machine.along_of_forall (fun _ _ _ => trivial) s

theorem AllNear.rounds {ids : List Nat} (near : AllNear s) (run : (rounds c).exec ids s = some next) :
    AllNear next := by
  have keeps : ∀ s id next, AllNear s → (Vantage.rounds c).legal s id →
      (Vantage.rounds c).step s id = some next → AllNear next :=
    fun _ _ _ near _ step => near.round step
  exact Machine.exec_keeps keeps near (rounds_legal c ids s) run

/-- The operations outside the rounds -/
theorem step_together {op : Op} (other : op ≠ .getBestCandidate) (run : s.step c op = some next) :
    Together s next := by
  cases op with
  | startReplacement req =>
      cases Option.some.inj run
      exact (SameClocks.of_info rfl).together
  | recordCandidate id =>
      obtain ⟨-, same⟩ := Option.ite_none_right_eq_some.mp run
      cases Option.some.inj same
      exact (SameClocks.of_info rfl).together
  | getBestCandidate => exact absurd rfl other
  | replaced id =>
      cases Option.some.inj run
      exact (SameClocks.of_info rfl).together
  | update id req => exact update_together run
  | setPartitionSizes sizes => exact (SameClocks.of_info (setPartitionSizes_info run)).together

theorem AllNear.step {op : Op} (near : AllNear s) (run : s.step c op = some next) : AllNear next := by
  by_cases isRounds : op = .getBestCandidate
  · subst isRounds
    exact near.rounds (getBestCandidate_rounds run)
  · exact (step_together isRounds run near).1

theorem AllNear.controlled (near : AllNear s) (c : VantageConfig) (op : Op) :
    Controlled c s op ↔ NeverAhead c s op := by
  have keeps : ∀ s id next, AllNear s → (Vantage.rounds c).legal s id →
      (Vantage.rounds c).step s id = some next → AllNear next :=
    fun _ _ _ near _ step => near.round step
  have other : ∀ op, op ≠ .getBestCandidate →
      ∀ next, s.step c op = some next → ∀ p, (next.info p).distance = (s.info p).distance :=
    fun op isOther next run => (step_together isOther run near).2
  cases op with
  | getBestCandidate =>
      refine (and_iff_left fun next run => getBestCandidate_rounds run).trans ?_
      exact (rounds_legal c s.candList s).along_iff keeps (fun s id near _ => near.steered_iff c id) near
  | startReplacement req => exact iff_of_true (other _ (fun same => by cases same)) trivial
  | recordCandidate id => exact iff_of_true (other _ (fun same => by cases same)) trivial
  | replaced id => exact iff_of_true (other _ (fun same => by cases same)) trivial
  | update id req => exact iff_of_true (other _ (fun same => by cases same)) trivial
  | setPartitionSizes sizes => exact iff_of_true (other _ (fun same => by cases same)) trivial

theorem AllNear.start (c : VantageConfig) : AllNear (init c) :=
  fun _ => ⟨Nat.two_pow_pos 64, Nat.two_pow_pos 64, (by decide : u64Sub 0 0 ≤ 255)⟩

/-- In every run the distances are bytes, and they go where the feedback decides they should, exactly
if no setpoint is to be raised that is ahead of its timestamp. -/
theorem controlled_iff (c : VantageConfig) (ops : List Op) (legal : (machine c).LegalRun ops (init c)) :
    (machine c).Throughout Bounded ops (init c) ∧ (machine c).Along (Controlled c) ops (init c) ↔
      (machine c).Along (NeverAhead c) ops (init c) := by
  have keeps : ∀ s op next, AllNear s → (machine c).legal s op → (machine c).step s op = some next →
      AllNear next := fun _ _ _ near _ step => near.step step
  refine (and_iff_right ?_).trans
    (legal.along_iff keeps (fun _ op near _ => near.controlled c op) (AllNear.start c))
  intro first rest mid split run p
  have legalFirst : (machine c).LegalRun first (init c) := (split ▸ legal).of_append
  exact (Machine.exec_keeps keeps (AllNear.start c) legalFirst run p).distance_le

theorem decided_feedback {adjustment : Adjustment} (decides : decided c s id = some (p, adjustment)) :
    ∃ target size cands dems, c.feedback target size cands dems = some adjustment := by
  obtain ⟨-, decides⟩ := Option.ite_none_left_eq_some.mp decides
  obtain ⟨-, decides⟩ := Option.ite_none_right_eq_some.mp decides
  obtain ⟨decision, feedback, same⟩ := Option.map_eq_some_iff.mp decides
  cases same
  exact ⟨_, _, _, _, feedback⟩

theorem neverAhead_twoCores (ops : List Op) :
    (machine twoCores).Along (NeverAhead twoCores) ops (init twoCores) := by
  have keeps : ∀ s id, NotAhead twoCores s id := by
    intro s id p decides
    obtain ⟨_, _, _, _, feedback⟩ := decided_feedback decides
    cases feedback
  apply Machine.along_of_forall
  intro op _ s
  cases op with
  | getBestCandidate => exact Machine.along_of_forall (fun id _ s => keeps s id) s
  | startReplacement req => trivial
  | recordCandidate id => trivial
  | replaced id => trivial
  | update id req => trivial
  | setPartitionSizes sizes => trivial

theorem controlled_iff_two :
    (machine twoCores).Throughout Bounded [.recordCandidate 1, .getBestCandidate, .replaced 1,
        .update 1 ⟨7, 1, 0, 0⟩, .recordCandidate 1, .getBestCandidate] (init twoCores) ∧
      (machine twoCores).Along (Controlled twoCores) [.recordCandidate 1, .getBestCandidate, .replaced 1,
        .update 1 ⟨7, 1, 0, 0⟩, .recordCandidate 1, .getBestCandidate] (init twoCores) :=
  (controlled_iff twoCores _ (by decide)).mpr (neverAhead_twoCores _)

end Vantage

end Zsim.Partition
