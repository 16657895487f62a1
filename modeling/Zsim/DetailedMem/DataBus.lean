import Zsim.DetailedMem.Channel

/-!
# Exclusive use of the data bus

The log of a channel holds intervals that do not overlap, in order; a pruned log begins
with one that stands for everything before its end.  The slot that is found is apart from
all of them.  The penalty for leaving power down is added afterwards, so the transfer is
apart from the others if there is no penalty, or nothing is logged after it.
-/

set_option autoImplicit false

namespace Zsim.DetailedMem

def Apart (a b : Nat × Nat) : Prop := a.2 ≤ b.1 ∨ b.2 ≤ a.1

def Ordered (a b : Nat × Nat) : Prop := a.1 ≤ b.1 ∧ a.2 ≤ b.2

structure LogInv (c : MemParam) (log : List (Nat × Nat)) : Prop where
  ordered : log.Pairwise Ordered
  long : ∀ x ∈ log, x.1 + c.tTrans ≤ x.2

namespace MemChannel

variable {c : MemParam} {log : List (Nat × Nat)}

/-! ## The slot -/

theorem le_findSlot (tSlot : Nat) (log : List (Nat × Nat)) (tStart : Nat) :
    tStart ≤ findSlot c tSlot log tStart := by
  induction log generalizing tStart with
  | nil => exact Nat.le_refl _
  | cons x rest ih =>
      rw [findSlot]
      split
      · next overlap =>
        have later := ih (x.2 + c.tRTRS)
        omega
      · split
        · exact Nat.le_refl _
        · exact ih tStart

theorem findSlot_before {tSlot tStart : Nat} (log : List (Nat × Nat)) (pos : 0 < tSlot)
    (after : ∀ x ∈ log, tStart + tSlot ≤ x.1) : findSlot c tSlot log tStart = tStart := by
  induction log with
  | nil => rfl
  | cons x rest ih =>
      have here := after x List.mem_cons_self
      rw [findSlot, if_neg (by omega)]
      split
      · rfl
      · exact ih fun y member => after y (List.mem_cons_of_mem x member)

theorem findSlot_apart (inv : LogInv c log) (tStart : Nat) :
    ∀ x ∈ log, findSlot c (c.tTrans + c.tRTRS) log tStart + c.tTrans ≤ x.1 ∨
      x.2 ≤ findSlot c (c.tTrans + c.tRTRS) log tStart := by
  induction log generalizing tStart with
  | nil =>
      intro x member
      cases member
  | cons y rest ih =>
      obtain ⟨first, ordered⟩ := List.pairwise_cons.mp inv.ordered
      have restInv : LogInv c rest := ⟨ordered, fun x member =>
        inv.long x (List.mem_cons_of_mem y member)⟩
      have long := inv.long y List.mem_cons_self
      intro x member
      rw [findSlot]
      split
      · next overlap =>
        rcases List.mem_cons.mp member with rfl | later
        · have le := le_findSlot (c := c) (c.tTrans + c.tRTRS) rest (x.2 + c.tRTRS)
          omega
        · exact ih restInv _ x later
      · next free =>
        split
        · next beyond =>
          rcases List.mem_cons.mp member with rfl | later
          · omega
          · have := (first x later).1
            omega
        · next near =>
          rcases List.mem_cons.mp member with rfl | later
          · by_cases before : x.2 + c.tRTRS ≤ tStart
            · have le := le_findSlot (c := c) (c.tTrans + c.tRTRS) rest tStart
              omega
            -- the interval begins right where the slot ends
            · have touches : tStart + (c.tTrans + c.tRTRS) = x.1 := by omega
              have kept : findSlot c (c.tTrans + c.tRTRS) rest tStart = tStart := by
                apply findSlot_before rest (by omega)
                intro z after
                rw [touches]
                exact (first z after).1
              omega
          · exact ih restInv tStart x later

/-! ## The log -/

theorem ordered_of_apart {a b : Nat × Nat} (aLong : a.1 + c.tTrans ≤ a.2)
    (bLong : b.1 + c.tTrans ≤ b.2) (apart : Apart a b) : Ordered a b ∨ Ordered b a := by
  unfold Apart Ordered at *
  omega

instance : Std.Total Before := ⟨fun a b => by unfold Before; omega⟩

instance : IsTrans (Nat × Nat) Before := ⟨fun a b c => by unfold Before; omega⟩

def CoveredBy (x : Nat × Nat) (log : List (Nat × Nat)) : Prop := ∃ y ∈ log, y.1 ≤ x.1 ∧ x.2 ≤ y.2

/-- An interval that is apart from the others is sorted in, and pruning leaves all that was
logged covered. -/
theorem updateDataBusCycle_spec (inv : LogInv c log) {start end_ : Nat}
    (long : start + c.tTrans ≤ end_) (apart : ∀ x ∈ log, Apart (start, end_) x) :
    LogInv c (updateDataBusCycle c log start end_) ∧
      CoveredBy (start, end_) (updateDataBusCycle c log start end_) ∧
      ∀ x, CoveredBy x log → CoveredBy x (updateDataBusCycle c log start end_) := by
  have perm : (List.insertionSort Before (log ++ [(start, end_)])).Perm ((start, end_) :: log) :=
    (List.perm_insertionSort _ _).trans (List.perm_append_singleton _ _)
  have sorted := List.pairwise_insertionSort Before (log ++ [(start, end_)])
  rw [updateDataBusCycle]
  generalize List.insertionSort Before (log ++ [(start, end_)]) = whole at *
  have wholeLong : ∀ x ∈ whole, x.1 + c.tTrans ≤ x.2 := by
    intro x member
    rcases List.mem_cons.mp (perm.subset member) with rfl | old
    · exact long
    · exact inv.long x old
  have comparable : whole.Pairwise fun a b => Ordered a b ∨ Ordered b a := by
    apply (perm.pairwise_iff fun h => Or.symm h).mpr
    apply List.pairwise_cons.mpr
    constructor
    · exact fun x member => ordered_of_apart long (inv.long x member) (apart x member)
    · exact inv.ordered.imp Or.inl
  have ordered : whole.Pairwise Ordered := by
    apply (sorted.and comparable).imp
    intro a b both
    unfold Before Ordered at *
    omega
  have covered : ∀ x, CoveredBy x ((start, end_) :: log) → CoveredBy x whole := by
    rintro x ⟨y, member, within⟩
    exact ⟨y, perm.mem_iff.mpr member, within⟩
  have inner : ∀ {final}, (∀ x, CoveredBy x whole → CoveredBy x final) →
      CoveredBy (start, end_) final ∧ ∀ x, CoveredBy x log → CoveredBy x final := by
    intro final wider
    constructor
    · exact wider _ (covered _ ⟨_, List.mem_cons_self, Nat.le_refl _, Nat.le_refl _⟩)
    · rintro x ⟨y, member, within⟩
      exact wider _ (covered _ ⟨y, List.mem_cons_of_mem _ member, within⟩)
  split
  · next full =>
    cases whole with
    | nil =>
        rw [List.length_nil] at full
        omega
    | cons oldest rest =>
        cases rest with
        | nil =>
            have depth := c.accessLogDepth_pos
            simp only [List.length_cons, List.length_nil] at full
            omega
        | cons second rest =>
            obtain ⟨oldestFirst, ordered⟩ := List.pairwise_cons.mp ordered
            obtain ⟨secondFirst, ordered⟩ := List.pairwise_cons.mp ordered
            refine ⟨⟨?_, ?_⟩, inner ?_⟩
            · apply List.pairwise_cons.mpr
              exact ⟨fun x member => ⟨Nat.zero_le _, (secondFirst x member).2⟩, ordered⟩
            · intro x member
              rcases List.mem_cons.mp member with rfl | later
              · have := wholeLong second (List.mem_cons_of_mem _ List.mem_cons_self)
                dsimp only
                omega
              · exact wholeLong x (List.mem_cons_of_mem _ (List.mem_cons_of_mem _ later))
            -- the second interval takes the place of the oldest one
            · rintro x ⟨y, member, within⟩
              rcases List.mem_cons.mp member with rfl | member
              · have := (oldestFirst second List.mem_cons_self).2
                exact ⟨_, List.mem_cons_self, Nat.zero_le _, within.2.trans this⟩
              · rcases List.mem_cons.mp member with rfl | member
                · exact ⟨_, List.mem_cons_self, Nat.zero_le _, within.2⟩
                · exact ⟨y, List.mem_cons_of_mem _ member, within⟩
  · exact ⟨⟨ordered, wholeLong⟩, inner fun x covered => covered⟩

/-! ## One access -/

/-- What an access does to the bus: its transfer begins in the slot that was found, later by
the penalty. -/
theorem latencySimulate_spec {myId lineAddr arrivalCycle latency : Nat} {type : MemAccessType}
    {s next : MemChannel} {t : Transfer}
    (run : s.latencySimulate c myId lineAddr arrivalCycle type = some (next, latency, t)) :
    ∃ location rdwrStart, addressMap c.address myId lineAddr = some location ∧
      arrivalCycle ≤ rdwrStart ∧ t.arrivalCycle = arrivalCycle ∧ t.type = type ∧
      t.busStartCycle = findSlot c (c.tTrans + c.tRTRS) s.accessLog
        (rdwrStart + c.getDataLatency type) +
          (s.ranks location.rank).getPowerDownPenalty c arrivalCycle ∧
      t.busEndCycle = t.busStartCycle + c.tTrans ∧
      next.accessLog = updateDataBusCycle c s.accessLog t.busStartCycle t.busEndCycle := by
  obtain ⟨location, mapped, run⟩ := Option.bind_eq_some_iff.mp run
  obtain ⟨refreshNum, -, run⟩ := Option.bind_eq_some_iff.mp run
  obtain ⟨refreshed, -, run⟩ := Option.bind_eq_some_iff.mp run
  obtain ⟨⟨activated, rdwrStart⟩, -, run⟩ := Option.bind_eq_some_iff.mp run
  obtain ⟨⟨late, later⟩, run⟩ := Option.ite_none_right_eq_some.mp run
  obtain ⟨accessed, -, run⟩ := Option.bind_eq_some_iff.mp run
  obtain ⟨precharged, -, run⟩ := Option.bind_eq_some_iff.mp run
  cases Option.some.inj run
  have slot := le_findSlot (c := c) (c.tTrans + c.tRTRS) s.accessLog
    (rdwrStart + c.getDataLatency type)
  have crit : c.tTransCrit ≤ c.tTrans := Nat.div_le_self _ _
  simp only [calcInterIssueCycle, MemParam.getDataSlot] at later
  refine ⟨location, rdwrStart, mapped, late, rfl, rfl, ?_, ?_, rfl⟩
  · simp only [calcInterIssueCycle, MemParam.getDataSlot, MemParam.getDataDelay]
    omega
  · simp only [calcInterIssueCycle, MemParam.getDataSlot, MemParam.getDataDelay]
    omega

/-! ## Runs -/

/-- A channel and what its accesses have put on the bus, the latest first. -/
structure BusRun where
  chnl : MemChannel
  transfers : List Transfer

structure Access where
  lineAddr : Nat
  arrivalCycle : Nat
  type : MemAccessType

namespace BusRun

def init : BusRun := ⟨MemChannel.init, []⟩

def step (c : MemParam) (myId : Nat) (s : BusRun) (a : Access) : Option BusRun :=
  (s.chnl.latencySimulate c myId a.lineAddr a.arrivalCycle a.type).map fun result =>
    ⟨result.1, result.2.2 :: s.transfers⟩

def machine (c : MemParam) (myId : Nat) : Machine BusRun Access where
  legal _ _ := True
  step := step c myId

/-- The rank has not been powered down, or no transfer is logged beyond the first cycle in
which the access could transfer data. -/
def NotDelayed (c : MemParam) (myId : Nat) (s : BusRun) (a : Access) : Prop :=
  ∀ location ∈ addressMap c.address myId a.lineAddr,
    (s.chnl.ranks location.rank).getPowerDownPenalty c a.arrivalCycle = 0 ∨
      ∀ x ∈ s.chnl.accessLog, x.2 ≤ a.arrivalCycle + c.getDataLatency a.type

instance (c : MemParam) (myId : Nat) (s : BusRun) (a : Access) : Decidable (NotDelayed c myId s a) :=
  inferInstanceAs (Decidable (∀ location ∈ addressMap c.address myId a.lineAddr, _ ∨ _))

def interval (t : Transfer) : Nat × Nat := (t.busStartCycle, t.busEndCycle)

structure Inv (c : MemParam) (s : BusRun) : Prop where
  log : LogInv c s.chnl.accessLog
  covered : ∀ t ∈ s.transfers, CoveredBy (interval t) s.chnl.accessLog
  apart : s.transfers.Pairwise fun t t' => Apart (interval t) (interval t')

theorem Inv.start (c : MemParam) : Inv c init where
  log := ⟨List.Pairwise.nil, fun x member => by cases member⟩
  covered t member := by cases member
  apart := List.Pairwise.nil

variable {c : MemParam} {myId : Nat} {s next : BusRun} {a : Access}

theorem Inv.step (inv : Inv c s) (run : s.step c myId a = some next)
    (fits : NotDelayed c myId s a) : Inv c next := by
  obtain ⟨⟨chnl, latency, t⟩, simulated, rfl⟩ := Option.map_eq_some_iff.mp run
  obtain ⟨location, rdwrStart, mapped, late, -, -, start, ends, log⟩ :=
    latencySimulate_spec simulated
  have slot := le_findSlot (c := c) (c.tTrans + c.tRTRS) s.chnl.accessLog
    (rdwrStart + c.getDataLatency a.type)
  have free := findSlot_apart inv.log (rdwrStart + c.getDataLatency a.type)
  generalize findSlot c (c.tTrans + c.tRTRS) s.chnl.accessLog
    (rdwrStart + c.getDataLatency a.type) = tStart at *
  have apart : ∀ x ∈ s.chnl.accessLog, Apart (interval t) x := by
    intro x member
    have here := free x member
    unfold Apart interval
    dsimp only
    rcases fits location mapped with none | past
    · omega
    · have := past x member
      omega
  have wider := updateDataBusCycle_spec inv.log ends.ge apart
  rw [← log] at wider
  obtain ⟨logInv, own, others⟩ := wider
  refine ⟨logInv, ?_, ?_⟩
  · intro t' member
    rcases List.mem_cons.mp member with rfl | old
    · exact own
    · exact others _ (inv.covered t' old)
  · apply List.pairwise_cons.mpr
    constructor
    · intro t' old
      obtain ⟨x, member, begins, ended⟩ := inv.covered t' old
      have := apart x member
      unfold Apart at this ⊢
      dsimp only
      omega
    · exact inv.apart

/-- No transfer begins before its access could have one. -/
def Late (c : MemParam) (s : BusRun) : Prop :=
  ∀ t ∈ s.transfers, t.arrivalCycle + c.getDataLatency t.type ≤ t.busStartCycle

theorem Late.step (late : Late c s) (run : s.step c myId a = some next) : Late c next := by
  obtain ⟨⟨chnl, latency, t⟩, simulated, rfl⟩ := Option.map_eq_some_iff.mp run
  obtain ⟨location, rdwrStart, -, after, arrival, type, start, -, -⟩ :=
    latencySimulate_spec simulated
  have slot := le_findSlot (c := c) (c.tTrans + c.tRTRS) s.chnl.accessLog
    (rdwrStart + c.getDataLatency a.type)
  intro t' member
  rcases List.mem_cons.mp member with rfl | old
  · rw [arrival, type, start]
    omega
  · exact late t' old

/-- No access of a run transfers data before its latency has passed, and if no access is
delayed by a penalty after its slot was found, no two of them use the bus at once. -/
theorem bus_exclusive (c : MemParam) (myId : Nat) (accesses : List Access) (final : BusRun)
    (run : (machine c myId).exec accesses init = some final) :
    (∀ t ∈ final.transfers, t.arrivalCycle + c.getDataLatency t.type ≤ t.busStartCycle) ∧
    ((machine c myId).Along (NotDelayed c myId) accesses init →
      final.transfers.Pairwise fun t t' => Apart (interval t) (interval t')) := by
  have legal : (machine c myId).LegalRun accesses init :=
    Machine.along_of_forall (fun _ _ _ => trivial) init
  constructor
  · have start : Late c init := fun t member => by cases member
    exact Machine.exec_keeps (fun _ _ _ late _ step => late.step step) start legal run
  · intro fits
    have keeps : ∀ s a next, Inv c s → (machine c myId).legal s a → NotDelayed c myId s a →
        (machine c myId).step s a = some next → Inv c next :=
      fun s a next inv _ fits step => inv.step step fits
    exact (Machine.exec_keeps_restrict keeps (Inv.start c) (legal.restrict fits) run).apart

/-- One channel of two ranks, with a row cycle of 15 and an exit from power down of 4. -/
def twoRanks : MemParam where
  address :=
    { channelCount := 1
      interleaveType := 0
      cacheLineSize := 64
      channelDataWidth := 64
      rankCount := 2
      bankCount := 2
      colAddrWidth := 1
      channelCount_pos := Nat.one_pos
      interleaveType_le := defaultParam.interleaveType_le
      cacheLineSize_lt := defaultParam.cacheLineSize_lt
      rankCount_lt := defaultParam.bankCount_lt
      bankCount_lt := defaultParam.bankCount_lt
      colAddrWidth_le := Nat.zero_le 1 }
  openRowBufPolicy := false
  powerDownCycle := 50
  accessLogDepth := 4
  mergeContinuous := false
  tRC := 15
  tRAS := 1
  tRCD := 1
  tRP := 1
  tRPab := 1
  tRTRS := 1
  tRRD := 1
  tWR := 1
  tWTR := 1
  tCAS := 1
  tCWD := 1
  tCCD := 1
  tTrans := 4
  tXP := 4
  tREFI := 1000
  tRFC := 1
  tFAW := 1
  tRTP := 1
  accessLogDepth_pos := Nat.succ_pos 3

theorem bus_exclusive_twoRanks :
    ∃ final, (machine twoRanks 0).exec [⟨0, 100, .read⟩, ⟨8, 100, .write⟩] init = some final ∧
      (∀ t ∈ final.transfers, t.arrivalCycle + twoRanks.getDataLatency t.type ≤ t.busStartCycle) ∧
      final.transfers.Pairwise fun t t' => Apart (interval t) (interval t') := by
  have runs : ((machine twoRanks 0).exec
      [⟨0, 100, .read⟩, ⟨8, 100, .write⟩] init).isSome = true := by decide
  obtain ⟨final, run⟩ := Option.isSome_iff_exists.mp runs
  obtain ⟨late, apart⟩ := bus_exclusive twoRanks 0 _ final run
  exact ⟨final, run, late, apart (by decide)⟩

/-- Two accesses to one bank of rank 0 and one to rank 1, which was powered down.  Its slot
begins in cycle 111, its transfer 4 cycles later, when the second one is not over. -/
theorem transfers_overlap :
    ((machine twoRanks 0).exec [⟨0, 100, .read⟩, ⟨8, 100, .read⟩, ⟨1, 101, .read⟩] init).map
        (fun s => s.transfers) =
      some [⟨101, .read, 115, 119⟩, ⟨100, .read, 117, 121⟩, ⟨100, .read, 106, 110⟩] ∧
    ¬ Apart (115, 119) (117, 121) := by
  refine ⟨by decide, ?_⟩
  unfold Apart
  decide

end BusRun

end MemChannel

end Zsim.DetailedMem
