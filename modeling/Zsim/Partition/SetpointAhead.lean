import Zsim.Partition.Setpoint

/-!
# A setpoint that gets ahead

A partition that has its first lines demoted one by one has its setpoint lowered to its first
timestamp, and below it.
-/

set_option autoImplicit false

namespace Zsim.Partition.Vantage

variable {c : VantageConfig} {s next : Vantage} {xs : List Nat} {v q : Nat} {req : MemReq}

/-! ## A miss -/

/-- A miss with the candidates `xs` and an empty line, which is the last. -/
def miss (xs : List Nat) (v : Nat) (req : MemReq) : List Op :=
  .startReplacement req :: ((xs ++ [v]).map .recordCandidate ++
    [.getBestCandidate, .replaced v, .update v req])

theorem exec_recordCandidate (xs : List Nat) (s : Vantage) (room : s.candList.length + xs.length ≤ c.assoc) :
    (machine c).exec (xs.map .recordCandidate) s = some { s with candList := s.candList ++ xs } := by
  induction xs generalizing s with
  | nil => simp
  | cons x rest ih =>
      have fits : s.candList.length < c.assoc := by
        rw [List.length_cons] at room
        omega
      have step : (machine c).step s (.recordCandidate x) = some { s with candList := s.candList ++ [x] } :=
        if_pos fits
      rw [List.map_cons, Machine.exec_cons, step, Option.bind_some, ih]
      · simp
      · simp only [List.length_append, List.length_singleton]
        rw [List.length_cons] at room
        omega

theorem pick_empty (c : VantageConfig) (filled : ∀ x ∈ xs, (s.array x).ts ≠ 0) (empty : (s.array v).ts = 0)
    (best : Nat) :
    s.pick c (xs ++ [v]) best = v := by
  induction xs generalizing best with
  | nil => simp [pick, empty]
  | cons x rest ih =>
      rw [List.cons_append, pick, if_neg (filled x List.mem_cons_self)]
      exact ih (fun y member => filled y (List.mem_cons_of_mem x member)) _

theorem getBestCandidate_empty (isList : s.candList = xs ++ [v]) (room : xs.length + 1 ≤ c.assoc)
    (bound : v < c.totalSize) (small : v < 2 ^ 31)
    (considered : xs.foldlM (considerDemotion c) s = some next)
    (filled : ∀ x ∈ xs, (next.array x).ts ≠ 0) (empty : (next.array v).ts = 0) :
    s.getBestCandidate c = some (v, next) := by
  have last : considerDemotion c next v = some next := if_pos empty
  have loop : (xs ++ [v]).foldlM (considerDemotion c) s = some next := by
    rw [List.foldlM_append, considered]
    simp [last]
  have length : (xs ++ [v]).length ≤ c.assoc := by
    rw [List.length_append, List.length_singleton]
    exact room
  have picked := pick_empty c filled empty
  cases cands : xs ++ [v] with
  | nil => exact absurd cands (List.append_ne_nil_of_right_ne_nil xs (List.cons_ne_nil v []))
  | cons first rest =>
      rw [cands] at isList loop length picked
      rw [getBestCandidate, isList]
      simp only [if_pos length, loop, Option.bind_eq_bind, Option.bind_some, picked first]
      exact if_pos ⟨small, bound⟩

theorem exec_miss (noCands : s.candList = []) (room : xs.length + 1 ≤ c.assoc)
    (bound : v < c.totalSize) (small : v < 2 ^ 31)
    (considered : xs.foldlM (considerDemotion c) { s with
      incomingLineAddr := req.lineAddr, candList := xs ++ [v] } = some next)
    (filled : ∀ x ∈ xs, (next.array x).ts ≠ 0) (empty : (next.array v).ts = 0) :
    (machine c).exec (miss xs v req) s = (next.replaced v).update c v req := by
  have records : (machine c).exec ((xs ++ [v]).map .recordCandidate) (s.startReplacement req) =
      some { s with incomingLineAddr := req.lineAddr, candList := xs ++ [v] } := by
    rw [exec_recordCandidate]
    · simp [startReplacement, noCands]
    · simp [startReplacement, noCands, room]
  have picked : (machine c).step { s with incomingLineAddr := req.lineAddr, candList := xs ++ [v] }
      .getBestCandidate = some next :=
    congrArg (Option.map Prod.snd) (getBestCandidate_empty rfl room bound small considered filled empty)
  have started : (machine c).step s (.startReplacement req) = some (s.startReplacement req) := rfl
  rw [miss, Machine.exec_cons, started, Option.bind_some, Machine.exec_append, records, Option.bind_some,
    Machine.exec_cons, picked, Option.bind_some]
  exact Option.bind_fun_some _

/-! ## A fill -/

/-- What is kept of a partition of this size after an update of one of its lines -/
def tick (size : Nat) (info : VantagePartInfo) : VantagePartInfo :=
  let hits := u32 (info.curBtsHits + 1)
  if u32 size / 16 ≤ hits then
    { info with
      curBts := u64 (info.curBts + 1), setpointBts := u64 (info.setpointBts + 1), curBtsHits := 0 }
  else { info with curBtsHits := hits }

def insert (info : VantagePartInfo) : VantagePartInfo :=
  { info with curIntervalIns := u32 (info.curIntervalIns + 1) }

/-- What an update of an empty line does. -/
structure Fills (s next : Vantage) (v q : Nat) : Prop where
  line : (next.array v).ts = s.timestamp ∧ (next.array v).p = q ∧ (next.array v).bts = (s.info q).curBts
  others : ∀ j, j ≠ v → next.array j = s.array j
  info : next.info q = tick (u64 (s.size q + 1)) (insert (s.info q))
  otherInfo : ∀ p, p ≠ q → next.info p = s.info p
  size : next.size q = u64 (s.size q + 1)
  otherSize : ∀ p, p ≠ q → p ≠ (s.array v).p → next.size p = s.size p
  targets : next.targetSize = s.targetSize ∧ next.longTermTargetSize = s.longTermTargetSize
  candList : next.candList = s.candList
  timestamp : next.timestamp = s.timestamp + 1

theorem stamp_tick (inPart : (s.array v).p = q) (lt : q < c.partitions) :
    s.stamp c v = some ((s.setLine v { s.array v with bts := (s.info q).curBts }).setInfo q
      (tick (s.size q) (s.info q))) := by
  unfold stamp tick
  simp only [inPart, if_pos lt]
  split <;> rfl

theorem update_fills (empty : (s.array v).ts = 0) (elsewhere : (s.array v).p ≠ q)
    (settled : s.targetSize = s.longTermTargetSize) (part : c.getPartition req = some q)
    (lt : q < c.partitions) : ∃ next, s.update c v req = some next ∧ Fills s next v q := by
  obtain ⟨filled, isFilled⟩ : ∃ filled, ({ s.setLine v { s.array v with ts := s.timestamp } with
    timestamp := s.timestamp + 1 } : Vantage).fill v q = filled := ⟨_, rfl⟩
  have array :
      filled.array = Function.update s.array v { s.array v with ts := s.timestamp, p := q, op := q } := by
    subst isFilled
    simp [fill, setInfo, setLine]
  have info : filled.info = Function.update s.info q (insert (s.info q)) := by
    subst isFilled
    rfl
  have size : filled.size = incr (decr s.size (s.array v).p) q := by
    subst isFilled
    simp [fill, setInfo, setLine]
  have size_self : filled.size q = u64 (s.size q + 1) := by
    simp [size, incr, decr, elsewhere.symm]
  have kept : filled.targetSize = s.targetSize ∧ filled.longTermTargetSize = s.longTermTargetSize ∧
      filled.candList = s.candList ∧ filled.timestamp = s.timestamp + 1 := by
    subst isFilled
    exact ⟨rfl, rfl, rfl, rfl⟩
  obtain ⟨target, long, candList, timestamp⟩ := kept
  have grown : filled.grow c q = some filled := by
    rw [grow, target, long, settled]
    exact if_neg (Nat.lt_irrefl _)
  have inPart : (filled.array v).p = q := by simp [array]
  refine ⟨(filled.setLine v { filled.array v with bts := (filled.info q).curBts }).setInfo q
    (tick (filled.size q) (filled.info q)), ?_, ?_⟩
  · unfold update
    simp only [empty, part, Nat.lt_irrefl, if_false, Option.bind_eq_bind, Option.bind_some, isFilled, grown]
    exact stamp_tick inPart lt
  · exact {
      line := by simp [setInfo, setLine, array, info, insert]
      others := fun j other => by simp [setInfo, setLine, array, other]
      info := by simp [setInfo, setLine, info, size_self]
      otherInfo := fun p other => by simp [setInfo, setLine, info, other]
      size := size_self
      otherSize := fun p other out => by simp [setInfo, setLine, size, incr, decr, other, out]
      targets := ⟨target, long⟩
      candList := candList
      timestamp := timestamp }

theorem miss_fills (noCands : s.candList = []) (room : xs.length + 1 ≤ c.assoc)
    (bound : v < c.totalSize) (small : v < 2 ^ 31)
    (considered : xs.foldlM (considerDemotion c) { s with
      incomingLineAddr := req.lineAddr, candList := xs ++ [v] } = some next)
    (filled : ∀ x ∈ xs, (next.array x).ts ≠ 0) (empty : (next.array v).ts = 0)
    (elsewhere : (next.array v).p ≠ q) (settled : next.targetSize = next.longTermTargetSize)
    (part : c.getPartition req = some q) (lt : q < c.partitions) :
    ∃ final, (machine c).exec (miss xs v req) s = some final ∧ Fills (next.replaced v) final v q := by
  rw [exec_miss noCands room bound small considered filled empty]
  apply update_fills
  · simp [replaced, setLine]
  · simpa [replaced, setLine] using elsewhere
  · exact settled
  · exact part
  · exact lt

/-! ## A round -/

/-- What is kept of a partition after one more candidate, when intervals without a demotion raise the
setpoint and the others lower it. -/
def counted (info : VantagePartInfo) : VantagePartInfo :=
  let cands := u32 (info.curIntervalCands + 1)
  if 256 ≤ cands then
    { info with
      setpointBts := adjustSetpoint info (if info.curIntervalDems = 0 then .increase else .decrease)
      curIntervalCands := 0, curIntervalIns := 0, curIntervalDems := 0 }
  else { info with curIntervalCands := cands }

def demoted (info : VantagePartInfo) : VantagePartInfo :=
  { info with curIntervalDems := u32 (info.curIntervalDems + 1) }

/-- The target of the partitions before there are any other -/
def firstTarget (c : VantageConfig) : Nat := c.targetManagedSize / c.partitions

/-- The aperture is so small just above the target that one demotion in an interval is too many. -/
structure Narrow (c : VantageConfig) : Prop where
  assoc : 2 ≤ c.assoc
  partitions : 2 ≤ c.partitions
  lines : c.totalSize ≤ 2 ^ 31
  target_pos : 0 < firstTarget c
  feedback : ∀ size dems, firstTarget c < size → size ≤ firstTarget c + 512 →
    c.feedback (firstTarget c) size 256 dems = some (if dems = 0 then .increase else .decrease)

variable {info : VantagePartInfo}

theorem counted_of_lt (more : info.curIntervalCands + 1 < 256) :
    counted info = { info with curIntervalCands := info.curIntervalCands + 1 } := by
  have noWrap : u32 (info.curIntervalCands + 1) = info.curIntervalCands + 1 := u32_of_lt (by omega)
  unfold counted
  dsimp only
  rw [noWrap, if_neg (Nat.not_le.mpr more)]

theorem counted_of_last (last : info.curIntervalCands = 255) : counted info = { info with
    setpointBts := adjustSetpoint info (if info.curIntervalDems = 0 then .increase else .decrease)
    curIntervalCands := 0, curIntervalIns := 0, curIntervalDems := 0 } := by
  unfold counted
  dsimp only
  rw [last]
  rfl

theorem counted_cands (cands : info.curIntervalCands < 256) : (counted info).curIntervalCands < 256 := by
  by_cases more : info.curIntervalCands + 1 < 256
  · rw [counted_of_lt more]
    exact more
  · rw [counted_of_last (by omega)]
    exact Nat.succ_pos 255

theorem countCandidate_counted {p : Nat} (narrow : Narrow c) (target : s.targetSize p = firstTarget c)
    (above : firstTarget c < s.size p) (close : s.size p ≤ firstTarget c + 512)
    (cands : (s.info p).curIntervalCands < 256) :
    s.countCandidate c p = some (s.setInfo p (counted (s.info p))) := by
  unfold countCandidate
  dsimp only
  by_cases more : (s.info p).curIntervalCands + 1 < 256
  · rw [counted_of_lt more, u32_of_lt (Nat.lt_trans more (by decide)), if_neg (Nat.not_le.mpr more)]
  · have last : (s.info p).curIntervalCands = 255 := by omega
    rw [counted_of_last last, last, target]
    have decides := narrow.feedback (s.size p) (s.info p).curIntervalDems above close
    have ends : 256 ≤ u32 (255 + 1) := by decide
    rw [if_pos ends, show u32 (255 + 1) = 256 from rfl, decides]
    rfl

/-! ## The run -/

/-- The partition 0 has its first lines up to `low`, and `young`, which is the youngest; from `fresh` on
lines are empty. -/
structure Stage (c : VantageConfig) (bts : Nat → Nat) (young : Nat) (s : Vantage)
    (info : VantagePartInfo) (low fresh : Nat) : Prop where
  noCands : s.candList = []
  settled : s.targetSize = s.longTermTargetSize
  target : s.targetSize 0 = firstTarget c
  ticking : 0 < s.timestamp
  info_eq : s.info 0 = info
  cands : info.curIntervalCands < 256
  size_gt : firstTarget c + low < s.size 0
  size_le : s.size 0 ≤ firstTarget c + 512
  size_lt : s.size 0 < 2 ^ 32
  lines : ∀ j, j < low ∨ j = young → (s.array j).ts ≠ 0 ∧ (s.array j).p = 0 ∧ (s.array j).bts = bts j
  empty : ∀ j, fresh ≤ j → (s.array j).ts = 0 ∧ (s.array j).p = c.partitions
  low_le : low ≤ young
  young_lt : young < fresh

variable {bts : Nat → Nat} {young low fresh : Nat} {t final : Vantage}

theorem Stage.fill (stage : Stage c bts young { t with candList := [] } info low fresh)
    (partitions : 2 ≤ c.partitions) (fills : Fills (t.replaced fresh) final fresh 1) :
    Stage c bts young final info low (fresh + 1) := by
  have isEmpty := (stage.empty fresh (Nat.le_refl fresh)).2
  have victim : 0 ≠ ((t.replaced fresh).array fresh).p := by
    simp only [replaced, setLine, Function.update_self]
    simp only at isEmpty
    omega
  have size := fills.otherSize 0 Nat.zero_ne_one victim
  have line : ∀ j, j ≠ fresh → final.array j = t.array j := fun j other => by
    rw [fills.others j other]
    simp [replaced, setLine, other]
  exact {
    noCands := fills.candList
    settled := by
      rw [fills.targets.1, fills.targets.2]
      exact stage.settled
    target := by
      rw [fills.targets.1]
      exact stage.target
    ticking := by
      rw [fills.timestamp]
      exact Nat.succ_pos _
    info_eq := (fills.otherInfo 0 Nat.zero_ne_one).trans stage.info_eq
    cands := stage.cands
    size_gt := by
      rw [size]
      exact stage.size_gt
    size_le := by
      rw [size]
      exact stage.size_le
    size_lt := by
      rw [size]
      exact stage.size_lt
    lines := by
      intro j kept
      have le := stage.low_le
      have lt := stage.young_lt
      rw [line j (by omega)]
      exact stage.lines j kept
    empty := by
      intro j later
      rw [line j (by omega)]
      exact stage.empty j (by omega)
    low_le := stage.low_le
    young_lt := Nat.lt_succ_of_lt stage.young_lt }

theorem Stage.considers (stage : Stage c bts young s info low fresh) (narrow : Narrow c) {x : Nat}
    (isLine : x < low ∨ x = young) {t : Vantage} (array : t.array = s.array) (infos : t.info = s.info)
    (size : t.size = s.size) (target : t.targetSize = s.targetSize) :
    t.considerDemotion c x = if belowSetpoint info (bts x) then (t.demote c x).countCandidate c 0
      else t.countCandidate c 0 := by
  obtain ⟨filled, inPart, isBts⟩ := stage.lines x isLine
  have partitions := narrow.partitions
  have pos := narrow.target_pos
  have gt := stage.size_gt
  have managed : (t.array x).p ≠ c.partitions := by
    rw [array, inPart]
    omega
  have large : ¬ u32 (t.size (t.array x).p) ≤ t.targetSize (t.array x).p := by
    rw [array, inPart, size, target, u32_of_lt stage.size_lt, stage.target]
    omega
  have isInfo : t.info (t.array x).p = info := by
    rw [array, inPart, infos]
    exact stage.info_eq
  unfold considerDemotion
  dsimp only
  rw [if_neg managed, if_neg large, isInfo, array, isBts, inPart, if_neg filled]

theorem Stage.misses {x : Nat} (noCands : s.candList = []) (narrow : Narrow c)
    (part : c.getPartition req = some 1) (bound : fresh < c.totalSize)
    (considered : considerDemotion c { s with
      incomingLineAddr := req.lineAddr, candList := [x] ++ [fresh] } x = some t)
    (filled : (t.array x).ts ≠ 0) (stage : Stage c bts young { t with candList := [] } info low fresh) :
    ∃ s', (machine c).exec (miss [x] fresh req) s = some s' ∧ Stage c bts young s' info low (fresh + 1) := by
  obtain ⟨empty, unmanaged⟩ := stage.empty fresh (Nat.le_refl fresh)
  have elsewhere : (t.array fresh).p ≠ 1 := by
    have partitions := narrow.partitions
    simp only at unmanaged
    omega
  have loop : [x].foldlM (considerDemotion c) { s with
      incomingLineAddr := req.lineAddr, candList := [x] ++ [fresh] } = some t := by
    simp only [List.foldlM_cons, considered]
    rfl
  have allFilled : ∀ y ∈ [x], (t.array y).ts ≠ 0 := fun y member =>
    List.mem_singleton.mp member ▸ filled
  have small := Nat.lt_of_lt_of_le bound narrow.lines
  have room : [x].length + 1 ≤ c.assoc := narrow.assoc
  obtain ⟨s', run, fills⟩ := miss_fills noCands room bound small loop allFilled empty elsewhere
    stage.settled part narrow.partitions
  exact ⟨s', run, stage.fill narrow.partitions fills⟩

theorem Stage.stays (stage : Stage c bts young s info low fresh) (narrow : Narrow c)
    (part : c.getPartition req = some 1) (bound : fresh < c.totalSize)
    (above : belowSetpoint info (bts young) = false) :
    ∃ s', (machine c).exec (miss [young] fresh req) s = some s' ∧
      Stage c bts young s' (counted info) low (fresh + 1) := by
  have considered : ∀ t : Vantage, t.array = s.array → t.info = s.info → t.size = s.size →
      t.targetSize = s.targetSize → t.considerDemotion c young = some (t.setInfo 0 (counted info)) := by
    intro t array infos size target
    have isInfo : t.info 0 = info := infos ▸ stage.info_eq
    have exceeds : firstTarget c < t.size 0 := size ▸ Nat.lt_of_add_right_lt stage.size_gt
    have close : t.size 0 ≤ firstTarget c + 512 := size ▸ stage.size_le
    rw [stage.considers narrow (.inr rfl) array infos size target, above, if_neg Bool.false_ne_true,
      countCandidate_counted narrow (target ▸ stage.target) exceeds close (isInfo ▸ stage.cands), isInfo]
  apply Stage.misses stage.noCands narrow part bound (considered _ rfl rfl rfl rfl)
  · exact (stage.lines young (.inr rfl)).1
  · exact { stage with
      noCands := rfl
      info_eq := by simp [setInfo]
      cands := counted_cands stage.cands }

theorem Stage.demotes (stage : Stage c bts young s info (low + 1) fresh) (narrow : Narrow c)
    (part : c.getPartition req = some 1) (bound : fresh < c.totalSize)
    (below : belowSetpoint info (bts low) = true) :
    ∃ s', (machine c).exec (miss [low] fresh req) s = some s' ∧
      Stage c bts young s' (counted (demoted info)) low (fresh + 1) := by
  have partitions := narrow.partitions
  have inPart := (stage.lines low (.inl (Nat.lt_succ_self low))).2.1
  have notYoung := stage.low_le
  have notFresh := stage.young_lt
  have gt := stage.size_gt
  have le := stage.size_le
  have lt := stage.size_lt
  have demotion : ∀ t : Vantage, t.array = s.array → t.info = s.info → t.size = s.size →
      ((t.demote c low).info 0 = demoted info ∧ (t.demote c low).size 0 = s.size 0 - 1) := by
    intro t array infos size
    have notUnmanaged : 0 ≠ c.partitions := by omega
    constructor
    · rw [demote, array, inPart]
      simp [setInfo, setLine, demoted, infos, stage.info_eq]
    · have word : s.size 0 < 2 ^ 64 := Nat.lt_trans lt (by decide)
      rw [demote, array, inPart]
      simp only [setInfo, incr, decr, size, Function.update_of_ne notUnmanaged, Function.update_self]
      exact u64Sub_of_le word (by omega)
  have considered : ∀ t : Vantage, t.array = s.array → t.info = s.info → t.size = s.size →
      t.targetSize = s.targetSize → t.considerDemotion c low =
        some ((t.demote c low).setInfo 0 (counted (demoted info))) := by
    intro t array infos size target
    obtain ⟨isInfo, isSize⟩ := demotion t array infos size
    have above : firstTarget c < (t.demote c low).size 0 := by omega
    have close : (t.demote c low).size 0 ≤ firstTarget c + 512 := by omega
    have sameTarget : (t.demote c low).targetSize 0 = firstTarget c := (congrFun target 0).trans stage.target
    rw [stage.considers narrow (.inl (Nat.lt_succ_self low)) array infos size target, below, if_pos rfl,
      countCandidate_counted narrow sameTarget above close (isInfo ▸ stage.cands), isInfo]
  have line : ∀ j, j ≠ low → ∀ t : Vantage, t.array = s.array → (t.demote c low).array j = s.array j := by
    intro j other t array
    rw [← array]
    simp [demote, setInfo, setLine, other]
  obtain ⟨isInfo, isSize⟩ := demotion { s with
    incomingLineAddr := req.lineAddr, candList := [low] ++ [fresh] } rfl rfl rfl
  apply Stage.misses stage.noCands narrow part bound (considered _ rfl rfl rfl rfl)
  · have filled := (stage.lines low (.inl (Nat.lt_succ_self low))).1
    simpa [demote, setInfo, setLine] using filled
  · exact {
      noCands := rfl
      settled := stage.settled
      target := stage.target
      ticking := stage.ticking
      info_eq := by simp [setInfo]
      cands := counted_cands stage.cands
      size_gt := by
        have gt' : firstTarget c + low < s.size 0 - 1 := by omega
        exact isSize ▸ gt'
      size_le := by
        have le' : s.size 0 - 1 ≤ firstTarget c + 512 := by omega
        exact isSize ▸ le'
      size_lt := by
        have lt' : s.size 0 - 1 < 2 ^ 32 := by omega
        exact isSize ▸ lt'
      lines := by
        intro j kept
        have same := line j (by omega) { s with
          incomingLineAddr := req.lineAddr, candList := [low] ++ [fresh] } rfl
        have was := stage.lines j (kept.imp_left Nat.lt_succ_of_lt)
        rw [← same] at was
        exact was
      empty := by
        intro j later
        have same := line j (by omega) { s with
          incomingLineAddr := req.lineAddr, candList := [low] ++ [fresh] } rfl
        have was := stage.empty j later
        rw [← same] at was
        exact was
      low_le := Nat.le_of_succ_le notYoung
      young_lt := notFresh }

/-! ## Intervals -/

/-- Misses with these candidates, one each, that fill the lines from `fresh` on -/
def misses (req : MemReq) : List Nat → Nat → List Op
  | [], _ => []
  | x :: rest, fresh => miss [x] fresh req ++ misses req rest (fresh + 1)

theorem exec_misses_append (req : MemReq) (xs ys : List Nat) (fresh : Nat) (s : Vantage) :
    (machine c).exec (misses req (xs ++ ys) fresh) s =
      ((machine c).exec (misses req xs fresh) s).bind
        ((machine c).exec (misses req ys (fresh + xs.length))) := by
  induction xs generalizing fresh s with
  | nil => rfl
  | cons x rest ih =>
      rw [List.cons_append, misses, misses, Machine.exec_append, Machine.exec_append, Option.bind_assoc,
        List.length_cons, Nat.add_comm rest.length 1, ← Nat.add_assoc]
      congr 1
      funext mid
      exact ih (fresh + 1) mid

/-- The partition 0 can be brought from one stage to another by these candidates. -/
def Leads (c : VantageConfig) (req : MemReq) (bts : Nat → Nat) (young : Nat) (xs : List Nat)
    (info : VantagePartInfo) (low : Nat) (info' : VantagePartInfo) (low' : Nat) : Prop :=
  ∀ s fresh, Stage c bts young s info low fresh → fresh + xs.length ≤ c.totalSize →
    ∃ s', (machine c).exec (misses req xs fresh) s = some s' ∧
      Stage c bts young s' info' low' (fresh + xs.length)

variable {info' info'' : VantagePartInfo} {low' low'' : Nat} {ys : List Nat}

theorem Leads.nil (c : VantageConfig) (req : MemReq) (bts : Nat → Nat) (young : Nat) (info : VantagePartInfo)
    (low : Nat) : Leads c req bts young [] info low info low :=
  fun s _ stage _ => ⟨s, rfl, stage⟩

theorem Leads.append (first : Leads c req bts young xs info low info' low')
    (second : Leads c req bts young ys info' low' info'' low'') :
    Leads c req bts young (xs ++ ys) info low info'' low'' := by
  intro s fresh stage room
  rw [List.length_append, ← Nat.add_assoc] at room
  obtain ⟨mid, run, stage⟩ := first s fresh stage (Nat.le_of_add_right_le room)
  obtain ⟨s', run', stage⟩ := second mid _ stage room
  refine ⟨s', ?_, ?_⟩
  · rw [exec_misses_append, run]
    exact run'
  · rw [List.length_append, ← Nat.add_assoc]
    exact stage

theorem Leads.stays (narrow : Narrow c) (part : c.getPartition req = some 1)
    (above : belowSetpoint info (bts young) = false) :
    Leads c req bts young [young] info low (counted info) low := by
  intro s fresh stage room
  obtain ⟨s', run, stage⟩ := stage.stays narrow part room above
  refine ⟨s', ?_, stage⟩
  rw [misses, misses, List.append_nil]
  exact run

theorem Leads.demotes (narrow : Narrow c) (part : c.getPartition req = some 1)
    (below : belowSetpoint info (bts low) = true) :
    Leads c req bts young [low] info (low + 1) (counted (demoted info)) low := by
  intro s fresh stage room
  obtain ⟨s', run, stage⟩ := stage.demotes narrow part room below
  refine ⟨s', ?_, stage⟩
  rw [misses, misses, List.append_nil]
  exact run

theorem Leads.stay (narrow : Narrow c) (part : c.getPartition req = some 1) (n : Nat)
    (more : info.curIntervalCands + n < 256) (above : belowSetpoint info (bts young) = false) :
    Leads c req bts young (List.replicate n young) info low
      { info with curIntervalCands := info.curIntervalCands + n } low := by
  induction n with
  | zero => exact Leads.nil c req bts young info low
  | succ n ih =>
      rw [List.replicate_succ']
      have last : Leads c req bts young [young] { info with
          curIntervalCands := info.curIntervalCands + n } low _ low := Leads.stays narrow part above
      rw [counted_of_lt (by simp only; omega)] at last
      exact (ih (by omega)).append last

theorem Leads.demote (narrow : Narrow c) (part : c.getPartition req = some 1) (n : Nat)
    (cands : info.curIntervalCands = 0) (dems : info.curIntervalDems = 0) (more : n < 256)
    (below : ∀ bts, belowSetpoint info bts = true) (low : Nat) :
    Leads c req bts young ((List.range' low n).reverse) info (low + n)
      { info with curIntervalCands := n, curIntervalDems := n } low := by
  induction n generalizing low with
  | zero =>
      have same : { info with curIntervalCands := 0, curIntervalDems := 0 } = info := by
        cases info
        simp only at cands dems
        rw [cands, dems]
      rw [same]
      exact Leads.nil c req bts young info low
  | succ n ih =>
      have last : Leads c req bts young [low] { info with
          curIntervalCands := n, curIntervalDems := n } (low + 1) _ low :=
        Leads.demotes narrow part (below (bts low))
      rw [counted_of_lt (by simp only [demoted]; omega)] at last
      simp only [demoted, u32_of_lt (show n + 1 < 2 ^ 32 by omega)] at last
      rw [List.range'_succ, List.reverse_cons, Nat.add_comm n 1, ← Nat.add_assoc, Nat.add_comm 1 n]
      exact (ih (by omega) (low + 1)).append last

/-- The setpoint of a partition whose intervals all had a demotion so far -/
def lowered (info : VantagePartInfo) : VantagePartInfo :=
  { info with
    setpointBts := adjustSetpoint info .decrease
    curIntervalCands := 0, curIntervalIns := 0, curIntervalDems := 0 }

theorem Leads.first (narrow : Narrow c) (part : c.getPartition req = some 1)
    (cands : info.curIntervalCands = 0) (dems : info.curIntervalDems = 0)
    (below : ∀ bts, belowSetpoint info bts = true) (low : Nat) :
    Leads c req bts young ((List.range' low 256).reverse) info (low + 256) (lowered info) low := by
  have before : Leads c req bts young _ info (low + 1 + 255) _ (low + 1) :=
    Leads.demote narrow part 255 cands dems (by decide) below (low + 1)
  have last : Leads c req bts young [low] { info with
      curIntervalCands := 255, curIntervalDems := 255 } (low + 1) _ low :=
    Leads.demotes narrow part (below (bts low))
  rw [counted_of_last rfl] at last
  rw [List.range'_succ, List.reverse_cons, show low + 256 = low + 1 + 255 by omega]
  exact before.append last

theorem Leads.interval (narrow : Narrow c) (part : c.getPartition req = some 1)
    (cands : info.curIntervalCands = 0) (dems : info.curIntervalDems = 0)
    (below : belowSetpoint info (bts low) = true) (above : belowSetpoint info (bts young) = false) :
    Leads c req bts young (low :: (List.replicate 254 young ++ [young])) info (low + 1) (lowered info) low := by
  have first : Leads c req bts young [low] info (low + 1) _ low := Leads.demotes narrow part below
  rw [counted_of_lt (by simp only [demoted, cands]; decide)] at first
  simp only [demoted, cands, dems] at first
  have middle : Leads c req bts young (List.replicate 254 young) { info with
      curIntervalCands := 1, curIntervalDems := 1 } low _ low :=
    Leads.stay narrow part 254 (Nat.lt_succ_self 255) above
  have last : Leads c req bts young [young] { info with
      curIntervalCands := 255, curIntervalDems := 1 } low _ low := Leads.stays narrow part above
  rw [counted_of_last rfl] at last
  exact first.append (middle.append last)

/-! ## The first lines -/

/-- What is kept of partition 0 after its first `n` lines. -/
def grown : Nat → VantagePartInfo
  | 0 => ⟨0, 0, 0, 0, 0, 0⟩
  | n + 1 => tick (n + 1) (insert (grown n))

/-- The first `n` lines were filled by partition 0. -/
structure Growing (c : VantageConfig) (s : Vantage) (n : Nat) : Prop where
  noCands : s.candList = []
  settled : s.targetSize = s.longTermTargetSize
  target : s.targetSize 0 = firstTarget c
  ticking : 0 < s.timestamp
  info_eq : s.info 0 = grown n
  size_eq : s.size 0 = n
  lines : ∀ j, j < n → (s.array j).ts ≠ 0 ∧ (s.array j).p = 0 ∧ (s.array j).bts = (grown j).curBts
  empty : ∀ j, n ≤ j → (s.array j).ts = 0 ∧ (s.array j).p = c.partitions

def fills (req : MemReq) (n : Nat) : List Op := (List.range n).flatMap fun j => miss [] j req

theorem fills_succ (req : MemReq) (n : Nat) : fills req (n + 1) = fills req n ++ miss [] n req := by
  rw [fills, List.range_succ, List.flatMap_append, List.flatMap_singleton]
  rfl

theorem Growing.miss {n : Nat} (growing : Growing c s n) (narrow : Narrow c)
    (part : c.getPartition req = some 0) (bound : n < c.totalSize) :
    ∃ s', (machine c).exec (Vantage.miss [] n req) s = some s' ∧ Growing c s' (n + 1) := by
  obtain ⟨isEmpty, unmanaged⟩ := growing.empty n (Nat.le_refl n)
  have partitions := narrow.partitions
  have small := Nat.lt_of_lt_of_le bound narrow.lines
  have room : ([] : List Nat).length + 1 ≤ c.assoc := Nat.le_of_succ_le narrow.assoc
  have none : ([] : List Nat).foldlM (considerDemotion c) { s with
    incomingLineAddr := req.lineAddr, candList := [] ++ [n] } = some { s with
      incomingLineAddr := req.lineAddr, candList := [n] } := rfl
  obtain ⟨s', run, fills⟩ := miss_fills growing.noCands room bound small none
    (fun x member => absurd member List.not_mem_nil) isEmpty (unmanaged ▸ by omega) growing.settled part
    (by omega)
  have word : u64 (n + 1) = n + 1 := u64_of_lt (by omega)
  have info := fills.info
  have size := fills.size
  have line := fills.line
  simp only [replaced, setLine, growing.info_eq, growing.size_eq, word] at info size line
  have others : ∀ j, j ≠ n → s'.array j = s.array j := by
    intro j other
    rw [fills.others j other]
    simp [replaced, setLine, other]
  refine ⟨s', run, ?_⟩
  exact {
    noCands := fills.candList
    settled := by
      rw [fills.targets.1, fills.targets.2]
      exact growing.settled
    target := by
      rw [fills.targets.1]
      exact growing.target
    ticking := by
      rw [fills.timestamp]
      exact Nat.succ_pos _
    info_eq := info
    size_eq := size
    lines := by
      intro j lt
      rcases Nat.lt_succ_iff_lt_or_eq.mp lt with old | isNew
      · rw [others j (Nat.ne_of_lt old)]
        exact growing.lines j old
      · subst isNew
        refine ⟨?_, line.2.1, line.2.2⟩
        rw [line.1]
        exact Nat.ne_of_gt growing.ticking
    empty := by
      intro j later
      rw [others j (by omega)]
      exact growing.empty j (by omega) }

theorem Growing.fills (growing : Growing c s 0) (narrow : Narrow c)
    (part : c.getPartition req = some 0) (n : Nat) (bound : n ≤ c.totalSize) :
    ∃ s', (machine c).exec (Vantage.fills req n) s = some s' ∧ Growing c s' n := by
  induction n with
  | zero => exact ⟨s, rfl, growing⟩
  | succ n ih =>
      obtain ⟨mid, run, growing⟩ := ih (Nat.le_of_succ_le bound)
      obtain ⟨s', run', growing⟩ := growing.miss narrow part bound
      refine ⟨s', ?_, growing⟩
      rw [fills_succ, Machine.exec_append, run, Option.bind_some, run']

theorem Growing.start (narrow : Narrow c) : Growing c (init c) 0 := by
  have partitions := narrow.partitions
  have managed : 0 ≠ c.partitions := by omega
  exact {
    noCands := rfl
    settled := rfl
    target := by simp [init, firstTarget, managed]
    ticking := Nat.one_pos
    info_eq := rfl
    size_eq := by simp [init, managed]
    lines := fun j lt => absurd lt (Nat.not_lt_zero j)
    empty := fun j _ => ⟨rfl, rfl⟩ }

theorem grown_clocks (n : Nat) (small : n < 2 ^ 32) : (grown n).curBts ≤ n ∧
    (grown n).setpointBts = (grown n).curBts ∧ (grown n).curIntervalCands = 0 ∧
    (grown n).curIntervalDems = 0 := by
  induction n with
  | zero => exact ⟨Nat.le_refl 0, rfl, rfl, rfl⟩
  | succ n ih =>
      obtain ⟨le, setpoint, cands, dems⟩ := ih (Nat.lt_of_succ_lt small)
      simp only [grown, tick]
      split
      case isTrue =>
        refine ⟨?_, ?_, cands, dems⟩
        · simp only [insert]
          rw [u64_of_lt (by omega)]
          omega
        · simp only [insert, setpoint]
      case isFalse => exact ⟨Nat.le_succ_of_le le, setpoint, cands, dems⟩

/-! ## Ahead -/

/-- One interval for each of the first lines -/
def descent (young : Nat) : Nat → List Nat
  | 0 => []
  | low + 1 => (low :: (List.replicate 254 young ++ [young])) ++ descent young low

/-- The setpoint is below the first lines, of which there are `low`. -/
structure Below (cur low : Nat) (info : VantagePartInfo) : Prop where
  cur_eq : info.curBts = cur
  setpoint_eq : info.setpointBts = u64Sub low 1
  cands : info.curIntervalCands = 0
  dems : info.curIntervalDems = 0

theorem Below.setpoint {cur : Nat} (below : Below cur (low + 1) info) (small : low < 2 ^ 32) :
    info.setpointBts = low := by
  rw [below.setpoint_eq, u64Sub_of_le (by omega) (Nat.le_add_left 1 low), Nat.add_sub_cancel]

theorem Below.lowered {cur : Nat} (below : Below cur (low + 1) info) (le : low < cur) (byte : cur < 255) :
    Below cur low (lowered info) := by
  have setpoint := below.setpoint (by omega)
  have room : u64Sub info.curBts info.setpointBts < 255 := by
    rw [below.cur_eq, setpoint, u64Sub_of_le (by omega) (by omega)]
    omega
  have moved : adjustSetpoint info .decrease = u64Sub low 1 := by
    simp only [adjustSetpoint]
    rw [if_pos room, setpoint]
  rw [Vantage.lowered]
  exact { cur_eq := below.cur_eq, setpoint_eq := moved, cands := rfl, dems := rfl }

theorem belowSetpoint_iff {cur setpoint ts : Nat} (cur_eq : info.curBts = cur)
    (setpoint_eq : info.setpointBts = setpoint) (byte : cur < 255) (le : setpoint ≤ cur) (tsLe : ts ≤ cur) :
    belowSetpoint info ts = true ↔ ts ≤ setpoint := by
  rw [belowSetpoint, cur_eq, setpoint_eq, decide_eq_true_iff, u64Sub_of_le (by omega) le,
    u64Sub_of_le (by omega) tsLe]
  omega

theorem Below.descends {cur : Nat} (below : Below cur low info) (narrow : Narrow c)
    (part : c.getPartition req = some 1) (le : low ≤ cur) (byte : cur < 255)
    (lines : ∀ j, j ≤ cur → bts j ≤ j) (isYoung : bts young = cur) :
    ∃ info', Below cur 0 info' ∧ Leads c req bts young (descent young low) info low info' 0 := by
  induction low generalizing info with
  | zero => exact ⟨info, below, Leads.nil c req bts young info 0⟩
  | succ low ih =>
      have setpoint := below.setpoint (by omega)
      have lowLe := Nat.le_of_succ_le le
      have isBelow : belowSetpoint info (bts low) = true := by
        have atMost := lines low lowLe
        exact (belowSetpoint_iff below.cur_eq setpoint byte lowLe (Nat.le_trans atMost lowLe)).mpr atMost
      have isAbove : belowSetpoint info (bts young) = false := by
        have notBelow := mt (belowSetpoint_iff below.cur_eq setpoint byte lowLe (Nat.le_refl cur)).mp
          (Nat.not_le.mpr le)
        rw [isYoung]
        exact Bool.eq_false_iff.mpr notBelow
      obtain ⟨info', below', leads⟩ := ih (below.lowered le byte) lowLe
      exact ⟨info', below', (Leads.interval narrow part below.cands below.dems isBelow isAbove).append leads⟩

/-- All candidates but the last -/
def candidates (young cur : Nat) : List Nat :=
  (List.range' cur 256).reverse ++ descent young cur ++ List.replicate 255 young

theorem length_descent (young low : Nat) : (descent young low).length = 256 * low := by
  induction low with
  | zero => rfl
  | succ low ih =>
      rw [descent, List.length_append, ih, List.length_cons, List.length_append, List.length_replicate,
        List.length_singleton]
      omega

theorem length_candidates (young cur : Nat) : (candidates young cur).length = 256 * cur + 511 := by
  rw [candidates, List.length_append, List.length_append, List.length_reverse, List.length_range',
    length_descent, List.length_replicate]
  omega

/-- The setpoint has been lowered once more than the timestamp was raised, and an interval without a
demotion is about to end. -/
structure AboutToRaise (cur : Nat) (info : VantagePartInfo) : Prop where
  cur_eq : info.curBts = cur
  setpoint_eq : info.setpointBts = 2 ^ 64 - 1
  cands : info.curIntervalCands = 255
  dems : info.curIntervalDems = 0

theorem u64Sub_ahead {cur : Nat} (byte : cur < 255) : u64Sub cur (2 ^ 64 - 1) = cur + 1 := by
  rw [u64Sub, show cur + 2 ^ 64 - (2 ^ 64 - 1) = cur + 1 by omega, u64_of_lt (by omega)]

/-- The youngest line is never below a setpoint that is ahead by 1. -/
theorem above_of_ahead {cur : Nat} (cur_eq : info.curBts = cur) (setpoint_eq : info.setpointBts = 2 ^ 64 - 1)
    (byte : cur < 255) : belowSetpoint info cur = false := by
  rw [belowSetpoint, cur_eq, setpoint_eq, u64Sub_ahead byte, u64Sub_of_le (by omega) (Nat.le_refl cur)]
  exact decide_eq_false (by omega)

theorem leads_aboutToRaise {cur : Nat} (narrow : Narrow c) (part : c.getPartition req = some 1)
    (start : info.curBts = cur ∧ info.setpointBts = cur ∧ info.curIntervalCands = 0 ∧ info.curIntervalDems = 0)
    (byte : cur < 255) (lines : ∀ j, j ≤ cur → bts j ≤ j) (isYoung : bts young = cur) :
    ∃ info', AboutToRaise cur info' ∧
      Leads c req bts young (candidates young cur) info (cur + 256) info' 0 := by
  obtain ⟨cur_eq, setpoint_eq, cands, dems⟩ := start
  have allBelow : ∀ ts, belowSetpoint info ts = true := by
    intro ts
    rw [belowSetpoint, cur_eq, setpoint_eq, u64Sub_of_le (by omega) (Nat.le_refl cur), Nat.sub_self]
    exact decide_eq_true (Nat.zero_le _)
  have first : Leads c req bts young _ info (cur + 256) (Vantage.lowered info) cur :=
    Leads.first narrow part cands dems allBelow cur
  have once : Below cur cur (Vantage.lowered info) := by
    have moved : adjustSetpoint info .decrease = u64Sub cur 1 := by
      have room : u64Sub cur cur < 255 := by
        rw [u64Sub_of_le (by omega) (Nat.le_refl cur)]
        omega
      simp only [adjustSetpoint, cur_eq, setpoint_eq]
      rw [if_pos room]
    rw [Vantage.lowered]
    exact { cur_eq := cur_eq, setpoint_eq := moved, cands := rfl, dems := rfl }
  obtain ⟨last, below, descends⟩ := once.descends narrow part (Nat.le_refl cur) byte lines isYoung
  have wrapped : last.setpointBts = 2 ^ 64 - 1 := by
    rw [below.setpoint_eq]
    decide
  have above : belowSetpoint last (bts young) = false := by
    rw [isYoung]
    exact above_of_ahead below.cur_eq wrapped byte
  have cands := below.cands
  have stays : Leads c req bts young (List.replicate 255 young) last 0 _ 0 :=
    Leads.stay narrow part 255 (by omega) above
  refine ⟨_, ?_, (first.append descends).append stays⟩
  exact { cur_eq := below.cur_eq, setpoint_eq := wrapped, cands := by rw [cands], dems := below.dems }

/-- When the interval ends the feedback is to raise the setpoint, which is ahead. -/
theorem Stage.not_notAhead {cur : Nat} (stage : Stage c bts young s info low fresh) (narrow : Narrow c)
    (about : AboutToRaise cur info) (byte : cur < 255) (isYoung : bts young = cur)
    (array : t.array = s.array) (infos : t.info = s.info) (size : t.size = s.size)
    (target : t.targetSize = s.targetSize) : ¬ NotAhead c t young := by
  intro notAhead
  obtain ⟨filled, inPart, isBts⟩ := stage.lines young (.inr rfl)
  have partitions := narrow.partitions
  have pos := narrow.target_pos
  have gt := stage.size_gt
  have counts : ¬ ((t.array young).ts = 0 ∨ (t.array young).p = c.partitions ∨
      u32 (t.size (t.array young).p) ≤ t.targetSize (t.array young).p) := by
    rw [array, inPart, size, target, u32_of_lt stage.size_lt, stage.target]
    omega
  have isInfo : t.info 0 = info := infos ▸ stage.info_eq
  have above : belowSetpoint info cur = false := above_of_ahead about.cur_eq about.setpoint_eq byte
  have raises : c.feedback (t.targetSize 0) (t.size 0) 256 0 = some .increase := by
    rw [target, stage.target, size]
    exact narrow.feedback _ 0 (Nat.lt_of_add_right_lt gt) stage.size_le
  have decides : decided c t young = some (0, .increase) := by
    unfold decided
    dsimp only
    rw [if_neg counts, array, inPart, isBts, isYoung, isInfo, above, if_neg Bool.false_ne_true, isInfo,
      about.cands, about.dems]
    have ends : u32 (255 + 1) = 256 := by decide
    rw [ends, if_pos (Nat.le_refl 256), raises]
    rfl
  have behind := notAhead 0 decides
  rw [isInfo, VantagePartInfo.distance, about.cur_eq, about.setpoint_eq, u64Sub_ahead byte] at behind
  have absurd := behind (Nat.succ_ne_zero cur)
  omega

theorem AllNear.exec (near : AllNear s) {ops : List Op} (run : (machine c).exec ops s = some next) :
    AllNear next := by
  rw [Machine.exec_eq_foldlM] at run
  exact foldlM_keeps AllNear (fun op _ _ _ near step => near.step step) near run

theorem Growing.stage {n cur : Nat} (growing : Growing c s n) (last : cur + 256 < n)
    (above : firstTarget c + (cur + 256) < n) (close : n ≤ firstTarget c + 512) (small : n < 2 ^ 32) :
    Stage c (fun j => (grown j).curBts) (n - 1) s (grown n) (cur + 256) n := by
  have size := growing.size_eq
  have notYoung : cur + 256 ≤ n - 1 := Nat.le_sub_one_of_lt last
  have youngLt : n - 1 < n := Nat.sub_one_lt_of_lt last
  exact {
    noCands := growing.noCands
    settled := growing.settled
    target := growing.target
    ticking := growing.ticking
    info_eq := growing.info_eq
    cands := by
      rw [(grown_clocks n small).2.2.1]
      decide
    size_gt := size ▸ above
    size_le := size ▸ close
    size_lt := by
      rw [size]
      exact small
    lines := fun j kept => growing.lines j
      (kept.elim (fun old => Nat.lt_trans old last) fun isYoung => isYoung ▸ youngLt)
    empty := growing.empty
    low_le := notYoung
    young_lt := youngLt }

/-- The run in which the setpoint of partition 0 gets ahead -/
def aheadOps (req req' : MemReq) (n cur : Nat) : List Op :=
  fills req n ++ (misses req' (candidates (n - 1) cur) n ++ miss [n - 1] (n + (256 * cur + 511)) req')

/-- With a narrow aperture the run gets a setpoint ahead. -/
theorem not_controlled (narrow : Narrow c) {req req' : MemReq} {n cur : Nat} {ops : List Op}
    (isOps : aheadOps req req' n cur = ops)
    (part : c.getPartition req = some 0) (part' : c.getPartition req' = some 1)
    (isCur : (grown n).curBts = cur) (isYoung : (grown (n - 1)).curBts = cur) (byte : cur < 255)
    (above : firstTarget c + (cur + 256) < n) (close : n ≤ firstTarget c + 512)
    (room : n + (256 * cur + 511) ≤ c.totalSize) :
    ¬ (machine c).Along (Controlled c) ops (init c) := by
  intro along
  rw [← isOps] at along
  have last : cur + 256 < n := Nat.lt_of_le_of_lt (Nat.le_add_left _ _) above
  have small : n < 2 ^ 32 := by
    have lines := narrow.lines
    omega
  obtain ⟨s, run, growing⟩ := (Growing.start narrow).fills narrow part n (Nat.le_of_add_right_le room)
  have clocks := grown_clocks n small
  obtain ⟨info, about, leads⟩ := leads_aboutToRaise narrow part' ⟨isCur, clocks.2.1.trans isCur, clocks.2.2⟩
    byte (fun j le => (grown_clocks j (by omega)).1) isYoung
  rw [← length_candidates (n - 1)] at room
  obtain ⟨s', run', stage⟩ := leads s n (growing.stage last above close small) room
  rw [length_candidates] at stage
  have near := ((AllNear.start c).exec run).exec run'
  have along := (along.append_right run).append_right run'
  obtain ⟨t, isT⟩ : ∃ t : Vantage, { s' with
    incomingLineAddr := req'.lineAddr, candList := [n - 1] ++ [n + (256 * cur + 511)] } = t := ⟨_, rfl⟩
  have started : (machine c).exec (.startReplacement req' ::
      ([n - 1] ++ [n + (256 * cur + 511)]).map .recordCandidate) s' = some t := by
    have step : (machine c).step s' (.startReplacement req') = some (s'.startReplacement req') := rfl
    have fits : (s'.startReplacement req').candList.length + 2 ≤ c.assoc := by
      simpa [startReplacement, stage.noCands] using narrow.assoc
    rw [Machine.exec_cons, step, Option.bind_some, exec_recordCandidate _ _ fits, ← isT]
    simp [startReplacement, stage.noCands]
  have same : t.array = s'.array ∧ t.info = s'.info ∧ t.size = s'.size ∧ t.targetSize = s'.targetSize ∧
      t.candList = [n - 1, n + (256 * cur + 511)] := by
    subst isT
    exact ⟨rfl, rfl, rfl, rfl, rfl⟩
  obtain ⟨array, infos, size, target, cands⟩ := same
  have parts : (machine c).Along (Controlled c) ((.startReplacement req' ::
      ([n - 1] ++ [n + (256 * cur + 511)]).map .recordCandidate) ++
      [.getBestCandidate, .replaced (n + (256 * cur + 511)), .update (n + (256 * cur + 511)) req']) s' := along
  have controlled := (parts.append_right started).1.1
  rw [cands] at controlled
  have near' := near.exec started
  exact stage.not_notAhead narrow about byte isYoung array infos size target
    ((near'.steered_iff c (n - 1)).mp controlled.1)

/-! ## The timestamp while a partition grows -/

theorem tick_of_le {size : Nat} (ends : u32 size / 16 ≤ u32 (info.curBtsHits + 1)) :
    tick size info = { info with
      curBts := u64 (info.curBts + 1), setpointBts := u64 (info.setpointBts + 1), curBtsHits := 0 } :=
  if_pos ends

theorem tick_of_gt {size : Nat} (goesOn : u32 (info.curBtsHits + 1) < u32 size / 16) :
    tick size info = { info with curBtsHits := u32 (info.curBtsHits + 1) } :=
  if_neg (Nat.not_le.mpr goesOn)

/-- The size at which the timestamp is `b` for the first time -/
def turns : Nat → Nat
  | 0 => 0
  | b + 1 => turns b + ((turns b - 16) / 15 + 1)

theorem grown_turns (b j : Nat) (more : j ≤ (turns b - 16) / 15) (small : turns b + j < 2 ^ 32) :
    (grown (turns b + j)).curBts = b ∧ (grown (turns b + j)).curBtsHits = j := by
  induction b generalizing j with
  | zero =>
      have none : j = 0 := by simpa [turns] using more
      subst none
      exact ⟨rfl, rfl⟩
  | succ b ih =>
      induction j with
      | zero =>
          obtain ⟨size, isSize⟩ : ∃ size, turns b + (turns b - 16) / 15 = size := ⟨_, rfl⟩
          have isTurn : turns (b + 1) = size + 1 := by rw [turns, ← isSize, Nat.add_assoc]
          rw [isTurn, Nat.add_zero] at small
          obtain ⟨cur, hits⟩ := ih ((turns b - 16) / 15) (Nat.le_refl _) (isSize ▸ Nat.lt_of_succ_lt small)
          rw [isSize] at cur hits
          have le : (grown size).curBts ≤ size := (grown_clocks size (Nat.lt_of_succ_lt small)).1
          have ends : u32 (size + 1) / 16 ≤ u32 ((insert (grown size)).curBtsHits + 1) := by
            rw [insert, hits, u32_of_lt small, u32_of_lt (by omega)]
            omega
          have word : b + 1 < 2 ^ 64 := by
            rw [cur] at le
            omega
          rw [isTurn, Nat.add_zero, grown, tick_of_le ends]
          simp only [insert, cur, u64_of_lt word, and_self]
      | succ j ih' =>
          obtain ⟨cur, hits⟩ := ih' (Nat.le_of_succ_le more) (Nat.lt_of_succ_lt small)
          obtain ⟨size, isSize⟩ : ∃ size, turns (b + 1) + j = size := ⟨_, rfl⟩
          rw [← Nat.add_assoc, isSize] at small ⊢
          rw [isSize] at cur hits
          have word : u32 (j + 1) = j + 1 := u32_of_lt (by omega)
          have goesOn : u32 ((insert (grown size)).curBtsHits + 1) < u32 (size + 1) / 16 := by
            rw [insert, hits, u32_of_lt small, word]
            omega
          rw [grown, tick_of_gt goesOn]
          simp only [insert, cur, hits, word, and_self]

theorem grown_curBts {b n : Nat} (le : turns b ≤ n) (lt : n < turns (b + 1)) (small : n < 2 ^ 32) :
    (grown n).curBts = b := by
  obtain ⟨j, isSize⟩ := Nat.exists_eq_add_of_le le
  have more : j ≤ (turns b - 16) / 15 := by
    rw [turns] at lt
    omega
  rw [isSize] at small ⊢
  exact (grown_turns b j more small).1

/-! ## A bank of two partitions -/

theorem legal_miss (lines : ∀ x ∈ xs, x < c.totalSize) (bound : v < c.totalSize) (lt : q < c.partitions)
    (part : c.getPartition req = some q) : ∀ op ∈ miss xs v req, Legal c op := by
  intro op member
  simp only [miss, List.mem_cons, List.mem_append, List.mem_map, List.not_mem_nil, or_false] at member
  obtain rfl | ⟨x, isCand, rfl⟩ | rfl | rfl | rfl := member
  · trivial
  · obtain old | rfl := isCand
    · exact lines x old
    · exact bound
  · trivial
  · exact bound
  · exact ⟨bound, q, lt, part⟩

theorem legal_fills (n : Nat) (bound : n ≤ c.totalSize) (lt : q < c.partitions)
    (part : c.getPartition req = some q) : ∀ op ∈ fills req n, Legal c op := by
  intro op member
  obtain ⟨j, isLine, member⟩ := List.mem_flatMap.mp member
  have noLines : ∀ x ∈ ([] : List Nat), x < c.totalSize := fun x none => absurd none List.not_mem_nil
  exact legal_miss noLines (Nat.lt_of_lt_of_le (List.mem_range.mp isLine) bound) lt part op member

theorem legal_misses (lines : ∀ x ∈ xs, x < c.totalSize) (fresh : Nat) (bound : fresh + xs.length ≤ c.totalSize)
    (lt : q < c.partitions) (part : c.getPartition req = some q) :
    ∀ op ∈ misses req xs fresh, Legal c op := by
  induction xs generalizing fresh with
  | nil => exact fun op member => absurd member List.not_mem_nil
  | cons x rest ih =>
      intro op member
      rw [List.length_cons] at bound
      have here : ∀ y ∈ [x], y < c.totalSize := fun y isCand =>
        lines y (List.mem_singleton.mp isCand ▸ List.mem_cons_self)
      rcases List.mem_append.mp member with member | member
      · exact legal_miss here (by omega) lt part op member
      · exact ih (fun y isCand => lines y (List.mem_cons_of_mem x isCand)) (fresh + 1) (by omega) op member

theorem mem_descent {x young low : Nat} (member : x ∈ descent young low) : x < low ∨ x = young := by
  induction low with
  | zero => exact absurd member List.not_mem_nil
  | succ low ih =>
      rcases List.mem_append.mp member with interval | later
      · simp only [List.mem_cons, List.mem_append, List.mem_replicate, List.not_mem_nil, or_false] at interval
        omega
      · exact (ih later).imp_left Nat.lt_succ_of_lt

theorem mem_candidates {x young cur : Nat} (member : x ∈ candidates young cur) :
    x < cur + 256 ∨ x = young := by
  simp only [candidates, List.mem_append, List.mem_reverse, List.mem_range'_1, List.mem_replicate] at member
  obtain (first | old) | ⟨-, last⟩ := member
  · exact .inl first.2
  · have isLine := mem_descent old
    omega
  · exact .inr last

theorem legal_aheadOps {req req' : MemReq} {n cur : Nat} {ops : List Op}
    (isOps : aheadOps req req' n cur = ops) (partitions : 2 ≤ c.partitions)
    (part : c.getPartition req = some 0) (part' : c.getPartition req' = some 1)
    (last : cur + 256 < n) (room : n + (256 * cur + 511) < c.totalSize) :
    (machine c).LegalRun ops s := by
  apply Machine.along_of_forall
  intro op member _
  rw [← isOps] at member
  have lines : ∀ x ∈ candidates (n - 1) cur, x < c.totalSize := by
    intro x isCand
    have isLine := mem_candidates isCand
    omega
  have youngest : ∀ x ∈ [n - 1], x < c.totalSize := by
    intro x isCand
    have isYoung := List.mem_singleton.mp isCand
    omega
  have length := length_candidates (n - 1) cur
  simp only [aheadOps, List.mem_append] at member
  obtain member | member | member := member
  · exact legal_fills n (by omega) (by omega) part op member
  · exact legal_misses lines n (by omega) partitions part' op member
  · exact legal_miss youngest room partitions part' op member

/-- Two cores in a bank of 2^21 lines, of which 85% are managed.  The slack is 10% and the greatest aperture
50%, and the aperture is not rounded. -/
def bank : VantageConfig where
  partitions := 2
  getPartition := (PartMapper.core 2).getPartition
  totalSize := 2097152
  assoc := 16
  targetManagedSize := 1782579
  partGranularity := 256
  smoothTransients := false
  feedback target size cands dems :=
    let (shrink, goal) :=
      if 11 * target ≤ 10 * size then (2 * dems, cands) else (target * dems, 5 * (size - target) * cands)
    if goal = 0 then some .keep
    else if shrink < goal then some .increase
    else if goal < shrink then some .decrease
    else some .keep
  randInt _ _ := 0
  partitions_pos := Nat.two_pos
  granularity_pos := defaultBuckets_pos
  lines_word := by decide
  managed_le := by decide
  randInt_le _ n := Nat.zero_le n

theorem feedback_bank {target size : Nat} (above : target < size) (close : 1280 * (size - target) < target)
    (dems : Nat) : bank.feedback target size 256 dems = some (if dems = 0 then .increase else .decrease) := by
  have slack : ¬ 11 * target ≤ 10 * size := by omega
  have goalPos : 5 * (size - target) * 256 ≠ 0 := by omega
  simp only [bank, if_neg slack, if_neg goalPos]
  by_cases none : dems = 0
  · have less : target * dems < 5 * (size - target) * 256 := by
      rw [none, Nat.mul_zero]
      exact Nat.pos_of_ne_zero goalPos
    rw [if_pos less, if_pos none]
  · have more : 5 * (size - target) * 256 < target * dems :=
      Nat.lt_of_lt_of_le (by omega) (Nat.le_mul_of_pos_right target (Nat.pos_of_ne_zero none))
    rw [if_neg (Nat.lt_asymm more), if_pos more, if_neg none]

theorem firstTarget_bank : firstTarget bank = 891289 := by simp [firstTarget, bank]

theorem narrow_bank : Narrow bank where
  assoc := by decide
  partitions := Nat.le_refl 2
  lines := by decide
  target_pos := by simp [firstTarget_bank]
  feedback := by
    intro size dems above close
    apply feedback_bank above
    rw [firstTarget_bank] at above close ⊢
    omega

theorem grown_bank {n : Nat} (le : 891289 ≤ n) (lt : n < 912249) : (grown n).curBts = 194 := by
  have first : turns 194 ≤ 891289 := by decide +kernel
  have next : turns (194 + 1) = 912249 := by decide +kernel
  exact grown_curBts (Nat.le_trans first le) (next ▸ lt) (by omega)

/-- A partition that gets all its lines first, of which then the oldest 450 are demoted: 256 in one interval, and
each of the others in one of its own. -/
theorem setpoint_gets_ahead :
    (machine bank).LegalRun (aheadOps ⟨7, 0, 0, 0⟩ ⟨9, 1, 0, 1⟩ 891800 194) (init bank) ∧
      ¬ ((machine bank).Throughout Bounded (aheadOps ⟨7, 0, 0, 0⟩ ⟨9, 1, 0, 1⟩ 891800 194) (init bank) ∧
        (machine bank).Along (Controlled bank) (aheadOps ⟨7, 0, 0, 0⟩ ⟨9, 1, 0, 1⟩ 891800 194) (init bank)) := by
  have part : bank.getPartition ⟨7, 0, 0, 0⟩ = some 0 := rfl
  have part' : bank.getPartition ⟨9, 1, 0, 1⟩ = some 1 := rfl
  have room : 891800 + (256 * 194 + 511) < bank.totalSize := by simp [bank]
  have above : firstTarget bank + (194 + 256) < 891800 := by simp [firstTarget_bank]
  have close : 891800 ≤ firstTarget bank + 512 := by simp [firstTarget_bank]
  -- the operations are too many to be looked at
  generalize isOps : aheadOps ⟨7, 0, 0, 0⟩ ⟨9, 1, 0, 1⟩ 891800 194 = ops
  constructor
  · exact legal_aheadOps isOps narrow_bank.partitions part part' (by simp) room
  · intro holds
    have isCur : (grown 891800).curBts = 194 := grown_bank (by simp) (by simp)
    have isYoung : (grown (891800 - 1)).curBts = 194 := grown_bank (by simp) (by simp)
    exact not_controlled narrow_bank isOps part part' isCur isYoung (by simp) above close
      (Nat.le_of_lt room) holds.2

end Zsim.Partition.Vantage
