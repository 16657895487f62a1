import Zsim.Contention.Operations

/-!
# The phases of the contention simulation

The two loops of a thread treat the limit differently: with one domain an event at the
limit stays in the queue, with several it is executed.  That apart, a phase executes what
is below the limit and nothing else, whichever thread a domain belongs to.
-/

set_option autoImplicit false

namespace Zsim.Contention

variable {T : Type} [DecidableEq T] {c : Config}

/-! ## The start and the end of a phase -/

omit [DecidableEq T] in
theorem SimInv.init : SimInv c (ContentionSim.init : ContentionSim T) where
  domains _ _ := DomainInv.init
  lastLimit := Nat.le_refl 0
  bound _ := ⟨rfl, fun _ _ => rfl⟩
  threads _ _ _ _ := ⟨fun _ member => absurd member List.not_mem_nil, rfl⟩
  others _ _ := rfl
  idle _ _ := rfl

omit [DecidableEq T] in
theorem startThread_ok {thid : Nat} (bound : thid < c.numSimThreads) (domains : Nat → Domain T)
    (limit : Nat) : ThreadOk c domains limit thid (ContentionSim.startThread c thid) := by
  unfold ContentionSim.startThread
  rw [if_pos bound]
  split
  case isTrue one => exact ⟨one, fun i running => nomatch running⟩
  case isFalse =>
    have all : ∀ i, i ∈ List.range' (c.firstDomain thid) (c.thDomains thid) ↔ c.Owns thid i := by
      intro i
      rw [List.mem_range'_1, Config.Owns, Config.thDomains]
      omega
    refine ⟨⟨?_, fun i member => ?_, ?_, fun i owns absent => ?_⟩, fun i running => nomatch running⟩
    · simpa [Queues.all] using List.nodup_range'
    · exact (all i).mp (by simpa [Queues.all] using member)
    · simp [Queues.all]
    · exact absurd ((all i).mpr owns) (by simpa [Queues.all] using absent)

omit [DecidableEq T] in
theorem simulatePhase_spec {s s' : ContentionSim T} {limit : Nat} (inv : SimInv c s)
    (between : s.inCSim = false) (run : s.simulatePhase c limit = some s') : SimInv c s' := by
  unfold ContentionSim.simulatePhase at run
  split at run
  case isFalse => cases run
  case isTrue le =>
    cases Option.some.inj run
    have last := (inv.bound between).1
    refine ⟨fun i bound => ?_, le, fun phase => ?_, fun thid bound => ?_, fun thid beyond => ?_,
      fun phase => ?_⟩
    · exact (inv.domains i bound).phase (last ▸ le)
    · cases phase
    · exact startThread_ok bound _ limit
    · exact if_neg (Nat.not_lt.mpr beyond)
    · cases phase

omit [DecidableEq T] in
theorem phaseEnd_spec {s s' : ContentionSim T} (inv : SimInv c s)
    (done : ∀ thid < c.numSimThreads, s.threads thid = none) (run : s.phaseEnd = some s') :
    SimInv c s' := by
  cases Option.some.inj run
  refine ⟨inv.domains, Nat.le_refl _, fun _ => ⟨rfl, fun i bound => ?_⟩, inv.threads, inv.others,
    fun _ thid => ?_⟩
  · obtain ⟨thid, isThread, owns⟩ := Config.exists_owner bound
    have ok := inv.threads thid isThread
    rw [done thid isThread] at ok
    exact (ok i owns).curCycle
  · rcases Nat.lt_or_ge thid c.numSimThreads with isThread | beyond
    · exact done thid isThread
    · exact inv.others thid beyond

theorem step_inv {s s' : ContentionSim T} {input : ContentionSim.Input T} (inv : SimInv c s)
    (legal : s.legal c input) (range : RangeOk s input) (run : s.step c input = some s') :
    SimInv c s' := by
  by_cases isPhase : ∃ limit, input = .simulatePhase limit
  · obtain ⟨limit, rfl⟩ := isPhase
    exact simulatePhase_spec inv legal run
  · by_cases isEnd : input = .phaseEnd
    · cases isEnd
      exact phaseEnd_spec inv legal.2 run
    · exact (step_changed inv legal range (fun limit same => isPhase ⟨limit, same⟩) isEnd run).inv

omit [DecidableEq T] in
theorem SimInv.settled {s : ContentionSim T} (inv : SimInv c s)
    (done : ∀ thid < c.numSimThreads, s.threads thid = none) {i : Nat} (bound : i < c.numDomains) :
    Settled s.limit (s.domains i) := by
  obtain ⟨thid, isThread, owns⟩ := Config.exists_owner bound
  have ok := inv.threads thid isThread
  rw [done thid isThread] at ok
  exact ok i owns

/-! ## What a phase executes -/

/-- What a phase should have executed so far, and when its threads are done. -/
structure PhaseCorrect (c : Config) (s : ContentionSim T) : Prop where
  below : ∀ i < c.numDomains, ∀ e ∈ (s.domains i).trace.executed, e.1 < s.limit
  ordered : ∀ i < c.numDomains,
    (s.domains i).trace.executed.Pairwise fun later earlier => earlier.1 ≤ later.1
  complete : s.inCSim = true → (∀ thid < c.numSimThreads, s.threads thid = none) →
    ∀ i < c.numDomains,
      (s.domains i).trace.executed.Perm
        (((s.domains i).trace.before ++ (s.domains i).trace.enqueued).filter (·.1 < s.limit)) ∧
      ∀ e ∈ (s.domains i).trace.queued, s.limit ≤ e.1

/-- The loop for several domains does not find the first event of a domain at the limit. -/
def NotAtLimit (s : ContentionSim T) (input : ContentionSim.Input T) : Prop :=
  match looksAt s input with
  | some i => (s.domains i).firstCycle ≠ some s.limit
  | none => True

def Below (c : Config) (s : ContentionSim T) : Prop :=
  ∀ i < c.numDomains, ∀ e ∈ (s.domains i).trace.executed, e.1 < s.limit

omit [DecidableEq T] in
theorem phaseCorrect_iff {s : ContentionSim T} (inv : SimInv c s) :
    PhaseCorrect c s ↔ Below c s := by
  refine ⟨PhaseCorrect.below, fun below => ⟨below, fun i bound => (inv.domains i bound).ordered,
    fun _ done i bound => ?_⟩⟩
  have domain := inv.domains i bound
  have settled := inv.settled done bound
  refine ⟨?_, settled.remaining⟩
  have filtered := domain.conserved.filter (·.1 < s.limit)
  have all : (s.domains i).trace.executed.filter (·.1 < s.limit) = (s.domains i).trace.executed :=
    List.filter_eq_self.mpr fun e member => decide_eq_true (below i bound e member)
  have nothing : (s.domains i).trace.queued.filter (·.1 < s.limit) = [] :=
    List.filter_eq_nil_iff.mpr fun e member => by
      have := settled.remaining e member
      simp only [decide_eq_true_eq]
      omega
  rw [List.filter_append (s.domains i).trace.executed, all, nothing, List.append_nil] at filtered
  exact filtered.symm

/-- An event at the limit is executed by the loop for several domains. -/
theorem turnDomain_atLimit {s s' : ContentionSim T} {thid i : Nat} {q : Queues}
    {after : Queues → Option Queues} (domain : DomainInv s.limit (s.domains i))
    (isFirst : (s.domains i).firstCycle = some s.limit)
    (run : s.turnDomain thid i q after = some s') :
    s'.limit = s.limit ∧ ∃ ev, (s.limit, ev) ∈ (s'.domains i).trace.executed := by
  obtain ⟨d', start, -, started, -⟩ := domain.start isFirst (Nat.le_refl _)
  unfold ContentionSim.turnDomain at run
  dsimp only at run
  rw [isFirst] at run
  dsimp only at run
  rw [if_neg (Nat.lt_irrefl _), start] at run
  cases Option.some.inj run
  obtain ⟨ev, -, executed⟩ := started.executed
  refine ⟨rfl, ev, ?_⟩
  change _ ∈ (Function.update s.domains i d' i).trace.executed
  rw [Function.update_self, executed]
  exact List.mem_cons_self

theorem atLimit_executed {s s' : ContentionSim T} {input : ContentionSim.Input T} {i : Nat}
    (inv : SimInv c s) (legal : s.legal c input) (run : s.step c input = some s')
    (looks : looksAt s input = some i) (isFirst : (s.domains i).firstCycle = some s.limit) :
    i < c.numDomains ∧ s'.limit = s.limit ∧
      ∃ ev, (s.limit, ev) ∈ (s'.domains i).trace.executed := by
  unfold looksAt at looks
  split at looks
  case h_2 => cases looks
  case h_1 thid pick =>
    split at looks
    case h_3 => cases looks
    case h_1 head rest stalled nextStalled numFinished isThread =>
      cases Option.some.inj looks
      obtain ⟨-, isBound⟩ := inv.inCSim_of_thread isThread
      have ok := inv.threads thid isBound
      rw [isThread] at ok
      simp only [ContentionSim.legal, isThread] at legal
      have owns : c.Owns thid i := ok.1.own i (List.mem_append_right _ (List.mem_append_left _ legal.1))
      have bound := owns.bound isBound
      obtain ⟨_, isThread', run⟩ := Option.bind_eq_some_iff.mp run
      cases Option.some.inj (isThread.symm.trans isThread')
      change s.turnSeveral c thid i _ = some s' at run
      unfold ContentionSim.turnSeveral at run
      dsimp only at run
      rw [if_neg (List.cons_ne_nil head rest)] at run
      exact ⟨bound, turnDomain_atLimit (inv.domains i bound) isFirst run⟩
    case h_2 domPq _ rest nextStalled numFinished isThread =>
      cases Option.some.inj looks
      obtain ⟨-, isBound⟩ := inv.inCSim_of_thread isThread
      have ok := inv.threads thid isBound
      rw [isThread] at ok
      have owns : c.Owns thid i := ok.1.own i (by simp [Queues.all])
      have bound := owns.bound isBound
      obtain ⟨_, isThread', run⟩ := Option.bind_eq_some_iff.mp run
      cases Option.some.inj (isThread.symm.trans isThread')
      exact ⟨bound, turnDomain_atLimit (inv.domains i bound) isFirst run⟩

/-- A step executes nothing at the limit exactly if the loop for several domains does not
find it there. -/
theorem below_step {s s' : ContentionSim T} {input : ContentionSim.Input T} (inv : SimInv c s)
    (legal : s.legal c input) (range : RangeOk s input) (run : s.step c input = some s')
    (below : Below c s) : Below c s' ↔ NotAtLimit s input := by
  by_cases isPhase : ∃ limit, input = .simulatePhase limit
  · obtain ⟨limit, rfl⟩ := isPhase
    refine ⟨fun _ => trivial, fun _ i bound e member => ?_⟩
    change s.simulatePhase c limit = some s' at run
    unfold ContentionSim.simulatePhase at run
    split at run
    case isFalse => cases run
    case isTrue =>
      cases Option.some.inj run
      cases member
  · by_cases isEnd : input = .phaseEnd
    · cases isEnd
      cases Option.some.inj run
      exact ⟨fun _ => trivial, fun _ => below⟩
    · have changed := step_changed inv legal range (fun limit same => isPhase ⟨limit, same⟩) isEnd run
      constructor
      · intro below'
        unfold NotAtLimit
        split
        case h_2 => trivial
        case h_1 i looks =>
          intro isFirst
          obtain ⟨bound, limit, ev, executed⟩ := atLimit_executed inv legal run looks isFirst
          have := below' i bound _ executed
          omega
      · intro notAtLimit i bound
        rw [changed.limit]
        rcases changed.change i bound with same | change
        · rw [same]
          exact below i bound
        · cases change with
          | @started first isFirst le _ _ started looks =>
              obtain ⟨ev, -, executed⟩ := started.executed
              rw [executed]
              intro e member
              rcases List.mem_cons.mp member with rfl | before
              · refine Nat.lt_of_le_of_ne le fun same => ?_
                unfold NotAtLimit at notAtLimit
                rw [looks same] at notAtLimit
                exact notAtLimit (same ▸ isFirst)
              · exact below i bound e before
          | finished stored =>
              rw [stored.executed]
              exact below i bound
          | next _ _ stored =>
              rw [stored.executed]
              exact below i bound
          | added _ added =>
              rw [added.executed]
              exact below i bound
          | kept _ trace =>
              rw [trace]
              exact below i bound

/-! ## Which events they are -/

/-- The events of a domain that must be executed below the limit: those that are there,
and those that the events among them enqueue. -/
inductive Due (limit : Nat) (before : List (Nat × T)) (out : Nat × T → List (Nat × T)) :
    Nat × T → Prop
  | before {e : Nat × T} (member : e ∈ before) (below : e.1 < limit) : Due limit before out e
  | enqueued {e parent : Nat × T} (due : Due limit before out parent) (child : e ∈ out parent)
      (below : e.1 < limit) : Due limit before out e

variable (out : Nat → Nat × T → List (Nat × T))

/-- The event of a domain that runs only enqueues what `out` says of it. -/
def Obeys (s : ContentionSim T) : ContentionSim.Input T → Prop
  | .enqueue thid ev cycle =>
    match s.threads thid with
    | some ⟨_, some i⟩ => ∃ e, (s.domains i).trace.executed.head? = some e ∧ (cycle, ev) ∈ out i e
    | _ => True
  | _ => True

def Carried (c : Config) (s : ContentionSim T) : Prop :=
  ∀ i < c.numDomains, ∀ e ∈ (s.domains i).trace.executed, ∀ child ∈ out i e,
    child ∈ (s.domains i).trace.enqueued

structure Traced (limit : Nat) (out : Nat × T → List (Nat × T)) (d : Domain T) : Prop where
  executed : ∀ e ∈ d.trace.executed, Due limit d.trace.before out e
  queued : ∀ e ∈ d.trace.queued, e.1 < limit → Due limit d.trace.before out e

omit [DecidableEq T] in
theorem Traced.congr {limit : Nat} {out : Nat × T → List (Nat × T)} {d d' : Domain T}
    (traced : Traced limit out d) (executed : d'.trace.executed = d.trace.executed)
    (before : d'.trace.before = d.trace.before) (queued : d'.trace.queued = d.trace.queued) :
    Traced limit out d' := by
  constructor
  · rw [executed, before]
    exact traced.executed
  · rw [queued, before]
    exact traced.queued

def AllTraced (c : Config) (s : ContentionSim T) : Prop :=
  s.inCSim = true → ∀ i < c.numDomains, Traced s.limit (out i) (s.domains i)

theorem allTraced_step {s s' : ContentionSim T} {input : ContentionSim.Input T} (inv : SimInv c s)
    (legal : s.legal c input) (range : RangeOk s input) (notAtLimit : NotAtLimit s input)
    (obeys : Obeys out s input) (run : s.step c input = some s') (traced : AllTraced out c s) :
    AllTraced out c s' := by
  by_cases isPhase : ∃ limit, input = .simulatePhase limit
  · obtain ⟨limit, rfl⟩ := isPhase
    change s.simulatePhase c limit = some s' at run
    unfold ContentionSim.simulatePhase at run
    split at run
    case isFalse => cases run
    case isTrue =>
      cases Option.some.inj run
      exact fun _ i _ => ⟨fun _ member => absurd member List.not_mem_nil,
        fun _ member below => .before member below⟩
  · by_cases isEnd : input = .phaseEnd
    · cases isEnd
      cases Option.some.inj run
      exact fun phase => nomatch phase
    · have changed := step_changed inv legal range (fun limit same => isPhase ⟨limit, same⟩) isEnd run
      intro phase i bound
      rw [changed.inCSim] at phase
      have before := traced phase i bound
      rw [changed.limit]
      rcases changed.change i bound with same | change
      · rw [same]
        exact before
      · cases change with
        | @started first isFirst le _ _ started looks =>
            obtain ⟨ev, member, executed⟩ := started.executed
            have below : first < s.limit := by
              refine Nat.lt_of_le_of_ne le fun same => ?_
              unfold NotAtLimit at notAtLimit
              rw [looks same] at notAtLimit
              exact notAtLimit (same ▸ isFirst)
            constructor
            · rw [executed, started.before]
              intro e isExecuted
              rcases List.mem_cons.mp isExecuted with rfl | old
              · exact before.queued _ member below
              · exact before.executed e old
            · rw [started.before]
              exact fun e isQueued => before.queued e (started.queued e isQueued)
        | finished stored => exact before.congr stored.executed stored.before stored.queued
        | next _ _ stored => exact before.congr stored.executed stored.before stored.queued
        | @added cycle ev enqueuing added =>
            rcases enqueuing with ⟨thid, ⟨loop, running⟩, rfl, isThread, isRunning⟩ | between
            · cases isRunning
              simp only [Obeys, isThread] at obeys
              obtain ⟨parent, isHead, child⟩ := obeys
              have due := before.executed parent (List.mem_of_mem_head? isHead)
              constructor
              · rw [added.executed, added.before]
                exact before.executed
              · rw [added.queued, added.before]
                intro e member below
                rcases List.mem_cons.mp member with rfl | old
                · exact .enqueued due child below
                · exact before.queued e old below
            · exact absurd (phase.symm.trans between) (by decide)
        | kept _ trace =>
            exact before.congr (by rw [trace]) (by rw [trace]) (by rw [trace])

omit [DecidableEq T] in
/-- At the end of a phase the events that were executed are those that are due, whatever
thread the domain belongs to. -/
theorem executed_iff_due {s : ContentionSim T} (correct : PhaseCorrect c s)
    (traced : AllTraced out c s) (inside : s.inCSim = true)
    (done : ∀ thid < c.numSimThreads, s.threads thid = none) (carried : Carried out c s) {i : Nat}
    (bound : i < c.numDomains) (e : Nat × T) :
    e ∈ (s.domains i).trace.executed ↔ Due s.limit (s.domains i).trace.before (out i) e := by
  refine ⟨(traced inside i bound).executed e, fun due => ?_⟩
  have all := (correct.complete inside done i bound).1
  induction due with
  | before member below =>
      exact all.mem_iff.mpr (List.mem_filter.mpr
        ⟨List.mem_append_left _ member, decide_eq_true below⟩)
  | enqueued _ child below ih =>
      exact all.mem_iff.mpr (List.mem_filter.mpr
        ⟨List.mem_append_right _ (carried i bound _ ih _ child), decide_eq_true below⟩)

/-! ## Runs -/

instance decidableInRange (cycle : Nat) : Decidable (InRange cycle) :=
  inferInstanceAs (Decidable (cycle / 64 + pqBlocks / 2 < 2 ^ 58))

instance decidableRangeOk (s : ContentionSim T) : ∀ input, Decidable (RangeOk s input)
  | .enqueueSynced _ _ cycle => decidableInRange cycle
  | .enqueue _ _ cycle => decidableInRange cycle
  | .simulatePhase _ | .turn _ _ | .setPrio _ _ | .returned _ | .phaseEnd => .isTrue trivial

instance decidableNotAtLimit (s : ContentionSim T) (input : ContentionSim.Input T) :
    Decidable (NotAtLimit s input) :=
  match looks : looksAt s input with
  | some i =>
    decidable_of_iff ((s.domains i).firstCycle ≠ some s.limit) (by simp only [NotAtLimit, looks])
  | none => .isTrue (by simp only [NotAtLimit, looks])

theorem keeps_inv (s : ContentionSim T) (input : ContentionSim.Input T) (next : ContentionSim T)
    (inv : SimInv c s) (legal : ((machine c).restrict RangeOk).legal s input)
    (step : ((machine c).restrict RangeOk).step s input = some next) : SimInv c next :=
  step_inv inv legal.1 legal.2 step

/-- In every run each phase executes the events below its limit and no others, in order
in each domain, exactly if no thread with several domains comes to a first event at the
limit; then the events are determined by those that were there and what each of them does. -/
theorem phases_execute_below_limit (c : Config) (inputs : List (ContentionSim.Input T))
    (final : ContentionSim T)
    (legal : ((machine c).restrict RangeOk).LegalRun inputs ContentionSim.init)
    (run : (machine c).exec inputs ContentionSim.init = some final) :
    ((machine c).Throughout (PhaseCorrect c) inputs ContentionSim.init ↔
      (machine c).Along NotAtLimit inputs ContentionSim.init) ∧
    ((machine c).Along NotAtLimit inputs ContentionSim.init →
      ∀ out : Nat → Nat × T → List (Nat × T),
        (machine c).Along (Obeys out) inputs ContentionSim.init → Carried out c final →
        final.inCSim = true → (∀ thid < c.numSimThreads, final.threads thid = none) →
        ∀ i < c.numDomains, ∀ e, e ∈ (final.domains i).trace.executed ↔
          Due final.limit (final.domains i).trace.before (out i) e) := by
  have start : SimInv c (ContentionSim.init : ContentionSim T) := SimInv.init
  have nothing : PhaseCorrect c (ContentionSim.init : ContentionSim T) :=
    (phaseCorrect_iff start).mpr fun i _ e member => by cases member
  have run' : ((machine c).restrict RangeOk).exec inputs ContentionSim.init = some final := by
    rw [Machine.restrict_exec]
    exact run
  have exact' : ∀ (s : ContentionSim T) (input : ContentionSim.Input T) (next : ContentionSim T),
      SimInv c s → PhaseCorrect c s →
      ((machine c).restrict RangeOk).legal s input →
      ((machine c).restrict RangeOk).step s input = some next →
      (PhaseCorrect c next ↔ NotAtLimit s input) := by
    intro s input next inv correct legal step
    rw [phaseCorrect_iff (keeps_inv s input next inv legal step)]
    exact below_step inv legal.1 legal.2 step correct.below
  have same := legal.throughout_iff keeps_inv exact' start nothing run'
  rw [Machine.along_restrict] at same
  have correct : (machine c).Throughout (PhaseCorrect c) inputs ContentionSim.init ↔
      (machine c).Along NotAtLimit inputs ContentionSim.init :=
    Machine.throughout_restrict.symm.trans same
  refine ⟨correct, fun along out obeys carried inside done i bound e => ?_⟩
  have restricted := legal.restrict ((Machine.along_restrict _ _ _ _ _).mpr (along.and obeys))
  have keeps : ∀ (s : ContentionSim T) (input : ContentionSim.Input T) (next : ContentionSim T),
      SimInv c s ∧ AllTraced out c s → ((machine c).restrict RangeOk).legal s input →
      NotAtLimit s input ∧ Obeys out s input →
      (machine c).step s input = some next → SimInv c next ∧ AllTraced out c next := by
    rintro s input next ⟨inv, traced⟩ ⟨legal, range⟩ ⟨notAtLimit, obeys⟩ step
    exact ⟨step_inv inv legal range step,
      allTraced_step out inv legal range notAtLimit obeys step traced⟩
  have traced : AllTraced out c final :=
    (Machine.exec_keeps_restrict keeps ⟨start, fun phase => nomatch phase⟩ restricted run').2
  exact executed_iff_due out (correct.mpr along inputs [] final (List.append_nil _).symm run) traced
    inside done carried bound e

/-- One thread for two domains. -/
def oneThread : Config := ⟨2, 1, 100, Nat.one_pos, rfl⟩

/-- An event at cycle 5 enqueues one at the next cycle and one above the limit. -/
def mixedRun : List (ContentionSim.Input Nat) :=
  [.enqueueSynced 0 0 5, .simulatePhase 10, .turn 0 1, .turn 0 0, .enqueue 0 1 6,
    .enqueue 0 2 11, .returned 0, .turn 0 0, .setPrio 0 1, .returned 0, .turn 0 0, .turn 0 0,
    .phaseEnd]

theorem phases_execute_below_limit_mixed :
    (machine oneThread).Throughout (PhaseCorrect oneThread) mixedRun ContentionSim.init := by
  obtain ⟨final, run⟩ := Option.isSome_iff_exists.mp (by decide +kernel :
    ((machine oneThread).exec mixedRun ContentionSim.init).isSome = true)
  exact (phases_execute_below_limit oneThread mixedRun final (by decide +kernel) run).1.mpr
    (by decide +kernel)

/-- With two domains an event at the limit is executed. -/
theorem event_at_limit_executed :
    ¬ ∀ (c : Config) (inputs : List (ContentionSim.Input Nat)) (final : ContentionSim Nat),
      ((machine c).restrict RangeOk).LegalRun inputs ContentionSim.init →
      (machine c).exec inputs ContentionSim.init = some final → PhaseCorrect c final := by
  intro claim
  have executed : ((machine oneThread).exec
      [.enqueueSynced 0 0 10, .simulatePhase 10, .turn 0 1, .turn 0 0, .returned 0, .turn 0 0]
      (ContentionSim.init : ContentionSim Nat)).map
        (fun s => ((s.domains 0).trace.executed, s.limit)) = some ([(10, 0)], 10) := by
    decide +kernel
  obtain ⟨final, run, state⟩ := Option.map_eq_some_iff.mp executed
  have correct := claim _ _ final (by decide +kernel) run
  have below := correct.below 0 (by decide) (10, 0)
  rw [(Prod.mk.inj state).1, (Prod.mk.inj state).2] at below
  exact absurd (below List.mem_cons_self) (by decide)

end Zsim.Contention
