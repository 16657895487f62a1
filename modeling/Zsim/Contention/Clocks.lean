import Zsim.Contention.Phases

/-!
# The published clocks

What a domain publishes is a promise: no event of it runs below.  The end of a phase
stores the limit even where an event has already published a later first cycle.
-/

set_option autoImplicit false

namespace Zsim.Contention

variable {T : Type} [DecidableEq T] {c : Config}

/-! ## A domain -/

def NeverBack (d : Domain T) : Prop :=
  d.trace.history.Pairwise fun later earlier => earlier.cycle ≤ later.cycle

structure ClockOk (d : Domain T) : Prop where
  neverBack : NeverBack d
  ahead : ∀ e ∈ d.trace.queued, d.curCycle ≤ e.1

structure Clock (limit : Nat) (d : Domain T) : Prop where
  neverBack : NeverBack d
  shown : ∀ x ∈ d.trace.history, x.cycle ≤ d.curCycle
  within : d.curCycle ≤ limit

omit [DecidableEq T] in
theorem Clock.shows {limit value : Nat} {d d' : Domain T} (clock : Clock limit d)
    (shows : Shows value d d') (curCycle : d'.curCycle = value) (notBack : d.curCycle ≤ value)
    (within : value ≤ limit) : Clock limit d' := by
  obtain ⟨new, history, isNew, -⟩ := shows
  have old : ∀ x ∈ d.trace.history, x.cycle ≤ value := fun x member =>
    Nat.le_trans (clock.shown x member) notBack
  refine ⟨?_, ?_, by rwa [curCycle]⟩
  · rw [NeverBack, history]
    refine List.pairwise_append.mpr ⟨?_, clock.neverBack, fun x member y earlier => ?_⟩
    · exact List.pairwise_of_forall_mem_list fun x member y earlier =>
        Nat.le_of_eq ((isNew y earlier).trans (isNew x member).symm)
    · rw [isNew x member]
      exact old y earlier
  · rw [history, curCycle]
    intro x member
    rcases List.mem_append.mp member with later | earlier
    · exact Nat.le_of_eq (isNew x later)
    · exact old x earlier

omit [DecidableEq T] in
theorem Clock.congr {limit : Nat} {d d' : Domain T} (clock : Clock limit d)
    (curCycle : d'.curCycle = d.curCycle) (history : d'.trace.history = d.trace.history) :
    Clock limit d' := by
  refine ⟨?_, ?_, ?_⟩
  · rw [NeverBack, history]
    exact clock.neverBack
  · rw [history, curCycle]
    exact clock.shown
  · rw [curCycle]
    exact clock.within

/-! ## Steps -/

/-- When an event returns, the first event of its domain is not above the limit. -/
def OnTime (s : ContentionSim T) : ContentionSim.Input T → Prop
  | .returned thid =>
    match s.threads thid with
    | some ⟨_, some i⟩ => ∀ first ∈ (s.domains i).firstCycle, first ≤ s.limit
    | _ => True
  | _ => True

def Clocks (c : Config) (s : ContentionSim T) : Prop :=
  ∀ i < c.numDomains, Clock s.limit (s.domains i)

omit [DecidableEq T] in
theorem OnTime.newCycle {s : ContentionSim T} {input : ContentionSim.Input T} {i : Nat}
    (onTime : OnTime s input) (returns : Returning s input i) :
    (s.domains i).newCycle s.limit ≤ s.limit := by
  obtain ⟨thid, ⟨loop, running⟩, rfl, isThread, isRunning⟩ := returns
  cases isRunning
  simp only [OnTime, isThread] at onTime
  unfold Domain.newCycle
  cases isFirst : (s.domains i).firstCycle with
  | none => exact Nat.le_refl _
  | some first => exact onTime first isFirst

theorem clocks_step {s s' : ContentionSim T} {input : ContentionSim.Input T} (inv : SimInv c s)
    (legal : s.legal c input) (range : RangeOk s input) (onTime : OnTime s input)
    (run : s.step c input = some s') (clocks : Clocks c s) : Clocks c s' := by
  by_cases isPhase : ∃ limit, input = .simulatePhase limit
  · obtain ⟨limit, rfl⟩ := isPhase
    change s.simulatePhase c limit = some s' at run
    unfold ContentionSim.simulatePhase at run
    split at run
    case isFalse => cases run
    case isTrue le =>
      cases Option.some.inj run
      intro i bound
      have clock := clocks i bound
      refine ⟨clock.neverBack, clock.shown, ?_⟩
      rw [(inv.bound legal).1] at le
      exact Nat.le_trans clock.within le
  · by_cases isEnd : input = .phaseEnd
    · cases isEnd
      cases Option.some.inj run
      exact clocks
    · have changed := step_changed inv legal range (fun limit same => isPhase ⟨limit, same⟩) isEnd run
      intro i bound
      have clock := clocks i bound
      rw [changed.limit]
      rcases changed.change i bound with same | change
      · rw [same]
        exact clock
      · cases change with
        | started _ le notBehind _ started _ =>
            exact clock.shows started.history started.curCycle notBehind le
        | finished stored =>
            exact clock.shows stored.history stored.curCycle clock.within (Nat.le_refl _)
        | next returns within stored =>
            exact clock.shows stored.history stored.curCycle
              ((inv.domains i bound).newCycle within).1 (onTime.newCycle returns)
        | added _ added => exact clock.congr added.curCycle added.history
        | kept curCycle trace => exact clock.congr curCycle (by rw [trace])

/-! ## A promise that is withdrawn -/

/-- A clock shows the last entry of its history. -/
def ShowsLast (c : Config) (s : ContentionSim T) : Prop :=
  ∀ i < c.numDomains, ∀ x ∈ (s.domains i).trace.history.head?, x.cycle = (s.domains i).curCycle

/-- A value above the limit has been published, or one has already been withdrawn. -/
def Ahead (c : Config) (s : ContentionSim T) : Prop :=
  ∃ i < c.numDomains, ¬ NeverBack (s.domains i) ∨
    s.inCSim = true ∧ ∃ x ∈ (s.domains i).trace.history, s.limit < x.cycle

omit [DecidableEq T] in
theorem Shows.last {value : Nat} {d d' : Domain T} (shows : Shows value d d')
    (curCycle : d'.curCycle = value) (last : ∀ x ∈ d.trace.history.head?, x.cycle = d.curCycle) :
    ∀ x ∈ d'.trace.history.head?, x.cycle = d'.curCycle := by
  obtain ⟨new, history, isNew, same⟩ := shows
  rw [history, curCycle]
  cases new with
  | nil =>
      rw [← same rfl]
      exact last
  | cons head rest =>
      intro x isHead
      cases Option.some.inj isHead
      exact isNew _ List.mem_cons_self

theorem history_step {s s' : ContentionSim T} {input : ContentionSim.Input T} (inv : SimInv c s)
    (legal : s.legal c input) (range : RangeOk s input) (run : s.step c input = some s') {i : Nat}
    (bound : i < c.numDomains) :
    (∃ new, (s'.domains i).trace.history = new ++ (s.domains i).trace.history) ∧
      ((∀ x ∈ (s.domains i).trace.history.head?, x.cycle = (s.domains i).curCycle) →
        ∀ x ∈ (s'.domains i).trace.history.head?, x.cycle = (s'.domains i).curCycle) := by
  by_cases isPhase : ∃ limit, input = .simulatePhase limit
  · obtain ⟨limit, rfl⟩ := isPhase
    change s.simulatePhase c limit = some s' at run
    unfold ContentionSim.simulatePhase at run
    split at run
    case isFalse => cases run
    case isTrue =>
      cases Option.some.inj run
      exact ⟨⟨[], rfl⟩, fun last => last⟩
  · by_cases isEnd : input = .phaseEnd
    · cases isEnd
      cases Option.some.inj run
      exact ⟨⟨[], rfl⟩, fun last => last⟩
    · have changed := step_changed inv legal range (fun limit same => isPhase ⟨limit, same⟩) isEnd run
      rcases changed.change i bound with same | change
      · rw [same]
        exact ⟨⟨[], rfl⟩, fun last => last⟩
      · have grows : ∀ {value : Nat}, Shows value (s.domains i) (s'.domains i) →
            ∃ new, (s'.domains i).trace.history = new ++ (s.domains i).trace.history :=
          fun shows => ⟨shows.choose, shows.choose_spec.1⟩
        cases change with
        | started _ _ _ _ started _ =>
            exact ⟨grows started.history, started.history.last started.curCycle⟩
        | finished stored => exact ⟨grows stored.history, stored.history.last stored.curCycle⟩
        | next _ _ stored => exact ⟨grows stored.history, stored.history.last stored.curCycle⟩
        | added _ added =>
            rw [added.history, added.curCycle]
            exact ⟨⟨[], rfl⟩, fun last => last⟩
        | kept curCycle trace =>
            rw [trace, curCycle]
            exact ⟨⟨[], rfl⟩, fun last => last⟩

theorem ahead_step {s s' : ContentionSim T} {input : ContentionSim.Input T} (inv : SimInv c s)
    (showsLast : ShowsLast c s) (legal : s.legal c input) (range : RangeOk s input)
    (run : s.step c input = some s') (ahead : Ahead c s) : Ahead c s' := by
  obtain ⟨i, bound, cases'⟩ := ahead
  obtain ⟨⟨new, history⟩, -⟩ := history_step inv legal range run bound
  rcases cases' with withdrawn | ⟨inside, x, member, above⟩
  · refine ⟨i, bound, Or.inl fun neverBack => withdrawn ?_⟩
    rw [NeverBack, history] at neverBack
    exact (List.pairwise_append.mp neverBack).2.1
  · by_cases isPhase : ∃ limit, input = .simulatePhase limit
    · obtain ⟨limit, rfl⟩ := isPhase
      exact absurd (inside.symm.trans legal) (by decide)
    · by_cases isEnd : input = .phaseEnd
      · cases isEnd
        cases Option.some.inj run
        -- the limit is stored last, behind the value above it
        refine ⟨i, bound, Or.inl fun neverBack => ?_⟩
        have settled := inv.settled legal.2 bound
        have last := showsLast i bound
        change NeverBack (s.domains i) at neverBack
        unfold NeverBack at neverBack
        cases entries : (s.domains i).trace.history with
        | nil =>
            rw [entries] at member
            cases member
        | cons head rest =>
            rw [entries] at member last neverBack
            have isLimit := (last head rfl).trans settled.curCycle
            rcases List.mem_cons.mp member with rfl | earlier
            · omega
            · have := (List.pairwise_cons.mp neverBack).1 x earlier
              omega
      · have changed :=
          step_changed inv legal range (fun limit same => isPhase ⟨limit, same⟩) isEnd run
        refine ⟨i, bound, Or.inr ⟨changed.inCSim.trans inside, x, ?_, changed.limit ▸ above⟩⟩
        rw [history]
        exact List.mem_append_right new member

omit [DecidableEq T] in
theorem returned_shows {s s' : ContentionSim T} {thid i : Nat} {loop : Loop}
    (isThread : s.threads thid = some ⟨loop, some i⟩) (run : s.returned c thid = some s') :
    s'.limit = s.limit ∧ s'.inCSim = s.inCSim ∧
      Shows ((s.domains i).newCycle s.limit) (s.domains i) (s'.domains i) := by
  obtain ⟨_, isThread', run⟩ := Option.bind_eq_some_iff.mp run
  cases Option.some.inj (isThread.symm.trans isThread')
  cases loop with
  | single =>
      change s.returnedSingle thid i = some s' at run
      unfold ContentionSim.returnedSingle at run
      dsimp only at run
      split at run
      case isFalse => cases run
      case isTrue =>
        cases Option.some.inj run
        refine ⟨rfl, rfl, ?_⟩
        change Shows _ _ (Function.update s.domains i _ i)
        rw [Function.update_self]
        exact (Stored.advance _ _).history
  | several q =>
      cases Option.some.inj run
      refine ⟨rfl, rfl, ?_⟩
      change Shows _ _ (Function.update s.domains i _ i)
      rw [Function.update_self]
      exact (Stored.publish ((s.domains i).newCycle s.limit) (s.domains i)).history

theorem ahead_of_late {s s' : ContentionSim T} {input : ContentionSim.Input T} (inv : SimInv c s)
    (late : ¬ OnTime s input) (run : s.step c input = some s') : Ahead c s' := by
  cases input with
  | enqueueSynced | simulatePhase | turn | enqueue | setPrio | phaseEnd => exact absurd trivial late
  | returned thid =>
      unfold OnTime at late
      dsimp only at late
      split at late
      case h_2 => exact absurd trivial late
      case h_1 loop i isThread =>
        push Not at late
        obtain ⟨first, isFirst, above⟩ := late
        obtain ⟨inside, isBound⟩ := inv.inCSim_of_thread isThread
        have bound := (inv.running_bound isThread rfl).2
        obtain ⟨limit, inCSim, new, history, isNew, same⟩ := returned_shows isThread run
        have newCycle : (s.domains i).newCycle s.limit = first := by
          rw [Domain.newCycle, isFirst]
          rfl
        rw [newCycle] at isNew same
        have within : (s.domains i).curCycle ≤ s.limit := by
          have ok := inv.threads thid isBound
          rw [isThread] at ok
          cases loop with
          | single => exact Nat.le_of_lt (ok.2 i rfl).2
          | several q => exact ok.2 i rfl
        refine ⟨i, bound, Or.inr ⟨inCSim.trans inside, ?_⟩⟩
        rw [history, limit]
        cases new with
        | nil =>
            have := same rfl
            omega
        | cons head rest =>
            refine ⟨head, List.mem_cons_self, ?_⟩
            rw [isNew head List.mem_cons_self]
            omega

/-! ## Runs -/

instance decidableOnTime (s : ContentionSim T) : ∀ input, Decidable (OnTime s input)
  | .returned thid =>
    match isThread : s.threads thid with
    | some ⟨_, some i⟩ =>
      decidable_of_iff (∀ first ∈ (s.domains i).firstCycle, first ≤ s.limit)
        (by simp only [OnTime, isThread])
    | some ⟨_, none⟩ => .isTrue (by simp only [OnTime, isThread])
    | none => .isTrue (by simp only [OnTime, isThread])
  | .enqueueSynced _ _ _ | .simulatePhase _ | .turn _ _ | .enqueue _ _ _ | .setPrio _ _
  | .phaseEnd => .isTrue trivial

/-- In every run whose events return with a first event that is not above the limit, or
with none, no published clock goes back and none is ahead of an event; and in every run that
ends between two phases this is so only then. -/
theorem clock_never_goes_back (c : Config) (inputs : List (ContentionSim.Input T))
    (final : ContentionSim T)
    (legal : ((machine c).restrict RangeOk).LegalRun inputs ContentionSim.init)
    (run : (machine c).exec inputs ContentionSim.init = some final) :
    ((machine c).Along OnTime inputs ContentionSim.init →
      (machine c).Throughout (fun s => ∀ i < c.numDomains, ClockOk (s.domains i)) inputs
        ContentionSim.init) ∧
    (final.inCSim = false → (∀ i < c.numDomains, NeverBack (final.domains i)) →
      (machine c).Along OnTime inputs ContentionSim.init) := by
  have start : SimInv c (ContentionSim.init : ContentionSim T) := SimInv.init
  have run' : ((machine c).restrict RangeOk).exec inputs ContentionSim.init = some final := by
    rw [Machine.restrict_exec]
    exact run
  constructor
  · intro onTime first rest mid split reached
    subst split
    have restricted := Machine.LegalRun.restrict legal.of_append
      ((Machine.along_restrict _ _ _ _ _).mpr onTime.of_append)
    have keeps : ∀ (s : ContentionSim T) (input : ContentionSim.Input T) (next : ContentionSim T),
        SimInv c s ∧ Clocks c s → ((machine c).restrict RangeOk).legal s input → OnTime s input →
        (machine c).step s input = some next → SimInv c next ∧ Clocks c next := by
      rintro s input next ⟨inv, clocks⟩ ⟨legal, range⟩ onTime step
      exact ⟨step_inv inv legal range step, clocks_step inv legal range onTime step clocks⟩
    have begins : Clocks c (ContentionSim.init : ContentionSim T) := fun i _ =>
      ⟨.nil, fun _ member => absurd member List.not_mem_nil, Nat.le_refl 0⟩
    rw [← Machine.restrict_exec (machine c) RangeOk] at reached
    obtain ⟨inv, clocks⟩ := Machine.exec_keeps_restrict keeps ⟨start, begins⟩ restricted reached
    exact fun i bound => ⟨(clocks i bound).neverBack, (inv.domains i bound).ahead⟩
  · intro between neverBack
    have keeps : ∀ (s : ContentionSim T) (input : ContentionSim.Input T) (next : ContentionSim T),
        SimInv c s ∧ ShowsLast c s → ((machine c).restrict RangeOk).legal s input →
        ((machine c).restrict RangeOk).step s input = some next →
        SimInv c next ∧ ShowsLast c next := by
      rintro s input next ⟨inv, last⟩ ⟨legal, range⟩ step
      exact ⟨step_inv inv legal range step,
        fun i bound => (history_step inv legal range step bound).2 (last i bound)⟩
    have stays : ∀ (s : ContentionSim T) (input : ContentionSim.Input T) (next : ContentionSim T),
        SimInv c s ∧ ShowsLast c s → Ahead c s →
        ((machine c).restrict RangeOk).legal s input →
        ((machine c).restrict RangeOk).step s input = some next → Ahead c next :=
      fun s input next holds ahead legal step =>
        ahead_step holds.1 holds.2 legal.1 legal.2 step ahead
    have breaks : ∀ (s : ContentionSim T) (input : ContentionSim.Input T) (next : ContentionSim T),
        SimInv c s ∧ ShowsLast c s → ¬ OnTime s input →
        ((machine c).restrict RangeOk).legal s input →
        ((machine c).restrict RangeOk).step s input = some next → Ahead c next :=
      fun s input next holds late _ step => ahead_of_late holds.1 late step
    have unbroken : ¬ Ahead c final := by
      rintro ⟨i, bound, withdrawn | ⟨inside, -⟩⟩
      · exact withdrawn (neverBack i bound)
      · exact absurd (inside.symm.trans between) (by decide)
    have along := legal.along_of_unbroken keeps stays breaks
      ⟨start, fun i _ x member => nomatch member⟩ run' unbroken
    exact (Machine.along_restrict _ _ _ _ _).mp along

/-- An event enqueues one below the limit; the domain has nothing left after it. -/
def onTimeRun : List (ContentionSim.Input Nat) :=
  [.enqueueSynced 0 0 5, .simulatePhase 10, .turn 0 1, .turn 0 0, .enqueue 0 1 6, .returned 0,
    .turn 0 0, .returned 0, .turn 0 0, .turn 0 0, .phaseEnd]

theorem clock_never_goes_back_onTime :
    (machine oneThread).Throughout
      (fun s => ∀ i < oneThread.numDomains, ClockOk (s.domains i)) onTimeRun
        ContentionSim.init := by
  obtain ⟨final, run⟩ := Option.isSome_iff_exists.mp (by decide +kernel :
    ((machine oneThread).exec onTimeRun ContentionSim.init).isSome = true)
  exact (clock_never_goes_back oneThread onTimeRun final (by decide +kernel) run).1
    (by decide +kernel)

/-- After the first event the domain publishes the cycle of the second, which is above the
limit; then the phase ends and it publishes the limit. -/
theorem clock_withdrawn :
    ¬ ∀ (c : Config) (inputs : List (ContentionSim.Input Nat)) (final : ContentionSim Nat),
      ((machine c).restrict RangeOk).LegalRun inputs ContentionSim.init →
      (machine c).exec inputs ContentionSim.init = some final →
      ∀ i < c.numDomains, NeverBack (final.domains i) := by
  intro claim
  have history : ((machine oneThread).exec
      [.enqueueSynced 0 0 5, .enqueueSynced 0 1 100, .simulatePhase 10, .turn 0 0, .returned 0,
        .turn 0 1, .turn 0 0] (ContentionSim.init : ContentionSim Nat)).map
        (fun s => (s.domains 0).trace.history) =
      some [.published 10, .published 100, .executed 0 5, .published 5] := by
    decide +kernel
  obtain ⟨final, run, entries⟩ := Option.map_eq_some_iff.mp history
  have neverBack := claim _ _ final (by decide +kernel) run 0 (by decide)
  rw [NeverBack, entries] at neverBack
  exact absurd ((List.pairwise_cons.mp neverBack).1 (.published 100) List.mem_cons_self) (by decide)

end Zsim.Contention
