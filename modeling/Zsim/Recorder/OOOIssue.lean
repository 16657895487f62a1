import Zsim.Recorder.Chain
import Zsim.Recorder.OOOCore

/-!
# Issue events

What `addIssueEvent` and `recordAccess` do to the last event that was produced and to the
responses to come.  No response is before the last issue event in the zero-load clock, so that
the delay to the issue event splits into one to the last response and one after it.
-/

set_option autoImplicit false

namespace Zsim.Recorder

variable {events : List TimingEvent}

/-! ## Silent events -/

theorem ok_bind {α β : Type} (a : α) (f : α → Except Failure β) : (Except.ok a >>= f) = f a := rfl

theorem add_eq (parents : List Nat) (unstarted : ∀ parent ∈ parents, Unstarted events parent)
    (kind : EventKind) (preDelay : Nat) :
    add events parents kind preDelay =
      .ok (events ++ [⟨kind, .after parents, preDelay, 0, none⟩], events.length) := by
  rw [add, addChild_eq unstarted]

theorem linkDispatch_spec (zllDispatchCycle : Nat) {responses : List FutureResponse}
    {parents : List Nat}
    (fresh : ∀ fr ∈ responses, ∀ ev ∈ fr.ev, Unstarted events ev)
    (known : ∀ parent ∈ parents, Unstarted events parent) :
    ∃ more parents',
      linkDispatch zllDispatchCycle responses events parents = .ok (events ++ more, parents') ∧
      (∀ event ∈ more, event.kind.reports = none) ∧
      ∀ parent ∈ parents', Unstarted (events ++ more) parent := by
  induction responses generalizing events parents with
  | nil => exact ⟨[], parents, by simp [linkDispatch], by simp, by simpa using known⟩
  | cons fr rest ih =>
      have freshRest : ∀ fr ∈ rest, ∀ ev ∈ fr.ev, Unstarted events ev :=
        fun fr member => fresh fr (List.mem_cons_of_mem _ member)
      rw [linkDispatch]
      cases isEv : fr.ev with
      | none => exact ih freshRest known
      | some ev =>
          by_cases before : fr.zllStartCycle < zllDispatchCycle
          · have unstarted := fresh fr List.mem_cons_self ev isEv
            let dl : TimingEvent :=
              ⟨.delay, .after [ev], u32 (zllDispatchCycle - fr.zllStartCycle), 0, none⟩
            have added := add_eq [ev] (by simpa using unstarted) .delay dl.preDelay
            obtain ⟨more, parents', linked, silent, known⟩ :=
              @ih (events ++ [dl]) (parents ++ [events.length])
                (fun fr member ev isEv => (freshRest fr member ev isEv).append _)
                (by
                  intro parent member
                  rcases List.mem_append.mp member with old | new
                  · exact (known parent old).append _
                  · cases List.mem_singleton.mp new
                    exact Unstarted.concat events rfl)
            refine ⟨dl :: more, parents', ?_, ?_, ?_⟩
            · dsimp only
              rw [if_pos before, List.append_cons, ← linked]
              exact congrArg (· >>= _) added
            · intro event member
              rcases List.mem_cons.mp member with rfl | later
              · rfl
              · exact silent event later
            · rw [List.append_cons]
              exact known
          · dsimp only
            rw [if_neg before]
            exact ih freshRest known

/-! ## Links to responses -/

instance : Std.Total FutureResponse.Before := ⟨fun a b => by unfold FutureResponse.Before; omega⟩

instance : IsTrans FutureResponse FutureResponse.Before :=
  ⟨fun a b c => by unfold FutureResponse.Before; omega⟩

theorem linkResponses_spec (zllCycle : Nat) {lastZllCycle : Nat} {responses : List FutureResponse}
    (sorted : responses.Pairwise FutureResponse.Before)
    (ahead : ∀ fr ∈ responses, lastZllCycle ≤ fr.zllStartCycle)
    (fresh : ∀ fr ∈ responses, ∀ ev ∈ fr.ev, Unstarted events ev)
    (maxCycle : Nat) (parents : List Nat) (below : ∀ fr ∈ responses, maxCycle ≤ fr.zllStartCycle)
    (last : maxCycle = 0 ∨ lastZllCycle ≤ maxCycle)
    (known : ∀ parent ∈ parents, Unstarted events parent) :
    ∃ rest maxCycle' parents',
      linkResponses events zllCycle lastZllCycle responses maxCycle parents =
        .ok (rest, maxCycle', parents') ∧
      rest <:+ responses ∧ (∀ fr ∈ rest, zllCycle ≤ fr.zllStartCycle) ∧
      (maxCycle' = 0 ∨ lastZllCycle ≤ maxCycle') ∧
      ∀ parent ∈ parents', Unstarted events parent := by
  induction responses generalizing maxCycle parents with
  | nil => exact ⟨[], maxCycle, parents, rfl, List.suffix_refl _, by simp, last, known⟩
  | cons firstResp rest ih =>
      obtain ⟨first, sortedRest⟩ := List.pairwise_cons.mp sorted
      have aheadRest : ∀ fr ∈ rest, lastZllCycle ≤ fr.zllStartCycle :=
        fun fr member => ahead fr (List.mem_cons_of_mem _ member)
      have freshRest : ∀ fr ∈ rest, ∀ ev ∈ fr.ev, Unstarted events ev :=
        fun fr member => fresh fr (List.mem_cons_of_mem _ member)
      rw [linkResponses]
      by_cases stays : zllCycle ≤ firstResp.zllStartCycle
      · rw [if_pos stays]
        refine ⟨_, _, _, rfl, List.suffix_refl _, ?_, last, known⟩
        intro fr member
        rcases List.mem_cons.mp member with rfl | later
        · exact stays
        · exact Nat.le_trans stays (first fr later)
      · rw [if_neg stays]
        cases isEv : firstResp.ev with
        | none =>
            obtain ⟨rest', maxCycle', parents', linked, suffix, spec⟩ := ih sortedRest aheadRest
              freshRest maxCycle parents (fun fr member => below fr (List.mem_cons_of_mem _ member))
              last known
            exact ⟨rest', maxCycle', parents', linked, suffix.trans (List.suffix_cons _ _), spec⟩
        | some ev =>
            have unstarted := fresh firstResp List.mem_cons_self ev isEv
            have lastLe := ahead firstResp List.mem_cons_self
            obtain ⟨rest', maxCycle', parents', linked, suffix, spec⟩ :=
              ih sortedRest aheadRest freshRest firstResp.zllStartCycle (parents ++ [ev]) first (.inr lastLe) (by
                intro parent member
                rcases List.mem_append.mp member with old | new
                · exact known parent old
                · cases List.mem_singleton.mp new
                  exact unstarted)
            refine ⟨rest', maxCycle', parents', ?_, suffix.trans (List.suffix_cons _ _), spec⟩
            dsimp only
            rw [if_neg (not_not_intro unstarted),
              if_pos ⟨below firstResp List.mem_cons_self, lastLe⟩]
            exact linked

theorem issuePreDelay_le {maxCycle : Nat} (zllCycle : Nat) {lastZllCycle : Nat}
    (last : maxCycle = 0 ∨ lastZllCycle ≤ maxCycle) :
    issuePreDelay maxCycle zllCycle ≤ zllCycle - lastZllCycle := by
  unfold issuePreDelay
  split
  · exact Nat.zero_le _
  · split
    · have le : u32 (zllCycle - maxCycle) ≤ zllCycle - maxCycle := Nat.mod_le _ _
      omega
    · exact Nat.zero_le _

/-! ## The last issue event -/

def IsIssue (events : List TimingEvent) (last : IssueEvent) : Prop :=
  ∃ event minStart, events[last.ev]? = some event ∧ event.startCycle = none ∧
    event.kind = .core last.zllStartCycle minStart

theorem IsIssue.unstarted {last : IssueEvent} (issue : IsIssue events last) :
    Unstarted events last.ev := by
  obtain ⟨event, minStart, at_, fresh, -⟩ := issue
  exact .of_some at_ fresh

theorem IsIssue.append {last : IssueEvent} (issue : IsIssue events last) (more : List TimingEvent) :
    IsIssue (events ++ more) last := by
  obtain ⟨event, minStart, at_, rest⟩ := issue
  exact ⟨event, minStart, getElem?_append_of_some at_ more, rest⟩

theorem IsIssue.set {last : IssueEvent} (issue : IsIssue events last) {ev : Nat}
    (other : last.ev ≠ ev) (event : TimingEvent) : IsIssue (events.set ev event) last := by
  obtain ⟨event', minStart, at_, rest⟩ := issue
  exact ⟨event', minStart, (List.getElem?_set_ne other.symm).trans at_, rest⟩

/-- A recorder that may add issue events up to a cycle. -/
structure Produces (r : OOOCoreRecorder) (events : List TimingEvent) (cycle : Nat)
    (last : IssueEvent) : Prop where
  isLast : r.lastEvProduced = some last
  issue : IsIssue events last
  zll_le : last.zllStartCycle + r.gapCycles ≤ cycle
  sorted : r.futureResponses.Pairwise FutureResponse.Before
  ahead : ∀ fr ∈ r.futureResponses, last.zllStartCycle ≤ fr.zllStartCycle
  fresh : ∀ fr ∈ r.futureResponses, ∀ ev ∈ fr.ev, Unstarted events ev

/-- The last issue event is the end of the chain. -/
structure Linked (r : OOOCoreRecorder) (events : List TimingEvent) (links : List Link) : Prop where
  chain : Chain events r.gapCycles links
  isLast : r.lastEvProduced = links.getLast?.map fun l => ⟨l.ev, l.zllCycle⟩

/-- The core with other events, last event and responses. -/
def OOOCore.produce (s : OOOCore) (events : List TimingEvent) (last : IssueEvent)
    (responses : List FutureResponse) : OOOCore :=
  { s with
    events := events
    cRec := { s.cRec with lastEvProduced := some last, futureResponses := responses } }

theorem Linked.ne_nil {r : OOOCoreRecorder} {links : List Link} {last : IssueEvent}
    (linked : Linked r events links) (isLast : r.lastEvProduced = some last) : links ≠ [] := by
  intro empty
  rw [linked.isLast, empty] at isLast
  cases isLast

theorem Linked.rest {r : OOOCoreRecorder} {first : Link} {rest : List Link}
    (linked : Linked r events (first :: rest)) (nonempty : rest ≠ []) :
    r.lastEvProduced = rest.getLast?.map fun l => ⟨l.ev, l.zllCycle⟩ := by
  rw [linked.isLast, ← List.singleton_append, List.getLast?_append_of_ne_nil _ nonempty]

theorem Linked.silent {r : OOOCoreRecorder} {links : List Link} {more : List TimingEvent}
    (linked : Linked r events links) (silent : ∀ event ∈ more, event.kind.reports = none) :
    Linked r (events ++ more) links :=
  ⟨linked.chain.silent silent, linked.isLast⟩

/-- The issue delay and the delay after the last response make up the distance of the issue
events in the zero-load clock. -/
theorem Produces.addIssueEvent {s : OOOCore} {evCycle cycle : Nat} {last : IssueEvent}
    (produces : Produces s.cRec s.events evCycle last) (le : evCycle ≤ cycle) :
    ∃ more last' responses maxCycle parents,
      let zllCycle := evCycle - s.cRec.gapCycles
      let next := s.produce (s.events ++ more) last' responses
      last'.zllStartCycle = zllCycle ∧
        linkResponses s.events zllCycle last.zllStartCycle s.cRec.futureResponses 0 [] =
          .ok (responses, maxCycle, parents) ∧
        issuePreDelay maxCycle zllCycle ≤ zllCycle - last.zllStartCycle ∧
        s.addIssueEvent evCycle = .ok next ∧
        Produces next.cRec next.events cycle last' ∧
        ∀ links, Linked s.cRec s.events links → zllCycle - last.zllStartCycle < 2 ^ 32 →
          ∃ moreLinks, Linked next.cRec next.events (links ++ moreLinks) := by
  obtain ⟨isLast, isIssue, zllLe, sorted, ahead, fresh⟩ := produces
  have unstarted := isIssue.unstarted
  have zllCycleLe : last.zllStartCycle ≤ evCycle - s.cRec.gapCycles := by omega
  have back : evCycle - s.cRec.gapCycles + s.cRec.gapCycles = evCycle := by omega
  obtain ⟨responses, maxCycle, parents, link, suffix, stay, maxLe, known⟩ :=
    linkResponses_spec (evCycle - s.cRec.gapCycles) sorted ahead fresh 0 []
      (fun _ _ => Nat.zero_le _) (.inl rfl) (fun parent member => by cases member)
  have preDelayLe := issuePreDelay_le (evCycle - s.cRec.gapCycles) maxLe
  let preDelay := issuePreDelay maxCycle (evCycle - s.cRec.gapCycles)
  let dIssue : TimingEvent := ⟨.delay, .after [last.ev],
    u32 (u64Sub (evCycle - s.cRec.gapCycles - last.zllStartCycle) preDelay), 0, none⟩
  let issue : TimingEvent := ⟨.core (evCycle - s.cRec.gapCycles) evCycle,
    .after (parents ++ [s.events.length]), preDelay, 0, none⟩
  have length : (s.events ++ [dIssue]).length = s.events.length + 1 := by simp
  have first := add_eq [last.ev] (by simpa using unstarted) .delay dIssue.preDelay
  have known : ∀ parent ∈ parents ++ [s.events.length], Unstarted (s.events ++ [dIssue]) parent := by
    intro parent member
    rcases List.mem_append.mp member with old | new
    · exact (known parent old).append _
    · cases List.mem_singleton.mp new
      exact Unstarted.concat s.events rfl
  have second := add_eq (parents ++ [s.events.length]) known
    (.core (evCycle - s.cRec.gapCycles) evCycle) preDelay
  have new : (s.events ++ [dIssue, issue])[s.events.length + 1]? = some issue := by
    rw [← length, List.append_cons]
    exact List.getElem?_concat_length
  rw [length, List.append_assoc] at second
  refine ⟨[dIssue, issue], ⟨s.events.length + 1, evCycle - s.cRec.gapCycles⟩, responses, maxCycle,
    parents, rfl, link, preDelayLe, ?_, ?_, ?_⟩
  · have steps : s.addIssueEvent evCycle =
        add s.events [last.ev] .delay dIssue.preDelay >>= fun delayed =>
          add delayed.1 (parents ++ [delayed.2]) (.core (evCycle - s.cRec.gapCycles) evCycle)
            preDelay >>= fun issued =>
            .ok (s.produce issued.1 ⟨issued.2, evCycle - s.cRec.gapCycles⟩ responses) := by
      rw [OOOCore.addIssueEvent, isLast]
      dsimp only
      rw [if_pos zllCycleLe, link]
      rfl
    rw [steps, first, ok_bind, second, ok_bind]
    rfl
  · refine ⟨rfl, ⟨issue, evCycle, new, rfl, rfl⟩, back.trans_le le,
      sorted.sublist suffix.sublist, stay, ?_⟩
    intro fr member ev isEv
    exact (fresh fr (suffix.subset member) ev isEv).append _
  · intro links linked fits
    rw [linked.isLast] at isLast
    obtain ⟨l, isLink, rfl⟩ := Option.map_eq_some_iff.mp isLast
    obtain ⟨event, at_, -⟩ := unstarted.exists
    dsimp only at fits preDelayLe
    have exact' : dIssue.preDelay = evCycle - s.cRec.gapCycles - l.zllCycle - preDelay := by
      have small : evCycle - s.cRec.gapCycles - l.zllCycle - preDelay < 2 ^ 32 := by omega
      simp only [dIssue]
      rw [u64Sub_of_le (by omega) preDelayLe, u32_of_lt small]
    have fromLast : l.zllCycle + dIssue.preDelay ≤ l.zllCycle + event.postDelay + dIssue.preDelay := by
      omega
    have fromDelay : evCycle - s.cRec.gapCycles ≤ l.zllCycle + dIssue.preDelay + 0 + preDelay := by
      omega
    have chain := linked.chain.link isLink at_ rfl (List.mem_singleton_self _) rfl fromLast
      (by simp [dIssue, EventKind.reports])
    have known : ∀ orig minStart, issue.kind.reports = some (orig, minStart) →
        orig = evCycle - s.cRec.gapCycles ∧
          minStart ≤ evCycle - s.cRec.gapCycles + s.cRec.gapCycles := by
      intro orig minStart same
      cases same
      exact ⟨rfl, back.ge⟩
    have chain := chain.link (List.getLast?_concat ..) List.getElem?_concat_length rfl
      (List.mem_append_right _ (List.mem_singleton_self _)) rfl fromDelay known
    rw [List.append_assoc links, ← List.append_cons] at chain
    refine ⟨_, chain, ?_⟩
    simp [OOOCore.produce, length]

/-! ## Accesses -/

theorem add_silent (parents : List Nat) (unstarted : ∀ parent ∈ parents, Unstarted events parent)
    (kind : EventKind) (silent : kind.reports = none) (preDelay : Nat) :
    ∃ event, add events parents kind preDelay = .ok (events ++ [event], events.length) ∧
      event.kind.reports = none ∧ Unstarted (events ++ [event]) events.length :=
  ⟨_, add_eq parents unstarted kind preDelay, silent, Unstarted.concat events rfl⟩

theorem add_after {parent : Nat} (unstarted : Unstarted events parent) (kind : EventKind)
    (silent : kind.reports = none) (preDelay : Nat) :
    ∃ event, add events [parent] kind preDelay = .ok (events ++ [event], events.length) ∧
      event.kind.reports = none ∧ Unstarted (events ++ [event]) events.length :=
  add_silent [parent] (by simpa using unstarted) kind silent preDelay

theorem linkAccess_spec {issueEv : Nat} (issue : Unstarted events issueEv) {tr : TimingRecord}
    {responses : List FutureResponse}
    (fresh : ∀ fr ∈ responses, ∀ ev ∈ fr.ev, Unstarted events ev)
    (curCycle dispatchCycle gapCycles : Nat) {respCycle : Nat} (resp : tr.respCycle ≤ respCycle) :
    ∃ more respEvent,
      linkAccess events issueEv tr curCycle dispatchCycle respCycle gapCycles responses =
        .ok (events ++ more, respEvent) ∧
      (∀ event ∈ more, event.kind.reports = none) ∧ Unstarted (events ++ more) respEvent := by
  obtain ⟨dDisp, added, silent₁, new₁⟩ := add_after issue .delay rfl
    (u32 (dispatchCycle - curCycle))
  obtain ⟨dls, parents, linked, silent₂, known⟩ := linkDispatch_spec (dispatchCycle - gapCycles)
    (fun fr member ev isEv => (fresh fr member ev isEv).append [dDisp])
    (fun parent (member : parent ∈ []) => by cases member)
  obtain ⟨dispEv, dispatched, silent₃, new₃⟩ := add_silent (events.length :: parents)
    (by
      intro parent member
      rcases List.mem_cons.mp member with rfl | later
      · exact new₁.append dls
      · exact known parent later)
    .dispatch rfl 0
  obtain ⟨dUp, requested, silent₄, new₄⟩ := add_after new₃ .delay rfl
    (u32 (tr.reqCycle - dispatchCycle))
  obtain ⟨endEvent, ended, silent₅, new₅⟩ := add_after new₄ .record rfl tr.latency
  obtain ⟨respEvent, responded, silent₆, new₆⟩ := add_after new₅ .resp rfl
    (u32 (respCycle - tr.respCycle))
  refine ⟨[dDisp] ++ dls ++ [dispEv] ++ [dUp] ++ [endEvent] ++ [respEvent],
    (events ++ [dDisp] ++ dls ++ [dispEv] ++ [dUp] ++ [endEvent]).length, ?_, ?_, ?_⟩
  · simp only [linkAccess, added, ok_bind, linked, dispatched, requested, ended, if_pos resp,
      responded]
    simp
  · intro event member
    simp only [List.mem_append, List.mem_singleton] at member
    rcases member with ((((rfl | inDls) | rfl) | rfl) | rfl) | rfl
    · exact silent₁
    · exact silent₂ event inDls
    · exact silent₃
    · exact silent₄
    · exact silent₅
    · exact silent₆
  · simpa only [← List.append_assoc] using new₆

theorem Produces.recordGet {s : OOOCore} {last : IssueEvent} {tr : TimingRecord}
    (produces : Produces s.cRec s.events s.curCycle last) (dispatchCycle : Nat) {respCycle : Nat}
    (resp : tr.respCycle ≤ respCycle) (later : s.curCycle ≤ respCycle) :
    ∃ more last' responses,
      let next := s.produce (s.events ++ more) last' responses
      s.recordGet tr dispatchCycle respCycle = .ok next ∧
        Produces next.cRec next.events s.curCycle last' ∧
        ∀ links, Linked s.cRec s.events links →
          s.curCycle - s.cRec.gapCycles - last.zllStartCycle < 2 ^ 32 →
          ∃ moreLinks, Linked next.cRec next.events (links ++ moreLinks) := by
  obtain ⟨issues, last', responses, -, -, zll, -, -, issued, produces', linked⟩ :=
    produces.addIssueEvent (Nat.le_refl s.curCycle)
  obtain ⟨-, isIssue, zllLe, sorted, ahead, fresh⟩ := produces'
  obtain ⟨more, respEvent, access, silent, new⟩ := linkAccess_spec isIssue.unstarted fresh
    s.curCycle dispatchCycle s.cRec.gapCycles resp
  dsimp only [OOOCore.produce] at sorted ahead fresh access
  let response : FutureResponse := ⟨respCycle - s.cRec.gapCycles, some respEvent⟩
  dsimp only [OOOCore.produce] at access new
  rw [List.append_assoc] at access new
  refine ⟨issues ++ more, last', responses.orderedInsert FutureResponse.Before response, ?_, ?_, ?_⟩
  · rw [OOOCore.recordGet, issued, ok_bind]
    dsimp only [OOOCore.produce]
    rw [access, ok_bind]
  · refine ⟨rfl, ?_, zllLe, sorted.orderedInsert _ _, ?_, ?_⟩
    · have isIssue := isIssue.append more
      rw [OOOCore.produce, List.append_assoc] at isIssue
      exact isIssue
    · intro fr member
      rcases (List.mem_orderedInsert _).mp member with rfl | old
      · rw [zll]
        exact Nat.sub_le_sub_right later _
      · exact ahead fr old
    · intro fr member ev isEv
      rcases (List.mem_orderedInsert _).mp member with rfl | old
      · cases Option.some.inj isEv
        exact new
      · have unstarted := (fresh fr old ev isEv).append more
        rw [List.append_assoc] at unstarted
        exact unstarted
  · intro links isLinked fits
    obtain ⟨moreLinks, linked⟩ := linked links isLinked fits
    have chain := (linked.silent silent).chain
    rw [OOOCore.produce, List.append_assoc] at chain
    exact ⟨moreLinks, chain, linked.isLast⟩

theorem Produces.recordPut {s : OOOCore} {last : IssueEvent} {cycle : Nat}
    (produces : Produces s.cRec s.events cycle last) (tr : TimingRecord) :
    ∃ more, s.recordPut tr = .ok { s with events := s.events ++ more } ∧
      Produces s.cRec (s.events ++ more) cycle last ∧
      ∀ links, Linked s.cRec s.events links → Linked s.cRec (s.events ++ more) links := by
  obtain ⟨isLast, isIssue, zllLe, sorted, ahead, fresh⟩ := produces
  obtain ⟨putUp, added, silent, new⟩ := add_after isIssue.unstarted .delay rfl
    (u32 (tr.reqCycle - s.curCycle))
  obtain ⟨record, recorded, silent', -⟩ := add_after new .record rfl tr.latency
  rw [List.append_assoc] at recorded
  refine ⟨[putUp] ++ [record], ?_, ?_, ?_⟩
  · rw [OOOCore.recordPut, isLast]
    dsimp only
    rw [added, ok_bind]
    dsimp only
    rw [recorded, ok_bind]
  · exact ⟨isLast, isIssue.append _, zllLe, sorted, ahead,
      fun fr member ev isEv => (fresh fr member ev isEv).append _⟩
  · intro links linked
    apply linked.silent
    intro event member
    rcases List.mem_append.mp member with first | second
    · cases List.mem_singleton.mp first
      exact silent
    · cases List.mem_singleton.mp second
      exact silent'

end Zsim.Recorder
