import Zsim.Crossing.Crossed
import Zsim.Crossing.Returning

/-!
# Runs of produceCrossings

`produceCrossings` turns the edges between two domains into crossings and keeps everything
else exactly if none of its steps adds a crossing where a walk has come past, or closes a
cycle inside a domain.
-/

set_option autoImplicit false

namespace Zsim.Crossing

open Zsim.Timing Relation

variable {ph : Phase} {s s' : Sim} {root : Nat}

/-- A finite acyclic event graph that has not been executed, with domains and minimum start
cycles that the contention simulation accepts. -/
structure Ready (ph : Phase) (s : Sim) (root : Nat) : Prop where
  ok : s.Ok ph
  acyclic : Acyclic fun p c => ∃ j, s.Edge p j c
  isRoot : ∃ e, s.events root = some e
  clocks : ∀ d, ph.curCycle d ≤ ph.lastLimit

/-- `produceCrossings` of `root` returns, with all assertions on its way. -/
def Produces (ph : Phase) (s : Sim) (root : Nat) (s' : Sim) : Prop :=
  ∃ f, s.enter root = some f ∧ Walk.Steps ph ⟨s, [f]⟩ ⟨s', []⟩

def Sim.Reach (s : Sim) (root p : Nat) : Prop := ReflTransGen (fun p c => ∃ j, s.Edge p j c) root p

/-- An event waits for another: it is its child, or the crossing of which it is the source event. -/
def Sim.Leads (s : Sim) (p q : Nat) : Prop :=
  (∃ j, s.Edge p j q) ∨ ∃ e, s.events p = some e ∧ e.kind = .crossingSrc q

/-- The graph below `root` with its edges between two domains replaced. -/
structure Crossed (s : Sim) (root : Nat) (s' : Sim) : Prop where
  kept : ∀ p j c, s.Edge p j c → s.domain c = s.domain p → s'.Edge p j c
  crossed : ∀ p j c, s.Reach root p → s.Edge p j c → s.domain c ≠ s.domain p → ∃! xe, s'.Crosses p j xe c
  /-- no crossing stands for two edges, or for none -/
  one : ∀ xe e x, s.allocated ≤ xe → s'.events xe = some e → e.kind = .crossing x →
    ∃! slot : Nat × Nat, ∃ c, s.Edge slot.1 slot.2 c ∧ s.domain c ≠ s.domain slot.1 ∧
      s'.Crosses slot.1 slot.2 xe c
  direct : ∀ p j c, (s.Reach root p ∨ s.allocated ≤ p) → s'.Edge p j c → s'.domain c = s'.domain p
  paths : ∀ p q, ReflTransGen s.Leads p q → ReflTransGen s'.Leads p q
  counted : ∀ id e, s'.events id = some e → e.numParents = s'.inDegree id

namespace Sim

theorem From.leads (from' : s.From s') {p q : Nat} (leads : s.Leads p q) : ReflTransGen s'.Leads p q := by
  rcases leads with ⟨j, edge⟩ | ⟨e, isEvent, kind⟩
  · rcases from'.edges p j q edge with kept | ⟨-, xe, -, crosses⟩
    · exact .single (.inl ⟨j, kept⟩)
    · -- over the source event and the crossing
      obtain ⟨cpe, isSource, kind⟩ := crosses.isSource
      have toSource : s'.Leads p (xe + 1) := .inl ⟨j, crosses.source⟩
      have toCrossing : s'.Leads (xe + 1) xe := .inr ⟨cpe, isSource, kind⟩
      have toChild : s'.Leads xe q := .inl ⟨0, crosses.child⟩
      exact ((ReflTransGen.single toSource).tail toCrossing).tail toChild
  · obtain ⟨ch, isEvent'⟩ := from'.events p e isEvent
    exact .single (.inr ⟨_, isEvent', kind⟩)

theorem From.paths (from' : s.From s') {p q : Nat} (path : ReflTransGen s.Leads p q) :
    ReflTransGen s'.Leads p q := by
  induction path with
  | refl => exact .refl
  | tail _ leads ih => exact ih.trans (from'.leads leads)

end Sim

namespace Walk

theorem History.start (ok : s.Ok ph) {f : Frame} (isFrame : s.enter root = some f) :
    History ph s root ⟨s, [f]⟩ := by
  obtain ⟨isRoot, stands, -, ahead⟩ := ok.entered isFrame
  refine ⟨⟨ok, ?_, fun g member => by cases member⟩, ok.from_self, {root}, rfl, ?_, ?_⟩
  · intro g member
    rw [List.mem_singleton.mp member]
    exact stands
  · exact fun p j c edge => .inl edge
  · rintro p rfl j c edge
    exact .inr ⟨f, List.mem_cons_self, isRoot, ahead j (ok.from_self.slot edge)⟩

theorem History.steps {w later : Walk} (history : w.History ph s root) (ok : s.Ok ph)
    (clocks : ∀ d, ph.curCycle d ≤ ph.lastLimit) (steps : w.Steps ph later) : later.History ph s root := by
  induction steps with
  | refl => exact history
  | tail _ step ih => exact ih.next ok clocks step

theorem History.finished (history : History ph s root ⟨s', []⟩) {p : Nat} (reach : s.Reach root p) :
    ∀ j c, s.Edge p j c → ∀ x, s'.Edge p j x → s'.domain x = s'.domain p := by
  obtain ⟨seen, isRoot, -, edges⟩ := history.seen
  have done : ∀ p ∈ seen, ∀ j c, s.Edge p j c →
      c ∈ seen ∧ ∀ x, s'.Edge p j x → s'.domain x = s'.domain p := by
    intro p member j c edge
    rcases edges p member j c edge with done | ⟨f, isFrame, -⟩
    · exact done
    · cases isFrame
  have member : p ∈ seen := by
    induction reach with
    | refl => exact isRoot
    | tail _ edge ih =>
        obtain ⟨j, edge⟩ := edge
        exact (done _ ih j _ edge).1
  exact fun j c edge => (done p member j c edge).2

theorem History.crossed (history : History ph s root ⟨s', []⟩) (ok : s.Ok ph) : Crossed s root s' := by
  have from' : s.From s' := history.from'
  have ok' : s'.Ok ph := history.inv.ok
  constructor
  · intro p j c edge same
    rcases from'.edges p j c edge with kept | ⟨apart, -⟩
    · exact kept
    · exact absurd same apart
  · intro p j c reach edge apart
    rcases from'.edges p j c edge with kept | ⟨-, xe, -, crosses⟩
    · -- the slot would still lead from one domain to another
      obtain ⟨e, isEvent⟩ := edge.isEvent
      obtain ⟨child, isChild, -⟩ := ok.closed p j c edge
      have same := history.finished reach j c edge c kept
      rw [from'.domain isEvent, from'.domain isChild] at same
      exact absurd same apart
    · refine ⟨xe, crosses, fun other crosses' => ?_⟩
      exact Nat.succ.inj (Option.some.inj (crosses'.source.symm.trans crosses.source))
  · intro xe e x isNew isEvent kind
    obtain ⟨p, j, c, edge, apart, crosses⟩ := from'.made xe e x isNew isEvent kind
    refine ⟨(p, j), ⟨c, edge, apart, crosses⟩, ?_⟩
    rintro ⟨q, k⟩ ⟨c', -, -, crosses'⟩
    obtain ⟨samePlace, sameSlot⟩ := from'.once (xe + 1) (by omega) q k p j crosses'.source crosses.source
    exact Prod.ext samePlace sameSlot
  · intro p j c place edge
    rcases from'.new p j c edge with old | same
    · rcases place with reach | beyond
      · exact history.finished reach j c old c edge
      · exact absurd (old.lt ok) (Nat.not_lt.mpr beyond)
    · exact same
  · exact fun p q path => from'.paths path
  · exact ok'.counted

theorem Sound.start (ready : Ready ph s root) {f : Frame} (isFrame : s.enter root = some f) :
    Sound ph ⟨s, [f]⟩ := by
  obtain ⟨isRoot, stands, exact', -⟩ := ready.ok.entered isFrame
  refine ⟨(History.start ready.ok isFrame).inv, fun g member => ?_, fun x cycle => ?_⟩
  · rw [List.mem_singleton.mp member]
    exact isRoot ▸ exact'
  · exact ready.acyclic x (TransGen.mono (fun _ _ same => same.1) x x cycle)

theorem meets_of_returns {w mid : Walk} (inv : w.Inv ph) (clocks : ∀ d, ph.curCycle d ≤ ph.lastLimit)
    (returns : w.Steps ph ⟨s', []⟩) (steps : w.Steps ph mid) : mid.Meets ph := by
  have stays : ∀ later, Steps ph ⟨s', []⟩ later → later = ⟨s', []⟩ := by
    intro later steps
    rcases ReflTransGen.cases_head steps with same | ⟨next, step, -⟩
    · exact same.symm
    · cases step
  have isOver : Meets ph ⟨s', []⟩ := fun f rest j c p child t frames => by cases frames
  have unique : Relator.RightUnique fun w next : Walk => w.step ph = some next := fun _ _ _ first second =>
    Option.some.inj (first.symm.trans second)
  have invMid : mid.Inv ph := by
    clear returns
    induction steps with
    | refl => exact inv
    | tail _ step ih => exact ih.next clocks step
  rcases ReflTransGen.total_of_right_unique unique steps returns with onward | back
  · by_contra fails
    rcases ReflTransGen.cases_head onward with same | ⟨next, step, more⟩
    · exact fails (same ▸ isOver)
    · exact not_returns (invMid.next clocks step) clocks (not_meets invMid clocks fails step) more rfl
  · rw [stays mid back]
    exact isOver

end Walk

/-! ## Graphs from lists -/

/-- An event of a list of domains and children. -/
def Event.listed (l : List (Nat × List Nat)) (id : Nat) (e : Nat × List Nat) : Event where
  domain := e.1
  state := .none
  minStartCycle := 100
  children := e.2.foldl Children.addChild .empty
  numParents := ∑ p ∈ Finset.range l.length, (((l[p]?).map Prod.snd).getD []).count id
  preDelay := 0
  postDelay := 0
  kind := .other

def Sim.ofList (l : List (Nat × List Nat)) : Sim where
  events id := l[id]?.map (Event.listed l id)
  allocated := l.length
  crossingStack := []
  lastCrossing _ _ := ⟨0, 0⟩
  enqueued := []

/-- Three domains in the first phase. -/
def firstPhase : Phase :=
  { numDomains := 3, phaseLength := 10000, lastLimit := 0, curCycle := fun _ => 0, gapCycles := 0 }

namespace Sim

theorem holds_foldl (l first : List Nat) {c : Children Nat} (holds : c.Holds first) :
    (l.foldl Children.addChild c).Holds (first ++ l) := by
  induction l generalizing first c with
  | nil => simpa using holds
  | cons x l ih => simpa using ih (first ++ [x]) (holds.addChild x)

theorem children_ofList (l : List (Nat × List Nat)) (id : Nat) :
    (ofList l).children id = ((l[id]?).map Prod.snd).getD [] := by
  have isEvent : (ofList l).events id = l[id]?.map (Event.listed l id) := rfl
  rw [Sim.children, isEvent]
  cases l[id]? with
  | none => rfl
  | some e => exact (holds_foldl e.2 [] .null).toList

end Sim

theorem ready_ofList {l : List (Nat × List Nat)} (nonempty : 0 < l.length)
    (ordered : ∀ p < l.length, ∀ c ∈ ((l[p]?).map Prod.snd).getD [], p < c ∧ c < l.length)
    (domains : ∀ p < l.length, ((l[p]?).map Prod.fst).getD 0 < 3) : Ready firstPhase (.ofList l) 0 := by
  have edge : ∀ p j c, (Sim.ofList l).Edge p j c → p < c ∧ c < l.length := by
    intro p j c edge
    rw [Sim.Edge, Sim.children_ofList] at edge
    have lt : p < l.length := by
      by_contra notLt
      rw [List.getElem?_eq_none (Nat.not_lt.mp notLt)] at edge
      cases edge
    exact ordered p lt c (List.mem_of_getElem? edge)
  have isMap : ∀ p, (Sim.ofList l).events p = l[p]?.map (Event.listed l p) := fun _ => rfl
  have isEvent : ∀ p < l.length, ∃ e, (Sim.ofList l).events p = some e ∧ e.state = .none := by
    intro p lt
    exact ⟨Event.listed l p l[p], by rw [isMap, List.getElem?_eq_getElem lt]; rfl, rfl⟩
  refine ⟨⟨?_, ?_, ?_, ?_, ?_, ?_, ?_, ?_, ?_⟩, ?_, ?_, fun _ => Nat.le_refl 0⟩
  · intro id beyond
    rw [isMap, List.getElem?_eq_none beyond]
    rfl
  · intro p e isEvent
    obtain ⟨x, -, rfl⟩ := Option.map_eq_some_iff.mp isEvent
    have holds := Sim.holds_foldl x.2 [] .null
    have same : (Event.listed l p x).children.toList = [] ++ x.2 := holds.toList
    rw [same]
    exact holds
  · exact fun p j c isEdge => isEvent c (edge p j c isEdge).2
  · intro p e isEvent
    obtain ⟨x, -, rfl⟩ := Option.map_eq_some_iff.mp isEvent
    exact .inl rfl
  · intro p e isEvent
    obtain ⟨x, isX, rfl⟩ := Option.map_eq_some_iff.mp isEvent
    obtain ⟨lt, -⟩ := List.getElem?_eq_some_iff.mp isX
    have small := domains p lt
    rw [isX] at small
    exact small
  · intro p e j c isEvent _ _
    obtain ⟨x, -, rfl⟩ := Option.map_eq_some_iff.mp isEvent
    have near : (100 : Nat) ≠ 2 ^ 64 - 1 ∧ max 0 (101 : Nat) < u64 (0 + u32 (10 * 10000) + 10000) := by decide
    exact near
  · intro p e isEvent
    obtain ⟨x, -, rfl⟩ := Option.map_eq_some_iff.mp isEvent
    unfold Sim.inDegree
    simp only [Sim.children_ofList]
    rfl
  · exact fun b member => by cases member
  · exact fun src dst late => absurd late (Nat.lt_irrefl 0)
  · exact .of_rank id fun p c => by
      rintro ⟨j, isEdge⟩
      exact (edge p j c isEdge).1
  · obtain ⟨e, isRoot, -⟩ := isEvent 0 nonempty
    exact ⟨e, isRoot⟩

/-! ## Whole runs -/

namespace Walk

/-- A number of steps of the walk. -/
def run (ph : Phase) : Nat → Walk → Option Walk
  | 0, w => some w
  | n + 1, w => (run ph n w).bind (step ph)

theorem steps_of_run {n : Nat} {w later : Walk} (isRun : w.run ph n = some later) : w.Steps ph later := by
  induction n generalizing later with
  | zero =>
      cases isRun
      exact .refl
  | succ n ih =>
      obtain ⟨mid, first, step⟩ := Option.bind_eq_some_iff.mp isRun
      exact (ih first).tail step

theorem run_of_steps {w later : Walk} (steps : w.Steps ph later) : ∃ n, w.run ph n = some later := by
  induction steps with
  | refl => exact ⟨0, rfl⟩
  | tail _ step ih =>
      obtain ⟨n, isRun⟩ := ih
      exact ⟨n + 1, by rw [run, isRun]; exact step⟩

theorem run_none {n m : Nat} {w : Walk} (isNone : w.run ph n = none) (le : n ≤ m) : w.run ph m = none := by
  induction le with
  | refl => exact isNone
  | step _ ih => rw [run, ih]; rfl

end Walk

theorem crossings_iff (ready : Ready ph s root) :
    (∃ s', Produces ph s root s' ∧ Crossed s root s') ↔
      ∀ f w, s.enter root = some f → Walk.Steps ph ⟨s, [f]⟩ w → w.Meets ph := by
  constructor
  · rintro ⟨s', ⟨g, isFrame, returns⟩, -⟩ f w isFrame' steps
    cases Option.some.inj (isFrame.symm.trans isFrame')
    exact Walk.meets_of_returns (Walk.History.start ready.ok isFrame).inv ready.clocks returns steps
  · intro meets
    obtain ⟨e, isRoot⟩ := ready.isRoot
    obtain ⟨f, isFrame, -⟩ := ready.ok.enter isRoot
    obtain ⟨s', returns⟩ := (Walk.Sound.start ready isFrame).returns ready.clocks fun w => meets f w isFrame
    have history := (Walk.History.start ready.ok isFrame).steps ready.ok ready.clocks returns
    exact ⟨s', ⟨f, isFrame, returns⟩, history.crossed ready.ok⟩

/-- A crossing and its response. -/
theorem crossings_iff_response : ∃ s', Produces firstPhase (.ofList [(0, [1]), (1, [2]), (0, [])]) 0 s' ∧
    Crossed (.ofList [(0, [1]), (1, [2]), (0, [])]) 0 s' := by
  have ready : Ready firstPhase (.ofList [(0, [1]), (1, [2]), (0, [])]) 0 :=
    ready_ofList (by decide) (by decide) (by decide)
  refine (crossings_iff ready).mpr fun f w isFrame steps => ?_
  have isRoot : f = ⟨0, .child⟩ := Option.some.inj (isFrame.symm.trans (by decide +kernel))
  have returns : ((Walk.run firstPhase 5 ⟨.ofList [(0, [1]), (1, [2]), (0, [])], [⟨0, .child⟩]⟩).map
      Walk.frames) = some [] := by decide +kernel
  obtain ⟨⟨s', frames⟩, isRun, isEmpty⟩ := Option.map_eq_some_iff.mp returns
  cases isEmpty
  subst isRoot
  exact Walk.meets_of_returns (Walk.History.start ready.ok isFrame).inv ready.clocks
    (Walk.steps_of_run isRun) steps

/-- The response to a request of an event with three children is missed. -/
theorem crossings_missed :
    Ready firstPhase (.ofList [(0, [1, 3, 4]), (1, [2]), (0, []), (0, []), (0, [])]) 0 ∧
      ¬ ∃ s', Produces firstPhase (.ofList [(0, [1, 3, 4]), (1, [2]), (0, []), (0, []), (0, [])]) 0 s' ∧
        Crossed (.ofList [(0, [1, 3, 4]), (1, [2]), (0, []), (0, []), (0, [])]) 0 s' := by
  refine ⟨ready_ofList (by decide) (by decide) (by decide), ?_⟩
  rintro ⟨s', ⟨f, isFrame, returns⟩, -⟩
  have isRoot : f = ⟨0, .blocks 1 0 0⟩ := Option.some.inj (isFrame.symm.trans (by decide +kernel))
  subst isRoot
  obtain ⟨n, isRun⟩ := Walk.run_of_steps returns
  have early : ∀ k < 11, ((Walk.run firstPhase k ⟨.ofList [(0, [1, 3, 4]), (1, [2]), (0, []), (0, []), (0, [])],
      [⟨0, .blocks 1 0 0⟩]⟩).map Walk.frames) ≠ some [] := by decide +kernel
  have failed : ((Walk.run firstPhase 11 ⟨.ofList [(0, [1, 3, 4]), (1, [2]), (0, []), (0, []), (0, [])],
      [⟨0, .blocks 1 0 0⟩]⟩).map Walk.frames) = none := by decide +kernel
  by_cases lt : n < 11
  · exact early n lt (by rw [isRun]; rfl)
  · rw [Walk.run_none (Option.map_eq_none_iff.mp failed) (Nat.not_lt.mp lt)] at isRun
    cases isRun

end Zsim.Crossing
