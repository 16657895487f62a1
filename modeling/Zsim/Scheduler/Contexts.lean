import Zsim.Scheduler.Invariant

/-!
# Elementary changes

A context is taken, given, left or freed, and a thread enters or leaves a queue.  The functions
of the scheduler are sequences of these.
-/

set_option autoImplicit false

namespace Zsim.Scheduler

variable {hole : Option Nat} {loose : Set Nat} {s : Scheduler} {gid cid : Nat} {th : ThreadInfo}

/-! ## Contexts -/

/-- The thread runs on the context. -/
def occupy (s : Scheduler) (gid cid : Nat) (th : ThreadInfo) : Scheduler :=
  { (s.setThread gid { th with state := .running, cid := cid }).setContext cid ⟨.used, some gid⟩ with
    scheduledThreads := s.scheduledThreads + 1 }

/-- The thread gives the context up. -/
def vacate (s : Scheduler) (gid cid : Nat) (th : ThreadInfo) (targetState : ThreadState) : Scheduler :=
  { (s.setThread gid { th with state := targetState }).setContext cid ⟨.idle, none⟩ with
    scheduledThreads := s.scheduledThreads - 1 }

@[simp] theorem contexts_occupy (c : Nat) :
    (s.occupy gid cid th).contexts c = if c = cid then ⟨.used, some gid⟩ else s.contexts c :=
  contexts_setContext (s.setThread gid _) cid c _

@[simp] theorem contexts_vacate (targetState : ThreadState) (c : Nat) :
    (s.vacate gid cid th targetState).contexts c = if c = cid then ⟨.idle, none⟩ else s.contexts c :=
  contexts_setContext (s.setThread gid _) cid c _

@[simp] theorem threads_occupy (u : Nat) :
    (s.occupy gid cid th).threads u =
      if u = gid then some { th with state := .running, cid := cid } else s.threads u :=
  threads_setThread s gid u _

@[simp] theorem threads_vacate (targetState : ThreadState) (u : Nat) :
    (s.vacate gid cid th targetState).threads u =
      if u = gid then some { th with state := targetState } else s.threads u :=
  threads_setThread s gid u _

@[simp] theorem stateOf_occupy (u : Nat) :
    (s.occupy gid cid th).stateOf u = if u = gid then some .running else s.stateOf u :=
  stateOf_setThread s gid u _

@[simp] theorem stateOf_vacate (targetState : ThreadState) (u : Nat) :
    (s.vacate gid cid th targetState).stateOf u = if u = gid then some targetState else s.stateOf u :=
  stateOf_setThread s gid u _

theorem reads_occupy (isThread : s.threads gid = some th) (cid : Nat) :
    (∀ u, (s.occupy gid cid th).handoffOf u = s.handoffOf u) ∧
      (∀ u c, (s.occupy gid cid th).maskOf u c = s.maskOf u c) ∧
      ∀ u, (s.occupy gid cid th).wakeupPhaseOf u = s.wakeupPhaseOf u := by
  refine ⟨fun u => handoffOf_same isThread u ?_, fun u c => maskOf_same isThread u ?_ c,
    fun u => wakeupPhaseOf_same isThread u ?_⟩ <;> rfl

theorem reads_vacate (isThread : s.threads gid = some th) (cid : Nat) (targetState : ThreadState) :
    (∀ u, (s.vacate gid cid th targetState).handoffOf u = s.handoffOf u) ∧
      (∀ u c, (s.vacate gid cid th targetState).maskOf u c = s.maskOf u c) ∧
      (∀ u, (s.vacate gid cid th targetState).wakeupPhaseOf u = s.wakeupPhaseOf u) ∧
      ∀ u, (s.vacate gid cid th targetState).cidOf u = s.cidOf u := by
  refine ⟨fun u => handoffOf_same isThread u ?_, fun u c => maskOf_same isThread u ?_ c,
    fun u => wakeupPhaseOf_same isThread u ?_, fun u => cidOf_same isThread u ?_⟩ <;> rfl

theorem Core.hole_used (core : Core (some cid) loose s) : (s.contexts cid).state ≠ .used := fun used =>
  (core.used cid).mp used (core.isHole cid rfl).2

theorem countUsed_setContext (bound : cid < s.numCores) (ctx : ContextInfo) :
    countIn (Finset.range s.numCores) (s.setContext cid ctx).contexts (fun c => c.state = .used) +
        (if (s.contexts cid).state = .used then 1 else 0) =
      countIn (Finset.range s.numCores) s.contexts (fun c => c.state = .used) +
        (if ctx.state = .used then 1 else 0) :=
  countIn_update _ _ _ (Finset.mem_range.mpr bound) ctx

/-- `schedule` of a thread that is on no queue fills the hole. -/
theorem Core.occupy (core : Core (some cid) loose s) (isThread : s.threads gid = some th)
    (isLoose : gid ∈ loose) (idle : ¬ s.Holding gid) (noTarget : ∀ v, s.handoffOf v ≠ some gid) :
    Core none loose (s.occupy gid cid th) := by
  obtain ⟨bound, empty⟩ := core.isHole cid rfl
  have cids : ∀ u, (s.occupy gid cid th).cidOf u = if u = gid then cid else s.cidOf u := fun u =>
    cidOf_setThread s gid u _
  obtain ⟨handoffs, masks, phases⟩ := reads_occupy isThread cid
  refine ⟨fun c => ?_, fun c g => ?_, fun g => ?_, core.freeOnce, fun c => ?_, (fun c isHole => by cases isHole),
    core.once, fun q g => ?_, ?_, fun v g => ?_, fun v w g => ?_, ?_, fun g c => ?_, fun g th' => ?_⟩
  · have before := core.used c
    rw [contexts_occupy]
    split
    · simp
    · exact before
  · have before := core.held c g
    simp only [contexts_occupy, Holding, stateOf_occupy, cids] at before ⊢
    have apart : s.stateOf gid ≠ some .running ∧ s.stateOf gid ≠ some .out := not_or.mp idle
    grind
  · have before := core.holds g
    simp only [contexts_occupy, Holding, stateOf_occupy, cids] at before ⊢
    grind
  · have before := core.free c
    change c ∈ s.freeList ↔ c < s.numCores ∧ _
    rw [contexts_occupy]
    grind
  · have before := core.placed q g
    change g ∈ s.queue q ↔ _
    cases q <;> simp only [Belongs, stateOf_occupy, handoffs] at before ⊢ <;> grind
  · refine core.sorted.imp fun {a b} le => ?_
    rwa [phases, phases]
  · have before := core.victim v g
    rw [handoffs, stateOf_occupy, stateOf_occupy]
    grind
  · rw [handoffs, handoffs]
    exact core.target v w g
  · have counts := countUsed_setContext (s := s) bound ⟨.used, some gid⟩
    have notUsed := core.hole_used
    have scheduled := core.scheduled
    rw [if_neg notUsed, if_pos rfl] at counts
    change s.scheduledThreads + 1 = countIn (Finset.range s.numCores) (s.setContext cid _).contexts _
    omega
  · intro waits bound' wants _
    rw [masks] at wants
    rw [contexts_occupy]
    split
    · exact ⟨gid, rfl, by simp⟩
    · rename_i ne
      obtain ⟨h, isHeld, runs⟩ := core.conserved g c waits bound' wants (by simpa using Ne.symm ne)
      refine ⟨h, isHeld, ?_⟩
      rw [stateOf_occupy]
      split
      · rfl
      · exact runs
  · rw [threads_occupy]
    split
    · rintro ⟨⟩
      exact ⟨bound, (core.inRange gid th isThread).2⟩
    · exact core.inRange g th'

/-- `deschedule` of a thread that is on no queue makes a hole; a waiting thread may want it. -/
theorem Core.vacate (core : Core none loose s) (isThread : s.threads gid = some th)
    (holding : s.Holding gid) (absent : ∀ q, gid ∉ s.queue q) (noHandoff : th.handoffThread = none)
    {targetState : ThreadState}
    (isTarget : targetState = .blocked ∨ targetState = .queued ∨ targetState = .sleeping) :
    Core (some th.cid) (insert gid loose) (s.vacate gid th.cid th targetState) := by
  have bound : th.cid < s.numCores := (core.inRange gid th isThread).1
  have holds := core.holds gid holding
  rw [cidOf_eq isThread] at holds
  obtain ⟨handoffs, masks, phases, cids⟩ := reads_vacate isThread th.cid targetState
  have notTarget : ∀ v, s.handoffOf v ≠ some gid := by
    intro v isTarget
    have waits := (core.victim v gid isTarget).2
    rcases holding with state | state <;> rw [state] at waits <;> cases waits
  refine ⟨fun c => ?_, fun c g => ?_, fun g => ?_, core.freeOnce, fun c => ?_, fun c isHole => ?_,
    core.once, fun q g => ?_, ?_, fun v g => ?_, fun v w g => ?_, ?_, fun g c => ?_, fun g th' => ?_⟩
  · have before := core.used c
    rw [contexts_vacate]
    split
    · simp
    · exact before
  · have before := core.held c g
    have unique := core.held th.cid gid holds
    simp only [contexts_vacate, Holding, stateOf_vacate, cids] at before ⊢
    grind
  · have before := core.holds g
    have unique := core.held th.cid g
    simp only [contexts_vacate, Holding, stateOf_vacate, cids] at before ⊢
    grind
  · have before := core.free c
    change c ∈ s.freeList ↔ c < s.numCores ∧ _
    rw [contexts_vacate]
    grind
  · cases isHole
    exact ⟨bound, by simp⟩
  · have before := core.placed q g
    have absent := absent q
    change g ∈ s.queue q ↔ _
    rw [Set.mem_insert_iff]
    cases q <;> simp only [Belongs, stateOf_vacate, handoffs] at before ⊢ <;> grind
  · refine core.sorted.imp fun {a b} le => ?_
    rwa [phases, phases]
  · have before := core.victim v g
    have notThis := handoffOf_eq isThread
    rw [handoffs, stateOf_vacate, stateOf_vacate]
    grind
  · rw [handoffs, handoffs]
    exact core.target v w g
  · have counts := countUsed_setContext (s := s) bound ⟨.idle, none⟩
    have isUsed : (s.contexts th.cid).state = .used := (core.used th.cid).mpr (by simp [holds])
    have scheduled := core.scheduled
    rw [if_pos isUsed, if_neg (by simp)] at counts
    change s.scheduledThreads - 1 = countIn (Finset.range s.numCores) (s.setContext th.cid _).contexts _
    omega
  · intro waits bound' wants notHole
    rw [masks] at wants
    obtain ⟨h, isHeld, runs⟩ := core.conserved g c waits bound' wants (by simp)
    have ne : c ≠ th.cid := fun same => notHole (congrArg some same.symm)
    have other : h ≠ gid := by
      rintro rfl
      have unique := (core.held c h isHeld).2
      rw [cidOf_eq isThread] at unique
      exact ne unique.symm
    rw [contexts_vacate, if_neg ne]
    exact ⟨h, isHeld, by rwa [stateOf_vacate, if_neg other]⟩
  · rw [threads_vacate]
    split
    · rintro ⟨⟩
      exact core.inRange gid th isThread
    · exact core.inRange g th'

theorem Core.takeFree (core : Core none loose s) (isFree : cid ∈ s.freeList) :
    Core (some cid) loose { s with freeList := s.freeList.erase cid } := by
  obtain ⟨bound, empty, -⟩ := (core.free cid).mp isFree
  refine { core with
    freeOnce := core.freeOnce.erase cid, free := fun c => ?_, isHole := fun c isHole => ?_
    conserved := fun g c waits bound wants _ => core.conserved g c waits bound wants (by simp) }
  · have before := core.free c
    change c ∈ s.freeList.erase cid ↔ _
    rw [core.freeOnce.mem_erase_iff]
    grind
  · cases isHole
    exact ⟨bound, empty⟩

theorem Core.pushFree (core : Core (some cid) loose s)
    (unwanted : ∀ g, g ∈ s.queue .runQueue → s.maskOf g cid = false) :
    Core none loose { s with freeList := s.freeList ++ [cid] } := by
  obtain ⟨bound, empty⟩ := core.isHole cid rfl
  have notFree : cid ∉ s.freeList := fun isFree => ((core.free cid).mp isFree).2.2 rfl
  refine { core with
    freeOnce := ?_, free := fun c => ?_, isHole := fun c isHole => by cases isHole
    conserved := fun g c waits bound wants _ => core.conserved g c waits bound wants ?_ }
  · exact List.nodup_append.mpr ⟨core.freeOnce, List.nodup_singleton cid, by grind⟩
  · have before := core.free c
    change c ∈ s.freeList ++ [cid] ↔ _
    rw [List.mem_append, List.mem_singleton]
    grind
  · intro isHole
    cases isHole
    exact absurd (wants.symm.trans (unwanted g waits)) (by simp)

/-! ## Queues -/

theorem Core.loosen (core : Core hole loose s) (absent : ∀ q, gid ∉ s.queue q) :
    Core hole (insert gid loose) s := by
  refine { core with placed := fun q g => ?_ }
  have before := core.placed q g
  have absent := absent q
  rw [Set.mem_insert_iff]
  grind

theorem Core.tighten (core : Core hole (insert gid loose) s) (nowhere : ∀ q, ¬ s.Belongs gid q) :
    Core hole loose s := by
  refine { core with placed := fun q g => ?_ }
  have before := core.placed q g
  have nowhere := nowhere q
  rw [Set.mem_insert_iff] at before
  grind

theorem Core.absent_of_loose (core : Core hole loose s) (isLoose : gid ∈ loose) (q : Queue) :
    gid ∉ s.queue q := fun member => ((core.placed q gid).mp member).2 isLoose

theorem Core.absent (core : Core hole loose s) (nowhere : ∀ q, ¬ s.Belongs gid q) (q : Queue) :
    gid ∉ s.queue q := fun member => nowhere q ((core.placed q gid).mp member).1

theorem Core.owner_eq (core : Core hole loose s) {q : Queue} (member : gid ∈ s.queue q) :
    s.owner gid = some q := by
  have belongs := ((core.placed q gid).mp member).1
  have only : ∀ r, gid ∈ s.queue r → r = q := by
    intro r member'
    have belongs' := ((core.placed r gid).mp member').1
    cases q <;> cases r <;> simp only [Belongs] at belongs belongs' <;> grind
  unfold owner
  have first := only .runQueue
  have second := only .outQueue
  have third := only .sleepQueue
  cases q <;> grind

theorem owner_eq_none (absent : ∀ q, gid ∉ s.queue q) : s.owner gid = none := by
  simp [owner, absent]

theorem Core.remove (core : Core hole loose s) {q : Queue} (member : gid ∈ s.queue q) :
    s.remove q gid = some (s.setQueue q ((s.queue q).erase gid)) ∧
      Core hole (insert gid loose) (s.setQueue q ((s.queue q).erase gid)) := by
  refine ⟨if_pos (core.owner_eq member), { core with
    once := fun r => ?_, placed := fun r g => ?_, sorted := ?_, conserved := fun g c waits => ?_ }⟩
  · rw [queue_setQueue]
    split
    · exact (core.once q).erase gid
    · exact core.once r
  · have before := core.placed r g
    have belongs := ((core.placed q gid).mp member).1
    change g ∈ (s.setQueue q ((s.queue q).erase gid)).queue r ↔ s.Belongs g r ∧ _
    rw [queue_setQueue, Set.mem_insert_iff]
    split
    · rename_i same
      rw [(core.once q).mem_erase_iff, ← same, before]
      grind
    · rename_i other
      have elsewhere : gid ∉ s.queue r := by
        intro member'
        have isOwner := core.owner_eq member'
        rw [core.owner_eq member] at isOwner
        exact other (Option.some.inj isOwner).symm
      grind
  · rw [queue_setQueue]
    split
    · rename_i same
      rw [← same]
      exact core.sorted.sublist List.erase_sublist
    · exact core.sorted
  · apply core.conserved g c
    rw [queue_setQueue] at waits
    split at waits
    · rename_i same
      rw [same]
      exact List.mem_of_mem_erase waits
    · exact waits

theorem Core.enqueue (core : Core hole (insert gid loose) s) (isNew : gid ∉ loose) {q : Queue}
    (belongs : s.Belongs gid q) {gids : List Nat} (perm : gids.Perm (gid :: s.queue q))
    (sorted : q = .sleepQueue → gids.Pairwise fun a b => s.wakeupPhaseOf a ≤ s.wakeupPhaseOf b)
    (conserved : q = .runQueue → ∀ c, c < s.numCores → s.maskOf gid c = true → hole ≠ some c →
      ∃ h, (s.contexts c).curThread = some h ∧ s.stateOf h = some .running) :
    Core hole loose (s.setQueue q gids) := by
  have absent := core.absent_of_loose (Set.mem_insert gid loose)
  refine { core with
    once := fun r => ?_, placed := fun r g => ?_, sorted := ?_, conserved := fun g c waits => ?_ }
  · rw [queue_setQueue]
    split
    · exact perm.nodup_iff.mpr (List.nodup_cons.mpr ⟨absent q, core.once q⟩)
    · exact core.once r
  · have before := core.placed r g
    change g ∈ (s.setQueue q gids).queue r ↔ s.Belongs g r ∧ _
    rw [Set.mem_insert_iff] at before
    rw [queue_setQueue]
    split
    · rename_i same
      rw [perm.mem_iff, List.mem_cons, ← same, before]
      subst same
      grind
    · rename_i other
      have notHere : ¬ s.Belongs gid r := by
        intro belongs'
        cases q <;> cases r <;> simp only [Belongs] at belongs belongs' <;> grind
      grind
  · rw [queue_setQueue]
    split
    · rename_i same
      exact sorted same.symm
    · exact core.sorted
  · rw [queue_setQueue] at waits
    split at waits
    · rename_i same
      rcases List.mem_cons.mp (perm.mem_iff.mp waits) with isThread | member
      · rw [isThread]
        exact conserved same.symm c
      · exact core.conserved g c (same ▸ member)
    · exact core.conserved g c waits

/-! ## Threads -/

theorem Core.modify (core : Core hole loose s) (isThread : s.threads gid = some th) (th' : ThreadInfo)
    (state : th'.state = th.state) (cid : th'.cid = th.cid)
    (handoff : th'.handoffThread = th.handoffThread) (mask : th'.mask = th.mask)
    (phase : th'.wakeupPhase = th.wakeupPhase ∨ gid ∉ s.queue .sleepQueue) :
    Core hole loose (s.setThread gid th') := by
  have states := fun u => stateOf_same isThread u state
  have cids := fun u => cidOf_same isThread u cid
  have handoffs := fun u => handoffOf_same isThread u handoff
  have masks := fun u => maskOf_same isThread u mask
  refine ⟨core.used, fun c g => ?_, fun g => ?_, core.freeOnce, core.free, core.isHole, core.once,
    fun q g => ?_, ?_, fun v g => ?_, fun v w g => ?_, core.scheduled, fun g c => ?_, fun g x => ?_⟩
  · rw [Holding, states, cids]
    exact core.held c g
  · rw [Holding, states, cids]
    exact core.holds g
  · have before := core.placed q g
    cases q <;> simp only [Belongs, states, handoffs] at before ⊢ <;> exact before
  · refine core.sorted.imp_of_mem fun {a b} memberA memberB le => ?_
    have phases : ∀ u, u ∈ s.queue .sleepQueue → (s.setThread gid th').wakeupPhaseOf u = s.wakeupPhaseOf u := by
      intro u member
      rcases phase with same | notThere
      · exact wakeupPhaseOf_same isThread u same
      · have ne : u ≠ gid := by
          rintro rfl
          exact notThere member
        rw [wakeupPhaseOf_setThread, if_neg ne]
    rwa [phases a memberA, phases b memberB]
  · rw [handoffs, states, states]
    exact core.victim v g
  · rw [handoffs, handoffs]
    exact core.target v w g
  · simp only [masks, states]
    exact core.conserved g c
  · rw [threads_setThread]
    split
    · rintro ⟨⟩
      rw [cid, mask]
      exact core.inRange gid th isThread
    · exact core.inRange g x

theorem Core.noHandoff (core : Core hole loose s) (isThread : s.threads gid = some th)
    (idle : th.state ≠ .running) : th.handoffThread = none := by
  cases handoff : th.handoffThread with
  | none => rfl
  | some g =>
      have runs := (core.victim gid g ((handoffOf_eq isThread).trans handoff)).1
      rw [stateOf_eq isThread] at runs
      exact absurd (Option.some.inj runs) idle

theorem Core.noTarget (core : Core hole loose s) (isThread : s.threads gid = some th)
    (idle : th.state ≠ .queued) (v : Nat) : s.handoffOf v ≠ some gid := by
  intro isTarget
  have waits := (core.victim v gid isTarget).2
  rw [stateOf_eq isThread] at waits
  exact idle (Option.some.inj waits)

/-- The state of a thread that is on no queue changes, but not whether it holds a context. -/
theorem Core.setState (core : Core hole loose s) (isThread : s.threads gid = some th)
    (isLoose : gid ∈ loose) (noHandoff : th.handoffThread = none)
    (noTarget : ∀ v, s.handoffOf v ≠ some gid) (state : ThreadState)
    (holding : s.Holding gid ↔ state = .running ∨ state = .out)
    (unwanted : state = .out → ∀ g, g ∈ s.queue .runQueue → s.maskOf g th.cid = false) :
    Core hole loose (s.setThread gid { th with state := state }) := by
  have states : ∀ u, (s.setThread gid { th with state := state }).stateOf u =
      if u = gid then some state else s.stateOf u := fun u => stateOf_setThread s gid u _
  have cids := fun u => @cidOf_same s gid th isThread { th with state := state } u rfl
  have handoffs := fun u => @handoffOf_same s gid th isThread { th with state := state } u rfl
  have masks := fun u => @maskOf_same s gid th isThread { th with state := state } u rfl
  have phases := fun u => @wakeupPhaseOf_same s gid th isThread { th with state := state } u rfl
  have still : ∀ g, (s.setThread gid { th with state := state }).Holding g ↔ s.Holding g := by
    intro g
    rw [Holding, states]
    by_cases same : g = gid
    · rw [if_pos same, same, holding, Option.some.injEq, Option.some.injEq]
    · rw [if_neg same, Holding]
  refine ⟨core.used, fun c g isHeld => ?_, fun g holds => ?_, core.freeOnce, core.free, core.isHole,
    core.once, fun q g => ?_, ?_, fun v g isTarget => ?_, fun v w g => ?_, core.scheduled,
    fun g c waits bound wants notHole => ?_, fun g x => ?_⟩
  · rw [still, cids]
    exact core.held c g isHeld
  · rw [cids]
    exact core.holds g ((still g).mp holds)
  · have before := core.placed q g
    change g ∈ s.queue q ↔ _
    by_cases same : g = gid
    · rw [before, same]
      simp [isLoose]
    · rw [before]
      cases q <;> simp only [Belongs, states, handoffs, if_neg same]
  · refine core.sorted.imp fun {a b} le => ?_
    rwa [phases, phases]
  · rw [handoffs] at isTarget
    have neVictim : v ≠ gid := by
      rintro rfl
      rw [handoffOf_eq isThread, noHandoff] at isTarget
      cases isTarget
    have neTarget : g ≠ gid := by
      rintro rfl
      exact noTarget v isTarget
    rw [states, states, if_neg neVictim, if_neg neTarget]
    exact core.victim v g isTarget
  · rw [handoffs, handoffs]
    exact core.target v w g
  · rw [masks] at wants
    obtain ⟨h, isHeld, runs⟩ := core.conserved g c waits bound wants notHole
    refine ⟨h, isHeld, ?_⟩
    rw [states]
    split
    · rename_i same
      subst same
      rcases holding.mp (.inl runs) with isRunning | isOut
      · rw [isRunning]
      · have isCid := (core.held c h isHeld).2
        rw [cidOf_eq isThread] at isCid
        rw [← isCid, unwanted isOut g waits] at wants
        cases wants
    · exact runs
  · rw [threads_setThread]
    split
    · rintro ⟨⟩
      exact core.inRange gid th isThread
    · exact core.inRange g x

theorem Core.unlist (core : Core none ∅ s) (isThread : s.threads gid = some th) {q : Queue}
    (member : gid ∈ s.queue q) (notHeld : ¬ s.Holding gid) (noTarget : ∀ v, s.handoffOf v ≠ some gid) :
    s.remove q gid = some (s.setQueue q ((s.queue q).erase gid)) ∧
      Core none (insert gid ∅) ((s.setQueue q ((s.queue q).erase gid)).setThread gid
        { th with state := .blocked }) := by
  obtain ⟨removes, removed⟩ := core.remove member
  have notHeld' : ¬ (s.setQueue q ((s.queue q).erase gid)).Holding gid := notHeld
  have noHandoff : th.handoffThread = none := by
    apply core.noHandoff isThread
    intro runs
    exact notHeld (.inl ((stateOf_eq isThread).trans (congrArg some runs)))
  exact ⟨removes, removed.setState isThread (Set.mem_insert gid ∅) noHandoff noTarget .blocked
    (by simp [notHeld']) fun isOut => by cases isOut⟩

theorem Core.wake (core : Core none ∅ s) (isThread : s.threads gid = some th) (sleeps : th.state = .sleeping) :
    s.remove .sleepQueue gid = some (s.setQueue .sleepQueue ((s.queue .sleepQueue).erase gid)) ∧
      Core none (insert gid ∅) ((s.setQueue .sleepQueue ((s.queue .sleepQueue).erase gid)).setThread gid
        { th with state := .blocked }) := by
  have isSleeping : s.stateOf gid = some .sleeping := (stateOf_eq isThread).trans (congrArg some sleeps)
  exact core.unlist isThread ((core.placed .sleepQueue gid).mpr ⟨isSleeping, id⟩)
    (by simp [Holding, isSleeping]) (core.noTarget isThread (by simp [sleeps]))

/-! ## Handoffs -/

theorem Core.choose (core : Core none ∅ s) {victim : Nat} {victimTh : ThreadInfo}
    (waits : gid ∈ s.queue .runQueue) (isThread : s.threads victim = some victimTh)
    (runs : victimTh.state = .running) (noHandoff : victimTh.handoffThread = none) :
    Core none ∅ ((s.setThread victim { victimTh with handoffThread := some gid }).setQueue .runQueue
      ((s.queue .runQueue).erase gid)) := by
  have queued := ((core.placed .runQueue gid).mp waits).1
  let chosen := (s.setThread victim { victimTh with handoffThread := some gid }).setQueue .runQueue
    ((s.queue .runQueue).erase gid)
  have states : ∀ u, chosen.stateOf u = s.stateOf u := fun u => stateOf_same isThread u (by rfl)
  have cids : ∀ u, chosen.cidOf u = s.cidOf u := fun u => cidOf_same isThread u (by rfl)
  have masks : ∀ u c, chosen.maskOf u c = s.maskOf u c := fun u => maskOf_same isThread u (by rfl)
  have phases : ∀ u, chosen.wakeupPhaseOf u = s.wakeupPhaseOf u := fun u =>
    wakeupPhaseOf_same isThread u (by rfl)
  have handoffs : ∀ u, chosen.handoffOf u = if u = victim then some gid else s.handoffOf u := fun u =>
    handoffOf_setThread s victim u _
  have noneBefore : s.handoffOf victim = none := (handoffOf_eq isThread).trans noHandoff
  have queues : ∀ r, chosen.queue r =
      if r = .runQueue then (s.queue .runQueue).erase gid else s.queue r := fun r =>
    queue_setQueue (s.setThread victim _) .runQueue r _
  refine ⟨core.used, fun c g isHeld => ?_, fun g holding => ?_, core.freeOnce, core.free, core.isHole,
    fun q => ?_, fun q g => ?_, ?_, fun v g => ?_, fun v w g => ?_, core.scheduled, fun g c => ?_, fun g x => ?_⟩
  · change chosen.Holding g ∧ chosen.cidOf g = c
    rw [Holding, states, cids]
    exact core.held c g isHeld
  · change chosen.Holding g at holding
    rw [Holding, states] at holding
    change (s.contexts (chosen.cidOf g)).curThread = some g
    rw [cids]
    exact core.holds g holding
  · change (chosen.queue q).Nodup
    rw [queues]
    split
    · exact (core.once _).erase gid
    · exact core.once q
  · have before := core.placed q g
    change g ∈ chosen.queue q ↔ chosen.Belongs g q ∧ _
    rw [queues]
    cases q with
    | runQueue =>
        rw [if_pos rfl, (core.once _).mem_erase_iff, before]
        simp only [Belongs, states, handoffs]
        grind
    | outQueue =>
        rw [if_neg (by simp), before]
        simp only [Belongs, states]
    | sleepQueue =>
        rw [if_neg (by simp), before]
        simp only [Belongs, states]
  · change (chosen.queue .sleepQueue).Pairwise _
    rw [queues, if_neg (by simp)]
    refine core.sorted.imp fun {a b} le => ?_
    change chosen.wakeupPhaseOf a ≤ chosen.wakeupPhaseOf b
    rwa [phases, phases]
  · have before := core.victim v g
    have isRunning := stateOf_eq isThread
    change chosen.handoffOf v = some g → chosen.stateOf v = _ ∧ chosen.stateOf g = _
    rw [handoffs, states, states]
    have isQueued := queued.1
    grind
  · have before := core.target v w g
    have alone := queued.2
    change chosen.handoffOf v = some g → chosen.handoffOf w = some g → v = w
    rw [handoffs, handoffs]
    grind
  · have before := core.conserved g c
    change g ∈ chosen.queue .runQueue → c < s.numCores → chosen.maskOf g c = true → _ →
      ∃ h, (s.contexts c).curThread = some h ∧ chosen.stateOf h = _
    rw [queues, if_pos rfl, masks]
    simp only [states]
    exact fun member => before (List.mem_of_mem_erase member)
  · change chosen.threads g = some x → _
    rw [show chosen.threads g = _ from threads_setThread s victim g _]
    split
    · rintro ⟨⟩
      exact core.inRange victim victimTh isThread
    · exact core.inRange g x

theorem Core.clearHandoff (core : Core hole loose s) (isThread : s.threads gid = some th) {dst : Nat}
    (handoff : th.handoffThread = some dst) :
    Core hole (insert dst loose) (s.setThread gid { th with handoffThread := none }) := by
  let cleared := s.setThread gid { th with handoffThread := none }
  have states : ∀ u, cleared.stateOf u = s.stateOf u := fun u => stateOf_same isThread u (by rfl)
  have cids : ∀ u, cleared.cidOf u = s.cidOf u := fun u => cidOf_same isThread u (by rfl)
  have masks : ∀ u c, cleared.maskOf u c = s.maskOf u c := fun u => maskOf_same isThread u (by rfl)
  have phases : ∀ u, cleared.wakeupPhaseOf u = s.wakeupPhaseOf u := fun u =>
    wakeupPhaseOf_same isThread u (by rfl)
  have handoffs : ∀ u, cleared.handoffOf u = if u = gid then none else s.handoffOf u := fun u =>
    handoffOf_setThread s gid u _
  have isTarget : s.handoffOf gid = some dst := (handoffOf_eq isThread).trans handoff
  have isQueued := (core.victim gid dst isTarget).2
  refine ⟨core.used, fun c g isHeld => ?_, fun g holding => ?_, core.freeOnce, core.free, core.isHole,
    core.once, fun q g => ?_, ?_, fun v g => ?_, fun v w g => ?_, core.scheduled, fun g c => ?_, fun g x => ?_⟩
  · change cleared.Holding g ∧ cleared.cidOf g = c
    rw [Holding, states, cids]
    exact core.held c g isHeld
  · change cleared.Holding g at holding
    rw [Holding, states] at holding
    change (s.contexts (cleared.cidOf g)).curThread = some g
    rw [cids]
    exact core.holds g holding
  · have before := core.placed q g
    have unique := fun v => core.target gid v g
    change g ∈ s.queue q ↔ cleared.Belongs g q ∧ _
    rw [before, Set.mem_insert_iff]
    cases q <;> simp only [Belongs, states, handoffs] <;> grind
  · refine core.sorted.imp fun {a b} le => ?_
    change cleared.wakeupPhaseOf a ≤ cleared.wakeupPhaseOf b
    rwa [phases, phases]
  · have before := core.victim v g
    change cleared.handoffOf v = some g → cleared.stateOf v = _ ∧ cleared.stateOf g = _
    rw [handoffs, states, states]
    grind
  · have before := core.target v w g
    change cleared.handoffOf v = some g → cleared.handoffOf w = some g → v = w
    rw [handoffs, handoffs]
    grind
  · have before := core.conserved g c
    change g ∈ s.queue .runQueue → c < s.numCores → cleared.maskOf g c = true → _ →
      ∃ h, (s.contexts c).curThread = some h ∧ cleared.stateOf h = _
    rw [masks]
    simp only [states]
    exact before
  · change cleared.threads g = some x → _
    rw [show cleared.threads g = _ from threads_setThread s gid g _]
    split
    · rintro ⟨⟩
      exact core.inRange gid th isThread
    · exact core.inRange g x

/-! ## start and finish -/

theorem Core.create (core : Core none ∅ s) (isNew : s.threads gid = none) {mask : Nat → Bool} {c : Nat}
    (bound : c < s.numCores) (wants : mask c = true) :
    Core none ∅ (s.setThread gid (.create mask)) := by
  let created := s.setThread gid (.create mask)
  have states : ∀ u, created.stateOf u = if u = gid then some .started else s.stateOf u := fun u =>
    stateOf_setThread s gid u _
  have cids : ∀ u, created.cidOf u = if u = gid then 0 else s.cidOf u := fun u => cidOf_setThread s gid u _
  have masks : ∀ u c, created.maskOf u c = if u = gid then mask c else s.maskOf u c := fun u c =>
    maskOf_setThread s gid u _ c
  have phases : ∀ u, created.wakeupPhaseOf u = if u = gid then 0 else s.wakeupPhaseOf u := fun u =>
    wakeupPhaseOf_setThread s gid u _
  have handoffs : ∀ u, created.handoffOf u = if u = gid then none else s.handoffOf u := fun u =>
    handoffOf_setThread s gid u _
  have noState : s.stateOf gid = none := by rw [stateOf, isNew]; rfl
  have noHandoff : s.handoffOf gid = none := by rw [handoffOf, isNew]; rfl
  have absent : ∀ q, gid ∉ s.queue q := core.absent fun q belongs => by
    cases q <;> simp [Belongs, noState] at belongs
  have apart : ∀ q g, g ∈ s.queue q → g ≠ gid := by
    rintro q g member rfl
    exact absent q member
  refine ⟨core.used, fun c g isHeld => ?_, fun g holding => ?_, core.freeOnce, core.free, core.isHole,
    core.once, fun q g => ?_, ?_, fun v g => ?_, fun v w g => ?_, core.scheduled, fun g c waits => ?_,
    fun g x => ?_⟩
  · have before := core.held c g isHeld
    change created.Holding g ∧ created.cidOf g = c
    unfold Holding at before ⊢
    rw [states, cids]
    grind
  · change created.Holding g at holding
    change (s.contexts (created.cidOf g)).curThread = some g
    have before := core.holds g
    unfold Holding at before holding
    rw [states] at holding
    rw [cids]
    grind
  · have before := core.placed q g
    have absent := absent q
    change g ∈ s.queue q ↔ created.Belongs g q ∧ _
    rw [before]
    cases q <;> simp only [Belongs, states, handoffs] <;> grind
  · refine core.sorted.imp_of_mem fun {a b} memberA memberB le => ?_
    change created.wakeupPhaseOf a ≤ created.wakeupPhaseOf b
    rwa [phases, phases, if_neg (apart _ a memberA), if_neg (apart _ b memberB)]
  · have before := core.victim v g
    change created.handoffOf v = some g → created.stateOf v = _ ∧ created.stateOf g = _
    rw [handoffs, states, states]
    grind
  · have before := core.target v w g
    change created.handoffOf v = some g → created.handoffOf w = some g → v = w
    rw [handoffs, handoffs]
    grind
  · have before := core.conserved g c waits
    change c < s.numCores → created.maskOf g c = true → _ →
      ∃ h, (s.contexts c).curThread = some h ∧ created.stateOf h = _
    rw [masks, if_neg (apart _ g waits)]
    simp only [states]
    grind
  · change created.threads g = some x → _
    rw [show created.threads g = _ from threads_setThread s gid g _]
    split
    · rintro ⟨⟩
      exact ⟨Nat.zero_lt_of_lt bound, c, bound, wants⟩
    · exact core.inRange g x

theorem Core.delete (core : Core none ∅ s) (isThread : s.threads gid = some th)
    (idle : ¬ s.Holding gid) (absent : ∀ q, gid ∉ s.queue q) (noTarget : ∀ v, s.handoffOf v ≠ some gid) :
    Core none ∅ (s.delete gid) := by
  have threads : ∀ u, (s.delete gid).threads u = if u = gid then none else s.threads u := by
    intro u
    change Function.update s.threads gid none u = _
    by_cases same : u = gid
    · simp [same]
    · simp [same]
  have others : ∀ u, u ≠ gid → (s.delete gid).threads u = s.threads u := fun u ne => by
    rw [threads, if_neg ne]
  have states : ∀ u, (s.delete gid).stateOf u = if u = gid then none else s.stateOf u := fun u => by
    rw [stateOf, threads]
    split <;> rfl
  have handoffs : ∀ u, (s.delete gid).handoffOf u = if u = gid then none else s.handoffOf u := fun u => by
    rw [handoffOf, threads]
    split <;> rfl
  have cids : ∀ u, u ≠ gid → (s.delete gid).cidOf u = s.cidOf u := fun u ne => by
    rw [cidOf, others u ne]
    rfl
  have masks : ∀ u c, u ≠ gid → (s.delete gid).maskOf u c = s.maskOf u c := fun u c ne => by
    rw [maskOf, others u ne]
    rfl
  have phases : ∀ u, u ≠ gid → (s.delete gid).wakeupPhaseOf u = s.wakeupPhaseOf u := fun u ne => by
    rw [wakeupPhaseOf, others u ne]
    rfl
  have apart : ∀ q g, g ∈ s.queue q → g ≠ gid := by
    rintro q g member rfl
    exact absent q member
  have noHandoff : s.handoffOf gid = none := by
    rw [handoffOf_eq isThread]
    apply core.noHandoff isThread
    intro runs
    exact idle (.inl ((stateOf_eq isThread).trans (congrArg some runs)))
  refine ⟨core.used, fun c g isHeld => ?_, fun g holding => ?_, core.freeOnce, core.free, core.isHole,
    core.once, fun q g => ?_, ?_, fun v g => ?_, fun v w g => ?_, core.scheduled, fun g c waits => ?_,
    fun g x => ?_⟩
  · have before := core.held c g isHeld
    have ne : g ≠ gid := by
      rintro rfl
      exact idle before.1
    rw [Holding, states, if_neg ne, cids g ne]
    exact before
  · have ne : g ≠ gid := by
      rintro rfl
      rw [Holding, states, if_pos rfl] at holding
      simp at holding
    rw [Holding, states, if_neg ne] at holding
    rw [cids g ne]
    exact core.holds g holding
  · have before := core.placed q g
    change g ∈ s.queue q ↔ (s.delete gid).Belongs g q ∧ _
    by_cases same : g = gid
    · rw [same]
      refine iff_of_false (absent q) fun belongs => ?_
      cases q <;> simp [Belongs, states] at belongs
    · rw [before]
      cases q <;> simp only [Belongs, states, handoffs, if_neg same]
      all_goals grind
  · refine core.sorted.imp_of_mem fun {a b} memberA memberB le => ?_
    rwa [phases a (apart _ a memberA), phases b (apart _ b memberB)]
  · have before := core.victim v g
    rw [handoffs, states, states]
    grind
  · have before := core.target v w g
    rw [handoffs, handoffs]
    grind
  · intro bound wants notHole
    rw [masks g c (apart _ g waits)] at wants
    obtain ⟨h, isHeld, runs⟩ := core.conserved g c waits bound wants notHole
    refine ⟨h, isHeld, ?_⟩
    rw [states]
    split
    · rename_i same
      exact absurd (.inl (same ▸ runs)) idle
    · exact runs
  · rw [threads]
    split
    · simp
    · exact core.inRange g x

theorem pushBack_eq (absent : ∀ q, gid ∉ s.queue q) (q : Queue) :
    s.pushBack q gid = some (s.setQueue q (s.queue q ++ [gid])) := if_pos (owner_eq_none absent)

end Zsim.Scheduler
