import Zsim.Contention.Invariant

/-!
# The steps of the contention simulation

What each step changes, said once: one domain of one thread, in one of four ways.
-/

set_option autoImplicit false

namespace Zsim.Contention

variable {T : Type} [DecidableEq T] {c : Config}

/-! ## The queues of a thread -/

section
omit [DecidableEq T]

variable {domains domains' : Nat → Domain T} {limit thid : Nat}

theorem QueuesOk.perm {q q' : Queues} {running running' : Option Nat}
    (ok : QueuesOk c domains limit thid q running)
    (perm : (running'.toList ++ q'.all).Perm (running.toList ++ q.all))
    (same : q'.numFinished = q.numFinished) : QueuesOk c domains limit thid q' running' where
  nodup := perm.nodup_iff.mpr ok.nodup
  own i member := ok.own i (perm.mem_iff.mp member)
  count := by
    rw [perm.length_eq, same]
    exact ok.count
  settled i owns absent := ok.settled i owns fun member => absent (perm.mem_iff.mpr member)

theorem QueuesOk.congr {q : Queues} {running : Option Nat}
    (ok : QueuesOk c domains limit thid q running)
    (same : ∀ i, c.Owns thid i → i ∉ running.toList ++ q.all → domains' i = domains i) :
    QueuesOk c domains' limit thid q running where
  nodup := ok.nodup
  own := ok.own
  count := ok.count
  settled i owns absent := by
    rw [same i owns absent]
    exact ok.settled i owns absent

theorem QueuesOk.finish {q : Queues} {i : Nat} (ok : QueuesOk c domains limit thid q (some i))
    {d : Domain T} (settled : Settled limit d) :
    QueuesOk c (Function.update domains i d) limit thid
      { q with numFinished := q.numFinished + 1 } none where
  nodup := (List.nodup_cons.mp ok.nodup).2
  own j member := ok.own j (List.mem_cons_of_mem i member)
  count := by
    have count := ok.count
    change q.all.length + 1 + q.numFinished = c.thDomains thid at count
    change q.all.length + (q.numFinished + 1) = c.thDomains thid
    omega
  settled j owns absent := by
    by_cases same : j = i
    · rw [same, Function.update_self]
      exact settled
    · rw [Function.update_of_ne same]
      refine ok.settled j owns fun member => ?_
      rcases List.mem_cons.mp member with isI | later
      · exact same isI
      · exact absent later

/-- What the thread does after the loops keeps its domains, or all are settled. -/
def AfterOk (c : Config) (domains : Nat → Domain T) (limit thid : Nat) : Option Queues → Prop
  | none => ∀ i, c.Owns thid i → Settled limit (domains i)
  | some q => QueuesOk c domains limit thid q none

theorem QueuesOk.afterStalled {q : Queues} (ok : QueuesOk c domains limit thid q none) :
    AfterOk c domains limit thid (ContentionSim.afterStalled (c.thDomains thid) q) := by
  have swapped : QueuesOk c domains limit thid
      (if q.stalledQueue = [] then
        { q with stalledQueue := q.nextStalledQueue, nextStalledQueue := [] } else q) none := by
    split
    case isTrue empty =>
      refine ok.perm ?_ rfl
      simp [Queues.all, empty]
    case isFalse => exact ok
  unfold ContentionSim.afterStalled
  split
  case isFalse => exact ok
  case isTrue =>
    dsimp only
    generalize (if q.stalledQueue = [] then
      { q with stalledQueue := q.nextStalledQueue, nextStalledQueue := [] } else q) = q' at swapped ⊢
    split
    case isTrue => exact swapped.perm (.refl _) rfl
    case isFalse all =>
      -- as many domains are finished as the thread has
      intro i owns
      refine swapped.settled i owns fun member => ?_
      have count := swapped.count
      have some' := List.length_pos_of_mem member
      omega

theorem AfterOk.thread {q : Option Queues} (ok : AfterOk c domains limit thid q) :
    ThreadOk c domains limit thid (ContentionSim.queuesThread q) := by
  cases q with
  | none => exact ok
  | some q => exact ⟨ok, fun i running => nomatch running⟩

theorem ThreadOk.congr {th : Option Thread} (ok : ThreadOk c domains limit thid th)
    (same : ∀ i, c.Owns thid i → domains' i = domains i) : ThreadOk c domains' limit thid th := by
  match th with
  | none =>
      intro i owns
      rw [same i owns]
      exact ok i owns
  | some ⟨.single, running⟩ =>
      refine ⟨ok.1, fun i isRunning => ?_⟩
      obtain ⟨isFirst, within⟩ := ok.2 i isRunning
      have one := ok.1
      have owns : c.Owns thid i := by
        unfold Config.thDomains at one
        exact ⟨by omega, by omega⟩
      rw [same i owns]
      exact ⟨isFirst, within⟩
  | some ⟨.several q, running⟩ =>
      refine ⟨ok.1.congr fun i owns _ => same i owns, fun i isRunning => ?_⟩
      have member : i ∈ running.toList ++ q.all := by simp [isRunning]
      rw [same i (ok.1.own i member)]
      exact ok.2 i isRunning

end

/-! ## What a step changes -/

/-- A value was stored; the new entries of the history have it. -/
structure Stored (value : Nat) (d d' : Domain T) : Prop where
  curCycle : d'.curCycle = value
  queued : d'.trace.queued = d.trace.queued
  executed : d'.trace.executed = d.trace.executed
  before : d'.trace.before = d.trace.before
  enqueued : d'.trace.enqueued = d.trace.enqueued
  history : Shows value d d'

/-- The event of the domain returns. -/
def Returning (s : ContentionSim T) (input : ContentionSim.Input T) (i : Nat) : Prop :=
  ∃ thid th, input = .returned thid ∧ s.threads thid = some th ∧ th.running = some i

/-- The event of the domain enqueues another, or one is enqueued between two phases. -/
def Enqueuing (s : ContentionSim T) (input : ContentionSim.Input T) (i : Nat) (cycle : Nat)
    (ev : T) : Prop :=
  (∃ thid th, input = .enqueue thid ev cycle ∧ s.threads thid = some th ∧ th.running = some i) ∨
    s.inCSim = false

/-- The domain of which a thread with several domains takes the first event. -/
def looksAt (s : ContentionSim T) : ContentionSim.Input T → Option Nat
  | .turn thid pick =>
    match s.threads thid with
    | some ⟨.several ⟨_ :: _, _, _, _, .domains⟩, none⟩ => some pick
    | some ⟨.several ⟨_, i :: _, _, _, .stalled⟩, none⟩ => some i
    | _ => none
  | _ => none

inductive Change (s : ContentionSim T) (input : ContentionSim.Input T) (i : Nat)
    (d' : Domain T) : Prop
  | started {first : Nat} (isFirst : (s.domains i).firstCycle = some first) (le : first ≤ s.limit)
      (notBehind : (s.domains i).curCycle ≤ first) (inside : s.inCSim = true)
      (started : Started (s.domains i) d' first)
      (looks : first = s.limit → looksAt s input = some i)
  /-- the thread is done with the domain -/
  | finished (stored : Stored s.limit (s.domains i) d')
  /-- an event has returned -/
  | next (returns : Returning s input i) (within : (s.domains i).curCycle ≤ s.limit)
      (stored : Stored ((s.domains i).newCycle s.limit) (s.domains i) d')
  | added {cycle : Nat} {ev : T} (enqueuing : Enqueuing s input i cycle ev)
      (added : Added (s.domains i) d' cycle ev)
  | kept (curCycle : d'.curCycle = (s.domains i).curCycle) (trace : d'.trace = (s.domains i).trace)

/-- A step inside a phase or between two phases changes one domain at most. -/
structure Changed (c : Config) (input : ContentionSim.Input T) (s s' : ContentionSim T) : Prop where
  inv : SimInv c s'
  limit : s'.limit = s.limit
  inCSim : s'.inCSim = s.inCSim
  change : ∀ i < c.numDomains, s'.domains i = s.domains i ∨ Change s input i (s'.domains i)

section
omit [DecidableEq T]

theorem SimInv.inCSim_of_thread {s : ContentionSim T} (inv : SimInv c s) {thid : Nat} {th : Thread}
    (isThread : s.threads thid = some th) : s.inCSim = true ∧ thid < c.numSimThreads := by
  constructor
  · cases phase : s.inCSim with
    | true => rfl
    | false =>
        rw [inv.idle phase thid] at isThread
        cases isThread
  · by_contra beyond
    rw [inv.others thid (Nat.not_lt.mp beyond)] at isThread
    cases isThread

theorem SimInv.replace {s : ContentionSim T} (inv : SimInv c s) {thid i : Nat} {th : Thread}
    (isThread : s.threads thid = some th) (owns : c.Owns thid i) {d : Domain T}
    (domain : DomainInv s.limit d) {th' : Option Thread}
    (ok : ThreadOk c (Function.update s.domains i d) s.limit thid th') :
    SimInv c ((s.setDomain i d).setThread thid th') := by
  obtain ⟨inCSim, bound⟩ := inv.inCSim_of_thread isThread
  refine ⟨fun j jBound => ?_, inv.lastLimit, fun phase => ?_, fun t tBound => ?_,
    fun t beyond => ?_, fun phase => ?_⟩
  · change DomainInv s.limit (Function.update s.domains i d j)
    by_cases same : j = i
    · rw [same, Function.update_self]
      exact domain
    · rw [Function.update_of_ne same]
      exact inv.domains j jBound
  · exact absurd (inCSim.symm.trans phase) (by decide)
  · change ThreadOk c (Function.update s.domains i d) s.limit t (Function.update s.threads thid th' t)
    by_cases same : t = thid
    · rw [same, Function.update_self]
      exact ok
    · rw [Function.update_of_ne same]
      refine (inv.threads t tBound).congr fun j ownsJ => ?_
      apply Function.update_of_ne
      rintro rfl
      exact same (ownsJ.unique owns)
  · change Function.update s.threads thid th' t = none
    rw [Function.update_of_ne (by omega)]
    exact inv.others t beyond
  · exact absurd (inCSim.symm.trans phase) (by decide)

theorem SimInv.changed {s : ContentionSim T} (inv : SimInv c s) {thid i : Nat} {th : Thread}
    (isThread : s.threads thid = some th) (owns : c.Owns thid i) {d : Domain T}
    (domain : DomainInv s.limit d) (th' : Option Thread)
    (ok : ThreadOk c (Function.update s.domains i d) s.limit thid th')
    {input : ContentionSim.Input T} (change : Change s input i d) :
    Changed c input s ((s.setDomain i d).setThread thid th') where
  inv := inv.replace isThread owns domain ok
  limit := rfl
  inCSim := rfl
  change j _ := by
    by_cases same : j = i
    · right
      rw [same]
      change Change s input i (Function.update s.domains i d i)
      rw [Function.update_self]
      exact change
    · exact Or.inl (Function.update_of_ne same ..)

end

omit [DecidableEq T] in
theorem Stored.publish (value : Nat) (d : Domain T) : Stored value d (d.publish value) :=
  ⟨rfl, rfl, rfl, rfl, rfl, [.published value], rfl, fun x isNew => by
    cases List.mem_singleton.mp isNew
    rfl, fun none => nomatch none⟩

omit [DecidableEq T] in
theorem Stored.advance (value : Nat) (d : Domain T) : Stored value d (d.advance value) := by
  refine ⟨advance_curCycle _ _, ?_, ?_, ?_, ?_, _, by rw [advance_trace], fun x isNew => ?_,
    fun none => ?_⟩
  · rw [advance_trace]
  · rw [advance_trace]
  · rw [advance_trace]
  · rw [advance_trace]
  · split at isNew
    · cases List.mem_singleton.mp isNew
      rfl
    · cases isNew
  · by_contra differs
    rw [if_pos fun same => differs same.symm] at none
    cases none

/-! ## One domain for the thread -/

theorem owns_first {thid : Nat} (one : c.thDomains thid = 1) {i : Nat} :
    c.Owns thid i ↔ i = c.firstDomain thid := by
  unfold Config.thDomains at one
  unfold Config.Owns
  omega

omit [DecidableEq T] in
theorem single_settled {thid : Nat} (one : c.thDomains thid = 1) {domains : Nat → Domain T}
    {limit : Nat} {d : Domain T} (settled : Settled limit d) :
    ThreadOk c (Function.update domains (c.firstDomain thid) d) limit thid none := by
  intro i owns
  rw [(owns_first one).mp owns, Function.update_self]
  exact settled

theorem turnSingle_spec {s s' : ContentionSim T} (inv : SimInv c s) {thid : Nat}
    {input : ContentionSim.Input T} {running : Option Nat} (isThread : s.threads thid = some ⟨.single, running⟩)
    (run : s.turnSingle c thid = some s') : Changed c input s s' := by
  obtain ⟨inside, bound⟩ := inv.inCSim_of_thread isThread
  have ok := inv.threads thid bound
  rw [isThread] at ok
  have one : c.thDomains thid = 1 := ok.1
  have owns : c.Owns thid (c.firstDomain thid) := (owns_first one).mpr rfl
  have domain := inv.domains _ (owns.bound bound)
  unfold ContentionSim.turnSingle at run
  dsimp only at run
  rcases domain.firstCycle with ⟨none, empty⟩ | ⟨first, ev, isFirst, member, least⟩
  · rw [none] at run
    cases Option.some.inj run
    have finish := domain.finish (fun e member => by rw [empty] at member; cases member)
    exact inv.changed isThread owns finish.1 _ (single_settled one finish.2) (.finished (.publish _ _))
  · rw [isFirst] at run
    dsimp only at run
    split at run
    case isTrue below =>
      obtain ⟨d', start, domain', started, notBehind⟩ := domain.start isFirst (Nat.le_of_lt below)
      rw [start] at run
      simp only [Option.bind_eq_bind, Option.bind_some, started.curCycle, if_pos notBehind] at run
      cases Option.some.inj run
      refine inv.changed isThread owns domain' (some ⟨.single, some (c.firstDomain thid)⟩)
        ⟨one, fun i isRunning => ?_⟩
        (.started isFirst (Nat.le_of_lt below) notBehind inside started fun same =>
          absurd below (by omega))
      cases Option.some.inj isRunning
      rw [Function.update_self, started.curCycle]
      exact ⟨rfl, below⟩
    case isFalse beyond =>
      cases Option.some.inj run
      have finish := domain.finish fun e isQueued =>
        Nat.le_trans (Nat.not_lt.mp beyond) (least e isQueued)
      exact inv.changed isThread owns finish.1 _ (single_settled one finish.2) (.finished (.publish _ _))

theorem returnedSingle_spec {s s' : ContentionSim T} (inv : SimInv c s) {thid i : Nat}
    (isThread : s.threads thid = some ⟨.single, some i⟩)
    (run : s.returnedSingle thid i = some s') : Changed c (.returned thid) s s' := by
  obtain ⟨-, bound⟩ := inv.inCSim_of_thread isThread
  have ok := inv.threads thid bound
  rw [isThread] at ok
  obtain ⟨one, running⟩ := ok
  obtain ⟨rfl, within⟩ := running i rfl
  have owns : c.Owns thid (c.firstDomain thid) := (owns_first one).mpr rfl
  have domain := inv.domains _ (owns.bound bound)
  obtain ⟨notBack, notAhead⟩ := domain.newCycle (Nat.le_of_lt within)
  unfold ContentionSim.returnedSingle at run
  dsimp only at run
  rw [if_pos notBack] at run
  cases Option.some.inj run
  have block := domain.block
  refine inv.changed isThread owns
    (domain.advance (by omega) notAhead fun e isExecuted =>
      Nat.le_trans (domain.reached e isExecuted) notBack)
    (some ⟨.single, none⟩) ⟨one, fun i isRunning => nomatch isRunning⟩
    (.next ⟨thid, _, rfl, isThread, rfl⟩ (Nat.le_of_lt within) (.advance _ _))

/-! ## Several domains for the thread -/

theorem turnDomain_spec {s s' : ContentionSim T} (inv : SimInv c s) {thid i : Nat} {th : Thread}
    {input : ContentionSim.Input T} (isThread : s.threads thid = some th) {q : Queues}
    (ok : QueuesOk c s.domains s.limit thid q (some i)) (after : Queues → Option Queues)
    (afterOk : ∀ (domains : Nat → Domain T) (q : Queues), QueuesOk c domains s.limit thid q none →
      AfterOk c domains s.limit thid (after q))
    (looks : looksAt s input = some i) (run : s.turnDomain thid i q after = some s') : Changed c input s s' := by
  obtain ⟨inside, bound⟩ := inv.inCSim_of_thread isThread
  have owns : c.Owns thid i := ok.own i List.mem_cons_self
  have domain := inv.domains i (owns.bound bound)
  have finished : (∀ e ∈ (s.domains i).trace.queued, s.limit ≤ e.1) →
      Changed c input s ((s.setDomain i ((s.domains i).publish s.limit)).setThread thid
        (ContentionSim.queuesThread (after { q with numFinished := q.numFinished + 1 }))) := by
    intro remaining
    have finish := domain.finish remaining
    exact inv.changed isThread owns finish.1 _ (afterOk _ _ (ok.finish finish.2)).thread
      (.finished (.publish _ _))
  unfold ContentionSim.turnDomain at run
  dsimp only at run
  rcases domain.firstCycle with ⟨none, empty⟩ | ⟨first, ev, isFirst, member, least⟩
  · rw [none] at run
    cases Option.some.inj run
    exact finished fun e member => by rw [empty] at member; cases member
  · rw [isFirst] at run
    dsimp only at run
    split at run
    case isTrue beyond =>
      cases Option.some.inj run
      exact finished fun e isQueued => Nat.le_trans (Nat.le_of_lt beyond) (least e isQueued)
    case isFalse within =>
      have le := Nat.not_lt.mp within
      obtain ⟨d', start, domain', started, notBehind⟩ := domain.start isFirst le
      rw [start] at run
      cases Option.some.inj run
      refine inv.changed isThread owns domain' (some ⟨.several q, some i⟩)
        ⟨ok.congr fun j _ absent => ?_, fun j isRunning => ?_⟩
        (.started isFirst le notBehind inside started fun _ => looks)
      · apply Function.update_of_ne
        rintro rfl
        exact absent List.mem_cons_self
      · cases Option.some.inj isRunning
        rw [Function.update_self, started.curCycle]
        exact le

omit [DecidableEq T] in
theorem SimInv.setThread {s : ContentionSim T} (inv : SimInv c s) {thid : Nat} {th : Thread}
    {input : ContentionSim.Input T} (isThread : s.threads thid = some th) {th' : Option Thread}
    (ok : ThreadOk c s.domains s.limit thid th') : Changed c input s (s.setThread thid th') := by
  obtain ⟨inCSim, bound⟩ := inv.inCSim_of_thread isThread
  refine ⟨⟨inv.domains, inv.lastLimit, fun phase => ?_, fun t tBound => ?_, fun t beyond => ?_,
    fun phase => ?_⟩, rfl, rfl, fun i _ => Or.inl rfl⟩
  · exact absurd (inCSim.symm.trans phase) (by decide)
  · change ThreadOk c s.domains s.limit t (Function.update s.threads thid th' t)
    by_cases same : t = thid
    · rw [same, Function.update_self]
      exact ok
    · rw [Function.update_of_ne same]
      exact inv.threads t tBound
  · change Function.update s.threads thid th' t = none
    rw [Function.update_of_ne (by omega)]
    exact inv.others t beyond
  · exact absurd (inCSim.symm.trans phase) (by decide)

omit [DecidableEq T] in
/-- The top of `domPq` is taken out. -/
theorem QueuesOk.pop {domains : Nat → Domain T} {limit thid pick : Nat} {q : Queues}
    (ok : QueuesOk c domains limit thid q none) (member : pick ∈ q.domPq) :
    QueuesOk c domains limit thid { q with domPq := q.domPq.erase pick } (some pick) := by
  refine ok.perm ?_ rfl
  exact ((List.perm_cons_erase member).append_right _).symm

omit [DecidableEq T] in
theorem QueuesOk.popStalled {domains : Nat → Domain T} {limit thid i : Nat} {q : Queues}
    {rest : List Nat} (ok : QueuesOk c domains limit thid q none)
    (isStalled : q.stalledQueue = i :: rest) :
    QueuesOk c domains limit thid { q with stalledQueue := rest } (some i) := by
  refine ok.perm ?_ rfl
  simp only [Queues.all, isStalled, Option.toList_some, Option.toList_none, List.nil_append,
    List.cons_append]
  exact List.perm_middle.symm

theorem turnSeveral_spec {s s' : ContentionSim T} (inv : SimInv c s) {thid pick : Nat} {q : Queues}
    (isThread : s.threads thid = some ⟨.several q, none⟩)
    (isTop : q.place = .domains → q.domPq ≠ [] → pick ∈ q.domPq)
    (run : s.turnSeveral c thid pick q = some s') : Changed c (.turn thid pick) s s' := by
  obtain ⟨-, bound⟩ := inv.inCSim_of_thread isThread
  have ok := inv.threads thid bound
  rw [isThread] at ok
  have queues : QueuesOk c s.domains s.limit thid q none := ok.1
  obtain ⟨domPq, stalled, nextStalled, numFinished, place⟩ := q
  cases place with
  | domains =>
      cases domPq with
      | nil =>
          cases Option.some.inj run
          refine inv.setThread isThread (AfterOk.thread ?_)
          have moved : QueuesOk c s.domains s.limit thid
              ⟨[], stalled, nextStalled, numFinished, .stalled⟩ none :=
            queues.perm (.refl _) rfl
          exact moved.afterStalled
      | cons head rest =>
          have some' : head :: rest ≠ [] := List.cons_ne_nil head rest
          have looks : looksAt s (.turn thid pick) = some pick := by simp only [looksAt, isThread]
          unfold ContentionSim.turnSeveral at run
          dsimp only at run
          rw [if_neg some'] at run
          exact turnDomain_spec inv isThread (queues.pop (isTop rfl some')) some
            (fun domains q ok => ok) looks run
  | stalled =>
      cases stalled with
      | nil => cases run
      | cons i rest =>
          have looks : looksAt s (.turn thid pick) = some i := by
            cases domPq <;> simp only [looksAt, isThread]
          exact turnDomain_spec inv isThread (queues.popStalled rfl) _
            (fun domains q ok => ok.afterStalled) looks run

theorem returnedSeveral_spec {s s' : ContentionSim T} (inv : SimInv c s) {thid i : Nat}
    {q : Queues} (isThread : s.threads thid = some ⟨.several q, some i⟩)
    (run : s.returnedSeveral c thid i q = some s') : Changed c (.returned thid) s s' := by
  obtain ⟨-, bound⟩ := inv.inCSim_of_thread isThread
  have ok := inv.threads thid bound
  rw [isThread] at ok
  obtain ⟨queues, running⟩ := ok
  have within := running i rfl
  have owns : c.Owns thid i := queues.own i List.mem_cons_self
  have domain := inv.domains i (owns.bound bound)
  obtain ⟨notBack, notAhead⟩ := domain.newCycle within
  have block := domain.block
  have published := domain.publish (by omega) notAhead fun e isExecuted =>
    Nat.le_trans (domain.reached e isExecuted) notBack
  have moved : ∀ q' : Queues, q'.all.Perm (i :: q.all) → q'.numFinished = q.numFinished →
      ∀ d, QueuesOk c (Function.update s.domains i d) s.limit thid q' none := by
    intro q' perm same d
    have running' : QueuesOk c (Function.update s.domains i d) s.limit thid q (some i) := by
      refine queues.congr fun j _ absent => ?_
      apply Function.update_of_ne
      rintro rfl
      exact absent List.mem_cons_self
    exact running'.perm perm same
  obtain ⟨d, isNew⟩ : ∃ d : Domain T, d = { (s.domains i).publish ((s.domains i).newCycle s.limit) with
      queuePrio := ((s.domains i).publish ((s.domains i).newCycle s.limit)).curCycle } := ⟨_, rfl⟩
  have domain' : DomainInv s.limit d := by
    rw [isNew]
    exact ⟨published.queue, published.block, published.blockLimit, published.ahead,
      published.conserved, published.ordered, published.reached, published.due⟩
  have change : Change s (.returned thid) i d := by
    rw [isNew]
    have stored := Stored.publish ((s.domains i).newCycle s.limit) (s.domains i)
    exact .next ⟨thid, _, rfl, isThread, rfl⟩ within
      ⟨stored.curCycle, stored.queued, stored.executed, stored.before, stored.enqueued, stored.history⟩
  have requeued : AfterOk c (Function.update s.domains i d) s.limit thid
      (ContentionSim.requeue (c.thDomains thid) i d.prio q) := by
    unfold ContentionSim.requeue
    split
    · split
      · exact moved { q with domPq := i :: q.domPq } (.refl _) rfl d
      · refine moved { q with stalledQueue := i :: q.stalledQueue } ?_ rfl d
        exact List.perm_middle
    · split
      · exact (moved { q with domPq := i :: q.domPq } (.refl _) rfl d).afterStalled
      · refine (moved { q with nextStalledQueue := i :: q.nextStalledQueue } ?_ rfl d).afterStalled
        change (q.domPq ++ (q.stalledQueue ++ i :: q.nextStalledQueue)).Perm
          (i :: (q.domPq ++ (q.stalledQueue ++ q.nextStalledQueue)))
        rw [← List.append_assoc, ← List.append_assoc]
        exact List.perm_middle
  have result := inv.changed isThread owns domain' _ requeued.thread change
  subst isNew
  cases Option.some.inj run
  exact result

/-! ## The machine -/

/-- The PrioQueue can take the event. -/
def RangeOk (_ : ContentionSim T) : ContentionSim.Input T → Prop
  | .enqueueSynced _ _ cycle | .enqueue _ _ cycle => InRange cycle
  | _ => True

omit [DecidableEq T] in
theorem SimInv.running_bound {s : ContentionSim T} (inv : SimInv c s) {thid i : Nat} {th : Thread}
    (isThread : s.threads thid = some th) (isRunning : th.running = some i) :
    c.Owns thid i ∧ i < c.numDomains := by
  obtain ⟨-, bound⟩ := inv.inCSim_of_thread isThread
  have ok := inv.threads thid bound
  rw [isThread] at ok
  have owns : c.Owns thid i := by
    obtain ⟨loop, running⟩ := th
    cases isRunning
    cases loop with
    | single => exact (owns_first ok.1).mpr (ok.2 i rfl).1
    | several q => exact ok.1.own i List.mem_cons_self
  exact ⟨owns, owns.bound bound⟩

omit [DecidableEq T] in
/-- An event changes the domain it runs in, but not its clock. -/
theorem SimInv.running_changed {s : ContentionSim T} (inv : SimInv c s) {thid i : Nat} {th : Thread}
    (isThread : s.threads thid = some th) (isRunning : th.running = some i) {d : Domain T}
    (domain : DomainInv s.limit d) (curCycle : d.curCycle = (s.domains i).curCycle)
    {input : ContentionSim.Input T} (change : Change s input i d) :
    Changed c input s (s.setDomain i d) := by
  obtain ⟨-, bound⟩ := inv.inCSim_of_thread isThread
  have ok := inv.threads thid bound
  rw [isThread] at ok
  have same : (s.setDomain i d).setThread thid (s.threads thid) = s.setDomain i d := by
    change ({ s.setDomain i d with threads := Function.update s.threads thid (s.threads thid) } :
      ContentionSim T) = _
    rw [Function.update_eq_self]
    rfl
  rw [← same]
  refine inv.changed isThread (inv.running_bound isThread isRunning).1 domain _ ?_ change
  rw [isThread]
  obtain ⟨loop, running⟩ := th
  cases isRunning
  cases loop with
  | single =>
      refine ⟨ok.1, fun j isRunning => ?_⟩
      cases Option.some.inj isRunning
      rw [Function.update_self, curCycle]
      exact ok.2 i rfl
  | several q =>
      refine ⟨ok.1.congr fun j _ absent => ?_, fun j isRunning => ?_⟩
      · apply Function.update_of_ne
        rintro rfl
        exact absent List.mem_cons_self
      · cases Option.some.inj isRunning
        rw [Function.update_self, curCycle]
        exact ok.2 i rfl

theorem step_changed {s s' : ContentionSim T} {input : ContentionSim.Input T} (inv : SimInv c s)
    (legal : s.legal c input) (range : RangeOk s input)
    (inside : ∀ limit, input ≠ .simulatePhase limit) (inside' : input ≠ .phaseEnd)
    (run : s.step c input = some s') : Changed c input s s' := by
  cases input with
  | simulatePhase limit => exact absurd rfl (inside limit)
  | phaseEnd => exact absurd rfl inside'
  | enqueueSynced i ev cycle =>
      obtain ⟨-, bound, fresh⟩ := legal
      change s.enqueueSynced c i ev cycle = some s' at run
      unfold ContentionSim.enqueueSynced at run
      split at run
      case isFalse => cases run
      case isTrue guards =>
        obtain ⟨d, enqueue, run⟩ := Option.bind_eq_some_iff.mp run
        cases Option.some.inj run
        obtain ⟨last, clocks⟩ := inv.bound guards.1
        have notBehind : (s.domains i).curCycle ≤ cycle := by
          rw [clocks i bound, ← last]
          exact guards.2.1
        obtain ⟨domain, added⟩ := (inv.domains i bound).enqueue notBehind range fresh.1 fresh.2 enqueue
        have at' : ∀ j, (s.setDomain i d).domains j = if j = i then d else s.domains j := fun j =>
          Function.update_apply ..
        refine ⟨⟨fun j jBound => ?_, inv.lastLimit, fun _ => ⟨last, fun j jBound => ?_⟩,
          fun t tBound => ?_, inv.others, inv.idle⟩, rfl, rfl, fun j jBound => ?_⟩
        · rw [at']
          split
          · exact domain
          · exact inv.domains j jBound
        · rw [at']
          split
          · rw [added.curCycle]
            exact clocks i bound
          · exact clocks j jBound
        · have ok := inv.threads t tBound
          change ThreadOk c _ s.limit t (s.threads t)
          rw [inv.idle guards.1 t] at ok ⊢
          intro j owns
          rw [at']
          split
          case isTrue same =>
            rw [same] at owns
            have before := ok i owns
            refine ⟨fun e member => ?_, by rw [added.curCycle]; exact before.curCycle⟩
            rw [added.queued] at member
            rcases List.mem_cons.mp member with rfl | old
            · exact Nat.le_trans (Nat.le_of_eq last.symm) guards.2.1
            · exact before.remaining e old
          case isFalse => exact ok j owns
        · rw [at']
          split
          case isTrue same =>
            right
            rw [same]
            exact .added (Or.inr guards.1) added
          case isFalse => exact Or.inl rfl
  | turn thid pick =>
      obtain ⟨⟨loop, running⟩, isThread, run⟩ := Option.bind_eq_some_iff.mp run
      cases running with
      | some i => cases run
      | none =>
          cases loop with
          | single => exact turnSingle_spec inv isThread run
          | several q =>
              refine turnSeveral_spec inv isThread (fun place some' => ?_) run
              obtain ⟨domPq, stalled, next, numFinished, place'⟩ := q
              cases place
              cases domPq with
              | nil => exact absurd rfl some'
              | cons head rest =>
                  simp only [ContentionSim.legal, isThread] at legal
                  exact legal.1
  | enqueue thid ev cycle =>
      obtain ⟨th, isThread, run⟩ := Option.bind_eq_some_iff.mp run
      obtain ⟨i, isRunning, run⟩ := Option.bind_eq_some_iff.mp run
      obtain ⟨loop, running⟩ := th
      cases isRunning
      simp only [ContentionSim.legal, isThread] at legal
      change s.enqueue c i ev cycle = some s' at run
      unfold ContentionSim.enqueue at run
      split at run
      case isFalse => cases run
      case isTrue guards =>
        obtain ⟨d, enqueue, run⟩ := Option.bind_eq_some_iff.mp run
        cases Option.some.inj run
        obtain ⟨-, bound⟩ := inv.running_bound isThread rfl
        obtain ⟨domain, added⟩ := (inv.domains i bound).enqueue guards.2.2.2 range legal.1 legal.2
          enqueue
        exact inv.running_changed isThread rfl domain added.curCycle
          (.added (Or.inl ⟨thid, _, rfl, isThread, rfl⟩) added)
  | setPrio thid prio =>
      obtain ⟨th, isThread, run⟩ := Option.bind_eq_some_iff.mp run
      obtain ⟨i, isRunning, run⟩ := Option.bind_eq_some_iff.mp run
      cases Option.some.inj run
      obtain ⟨-, bound⟩ := inv.running_bound isThread isRunning
      have domain := inv.domains i bound
      exact inv.running_changed (d := { s.domains i with prio := prio }) isThread isRunning
        ⟨domain.queue, domain.block, domain.blockLimit, domain.ahead, domain.conserved,
          domain.ordered, domain.reached, domain.due⟩ rfl (.kept rfl rfl)
  | returned thid =>
      obtain ⟨⟨loop, running⟩, isThread, run⟩ := Option.bind_eq_some_iff.mp run
      obtain ⟨i, isRunning, run⟩ := Option.bind_eq_some_iff.mp run
      cases isRunning
      cases loop with
      | single => exact returnedSingle_spec inv isThread run
      | several q => exact returnedSeveral_spec inv isThread run

end Zsim.Contention
