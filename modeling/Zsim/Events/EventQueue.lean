import Mathlib.Data.List.Nodup
import Mathlib.Data.List.Pairwise
import Zsim.Lib.Machine
import Zsim.Lib.Word

/-!
# The event queue

`EventQueue` and `AdaptiveEvent` of event_queue.h.  Events are called at the end of the phases.  An
adaptive event follows a quantity and should fire in the first phase in which it has reached the
target.
-/

set_option autoImplicit false

namespace Zsim.Events

inductive Callback
  /-- periodic and one-shot events, which keep their period -/
  | plain
  /-- `get k` is what the event reads at the end of phase `k` -/
  | adaptive (get : Nat → Nat) (target maxRate : Nat)

/-- `period = 0` events are one-shot. -/
structure Event where
  period : Nat
  body : Callback

/-- The phases to wait, at least one, when the target is so far away. -/
def wait (distance maxRate : Nat) : Nat :=
  if distance / maxRate = 0 then 1 else distance / maxRate

/-- Whether the event has fired, and the event with its new period. -/
def Event.callback (ev : Event) (phase : Nat) : Option (Bool × Event) :=
  match ev.body with
  | .plain => some (true, ev)
  | .adaptive get target maxRate =>
    let cur := get phase
    if target ≤ cur then
      if cur - target ≤ maxRate then some (true, { ev with period := 0 })
      else none  -- otherwise, maxRate was wrong...
    else some (false, { ev with period := wait (target - cur) maxRate })

/-- An entry of the multimap; `id` tells the events apart. -/
structure Entry where
  phase : Nat
  id : Nat
  ev : Event

/-- Entries of the same phase stay in the order of their insertion. -/
def insertEntry (e : Entry) (evMap : List Entry) : List Entry :=
  evMap.takeWhile (·.phase ≤ e.phase) ++ e :: evMap.dropWhile (·.phase ≤ e.phase)

/-- An adaptive event, with the phase in which it is inserted. -/
structure Adaptive where
  id : Nat
  get : Nat → Nat
  start : Nat
  target : Nat
  maxRate : Nat
  phase : Nat

def Adaptive.event (a : Adaptive) : Event :=
  ⟨wait (a.target - a.start) a.maxRate, .adaptive a.get a.target a.maxRate⟩

structure EventQueue where
  numPhases : Nat
  evMap : List Entry
  /-- the events that have fired, with their phases, the last one first -/
  fired : List (Nat × Nat)
  used : List Nat
  adaptives : List Adaptive

namespace EventQueue

def init : EventQueue := ⟨0, [], [], [], []⟩

/-- The loop of `tick`, which stops at the first event of a later phase. -/
def tickLoop : Nat → EventQueue → Option EventQueue
  | 0, _ => none
  | steps + 1, q =>
    match q.evMap with
    | [] => some q
    | e :: rest =>
      if e.phase ≤ q.numPhases then
        if e.phase = q.numPhases then do
          let (hasFired, ev) ← e.ev.callback q.numPhases
          let evMap :=
            if ev.period ≠ 0 then insertEntry ⟨u64 (q.numPhases + ev.period), e.id, ev⟩ rest else rest
          let fired := if hasFired then (q.numPhases, e.id) :: q.fired else q.fired
          tickLoop steps { q with evMap := evMap, fired := fired }
        else none  -- first event should have ticked before
      else some q

/-- `tick`, and the next phase.  No iteration leaves an entry for this phase behind. -/
def tick (q : EventQueue) : Option EventQueue :=
  (tickLoop (q.evMap.length + 1) q).map fun q => { q with numPhases := u64 (q.numPhases + 1) }

/-- A `startDelay` of -1, here `none`, stands for the period. -/
def insert (q : EventQueue) (id : Nat) (ev : Event) (startDelay : Option Nat) : Option EventQueue :=
  let eventPhase := u64 (q.numPhases + startDelay.getD ev.period)
  if q.numPhases ≤ eventPhase then
    some { q with evMap := insertEntry ⟨eventPhase, id, ev⟩ q.evMap, used := id :: q.used }
  else none

inductive Input
  | insert (id period : Nat) (startDelay : Option Nat)
  | insertAdaptive (id : Nat) (get : Nat → Nat) (start target maxRate : Nat)
  | tick

def step (q : EventQueue) : Input → Option EventQueue
  | .insert id period startDelay => q.insert id ⟨period, .plain⟩ startDelay
  | .insertAdaptive id get start target maxRate =>
    let a : Adaptive := ⟨id, get, start, target, maxRate, q.numPhases⟩
    -- the constructor's assertion
    if start ≤ target then
      (q.insert id a.event none).map fun q => { q with adaptives := a :: q.adaptives }
    else none
  | .tick => q.tick

/-- The quantity is `start` at the insertion, which is before the end of the phase, and then grows
by at most `maxRate` in a phase. -/
structure Grows (get : Nat → Nat) (start maxRate phase : Nat) : Prop where
  first : start ≤ get phase ∧ get phase ≤ start + maxRate
  later : ∀ k, phase ≤ k → get k ≤ get (k + 1) ∧ get (k + 1) ≤ get k + maxRate

def legal (q : EventQueue) : Input → Prop
  | .insert id period startDelay => id ∉ q.used ∧ period < 2 ^ 64 ∧ ∀ d ∈ startDelay, d < 2 ^ 63
  | .insertAdaptive id get start target maxRate =>
    id ∉ q.used ∧ start ≤ target ∧ target < 2 ^ 64 ∧ 1 ≤ maxRate ∧ Grows get start maxRate q.numPhases
  | .tick => True

def machine : Machine EventQueue Input := ⟨legal, step⟩

def firings (q : EventQueue) (id : Nat) : List Nat :=
  (q.fired.filter fun entry => entry.2 = id).map Prod.fst

end EventQueue

/-- `f` is the first phase from the insertion on in which the quantity is at least the target. -/
structure Adaptive.FirstPhase (a : Adaptive) (f : Nat) : Prop where
  inserted : a.phase ≤ f
  reached : a.target ≤ a.get f
  before : ∀ k, a.phase ≤ k → k < f → a.get k < a.target

/-- The period after a callback in a phase. -/
def Event.nextPeriod (ev : Event) (phase : Nat) : Nat :=
  match ev.body with
  | .plain => ev.period
  | .adaptive get target maxRate =>
    if target ≤ get phase then 0 else wait (target - get phase) maxRate

theorem wait_pos (distance maxRate : Nat) : 1 ≤ wait distance maxRate := by
  unfold wait
  split
  · exact Nat.le_refl 1
  next notZero => exact Nat.pos_of_ne_zero notZero

/-- During the wait the quantity stays below the target. -/
theorem below_target {get : Nat → Nat} {phase target maxRate : Nat} (rate : 1 ≤ maxRate)
    (grows : ∀ k, phase ≤ k → get (k + 1) ≤ get k + maxRate) (below : get phase < target) (k : Nat)
    (lt : k < wait (target - get phase) maxRate) : get (phase + k) < target := by
  have bound : ∀ n, get (phase + n) ≤ get phase + n * maxRate := by
    intro n
    induction n with
    | zero => simp
    | succ n ih =>
        have grown := grows (phase + n) (Nat.le_add_right _ _)
        rw [Nat.succ_mul]
        exact Nat.le_trans grown (by omega)
  have here := bound k
  unfold wait at lt
  split at lt
  · cases Nat.lt_one_iff.mp lt
    exact below
  · have covered : (k + 1) * maxRate ≤ target - get phase :=
      Nat.le_trans (Nat.mul_le_mul_right _ lt) (Nat.div_mul_le_self _ _)
    rw [Nat.succ_mul] at covered
    omega

theorem insertEntry_perm (e : Entry) (evMap : List Entry) : (insertEntry e evMap).Perm (e :: evMap) := by
  have whole : evMap.takeWhile (·.phase ≤ e.phase) ++ evMap.dropWhile (·.phase ≤ e.phase) = evMap :=
    List.takeWhile_append_dropWhile
  have middle : (insertEntry e evMap).Perm (e :: (evMap.takeWhile (·.phase ≤ e.phase) ++
      evMap.dropWhile (·.phase ≤ e.phase))) := List.perm_middle
  rw [whole] at middle
  exact middle

theorem mem_insertEntry {e x : Entry} {evMap : List Entry} :
    x ∈ insertEntry e evMap ↔ x = e ∨ x ∈ evMap := by
  rw [(insertEntry_perm e evMap).mem_iff, List.mem_cons]

def Sorted (evMap : List Entry) : Prop := evMap.Pairwise fun e e' => e.phase ≤ e'.phase

theorem Sorted.insertEntry {evMap : List Entry} (sorted : Sorted evMap) (e : Entry) :
    Sorted (insertEntry e evMap) := by
  induction evMap with
  | nil => exact List.pairwise_singleton _ e
  | cons first rest ih =>
      obtain ⟨least, sortedRest⟩ := List.pairwise_cons.mp sorted
      by_cases before : first.phase ≤ e.phase
      · have same : Events.insertEntry e (first :: rest) = first :: Events.insertEntry e rest := by
          simp [Events.insertEntry, before]
        rw [same]
        refine List.pairwise_cons.mpr ⟨fun x member => ?_, ih sortedRest⟩
        rcases mem_insertEntry.mp member with rfl | member
        · exact before
        · exact least x member
      · have same : Events.insertEntry e (first :: rest) = e :: first :: rest := by
          simp [Events.insertEntry, before]
        rw [same]
        refine List.pairwise_cons.mpr ⟨fun x member => ?_, sorted⟩
        rcases List.mem_cons.mp member with rfl | member
        · omega
        · exact Nat.le_trans (Nat.le_of_not_le before) (least x member)

namespace EventQueue

/-- No phase number wraps, and the target of an adaptive event is not reached before the first
phase in which the event is called. -/
def Fits (q : EventQueue) : Input → Prop
  | .insert _ period startDelay => q.numPhases + startDelay.getD period < 2 ^ 64
  | .insertAdaptive _ get start target maxRate =>
    q.numPhases + wait (target - start) maxRate < 2 ^ 64 ∧
      get (q.numPhases + wait (target - start) maxRate - 1) < target
  | .tick =>
    q.numPhases + 1 < 2 ^ 64 ∧ ∀ e ∈ q.evMap, e.phase = q.numPhases →
      q.numPhases + e.ev.nextPeriod q.numPhases < 2 ^ 64

instance decidableFits (q : EventQueue) : ∀ i, Decidable (q.Fits i)
  | .insert _ _ _ => inferInstanceAs (Decidable (_ < _))
  | .insertAdaptive _ _ _ _ _ => inferInstanceAs (Decidable (_ ∧ _))
  | .tick => inferInstanceAs (Decidable (_ ∧ ∀ e ∈ q.evMap, _))

/-- An adaptive event waits, and its target is not reached before its next call, or it has fired
once, at the right time. -/
def Status (q : EventQueue) (hi : Nat) (a : Adaptive) : Prop :=
  (∃ e ∈ q.evMap, e.id = a.id ∧ e.ev.body = .adaptive a.get a.target a.maxRate ∧
      a.phase < e.phase ∧ (∀ k, a.phase ≤ k → k < e.phase → a.get k < a.target) ∧
      q.firings a.id = []) ∨
    ((∀ e ∈ q.evMap, e.id ≠ a.id) ∧ ∃ f < hi, a.FirstPhase f ∧ q.firings a.id = [f])

/-- The entries are for phases from `lo` on, and no event has fired in a phase from `hi` on. -/
structure Inv (q : EventQueue) (lo hi : Nat) : Prop where
  sorted : Sorted q.evMap
  later : ∀ e ∈ q.evMap, lo ≤ e.phase
  ids : (q.evMap.map Entry.id).Nodup
  used_entry : ∀ e ∈ q.evMap, e.id ∈ q.used
  used_fired : ∀ f ∈ q.fired, f.2 ∈ q.used
  used_adaptive : ∀ a ∈ q.adaptives, a.id ∈ q.used
  known : ∀ e ∈ q.evMap, e.ev.body = .plain ∨ ∃ a ∈ q.adaptives, a.id = e.id
  grows : ∀ a ∈ q.adaptives, 1 ≤ a.maxRate ∧ ∀ k, a.phase ≤ k → a.get (k + 1) ≤ a.get k + a.maxRate
  status : ∀ a ∈ q.adaptives, q.Status hi a

theorem Inv.init : Inv init 0 0 where
  sorted := List.Pairwise.nil
  later := nofun
  ids := List.nodup_nil
  used_entry := nofun
  used_fired := nofun
  used_adaptive := nofun
  known := nofun
  grows := nofun
  status := nofun

variable {q : EventQueue} {lo hi : Nat}

theorem firings_cons_self (id phase : Nat) :
    firings { q with fired := (phase, id) :: q.fired } id = phase :: q.firings id := by
  simp [firings]

theorem firings_cons_of_ne {id other : Nat} (ne : id ≠ other) (phase : Nat) :
    firings { q with fired := (phase, id) :: q.fired } other = q.firings other := by
  simp [firings, ne]

/-! ## Calls -/

def afterCall (q : EventQueue) (e : Entry) (rest : List Entry) (hasFired : Bool) (ev : Event) :
    EventQueue :=
  { q with
    evMap :=
      if ev.period ≠ 0 then insertEntry ⟨u64 (q.numPhases + ev.period), e.id, ev⟩ rest else rest
    fired := if hasFired then (q.numPhases, e.id) :: q.fired else q.fired }

theorem mem_afterCall {e x : Entry} {rest : List Entry} {hasFired : Bool} {ev : Event} :
    x ∈ (q.afterCall e rest hasFired ev).evMap ↔
      (ev.period ≠ 0 ∧ x = ⟨u64 (q.numPhases + ev.period), e.id, ev⟩) ∨ x ∈ rest := by
  unfold afterCall
  dsimp only
  split
  next waits => rw [mem_insertEntry, and_iff_right waits]
  next done => simp [done]

theorem callback_plain {ev : Event} (plain : ev.body = .plain) (phase : Nat) :
    ev.callback phase = some (true, ev) ∧ ev.nextPeriod phase = ev.period := by
  simp [Event.callback, Event.nextPeriod, plain]

theorem Inv.status_other {e : Entry} {rest : List Entry} {a : Adaptive} (status : q.Status hi a)
    (first : q.evMap = e :: rest) (other : a.id ≠ e.id) (hasFired : Bool) (ev : Event) :
    (q.afterCall e rest hasFired ev).Status hi a := by
  have firings : (q.afterCall e rest hasFired ev).firings a.id = q.firings a.id := by
    cases hasFired with
    | true => exact firings_cons_of_ne (Ne.symm other) q.numPhases
    | false => rfl
  unfold Status
  rw [firings]
  rcases status with ⟨x, member, id, rest'⟩ | ⟨gone, fired⟩
  · rw [first] at member
    rcases List.mem_cons.mp member with rfl | member
    · exact absurd id.symm other
    · exact Or.inl ⟨x, mem_afterCall.mpr (Or.inr member), id, rest'⟩
  · refine Or.inr ⟨fun x member => ?_, fired⟩
    rcases mem_afterCall.mp member with ⟨-, rfl⟩ | member
    · exact Ne.symm other
    · exact gone x (by rw [first]; exact List.mem_cons_of_mem _ member)

/-- What a callback keeps, whatever it answers, if the called event keeps its status. -/
theorem Inv.afterCall {e : Entry} {rest : List Entry} (inv : q.Inv lo hi)
    (first : q.evMap = e :: rest) (here : lo = q.numPhases) {hasFired : Bool} {ev : Event}
    (body : ev.body = e.ev.body) (fits : q.numPhases + ev.period < 2 ^ 64)
    (status : ∀ a ∈ q.adaptives, a.id = e.id → (q.afterCall e rest hasFired ev).Status hi a) :
    (q.afterCall e rest hasFired ev).Inv lo hi := by
  obtain ⟨least, sorted⟩ := List.pairwise_cons.mp (first ▸ inv.sorted)
  have ids := inv.ids
  rw [first, List.map_cons] at ids
  have inRest : ∀ x ∈ rest, x ∈ q.evMap := fun x member => first ▸ List.mem_cons_of_mem _ member
  have isFirst : e ∈ q.evMap := first ▸ List.mem_cons_self
  exact {
    sorted := by
      unfold EventQueue.afterCall
      dsimp only
      split
      · exact Sorted.insertEntry sorted _
      · exact sorted
    later := by
      intro x member
      rcases mem_afterCall.mp member with ⟨-, rfl⟩ | member
      · rw [u64_of_lt fits, here]
        exact Nat.le_add_right _ _
      · exact inv.later x (inRest x member)
    ids := by
      unfold EventQueue.afterCall
      dsimp only
      split
      · exact ((insertEntry_perm _ rest).map Entry.id).symm.nodup ids
      · exact (List.nodup_cons.mp ids).2
    used_entry := by
      intro x member
      rcases mem_afterCall.mp member with ⟨-, rfl⟩ | member
      · exact inv.used_entry e isFirst
      · exact inv.used_entry x (inRest x member)
    used_fired := by
      intro f member
      cases hasFired with
      | false => exact inv.used_fired f member
      | true =>
          rcases List.mem_cons.mp member with rfl | member
          · exact inv.used_entry e isFirst
          · exact inv.used_fired f member
    used_adaptive := inv.used_adaptive
    known := by
      intro x member
      rcases mem_afterCall.mp member with ⟨-, rfl⟩ | member
      · rw [body]
        exact inv.known e isFirst
      · exact inv.known x (inRest x member)
    grows := inv.grows
    status := by
      intro a member
      by_cases same : a.id = e.id
      · exact status a member same
      · exact Inv.status_other (inv.status a member) first same hasFired ev }

theorem Inv.waits (inv : q.Inv lo hi) {e : Entry} (isEntry : e ∈ q.evMap) {a : Adaptive}
    (member : a ∈ q.adaptives) (same : a.id = e.id) :
    e.ev.body = .adaptive a.get a.target a.maxRate ∧ a.phase < e.phase ∧
      (∀ k, a.phase ≤ k → k < e.phase → a.get k < a.target) ∧ q.firings a.id = [] := by
  rcases inv.status a member with ⟨x, isX, id, facts⟩ | ⟨gone, -⟩
  · cases List.inj_on_of_nodup_map inv.ids isX isEntry (id.trans same)
    exact facts
  · exact absurd same.symm (gone e isEntry)

theorem Inv.call_plain (inv : q.Inv q.numPhases hi) {e : Entry} {rest : List Entry}
    (first : q.evMap = e :: rest) (plain : e.ev.body = .plain)
    (fits : q.numPhases + e.ev.period < 2 ^ 64) :
    (q.afterCall e rest true e.ev).Inv q.numPhases hi := by
  refine inv.afterCall first rfl rfl fits fun a member same => ?_
  have isFirst : e ∈ q.evMap := first ▸ List.mem_cons_self
  have body := (inv.waits isFirst member same).1
  rw [plain] at body
  cases body

theorem Inv.call_reached (inv : q.Inv q.numPhases (q.numPhases + 1)) {e : Entry} {rest : List Entry}
    (first : q.evMap = e :: rest) (due : e.phase = q.numPhases) {a : Adaptive}
    (member : a ∈ q.adaptives) (same : a.id = e.id) (reached : a.target ≤ a.get q.numPhases)
    (word : q.numPhases < 2 ^ 64) :
    e.ev.callback q.numPhases = some (true, { e.ev with period := 0 }) ∧
      (q.afterCall e rest true { e.ev with period := 0 }).Inv q.numPhases (q.numPhases + 1) := by
  have isFirst : e ∈ q.evMap := first ▸ List.mem_cons_self
  obtain ⟨body, later, below, none⟩ := inv.waits isFirst member same
  rw [due] at later below
  have overshoot : a.get q.numPhases - a.target ≤ a.maxRate := by
    have previous := below (q.numPhases - 1) (by omega) (by omega)
    have grown := (inv.grows a member).2 (q.numPhases - 1) (by omega)
    rw [Nat.sub_add_cancel (by omega)] at grown
    omega
  refine ⟨by simp [Event.callback, body, reached, overshoot], ?_⟩
  refine inv.afterCall first rfl rfl (by simpa using word) fun b isB sameB => ?_
  obtain ⟨bodyB, laterB, belowB, noneB⟩ := inv.waits isFirst isB sameB
  rw [due] at laterB belowB
  rw [body] at bodyB
  injection bodyB with get target maxRate
  refine Or.inr ⟨fun x inRest => ?_, q.numPhases, Nat.lt_succ_self _,
    ⟨Nat.le_of_lt laterB, by rw [← get, ← target]; exact reached, belowB⟩, ?_⟩
  · have ids := inv.ids
    rw [first, List.map_cons] at ids
    rw [sameB]
    rintro other
    have inRest : x ∈ rest := by simpa [EventQueue.afterCall] using inRest
    exact (List.nodup_cons.mp ids).1 (List.mem_map.mpr ⟨x, inRest, other⟩)
  · rw [sameB] at noneB ⊢
    rw [← noneB]
    exact firings_cons_self e.id q.numPhases

theorem Inv.call_below (inv : q.Inv q.numPhases hi) {e : Entry} {rest : List Entry}
    (first : q.evMap = e :: rest) (due : e.phase = q.numPhases) {a : Adaptive}
    (member : a ∈ q.adaptives) (same : a.id = e.id) (below : a.get q.numPhases < a.target)
    (fits : q.numPhases + wait (a.target - a.get q.numPhases) a.maxRate < 2 ^ 64) :
    e.ev.callback q.numPhases =
        some (false, { e.ev with period := wait (a.target - a.get q.numPhases) a.maxRate }) ∧
      (q.afterCall e rest false
        { e.ev with period := wait (a.target - a.get q.numPhases) a.maxRate }).Inv q.numPhases hi := by
  have isFirst : e ∈ q.evMap := first ▸ List.mem_cons_self
  obtain ⟨body, -, -, -⟩ := inv.waits isFirst member same
  refine ⟨by simp [Event.callback, body, Nat.not_le_of_gt below], ?_⟩
  refine inv.afterCall first rfl rfl fits fun b isB sameB => ?_
  obtain ⟨bodyB, laterB, belowB, noneB⟩ := inv.waits isFirst isB sameB
  obtain ⟨rate, grows⟩ := inv.grows b isB
  rw [due] at laterB belowB
  rw [body] at bodyB
  injection bodyB with get target maxRate
  have pos := wait_pos (a.target - a.get q.numPhases) a.maxRate
  refine Or.inl ⟨_, mem_afterCall.mpr (Or.inl ⟨Nat.ne_of_gt pos, rfl⟩), sameB.symm, ?_, ?_, ?_, noneB⟩
  · rw [body, get, target, maxRate]
  · rw [u64_of_lt fits]
    exact Nat.lt_of_lt_of_le laterB (Nat.le_add_right _ _)
  · intro k from' lt
    rw [u64_of_lt fits] at lt
    rcases Nat.lt_or_ge k q.numPhases with before | after
    · exact belowB k from' before
    · rw [get, target, maxRate] at lt
      rw [get, target] at below
      have safe := below_target rate (fun k le => grows k (by omega)) below (k - q.numPhases)
        (Nat.sub_lt_left_of_lt_add after lt)
      rw [Nat.add_sub_cancel' after] at safe
      exact safe

theorem Inv.call (inv : q.Inv q.numPhases (q.numPhases + 1)) {e : Entry} {rest : List Entry}
    (first : q.evMap = e :: rest) (due : e.phase = q.numPhases)
    (fits : q.numPhases + e.ev.nextPeriod q.numPhases < 2 ^ 64) : ∃ hasFired ev,
      e.ev.callback q.numPhases = some (hasFired, ev) ∧ q.numPhases + ev.period < 2 ^ 64 ∧
        (q.afterCall e rest hasFired ev).Inv q.numPhases (q.numPhases + 1) := by
  have isFirst : e ∈ q.evMap := first ▸ List.mem_cons_self
  rcases inv.known e isFirst with plain | ⟨a, member, same⟩
  · obtain ⟨call, next⟩ := callback_plain plain q.numPhases
    rw [next] at fits
    exact ⟨true, e.ev, call, fits, inv.call_plain first plain fits⟩
  · obtain ⟨body, -, -, -⟩ := inv.waits isFirst member same
    rw [Event.nextPeriod, body] at fits
    dsimp only at fits
    rcases Nat.lt_or_ge (a.get q.numPhases) a.target with below | reached
    · rw [if_neg (Nat.not_le_of_gt below)] at fits
      obtain ⟨call, kept⟩ := inv.call_below first due member same below fits
      exact ⟨_, _, call, fits, kept⟩
    · rw [if_pos reached] at fits
      obtain ⟨call, kept⟩ := inv.call_reached first due member same reached fits
      exact ⟨_, _, call, fits, kept⟩

/-! ## Ticks -/

def due (q : EventQueue) : List Entry := q.evMap.filter fun e => e.phase = q.numPhases

theorem due_afterCall {e : Entry} {rest : List Entry} (first : q.evMap = e :: rest)
    (isDue : e.phase = q.numPhases) (hasFired : Bool) {ev : Event}
    (fits : q.numPhases + ev.period < 2 ^ 64) :
    q.due = e :: (rest.filter fun e => e.phase = q.numPhases) ∧
      (q.afterCall e rest hasFired ev).due.Perm (rest.filter fun e => e.phase = q.numPhases) := by
  refine ⟨by rw [due, first, List.filter_cons_of_pos (by simpa using isDue)], ?_⟩
  unfold due EventQueue.afterCall
  dsimp only
  split
  next waits =>
    have inserted := (insertEntry_perm ⟨u64 (q.numPhases + ev.period), e.id, ev⟩ rest).filter
      fun e => decide (e.phase = q.numPhases)
    have later : u64 (q.numPhases + ev.period) ≠ q.numPhases := by
      rw [u64_of_lt fits]
      omega
    rw [List.filter_cons_of_neg (by simpa using later)] at inserted
    exact inserted
  next => exact List.Perm.refl _

theorem Inv.tickLoop (steps : Nat) (inv : q.Inv q.numPhases (q.numPhases + 1))
    (enough : q.due.length < steps)
    (fits : ∀ e ∈ q.due, q.numPhases + e.ev.nextPeriod q.numPhases < 2 ^ 64) : ∃ q',
      tickLoop steps q = some q' ∧ q'.numPhases = q.numPhases ∧
        q'.Inv (q.numPhases + 1) (q.numPhases + 1) := by
  induction steps generalizing q with
  | zero => exact absurd enough (Nat.not_lt_zero _)
  | succ steps ih =>
      cases first : q.evMap with
      | nil =>
          refine ⟨q, by rw [EventQueue.tickLoop, first], rfl, { inv with later := ?_ }⟩
          rw [first]
          exact nofun
      | cons e rest =>
          have isFirst : e ∈ q.evMap := first ▸ List.mem_cons_self
          rcases Nat.lt_or_eq_of_le (inv.later e isFirst) with after | now
          · refine ⟨q, ?_, rfl, { inv with later := ?_ }⟩
            · rw [EventQueue.tickLoop, first]
              exact if_neg (Nat.not_le_of_gt after)
            · intro x member
              have least := (List.pairwise_cons.mp (first ▸ inv.sorted)).1
              rw [first] at member
              rcases List.mem_cons.mp member with rfl | member
              · exact after
              · exact Nat.lt_of_lt_of_le after (least x member)
          · have isDue : e ∈ q.due := List.mem_filter.mpr ⟨isFirst, by simpa using now.symm⟩
            obtain ⟨hasFired, ev, call, next, kept⟩ := inv.call first now.symm (fits e isDue)
            obtain ⟨all, rest'⟩ := due_afterCall first now.symm hasFired next
            rw [all, List.length_cons] at enough
            obtain ⟨q', run, phases, inv'⟩ := ih (q := q.afterCall e rest hasFired ev) kept
              (by rw [rest'.length_eq]; omega)
              (fun x member => fits x (by rw [all]; exact List.mem_cons_of_mem _ (rest'.mem_iff.mp member)))
            refine ⟨q', ?_, phases, inv'⟩
            rw [EventQueue.tickLoop, first]
            dsimp only
            rw [if_pos (Nat.le_of_eq now.symm), if_pos now.symm, call]
            exact run

theorem Inv.tick (inv : q.Inv q.numPhases q.numPhases) (fits : q.Fits .tick) : ∃ q',
    q.tick = some q' ∧ q'.Inv q'.numPhases q'.numPhases := by
  obtain ⟨word, fits⟩ := fits
  have during : q.Inv q.numPhases (q.numPhases + 1) := by
    refine { inv with status := fun a member => ?_ }
    rcases inv.status a member with waits | ⟨gone, f, lt, first, once⟩
    · exact Or.inl waits
    · exact Or.inr ⟨gone, f, Nat.lt_succ_of_lt lt, first, once⟩
  obtain ⟨q', run, phases, kept⟩ := during.tickLoop (q.evMap.length + 1)
    (Nat.lt_succ_of_le (List.length_filter_le _ _)) fun e member => by
      obtain ⟨isEntry, now⟩ := List.mem_filter.mp member
      exact fits e isEntry (by simpa using now)
  refine ⟨{ q' with numPhases := u64 (q'.numPhases + 1) }, by rw [EventQueue.tick, run]; rfl, ?_⟩
  rw [phases, u64_of_lt word]
  exact ⟨kept.sorted, kept.later, kept.ids, kept.used_entry, kept.used_fired, kept.used_adaptive,
    kept.known, kept.grows, kept.status⟩

/-! ## Insertions -/

theorem Inv.status_insert {e : Entry} {a : Adaptive} (status : q.Status hi a) (other : e.id ≠ a.id)
    (added : List Adaptive) : Status { q with
      evMap := insertEntry e q.evMap, used := e.id :: q.used, adaptives := added ++ q.adaptives }
      hi a := by
  rcases status with ⟨x, member, rest⟩ | ⟨gone, fired⟩
  · exact Or.inl ⟨x, mem_insertEntry.mpr (Or.inr member), rest⟩
  · refine Or.inr ⟨fun x member => ?_, fired⟩
    rcases mem_insertEntry.mp member with rfl | member
    · exact other
    · exact gone x member

theorem Inv.insert (inv : q.Inv lo hi) {e : Entry} (fresh : e.id ∉ q.used) (later : lo ≤ e.phase)
    (added : List Adaptive) (known : e.ev.body = .plain ∨ ∃ a ∈ added, a.id = e.id)
    (waits : ∀ a ∈ added, a.id = e.id ∧ e.ev.body = .adaptive a.get a.target a.maxRate ∧
      a.phase < e.phase ∧ ∀ k, a.phase ≤ k → k < e.phase → a.get k < a.target)
    (grows : ∀ a ∈ added, 1 ≤ a.maxRate ∧ ∀ k, a.phase ≤ k → a.get (k + 1) ≤ a.get k + a.maxRate) :
    Inv { q with
      evMap := insertEntry e q.evMap, used := e.id :: q.used, adaptives := added ++ q.adaptives }
      lo hi where
  sorted := inv.sorted.insertEntry e
  later := by
    intro x member
    rcases mem_insertEntry.mp member with rfl | member
    · exact later
    · exact inv.later x member
  ids := by
    refine ((insertEntry_perm e q.evMap).map Entry.id).symm.nodup (List.nodup_cons.mpr ⟨?_, inv.ids⟩)
    intro member
    obtain ⟨x, isEntry, same⟩ := List.mem_map.mp member
    exact fresh (same ▸ inv.used_entry x isEntry)
  used_entry := by
    intro x member
    rcases mem_insertEntry.mp member with rfl | member
    · exact List.mem_cons_self
    · exact List.mem_cons_of_mem _ (inv.used_entry x member)
  used_fired f member := List.mem_cons_of_mem _ (inv.used_fired f member)
  used_adaptive := by
    intro a member
    rcases List.mem_append.mp member with isNew | old
    · rw [(waits a isNew).1]
      exact List.mem_cons_self
    · exact List.mem_cons_of_mem _ (inv.used_adaptive a old)
  known := by
    intro x member
    rcases mem_insertEntry.mp member with rfl | member
    · exact known.imp_right fun ⟨a, isNew, same⟩ => ⟨a, List.mem_append_left _ isNew, same⟩
    · exact (inv.known x member).imp_right fun ⟨a, old, same⟩ => ⟨a, List.mem_append_right _ old, same⟩
  grows := by
    intro a member
    rcases List.mem_append.mp member with isNew | old
    · exact grows a isNew
    · exact inv.grows a old
  status := by
    intro a member
    rcases List.mem_append.mp member with isNew | old
    · obtain ⟨same, body, after, below⟩ := waits a isNew
      refine Or.inl ⟨e, mem_insertEntry.mpr (Or.inl rfl), same.symm, body, after, below, ?_⟩
      -- nothing has fired under a new id
      rw [firings, List.map_eq_nil_iff, List.filter_eq_nil_iff]
      intro f isFired sameId
      apply fresh
      rw [← same, ← of_decide_eq_true sameId]
      exact inv.used_fired f isFired
    · refine Inv.status_insert (inv.status a old) (fun same => fresh ?_) added
      rw [same]
      exact inv.used_adaptive a old

/-! ## Runs -/

theorem Inv.insertPlain (inv : q.Inv q.numPhases q.numPhases) {id period : Nat}
    {startDelay : Option Nat} (fresh : id ∉ q.used) (fits : q.Fits (.insert id period startDelay)) :
    ∃ q', q.step (.insert id period startDelay) = some q' ∧ q'.Inv q'.numPhases q'.numPhases := by
  have fits : q.numPhases + startDelay.getD period < 2 ^ 64 := fits
  refine ⟨_, ?_, inv.insert (e := ⟨q.numPhases + startDelay.getD period, id, ⟨period, .plain⟩⟩) fresh
    (Nat.le_add_right _ _) [] (Or.inl rfl) nofun nofun⟩
  rw [EventQueue.step, EventQueue.insert]
  rw [u64_of_lt fits, if_pos (Nat.le_add_right _ _)]
  rfl

theorem Inv.insertAdaptive (inv : q.Inv q.numPhases q.numPhases) {id start target maxRate : Nat}
    {get : Nat → Nat} (legal : machine.legal q (.insertAdaptive id get start target maxRate))
    (fits : q.Fits (.insertAdaptive id get start target maxRate)) : ∃ q',
      q.step (.insertAdaptive id get start target maxRate) = some q' ∧
        q'.Inv q'.numPhases q'.numPhases := by
  obtain ⟨fresh, inOrder, -, rate, grows⟩ := legal
  obtain ⟨fits, below⟩ := fits
  have pos := wait_pos (target - start) maxRate
  have event : (Adaptive.event ⟨id, get, start, target, maxRate, q.numPhases⟩).period =
    wait (target - start) maxRate := rfl
  have nondecreasing : ∀ n k, q.numPhases ≤ k → get k ≤ get (k + n) := by
    intro n k from'
    induction n with
    | zero => exact Nat.le_refl _
    | succ n ih => exact Nat.le_trans ih (grows.later (k + n) (by omega)).1
  refine ⟨_, ?_, inv.insert (e := ⟨q.numPhases + wait (target - start) maxRate, id,
      Adaptive.event ⟨id, get, start, target, maxRate, q.numPhases⟩⟩) fresh (Nat.le_add_right _ _)
    [⟨id, get, start, target, maxRate, q.numPhases⟩] ?_ ?_ ?_⟩
  · rw [EventQueue.step]
    dsimp only
    rw [if_pos inOrder, EventQueue.insert, Option.getD_none, event, u64_of_lt fits]
    rw [if_pos (Nat.le_add_right _ _)]
    rfl
  · exact Or.inr ⟨_, List.mem_singleton_self _, rfl⟩
  · intro a member
    cases List.mem_singleton.mp member
    refine ⟨rfl, rfl, Nat.lt_add_of_pos_right pos, fun k from' lt => ?_⟩
    have lt : k < q.numPhases + wait (target - start) maxRate := lt
    have last := nondecreasing (q.numPhases + wait (target - start) maxRate - 1 - k) k from'
    rw [Nat.add_sub_cancel' (by omega)] at last
    exact Nat.lt_of_le_of_lt last below
  · intro a member
    cases List.mem_singleton.mp member
    exact ⟨rate, fun k from' => (grows.later k from').2⟩

/-- The event has fired exactly once, in the first phase in which the quantity has reached the
target, or there was no such phase yet. -/
def OnTime (q : EventQueue) (a : Adaptive) : Prop :=
  (∃ f < q.numPhases, a.FirstPhase f ∧ q.firings a.id = [f]) ∨
    (q.firings a.id = [] ∧ ∀ k, a.phase ≤ k → k < q.numPhases → a.get k < a.target)

theorem Inv.onTime (inv : q.Inv q.numPhases q.numPhases) {a : Adaptive} (member : a ∈ q.adaptives) :
    q.OnTime a := by
  rcases inv.status a member with ⟨e, isEntry, -, -, -, below, none⟩ | ⟨-, fired⟩
  · refine Or.inr ⟨none, fun k from' lt => below k from' ?_⟩
    exact Nat.lt_of_lt_of_le lt (inv.later e isEntry)
  · exact Or.inl fired

theorem preserves : (machine.restrict Fits).Preserves fun q => q.Inv q.numPhases q.numPhases := by
  intro q i inv legal
  obtain ⟨legal, fits⟩ := legal
  cases i with
  | insert id period startDelay => exact inv.insertPlain legal.1 fits
  | insertAdaptive id get start target maxRate => exact inv.insertAdaptive legal fits
  | tick => exact inv.tick fits

/-- In a run whose inputs all fit, no event is missed, no assertion fails, and every adaptive
event is on time. -/
theorem fires_on_time {inputs : List Input} (legal : machine.LegalRun inputs init)
    (fits : machine.Along Fits inputs init) : ∃ final, machine.exec inputs init = some final ∧
      ∀ a ∈ final.adaptives, final.OnTime a := by
  obtain ⟨final, run, inv⟩ := preserves.exec_restrict Inv.init (legal.restrict fits)
  exact ⟨final, run, fun a member => inv.onTime member⟩

def steady (k : Nat) : Nat := 10 * k + 10

theorem steady_grows : Grows steady 0 10 0 where
  first := by decide
  later k _ := by unfold steady; omega

/-- The target is reached in the phase of the insertion: the event is late, and the assertion
fails although the rate is right.  With a constant quantity it is only late. -/
theorem late_event :
    (machine.LegalRun [.insertAdaptive 0 steady 0 5 10, .tick, .tick] init ∧
      machine.exec [.insertAdaptive 0 steady 0 5 10, .tick, .tick] init = none) ∧
    machine.LegalRun [.insertAdaptive 0 (fun _ => 5) 5 5 10, .tick, .tick] init ∧
      ∃ final, machine.exec [.insertAdaptive 0 (fun _ => 5) 5 5 10, .tick, .tick] init = some final ∧
        Adaptive.FirstPhase ⟨0, fun _ => 5, 5, 5, 10, 0⟩ 0 ∧ final.firings 0 = [1] := by
  have ticks : ∀ q, machine.LegalRun [.tick, .tick] q :=
    Machine.along_of_forall (by simp [machine, legal])
  refine ⟨⟨⟨⟨by decide, by decide, by decide, by decide, steady_grows⟩, fun q _ => ticks q⟩, by decide⟩,
    ⟨⟨by decide, by decide, by decide, by decide, ⟨by decide, by simp⟩⟩, fun q _ => ticks q⟩, ?_⟩
  exact ⟨_, rfl, ⟨Nat.le_refl 0, Nat.le_refl 5, fun k _ lt => absurd lt (Nat.not_lt_zero k)⟩, by decide⟩

/-- A periodic event beside an adaptive one, which is called in phases 4, 5 and 6 and fires in the
last of them. -/
theorem fires_on_time_periodic : ∃ final,
    machine.exec (.insertAdaptive 0 steady 0 66 16 :: .insert 1 2 none :: List.replicate 7 .tick)
      init = some final ∧ ∀ a ∈ final.adaptives, final.OnTime a := by
  apply fires_on_time
  · have grows : Grows steady 0 16 0 := ⟨by decide, fun k _ => by unfold steady; omega⟩
    refine ⟨⟨by decide, by decide, by decide, by decide, grows⟩, fun q step => ?_⟩
    cases Option.some.inj step
    refine ⟨⟨by decide, by decide, nofun⟩, fun q _ => ?_⟩
    exact Machine.along_of_forall (by simp [machine, legal]) q
  · decide

end EventQueue

end Zsim.Events
