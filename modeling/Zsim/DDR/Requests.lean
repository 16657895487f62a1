import Mathlib.Data.List.Count
import Mathlib.Data.List.Nodup
import Mathlib.Data.List.Perm.Basic
import Zsim.DDR.Commands

/-!
# Where the requests are

Every accepted request is in one of the queues or has been served, and the list of its bank
holds it exactly while it is in the read or the write queue.
-/

set_option autoImplicit false

namespace Zsim.DDR

def ids (l : List Request) : List Nat := l.map Request.id

namespace DDRMemory

variable (c : Config)

structure Queued (s : DDRMemory) (wr : Bool) (r : Request) : Prop where
  queue : useWrQueue c r = wr
  located : r.loc.key ∈ c.banks
  accepted : (r.id, r.write) ∈ s.accepted
  ev : r.ev = if r.write then none else some r.id

/-- A request of the overflow queue. -/
structure Waits (s : DDRMemory) (r : Request) : Prop where
  located : r.loc.key ∈ c.banks
  accepted : (r.id, r.write) ∈ s.accepted
  ev : r.ev = some r.id

def answeredIds (s : DDRMemory) : List Nat := s.answered.map Prod.fst

structure Requests (s : DDRMemory) : Prop where
  queued : ∀ wr r, r ∈ s.reqQueue wr → s.Queued c wr r
  waits : ∀ r ∈ s.overflowQueue, s.Waits c r
  lists : ∀ wr key, ((s.banks key).reqs wr).Perm ((s.reqQueue wr).filter fun r => r.loc.key = key)
  counts : ∀ id, (ids s.overflowQueue).count id + (ids (s.reqQueue false)).count id +
    (ids (s.reqQueue true)).count id + s.served.count id = (s.accepted.map Prod.fst).count id
  nodup : (s.accepted.map Prod.fst).Nodup
  known : ∀ id, id ∉ s.accepted.map Prod.fst → s.answeredIds.count id = 0 ∧ s.held.count id = 0
  reads : ∀ id, (id, false) ∈ s.accepted →
    s.answeredIds.count id = s.served.count id ∧ s.held.count id + s.served.count id = 1
  writes : ∀ id, (id, true) ∈ s.accepted →
    s.answeredIds.count id + (ids s.overflowQueue).count id = 1 ∧
      s.held.count id = (ids s.overflowQueue).count id

variable {c}

/-! ## Lists -/

@[simp] theorem reqQueue_setQueue (s : DDRMemory) (wr : Bool) (q : List Request) (wr' : Bool) :
    (s.setQueue wr q).reqQueue wr' = if wr' = wr then q else s.reqQueue wr' := by
  cases wr <;> cases wr' <;> rfl

section
variable (s : DDRMemory) (wr : Bool) (q : List Request)

@[simp] theorem setQueue_overflowQueue : (s.setQueue wr q).overflowQueue = s.overflowQueue := by
  cases wr <;> rfl

@[simp] theorem setQueue_accepted : (s.setQueue wr q).accepted = s.accepted := by cases wr <;> rfl

@[simp] theorem setQueue_served : (s.setQueue wr q).served = s.served := by cases wr <;> rfl

@[simp] theorem setQueue_held : (s.setQueue wr q).held = s.held := by cases wr <;> rfl

@[simp] theorem setQueue_answered : (s.setQueue wr q).answered = s.answered := by cases wr <;> rfl

@[simp] theorem setQueue_banks : (s.setQueue wr q).banks = s.banks := by cases wr <;> rfl

@[simp] theorem setQueue_commands : (s.setQueue wr q).commands = s.commands := by cases wr <;> rfl

@[simp] theorem setQueue_scheduling : (s.setQueue wr q).scheduling = s.scheduling := by cases wr <;> rfl

@[simp] theorem setQueue_minRespCycle : (s.setQueue wr q).minRespCycle = s.minRespCycle := by
  cases wr <;> rfl

@[simp] theorem setQueue_lastCmdWasWrite : (s.setQueue wr q).lastCmdWasWrite = s.lastCmdWasWrite := by
  cases wr <;> rfl

end

@[simp] theorem reqs_setReqs (b : Bank) (wr : Bool) (q : List Request) (wr' : Bool) :
    (b.setReqs wr q).reqs wr' = if wr' = wr then q else b.reqs wr' := by
  cases wr <;> cases wr' <;> rfl

theorem ids_count_le {l : List Request} {r : Request} (member : r ∈ l) : 0 < (ids l).count r.id :=
  List.count_pos_iff.mpr (List.mem_map_of_mem member)

theorem lists_gain {s s' : DDRMemory} {wr : Bool} {r : Request}
    (lists : ∀ wr key, ((s.banks key).reqs wr).Perm ((s.reqQueue wr).filter fun r => r.loc.key = key))
    (gain : (s'.reqQueue wr).Perm (r :: s.reqQueue wr))
    (others : ∀ wr', wr' ≠ wr → s'.reqQueue wr' = s.reqQueue wr')
    (bank : ((s'.banks r.loc.key).reqs wr).Perm (r :: (s.banks r.loc.key).reqs wr))
    (banks : ∀ wr' key, ¬ (wr' = wr ∧ key = r.loc.key) →
      (s'.banks key).reqs wr' = (s.banks key).reqs wr') :
    ∀ wr key, ((s'.banks key).reqs wr).Perm ((s'.reqQueue wr).filter fun r => r.loc.key = key) := by
  intro wr' key
  by_cases sameQueue : wr' = wr
  · subst sameQueue
    have filtered := gain.filter fun r => r.loc.key = key
    by_cases here : key = r.loc.key
    · subst here
      rw [List.filter_cons_of_pos (by simp)] at filtered
      exact (bank.trans ((lists wr' r.loc.key).cons r)).trans filtered.symm
    · rw [List.filter_cons_of_neg (by simpa using Ne.symm here)] at filtered
      rw [banks wr' key fun both => here both.2]
      exact (lists wr' key).trans filtered.symm
  · rw [others wr' sameQueue, banks wr' key fun both => sameQueue both.1]
    exact lists wr' key

theorem lists_lose {s s' : DDRMemory} {wr : Bool} {r : Request}
    (lists : ∀ wr key, ((s.banks key).reqs wr).Perm ((s.reqQueue wr).filter fun r => r.loc.key = key))
    (lose : (s.reqQueue wr).Perm (r :: s'.reqQueue wr))
    (others : ∀ wr', wr' ≠ wr → s'.reqQueue wr' = s.reqQueue wr')
    (bank : (s.banks r.loc.key).reqs wr = r :: (s'.banks r.loc.key).reqs wr)
    (banks : ∀ wr' key, ¬ (wr' = wr ∧ key = r.loc.key) →
      (s'.banks key).reqs wr' = (s.banks key).reqs wr') :
    ∀ wr key, ((s'.banks key).reqs wr).Perm ((s'.reqQueue wr).filter fun r => r.loc.key = key) := by
  intro wr' key
  by_cases sameQueue : wr' = wr
  · subst sameQueue
    have filtered := lose.filter fun r => r.loc.key = key
    by_cases here : key = r.loc.key
    · subst here
      rw [List.filter_cons_of_pos (by simp)] at filtered
      have before := lists wr' r.loc.key
      rw [bank] at before
      exact (before.trans filtered).cons_inv
    · rw [List.filter_cons_of_neg (by simpa using Ne.symm here)] at filtered
      rw [banks wr' key fun both => here both.2]
      exact (lists wr' key).trans filtered
  · rw [others wr' sameQueue, banks wr' key fun both => sameQueue both.1]
    exact lists wr' key

/-! ## The invariant -/

theorem Requests.init (lastCmdWasWrite : Bool) : Requests c (init c lastCmdWasWrite) where
  queued := fun wr _ member => by cases wr <;> exact absurd member List.not_mem_nil
  waits := fun _ member => absurd member List.not_mem_nil
  lists := fun wr _ => by cases wr <;> exact .refl _
  counts := fun _ => rfl
  nodup := .nil
  known := fun _ _ => ⟨rfl, rfl⟩
  reads := fun _ member => absurd member List.not_mem_nil
  writes := fun _ member => absurd member List.not_mem_nil

theorem SameRequests.reqQueue {s s' : DDRMemory} (same : SameRequests s s') :
    s'.reqQueue = s.reqQueue := by
  funext wr
  cases wr
  · exact same.rdQueue
  · exact same.wrQueue

theorem Requests.congr {s s' : DDRMemory} (requests : Requests c s) (same : SameRequests s s') :
    Requests c s' := by
  have queues := SameRequests.reqQueue same
  constructor
  · intro wr r member
    rw [queues] at member
    have before := requests.queued wr r member
    exact ⟨before.queue, before.located, by rw [same.accepted]; exact before.accepted, before.ev⟩
  · intro r member
    rw [same.overflowQueue] at member
    have before := requests.waits r member
    exact ⟨before.located, by rw [same.accepted]; exact before.accepted, before.ev⟩
  · intro wr key
    rw [same.lists, queues]
    exact requests.lists wr key
  · rw [same.overflowQueue, queues, same.served, same.accepted]
    exact requests.counts
  · rw [same.accepted]
    exact requests.nodup
  · rw [answeredIds, same.accepted, same.answered, same.held]
    exact requests.known
  · rw [answeredIds, same.accepted, same.answered, same.held, same.served]
    exact requests.reads
  · rw [answeredIds, same.accepted, same.answered, same.held, same.overflowQueue]
    exact requests.writes

theorem Requests.unique {s : DDRMemory} (requests : Requests c s) {id : Nat} {w w' : Bool}
    (first : (id, w) ∈ s.accepted) (second : (id, w') ∈ s.accepted) : w = w' :=
  congrArg Prod.snd (List.inj_on_of_nodup_map requests.nodup first second rfl)

theorem Requests.count_accepted {s : DDRMemory} (requests : Requests c s) {id : Nat} {w : Bool}
    (member : (id, w) ∈ s.accepted) : (s.accepted.map Prod.fst).count id = 1 :=
  List.count_eq_one_of_mem requests.nodup (List.mem_map_of_mem (f := Prod.fst) member)

theorem Requests.eq_of_id {s : DDRMemory} (requests : Requests c s) {wr : Bool} {r r' : Request}
    (member : r ∈ s.reqQueue wr) (member' : r' ∈ s.reqQueue wr) (same : r.id = r'.id) : r = r' := by
  have once : (ids (s.reqQueue wr)).Nodup := by
    rw [List.nodup_iff_count_le_one]
    intro id
    have counts := requests.counts id
    have le := List.nodup_iff_count_le_one.mp requests.nodup id
    cases wr <;> omega
  exact List.inj_on_of_nodup_map once member member' same

end DDRMemory

end Zsim.DDR
