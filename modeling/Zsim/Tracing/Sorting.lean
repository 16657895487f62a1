import Mathlib.Algebra.Group.Nat.Defs
import Zsim.Lib.Merge
import Zsim.Tracing.Records

/-!
# Sorting a trace

The program of sorttrace.cpp.  It reads until every child has a record, and writes the record with
the least cycle until some child has none left.
-/

set_option autoImplicit false

namespace Zsim.AccessTracing

open Hdf5

/-- An element of `heads`: the negative cycle of a record as an `int64_t`, and its child. -/
abbrev Head := Int × Nat

/-- The order of a `priority_queue` of pairs, the largest first. -/
def Head.Before (a b : Head) : Prop := b.1 < a.1 ∨ b.1 = a.1 ∧ b.2 ≤ a.2

instance (a b : Head) : Decidable (a.Before b) := inferInstanceAs (Decidable (_ ∨ _))

def AccessRecord.child (acc : AccessRecord) : Nat := acc.childId.toNat

def PackedAccessRecord.child (pr : PackedAccessRecord) : Nat := pr.childId.toNat

@[simp] theorem child_unpack (pr : PackedAccessRecord) : pr.unpack.child = pr.child := by
  have short := pr.childId.isLt
  simp only [AccessRecord.child, PackedAccessRecord.unpack, PackedAccessRecord.child, BitVec.toNat_setWidth]
  omega

def AccessRecord.head (acc : AccessRecord) : Head := ((-acc.reqCycle).toInt, acc.child)

structure Sorter (σ : Type) where
  /-- the state of HDF5 -/
  lib : σ
  tr : AccessTraceReader
  tw : AccessTraceWriter
  /-- without a deque where the child has no accesses -/
  accs : Nat → Option (List AccessRecord)
  heads : List Head
  readRecords : Nat
  writtenRecords : Nat

/-- It divides by the number of all records. -/
def printProgress (_read _written total : Nat) : Except Failure Unit :=
  if total = 0 then .error .divisionByZero else .ok ()

namespace Sorter

def push (head : Head) (heads : List Head) : List Head := heads.orderedInsert Head.Before head

variable {σ : Type} (h5 : Library σ PackedAccessRecord) (numChildren total : Nat)

def readOne (s : Sorter σ) : Except Failure (Sorter σ) := do
  let (acc, tr, lib) ← s.tr.read h5 s.lib
  let s := { s with lib := lib, tr := tr, readRecords := s.readRecords + 1 }
  let _ ← if s.readRecords % 1024 = 0 then printProgress s.readRecords s.writtenRecords total else .ok ()
  if acc.child < numChildren then
    match s.accs acc.child with
    | none =>
      .ok { s with
        accs := Function.update s.accs acc.child (some [acc])
        heads := push acc.head s.heads }
    | some queue => .ok { s with accs := Function.update s.accs acc.child (some (queue ++ [acc])) }
  else .error .assertion

/-- At least a few accesses, for performance. -/
def readSome : Nat → Sorter σ → Except Failure (Sorter σ)
  | 0, s => .ok s
  | left + 1, s => do
    let s ← s.readOne h5 numChildren total
    if s.tr.empty then .ok s else readSome left s

def writeOne (s : Sorter σ) : Except Failure (Sorter σ) :=
  match s.heads with
  | [] => .error .assertion
  | next :: heads =>
    match s.accs next.2 with
    | some (acc :: rest) => do
      let (tw, lib) ← s.tw.write h5 acc s.lib
      let s := { s with lib := lib, tw := tw, heads := heads, writtenRecords := s.writtenRecords + 1 }
      let _ ← if s.writtenRecords % 1024 = 0 then printProgress s.readRecords s.writtenRecords total else .ok ()
      match rest with
      | [] => .ok { s with accs := Function.update s.accs next.2 none }
      | acc :: _ =>
        .ok { s with accs := Function.update s.accs next.2 (some rest), heads := push acc.head s.heads }
    | _ => .error .assertion

/-- All children have a record, or there are no more. -/
def Full (s : Sorter σ) : Prop := s.heads.length = numChildren ∨ s.tr.empty ∧ 0 < s.heads.length

instance (s : Sorter σ) : Decidable (s.Full numChildren) := inferInstanceAs (Decidable (_ ∨ _))

def writeSome : Nat → Sorter σ → Except Failure (Sorter σ)
  | 0, _ => .error .outOfFuel
  | fuel + 1, s =>
    if s.Full numChildren then do
      let s ← s.writeOne h5 total
      writeSome fuel s
    else .ok s

def round (fuel : Nat) (s : Sorter σ) : Except Failure (Sorter σ) := do
  let s ← if ¬ s.tr.empty ∧ s.heads.length < numChildren then s.readSome h5 numChildren total 1024 else .ok s
  if s.heads.length ≤ numChildren then s.writeSome h5 numChildren total fuel else .error .assertion

def run : Nat → Sorter σ → Except Failure (Sorter σ)
  | 0, _ => .error .outOfFuel
  | fuel + 1, s =>
    if ¬ s.tr.empty ∨ 0 < s.heads.length then do
      let s ← s.round h5 numChildren total fuel
      run fuel s
    else .ok s

end Sorter

variable {σ : Type} (h5 : Library σ PackedAccessRecord)

/-- The main function, from when the two files are there. -/
def sortRecords (fuel : Nat) (tr : AccessTraceReader) (tw : AccessTraceWriter) (lib : σ) : Except Failure σ := do
  let s ← Sorter.run h5 tr.numChildren.toNat tr.numRecords fuel ⟨lib, tr, tw, fun _ => none, [], 0, 0⟩
  printProgress s.readRecords s.writtenRecords tr.numRecords
  if s.readRecords = s.writtenRecords ∧ s.readRecords = tr.numRecords then do
    let (_, lib) ← s.tw.dump h5 false s.lib
    .ok lib
  else .error .assertion

/-- The main function, with the names of the input and of the output. -/
def sortTrace (fuel : Nat) (input output : String) (lib : σ) : Except Failure σ := do
  let (tr, lib) ← AccessTraceReader.openFile h5 input lib
  let (tw, lib) ← AccessTraceWriter.create h5 output tr.numChildren lib
  sortRecords h5 fuel tr tw lib

/-! ## What the program keeps -/

/-- A closed trace with its children in range, the files, and where the sorted trace is to go. -/
structure Job where
  files : Files PackedAccessRecord
  input : String
  output : String
  trace : List PackedAccessRecord
  numChildren : BitVec 32
  finished : BitVec 32
  apart : input ≠ output
  found : HasTrace files input trace numChildren finished
  closed : finished ≠ 0
  range : ∀ pr ∈ trace, pr.child < numChildren.toNat

/-- The records as they are read. -/
def Job.records (job : Job) : List AccessRecord := job.trace.map PackedAccessRecord.unpack

theorem Job.length_records (job : Job) : job.records.length = job.trace.length := List.length_map _

theorem Job.length_ne_zero (job : Job) {acc : AccessRecord} (member : acc ∈ job.records) :
    job.trace.length ≠ 0 := by
  rw [← job.length_records]
  exact Nat.ne_of_gt (List.length_pos_of_mem member)

theorem Job.child_lt (job : Job) : ∀ acc ∈ job.records, acc.child < job.numChildren.toNat := by
  intro acc member
  obtain ⟨pr, isInput, rfl⟩ := List.mem_map.mp member
  rw [child_unpack]
  exact job.range pr isInput

namespace Sorter

def queue (accs : Nat → Option (List AccessRecord)) (c : Nat) : List AccessRecord := (accs c).getD []

def cycle (acc : AccessRecord) : Nat := acc.reqCycle.toNat

/-- Every child's records are in order, and no cycle is negative as an `int64_t`. -/
def Sortable (input : List AccessRecord) : Prop :=
  (∀ c, (ofStream AccessRecord.child c input).Pairwise fun a b => cycle a ≤ cycle b) ∧
    ∀ acc ∈ input, cycle acc ≤ 2 ^ 63

/-- The heads are those of the deques. -/
structure Fronts (accs : Nat → Option (List AccessRecord)) (heads : List Head) : Prop where
  deques : ∀ c, accs c ≠ some []
  own : ∀ c acc rest, accs c = some (acc :: rest) → acc.child = c
  mem_iff : ∀ h, h ∈ heads ↔ ∃ acc rest, accs h.2 = some (acc :: rest) ∧ h = acc.head
  nodup : (heads.map Prod.snd).Nodup
  sorted : heads.Pairwise Head.Before

/-- What has not been read. -/
def left (job : Job) (s : Sorter σ) : List AccessRecord :=
  (s.tr.remaining job.trace).map PackedAccessRecord.unpack

structure Inv (view : View σ PackedAccessRecord) (job : Job) (written : List AccessRecord) (s : Sorter σ) :
    Prop where
  files : SameElse job.output job.files (view.files s.lib)
  names : s.tr.fname = job.input ∧ s.tw.fname = job.output
  tr : s.tr.Inv job.trace
  tw : s.tw.Inv (view.files s.lib) job.numChildren (written.map AccessRecord.pack)
  merging : Merging AccessRecord.child job.records written (queue s.accs) (s.left job)
  ascending : Sortable job.records → Ascending AccessRecord.child cycle written (queue s.accs) (s.left job)
  fronts : Fronts s.accs s.heads
  counts : s.readRecords + (s.left job).length = job.trace.length ∧ s.writtenRecords = written.length

instance : Std.Total Head.Before := ⟨fun a b => by unfold Head.Before; omega⟩

instance : IsTrans Head Head.Before := ⟨fun a b c first second => by unfold Head.Before at *; omega⟩

/-! ### The heads -/

section
variable {accs : Nat → Option (List AccessRecord)} {heads : List Head} {acc : AccessRecord}
  {rest : List AccessRecord} {c : Nat}

theorem queue_of_some {deque : List AccessRecord} (found : accs c = some deque) : queue accs c = deque := by
  rw [queue, found]
  rfl

theorem queue_of_none (none : accs c = none) : queue accs c = [] := by
  rw [queue, none]
  rfl

theorem queue_update (accs : Nat → Option (List AccessRecord)) (c : Nat) (value : Option (List AccessRecord)) :
    queue (Function.update accs c value) = Function.update (queue accs) c (value.getD []) := by
  funext d
  unfold queue
  by_cases here : d = c
  · rw [here, Function.update_self, Function.update_self]
  · rw [Function.update_of_ne here, Function.update_of_ne here]

theorem Fronts.queue_some (fronts : Fronts accs heads) (waits : queue accs c ≠ []) :
    ∃ acc rest, accs c = some (acc :: rest) := by
  cases deque : accs c with
  | none => exact absurd (queue_of_none deque) waits
  | some queue =>
      obtain ⟨acc, rest, rfl⟩ := List.exists_cons_of_ne_nil fun empty => fronts.deques c (empty ▸ deque)
      exact ⟨acc, rest, rfl⟩

theorem Fronts.mem_heads (fronts : Fronts accs heads) : c ∈ heads.map Prod.snd ↔ queue accs c ≠ [] := by
  constructor
  · intro member
    obtain ⟨h, isHead, rfl⟩ := List.mem_map.mp member
    obtain ⟨acc, rest, front, -⟩ := (fronts.mem_iff h).mp isHead
    rw [queue, front]
    exact List.cons_ne_nil _ _
  · intro waits
    obtain ⟨acc, rest, front⟩ := fronts.queue_some waits
    have own := fronts.own c acc rest front
    have front' : accs acc.child = some (acc :: rest) := by rw [own]; exact front
    exact List.mem_map.mpr ⟨acc.head, (fronts.mem_iff _).mpr ⟨acc, rest, front', rfl⟩, own⟩

theorem Fronts.put (fronts : Fronts accs heads) (none : accs c = none) (own : acc.child = c) :
    Fronts (Function.update accs c (some (acc :: rest))) (push acc.head heads) where
  deques d := by
    by_cases here : d = c
    · rw [here, Function.update_self]
      simp
    · rw [Function.update_of_ne here]
      exact fronts.deques d
  own d first more front := by
    by_cases here : d = c
    · rw [here, Function.update_self] at front
      cases front
      exact own.trans here.symm
    · rw [Function.update_of_ne here] at front
      exact fronts.own d first more front
  mem_iff h := by
    rw [push, List.mem_orderedInsert, fronts.mem_iff]
    by_cases here : h.2 = c
    · rw [here, Function.update_self, none]
      constructor
      · rintro (rfl | ⟨_, _, found, -⟩)
        · exact ⟨acc, rest, rfl, rfl⟩
        · cases found
      · rintro ⟨_, _, found, rfl⟩
        cases found
        exact .inl rfl
    · rw [Function.update_of_ne here]
      exact or_iff_right fun same => here (same ▸ own)
  nodup := by
    have fresh : acc.head.2 ∉ heads.map Prod.snd := by
      intro member
      have waits := fronts.mem_heads.mp member
      rw [show acc.head.2 = c from own, queue, none] at waits
      exact waits rfl
    have perm : ((push acc.head heads).map Prod.snd).Perm ((acc.head :: heads).map Prod.snd) :=
      (List.perm_orderedInsert _ _ _).map _
    exact perm.nodup_iff.mpr (List.nodup_cons.mpr ⟨fresh, fronts.nodup⟩)
  sorted := fronts.sorted.orderedInsert _ _

theorem Fronts.append {queue : List AccessRecord} (fronts : Fronts accs heads) (deque : accs c = some queue)
    (acc : AccessRecord) : Fronts (Function.update accs c (some (queue ++ [acc]))) heads := by
  obtain ⟨front, rest, rfl⟩ := List.exists_cons_of_ne_nil fun empty => fronts.deques c (empty ▸ deque)
  have same (d : Nat) (first : AccessRecord) :
      (∃ more, Function.update accs c (some (front :: rest ++ [acc])) d = some (first :: more)) ↔
        ∃ more, accs d = some (first :: more) := by
    by_cases here : d = c
    · rw [here, Function.update_self, deque]
      simp
    · rw [Function.update_of_ne here]
  refine ⟨fun d => ?_, fun d first more found => ?_, fun h => ?_, fronts.nodup, fronts.sorted⟩
  · by_cases here : d = c
    · rw [here, Function.update_self]
      simp
    · rw [Function.update_of_ne here]
      exact fronts.deques d
  · obtain ⟨more, found⟩ := (same d first).mp ⟨more, found⟩
    exact fronts.own d first more found
  · rw [fronts.mem_iff]
    refine exists_congr fun first => ?_
    rw [exists_and_right, exists_and_right, same]

theorem Fronts.remove {next : Head} (fronts : Fronts accs (next :: heads)) :
    Fronts (Function.update accs next.2 none) heads := by
  obtain ⟨fresh, nodup⟩ := List.nodup_cons.mp fronts.nodup
  refine ⟨fun d => ?_, fun d first more found => ?_, fun h => ?_, nodup, (List.pairwise_cons.mp fronts.sorted).2⟩
  · by_cases here : d = next.2
    · rw [here, Function.update_self]
      simp
    · rw [Function.update_of_ne here]
      exact fronts.deques d
  · by_cases here : d = next.2
    · rw [here, Function.update_self] at found
      cases found
    · rw [Function.update_of_ne here] at found
      exact fronts.own d first more found
  · by_cases here : h.2 = next.2
    · rw [here, Function.update_self]
      constructor
      · intro member
        exact absurd (here ▸ List.mem_map_of_mem member) fresh
      · rintro ⟨_, _, found, -⟩
        cases found
    · rw [Function.update_of_ne here, ← fronts.mem_iff, List.mem_cons]
      exact (or_iff_right fun same => here (congrArg Prod.snd same)).symm

end

section
variable {h5 : Library σ PackedAccessRecord} {view : View σ PackedAccessRecord} {job : Job}
  {written : List AccessRecord} {s : Sorter σ}

theorem Inv.found (inv : Inv view job written s) :
    HasTrace (view.files s.lib) s.tr.fname job.trace job.numChildren job.finished := by
  rw [inv.names.1]
  exact job.found.of_eq (inv.files job.input job.apart)

theorem Inv.mem_range (inv : Inv view job written s) {c : Nat} (member : c ∈ s.heads.map Prod.snd) :
    c < job.numChildren.toNat := by
  obtain ⟨acc, rest, front⟩ := List.exists_cons_of_ne_nil (inv.fronts.mem_heads.mp member)
  have isOwn : acc ∈ ofStream AccessRecord.child c job.records := by
    rw [inv.merging.streams c, front]
    exact List.mem_append_right _ List.mem_cons_self
  obtain ⟨isInput, own⟩ := mem_ofStream.mp isOwn
  exact own ▸ job.child_lt acc isInput

theorem Inv.heads_le (inv : Inv view job written s) : s.heads.length ≤ job.numChildren.toNat := by
  have inside : s.heads.map Prod.snd ⊆ List.range job.numChildren.toNat :=
    fun c member => List.mem_range.mpr (inv.mem_range member)
  have few := (List.subperm_of_subset inv.fronts.nodup inside).length_le
  rwa [List.length_map, List.length_range] at few

theorem Inv.all_of_length (inv : Inv view job written s) (all : s.heads.length = job.numChildren.toNat)
    {c : Nat} (range : c < job.numChildren.toNat) : queue s.accs c ≠ [] := by
  have inside : s.heads.map Prod.snd ⊆ List.range job.numChildren.toNat :=
    fun c member => List.mem_range.mpr (inv.mem_range member)
  have perm := (List.subperm_of_subset inv.fronts.nodup inside).perm_of_length_le (by simp [all])
  exact inv.fronts.mem_heads.mp (perm.mem_iff.mpr (List.mem_range.mpr range))

theorem printProgress_eq {total : Nat} (records : total ≠ 0) (read written : Nat) :
    printProgress read written total = .ok () := if_neg records

theorem Inv.mem_input (inv : Inv view job written s) {acc : AccessRecord} {c : Nat}
    (member : acc ∈ queue s.accs c ++ ofStream AccessRecord.child c (s.left job)) : acc ∈ job.records := by
  have isOwn : acc ∈ ofStream AccessRecord.child c job.records := by
    rw [inv.merging.streams c]
    exact List.mem_append_right _ member
  exact (mem_ofStream.mp isOwn).1

theorem Inv.read (inv : Inv view job written s) {acc : AccessRecord} {tr : AccessTraceReader} {lib : σ}
    (isLeft : s.left job = acc :: (tr.remaining job.trace).map PackedAccessRecord.unpack)
    (kept : tr.Inv job.trace) (name : tr.fname = s.tr.fname) (same : view.files lib = view.files s.lib)
    {value : List AccessRecord} (isValue : value = queue s.accs acc.child ++ [acc]) {heads : List Head}
    (fronts : Fronts (Function.update s.accs acc.child (some value)) heads) :
    Inv view job written
      { s with
        lib := lib
        tr := tr
        readRecords := s.readRecords + 1
        accs := Function.update s.accs acc.child (some value)
        heads := heads } := by
  have merging := inv.merging
  have ascending := inv.ascending
  have counts := inv.counts
  rw [isLeft] at merging ascending counts
  have isQueue : queue (Function.update s.accs acc.child (some value)) =
      Function.update (queue s.accs) acc.child (queue s.accs acc.child ++ [acc]) := by
    rw [queue_update, ← isValue]
    rfl
  refine ⟨?_, ⟨name.trans inv.names.1, inv.names.2⟩, kept, ?_, ?_, fun sortable => ?_, fronts, ?_, counts.2⟩
  · show SameElse job.output job.files (view.files lib)
    rw [same]
    exact inv.files
  · show s.tw.Inv (view.files lib) job.numChildren _
    rw [same]
    exact inv.tw
  · show Merging AccessRecord.child job.records written _
      ((tr.remaining job.trace).map PackedAccessRecord.unpack)
    rw [isQueue]
    exact merging.read
  · show Ascending AccessRecord.child cycle written _
      ((tr.remaining job.trace).map PackedAccessRecord.unpack)
    rw [isQueue]
    exact (ascending sortable).read
  · show s.readRecords + 1 + ((tr.remaining job.trace).map PackedAccessRecord.unpack).length = job.trace.length
    rw [List.length_cons] at counts
    omega

/-- One more record is read: the queue of its child grows, whether there was a deque or not. -/
theorem readOne_spec (lawful : Lawful h5 view) (inv : Inv view job written s) (more : s.tr.empty = false) :
    Ends (MayFail h5 view)
      (fun next => Inv view job written next ∧ next.readRecords = s.readRecords + 1 ∧
        next.writtenRecords = s.writtenRecords)
      (s.readOne h5 job.numChildren.toNat job.trace.length) := by
  cases remains : s.tr.remaining job.trace with
  | nil =>
      rw [inv.tr.empty_iff.mpr remains] at more
      cases more
  | cons pr rest =>
      have isLeft : s.left job = pr.unpack :: rest.map PackedAccessRecord.unpack := by
        rw [left, remains]
        rfl
      have member : pr.unpack ∈ job.records := by
        refine inv.mem_input (c := pr.unpack.child) (List.mem_append_right _ (mem_ofStream.mpr ⟨?_, rfl⟩))
        rw [isLeft]
        exact List.mem_cons_self
      unfold readOne
      refine (AccessTraceReader.read_spec lawful inv.found inv.tr remains).bind ?_
      rintro ⟨_, tr, lib⟩ ⟨rfl, kept, isRest, name, -, same⟩
      rw [← isRest] at isLeft
      dsimp only
      rw [printProgress_eq (job.length_ne_zero member), ite_self]
      show Ends _ _ (if pr.unpack.child < job.numChildren.toNat then _ else _)
      rw [if_pos (job.child_lt _ member)]
      cases deque : s.accs pr.unpack.child with
      | none =>
          have isEmpty : [pr.unpack] = queue s.accs pr.unpack.child ++ [pr.unpack] := by
            rw [queue_of_none deque, List.nil_append]
          exact .of_ok ⟨inv.read isLeft kept name same isEmpty (inv.fronts.put deque rfl), rfl, rfl⟩
      | some queue =>
          have isQueue : queue ++ [pr.unpack] = Sorter.queue s.accs pr.unpack.child ++ [pr.unpack] := by
            rw [queue_of_some deque]
          exact .of_ok ⟨inv.read isLeft kept name same isQueue (inv.fronts.append deque _), rfl, rfl⟩

theorem cycle_le {a b : AccessRecord} (small : cycle a ≤ 2 ^ 63) (small' : cycle b ≤ 2 ^ 63)
    (before : a.head.Before b.head) : cycle a ≤ cycle b := by
  have negative {acc : AccessRecord} (small : cycle acc ≤ 2 ^ 63) : acc.head.1 = -(cycle acc : Int) := by
    unfold cycle at small
    unfold AccessRecord.head cycle
    rw [BitVec.toInt_eq_toNat_cond, BitVec.toNat_neg]
    split <;> omega
  have order : b.head.1 ≤ a.head.1 := by
    unfold Head.Before at before
    omega
  rw [negative small, negative small'] at order
  omega

theorem Inv.least (inv : Inv view job written s) (sortable : Sortable job.records) {heads : List Head}
    {acc : AccessRecord} {rest : List AccessRecord} (isHeads : s.heads = acc.head :: heads)
    (front : s.accs acc.child = some (acc :: rest)) :
    ∀ d b more, queue s.accs d = b :: more → cycle acc ≤ cycle b := by
  intro d b more isQueue
  have fronts := inv.fronts
  obtain ⟨first, others, found⟩ := fronts.queue_some (by rw [isQueue]; exact List.cons_ne_nil _ _)
  have same : first = b := by
    rw [queue_of_some found] at isQueue
    exact (List.cons.inj isQueue).1
  subst same
  have own := fronts.own d first others found
  have member : first.head ∈ s.heads := by
    refine (fronts.mem_iff _).mpr ⟨first, others, ?_, rfl⟩
    show s.accs first.child = _
    rw [own]
    exact found
  have before : acc.head.Before first.head := by
    rw [isHeads] at member
    rcases List.mem_cons.mp member with same | member
    · rw [same]
      exact .inr ⟨rfl, le_refl _⟩
    · have sorted := fronts.sorted
      rw [isHeads] at sorted
      exact (List.pairwise_cons.mp sorted).1 _ member
  refine cycle_le (sortable.2 acc ?_) (sortable.2 first ?_) before
  · refine inv.mem_input (c := acc.child) (List.mem_append_left _ ?_)
    rw [queue_of_some front]
    exact List.mem_cons_self
  · refine inv.mem_input (c := d) (List.mem_append_left _ ?_)
    rw [isQueue]
    exact List.mem_cons_self

theorem Inv.full (inv : Inv view job written s) (full : s.Full job.numChildren.toNat) :
    ∀ b ∈ (s.left job), queue s.accs b.child ≠ [] := by
  intro b member
  rcases full with all | ⟨none, -⟩
  · have coming : b ∈ ofStream AccessRecord.child b.child (s.left job) := mem_ofStream.mpr ⟨member, rfl⟩
    exact inv.all_of_length all (job.child_lt b (inv.mem_input (List.mem_append_right _ coming)))
  · rw [left, inv.tr.empty_iff.mp none] at member
    cases member

theorem Inv.write (inv : Inv view job written s) (full : s.Full job.numChildren.toNat) {acc : AccessRecord}
    {rest : List AccessRecord} {heads : List Head} (isHeads : s.heads = acc.head :: heads)
    (front : s.accs acc.child = some (acc :: rest)) {tw : AccessTraceWriter} {lib : σ}
    (kept : tw.Inv (view.files lib) job.numChildren (written.map AccessRecord.pack ++ [acc.pack]))
    (name : tw.fname = s.tw.fname) (same : SameElse s.tw.fname (view.files s.lib) (view.files lib))
    (value : Option (List AccessRecord)) (isValue : value.getD [] = rest) {heads' : List Head}
    (fronts : Fronts (Function.update s.accs acc.child value) heads') :
    Inv view job (written ++ [acc])
      { s with
        lib := lib
        tw := tw
        writtenRecords := s.writtenRecords + 1
        accs := Function.update s.accs acc.child value
        heads := heads' } := by
  have isQueue := queue_of_some front
  refine ⟨?_, ⟨inv.names.1, name.trans inv.names.2⟩, inv.tr, ?_, ?_, fun sortable => ?_, fronts,
    inv.counts.1, ?_⟩
  · rw [inv.names.2] at same
    exact inv.files.trans same
  · rw [List.map_append]
    exact kept
  · show Merging AccessRecord.child job.records _ (queue (Function.update s.accs acc.child value)) (s.left job)
    rw [queue_update, isValue]
    exact inv.merging.write isQueue
  · show Ascending AccessRecord.child cycle _ (queue (Function.update s.accs acc.child value)) (s.left job)
    rw [queue_update, isValue]
    exact (inv.ascending sortable).write inv.merging sortable.1 (inv.least sortable isHeads front)
      (inv.full full) isQueue
  · rw [List.length_append, ← inv.counts.2]
    rfl

/-- One more record is written: the queue of its child is shorter, whether its deque is deleted or not. -/
theorem writeOne_spec (lawful : Lawful h5 view) (inv : Inv view job written s)
    (full : s.Full job.numChildren.toNat) (waits : 0 < s.heads.length) :
    Ends (MayFail h5 view)
      (fun next => ∃ acc, Inv view job (written ++ [acc]) next ∧ next.readRecords = s.readRecords ∧
        next.writtenRecords = s.writtenRecords + 1)
      (s.writeOne h5 job.trace.length) := by
  obtain ⟨next, heads, isHeads⟩ := List.exists_cons_of_ne_nil (List.ne_nil_of_length_pos waits)
  have fronts := inv.fronts
  rw [isHeads] at fronts
  obtain ⟨acc, rest, front, rfl⟩ := (fronts.mem_iff next).mp List.mem_cons_self
  have front : s.accs acc.child = some (acc :: rest) := front
  have member : acc ∈ job.records := by
    refine inv.mem_input (c := acc.child) (List.mem_append_left _ ?_)
    rw [queue_of_some front]
    exact List.mem_cons_self
  unfold writeOne
  rw [isHeads]
  dsimp only
  rw [show s.accs acc.head.2 = some (acc :: rest) from front]
  dsimp only
  refine (AccessTraceWriter.write_spec lawful inv.tw acc).bind ?_
  rintro ⟨tw, lib⟩ ⟨kept, name, same⟩
  dsimp only
  rw [printProgress_eq (job.length_ne_zero member), ite_self]
  have removed := fronts.remove
  cases rest with
  | nil =>
      exact .of_ok ⟨acc, inv.write full isHeads front kept name same none rfl removed, rfl, rfl⟩
  | cons second rest =>
      have own : second.child = acc.child :=
        inv.merging.own acc.child second (by rw [queue_of_some front]; simp)
      have put : Fronts (Function.update (Function.update s.accs acc.child none) acc.child
          (some (second :: rest))) (push second.head heads) := removed.put (Function.update_self _ _ _) own
      rw [Function.update_idem] at put
      exact .of_ok ⟨acc, inv.write full isHeads front kept name same (some (second :: rest)) rfl put, rfl, rfl⟩

/-! ### The loops -/

theorem Inv.written_le (inv : Inv view job written s) : s.writtenRecords ≤ job.trace.length := by
  rw [inv.counts.2, ← job.length_records]
  exact inv.merging.length_le

theorem readSome_spec (lawful : Lawful h5 view) {n : Nat} (inv : Inv view job written s)
    (more : s.tr.empty = false) :
    Ends (MayFail h5 view)
      (fun next => Inv view job written next ∧ s.readRecords < next.readRecords ∧
        next.writtenRecords = s.writtenRecords)
      (s.readSome h5 job.numChildren.toNat job.trace.length (n + 1)) := by
  induction n generalizing s with
  | zero =>
      rw [readSome]
      refine (readOne_spec lawful inv more).bind ?_
      rintro next ⟨kept, read, same⟩
      rw [readSome, ite_self]
      exact .of_ok ⟨kept, by omega, same⟩
  | succ n ih =>
      rw [readSome]
      refine (readOne_spec lawful inv more).bind ?_
      rintro mid ⟨kept, read, same⟩
      cases ended : mid.tr.empty with
      | true => exact .of_ok ⟨kept, by omega, same⟩
      | false =>
          refine (ih kept ended).mono ?_
          rintro next ⟨kept, later, same'⟩
          exact ⟨kept, by omega, same'.trans same⟩

theorem writeSome_spec (lawful : Lawful h5 view) {fuel : Nat} (inv : Inv view job written s)
    (pos : 0 < job.numChildren.toNat) (enough : job.trace.length < fuel + s.writtenRecords) :
    Ends (MayFail h5 view)
      (fun next => ∃ written', Inv view job written' next ∧ next.readRecords = s.readRecords ∧
        s.writtenRecords ≤ next.writtenRecords ∧
        (s.Full job.numChildren.toNat → s.writtenRecords < next.writtenRecords))
      (s.writeSome h5 job.numChildren.toNat job.trace.length fuel) := by
  induction fuel generalizing s written with
  | zero =>
      have le := inv.written_le
      omega
  | succ fuel ih =>
      rw [writeSome]
      by_cases full : s.Full job.numChildren.toNat
      · have waits : 0 < s.heads.length := by
          rcases full with all | ⟨-, waits⟩
          · exact all ▸ pos
          · exact waits
        rw [if_pos full]
        refine (writeOne_spec lawful inv full waits).bind ?_
        rintro mid ⟨acc, kept, read, wrote⟩
        refine (ih kept (by omega)).mono ?_
        rintro next ⟨written', kept, read', le, -⟩
        exact ⟨written', kept, read'.trans read, by omega, fun _ => by omega⟩
      · rw [if_neg full]
        exact .of_ok ⟨written, inv, rfl, le_refl _, fun holds => absurd holds full⟩

theorem round_spec (lawful : Lawful h5 view) {fuel : Nat} (inv : Inv view job written s)
    (pos : 0 < job.numChildren.toNat) (todo : ¬ s.tr.empty ∨ 0 < s.heads.length)
    (enough : job.trace.length < fuel) :
    Ends (MayFail h5 view)
      (fun next => ∃ written', Inv view job written' next ∧
        s.readRecords + s.writtenRecords < next.readRecords + next.writtenRecords)
      (s.round h5 job.numChildren.toNat job.trace.length fuel) := by
  unfold round
  by_cases reads : ¬ s.tr.empty ∧ s.heads.length < job.numChildren.toNat
  · rw [if_pos reads]
    refine (readSome_spec lawful (n := 1023) inv (by simpa using reads.1)).bind ?_
    rintro mid ⟨kept, read, same⟩
    dsimp only
    rw [if_pos kept.heads_le]
    refine (writeSome_spec lawful kept pos (Nat.lt_of_lt_of_le enough (Nat.le_add_right fuel _))).mono ?_
    rintro next ⟨written', kept', read', le, -⟩
    exact ⟨written', kept', by omega⟩
  · have full : s.Full job.numChildren.toNat := by
      by_cases ended : s.tr.empty
      · exact .inr ⟨ended, todo.resolve_left (absurd ended)⟩
      · have le := inv.heads_le
        exact .inl (Nat.le_antisymm le (Nat.le_of_not_lt fun few => reads ⟨ended, few⟩))
    rw [if_neg reads]
    show Ends _ _ (if s.heads.length ≤ job.numChildren.toNat then _ else _)
    rw [if_pos inv.heads_le]
    refine (writeSome_spec lawful inv pos (Nat.lt_of_lt_of_le enough (Nat.le_add_right fuel _))).mono ?_
    rintro next ⟨written', kept, read, -, wrote⟩
    have wrote := wrote full
    exact ⟨written', kept, by omega⟩

theorem run_spec (lawful : Lawful h5 view) {fuel : Nat} (inv : Inv view job written s)
    (pos : 0 < job.numChildren.toNat)
    (enough : 3 * job.trace.length + 1 < fuel + (s.readRecords + s.writtenRecords)) :
    Ends (MayFail h5 view)
      (fun final => ∃ written', Inv view job written' final ∧ final.left job = [] ∧ final.heads = [])
      (s.run h5 job.numChildren.toNat job.trace.length fuel) := by
  have read : s.readRecords ≤ job.trace.length := Nat.le.intro inv.counts.1
  have wrote := inv.written_le
  induction fuel generalizing s written with
  | zero => omega
  | succ fuel ih =>
      rw [run]
      by_cases todo : ¬ s.tr.empty ∨ 0 < s.heads.length
      · have rounds : job.trace.length < fuel := by omega
        rw [if_pos todo]
        refine (round_spec lawful inv pos todo rounds).bind ?_
        rintro mid ⟨written', kept, progress⟩
        exact ih kept (by omega) (Nat.le.intro kept.counts.1) kept.written_le
      · rw [if_neg todo]
        obtain ⟨ended, none⟩ := not_or.mp todo
        refine .of_ok ⟨written, inv, ?_, List.length_eq_zero_iff.mp (Nat.eq_zero_of_not_pos none)⟩
        rw [left, inv.tr.empty_iff.mp (Classical.not_not.mp ended)]
        rfl

end

theorem Inv.start {view : View σ PackedAccessRecord} {job : Job} {tr : AccessTraceReader}
    {tw : AccessTraceWriter} {lib : σ} (files : SameElse job.output job.files (view.files lib))
    (names : tr.fname = job.input ∧ tw.fname = job.output) (kept : tr.Inv job.trace)
    (remains : tr.remaining job.trace = job.trace) (opened : tw.Inv (view.files lib) job.numChildren []) :
    Inv view job [] ⟨lib, tr, tw, fun _ => none, [], 0, 0⟩ := by
  have isLeft : left job ⟨lib, tr, tw, fun _ => none, [], 0, 0⟩ = job.records :=
    congrArg (List.map PackedAccessRecord.unpack) remains
  have noQueue : queue (fun _ => none) = fun _ => [] := rfl
  refine ⟨files, names, kept, opened, ?_, fun _ => ?_, ?_, ?_⟩
  · rw [isLeft, noQueue]
    exact .start _
  · rw [isLeft, noQueue]
    exact .start _
  · exact ⟨nofun, nofun, fun h => by simp, List.nodup_nil, .nil⟩
  · rw [isLeft, job.length_records]
    exact ⟨Nat.zero_add _, rfl⟩

end Sorter

/-! ## What the program does -/

def PackedAccessRecord.cycle (pr : PackedAccessRecord) : Nat := pr.reqCycle.toNat

/-- As it is written again: the number of the type is cut to eight bits. -/
def PackedAccessRecord.rewritten (pr : PackedAccessRecord) : PackedAccessRecord := pr.unpack.pack

theorem map_rewritten {trace : List PackedAccessRecord} (valid : ∀ pr ∈ trace, pr.Valid) :
    trace.map PackedAccessRecord.rewritten = trace := by
  calc
    trace.map PackedAccessRecord.rewritten = trace.map id :=
      List.map_congr_left fun pr member => pack_unpack (valid pr member)
    _ = trace := List.map_id trace

namespace Sorter

variable {trace : List PackedAccessRecord}

theorem ofStream_unpack (trace : List PackedAccessRecord) (c : Nat) :
    ofStream AccessRecord.child c (trace.map PackedAccessRecord.unpack) =
      (ofStream PackedAccessRecord.child c trace).map PackedAccessRecord.unpack :=
  ofStream_map fun pr _ => child_unpack pr

theorem sortable_unpack
    (sorted : ∀ c, (ofStream PackedAccessRecord.child c trace).Pairwise fun a b => a.cycle ≤ b.cycle)
    (small : ∀ pr ∈ trace, pr.cycle ≤ 2 ^ 63) : Sortable (trace.map PackedAccessRecord.unpack) := by
  constructor
  · intro c
    rw [ofStream_unpack]
    exact List.pairwise_map.mpr (sorted c)
  · intro acc member
    obtain ⟨pr, isInput, rfl⟩ := List.mem_map.mp member
    exact small pr isInput

theorem child_pack {acc : AccessRecord} (member : acc ∈ trace.map PackedAccessRecord.unpack) :
    acc.pack.child = acc.child := by
  obtain ⟨pr, -, rfl⟩ := List.mem_map.mp member
  have short := pr.childId.isLt
  simp [PackedAccessRecord.child, AccessRecord.child, AccessRecord.pack, PackedAccessRecord.unpack]
  omega

theorem Inv.done {view : View σ PackedAccessRecord} {job : Job} {written : List AccessRecord} {s : Sorter σ}
    (inv : Inv view job written s) (noLeft : s.left job = []) (noHeads : s.heads = []) :
    (∀ c, ofStream AccessRecord.child c written = ofStream AccessRecord.child c job.records) ∧
      written.Perm job.records ∧
      (Sortable job.records → written.Pairwise fun a b => cycle a ≤ cycle b) ∧
      s.readRecords = s.writtenRecords ∧ s.readRecords = job.trace.length := by
  -- no head, no queue
  have empty (c : Nat) : queue s.accs c = [] := by
    by_contra waits
    have member := inv.fronts.mem_heads.mpr waits
    rw [noHeads] at member
    cases member
  have merging := inv.merging
  rw [noLeft] at merging
  obtain ⟨streams, perm⟩ := merging.done empty
  obtain ⟨read, wrote⟩ := inv.counts
  rw [noLeft, List.length_nil, Nat.add_zero] at read
  have length := perm.length_eq
  rw [job.length_records] at length
  exact ⟨streams, perm, fun sortable => (inv.ascending sortable).sorted, by omega, read⟩

end Sorter

section
variable {h5} {view : View σ PackedAccessRecord} {job : Job} {tr : AccessTraceReader} {tw : AccessTraceWriter}
  {lib : σ} {fuel : Nat}

/-- An empty trace divides by zero. -/
theorem sortRecords_empty (inv : Sorter.Inv view job [] ⟨lib, tr, tw, fun _ => none, [], 0, 0⟩)
    (none : job.trace = []) (enough : 0 < fuel) :
    sortRecords h5 fuel tr tw lib = .error .divisionByZero := by
  obtain ⟨fuel, rfl⟩ := Nat.exists_eq_succ_of_ne_zero (Nat.ne_of_gt enough)
  have count : tr.numRecords = 0 := by rw [inv.tr.count, none, List.length_nil]
  have noneLeft : (Sorter.left job ⟨lib, tr, tw, fun _ => .none, [], 0, 0⟩).length = 0 := by
    have counts := inv.counts.1
    rw [none] at counts
    exact Nat.eq_zero_of_add_eq_zero_left counts
  have ended : tr.empty = true := by
    refine inv.tr.empty_iff.mpr (List.length_eq_zero_iff.mp ?_)
    rwa [Sorter.left, List.length_map] at noneLeft
  have stops : ¬ (¬ tr.empty ∨ 0 < ([] : List Head).length) := by simp [ended]
  rw [sortRecords, Sorter.run, if_neg stops, count]
  rfl

theorem sortRecords_spec (lawful : Lawful h5 view)
    (inv : Sorter.Inv view job [] ⟨lib, tr, tw, fun _ => none, [], 0, 0⟩)
    (children : tr.numChildren = job.numChildren)
    (records : job.trace ≠ []) (enough : 3 * job.trace.length + 1 < fuel) :
    Ends (MayFail h5 view)
      (fun lib' => ∃ written, SameElse job.output job.files (view.files lib') ∧
        HasTrace (view.files lib') job.output (written.map AccessRecord.pack) job.numChildren 1 ∧
        (∀ c, ofStream AccessRecord.child c written = ofStream AccessRecord.child c job.records) ∧
        written.Perm job.records ∧
        (Sorter.Sortable job.records → written.Pairwise fun a b => Sorter.cycle a ≤ Sorter.cycle b))
      (sortRecords h5 fuel tr tw lib) := by
  obtain ⟨first, more, isCons⟩ := List.exists_cons_of_ne_nil records
  have pos : 0 < job.numChildren.toNat :=
    Nat.zero_lt_of_lt (job.range first (by rw [isCons]; exact List.mem_cons_self))
  have some : job.trace.length ≠ 0 := by
    rw [isCons]
    exact Nat.succ_ne_zero _
  have count : tr.numRecords = job.trace.length := inv.tr.count
  unfold sortRecords
  rw [children, count]
  refine (Sorter.run_spec lawful inv pos enough).bind ?_
  rintro final ⟨written, kept, noLeft, noHeads⟩
  obtain ⟨streams, perm, sorted, counts⟩ := kept.done noLeft noHeads
  rw [Sorter.printProgress_eq some]
  show Ends _ _
    (if final.readRecords = final.writtenRecords ∧ final.readRecords = job.trace.length then _ else _)
  rw [if_pos counts]
  refine (AccessTraceWriter.close_spec lawful kept.tw).bind ?_
  rintro ⟨_, lib'⟩ ⟨trace, same⟩
  rw [kept.names.2] at trace same
  exact .of_ok ⟨written, kept.files.trans same, trace, streams, perm, sorted⟩

/-- A trace is sorted by cycle if every child's records are; they always keep their order, and none
is lost. -/
theorem sortTrace_sorts (lawful : Lawful h5 view) {input output : String} (apart : input ≠ output)
    {trace : List PackedAccessRecord} {numChildren finished : BitVec 32}
    (found : HasTrace (view.files lib) input trace numChildren finished) (closed : finished ≠ 0)
    (range : ∀ pr ∈ trace, pr.child < numChildren.toNat) (enough : 3 * trace.length + 1 < fuel) :
    (trace = [] →
      Ends (fun e => MayFail h5 view e ∨ e = .divisionByZero) (fun _ => False)
        (sortTrace h5 fuel input output lib)) ∧
    (trace ≠ [] →
      Ends (MayFail h5 view)
        (fun lib' => SameElse output (view.files lib) (view.files lib') ∧
          ∃ sorted, HasTrace (view.files lib') output sorted numChildren 1 ∧
            sorted.Perm (trace.map PackedAccessRecord.rewritten) ∧
            (∀ c, ofStream PackedAccessRecord.child c sorted =
              (ofStream PackedAccessRecord.child c trace).map PackedAccessRecord.rewritten) ∧
            ((∀ c, (ofStream PackedAccessRecord.child c trace).Pairwise fun a b => a.cycle ≤ b.cycle) →
              (∀ pr ∈ trace, pr.cycle ≤ 2 ^ 63) → sorted.Pairwise fun a b => a.cycle ≤ b.cycle))
        (sortTrace h5 fuel input output lib)) := by
  let job : Job := ⟨view.files lib, input, output, trace, numChildren, finished, apart, found, closed, range⟩
  -- in both cases the input is opened and the output created
  have opens {May : Failure → Prop} {Post : σ → Prop} (may : ∀ e, MayFail h5 view e → May e)
      (rest : ∀ tr tw lib', tr.numChildren = numChildren →
        Sorter.Inv view job [] ⟨lib', tr, tw, fun _ => none, [], 0, 0⟩ →
        Ends May Post (sortRecords h5 fuel tr tw lib')) :
      Ends May Post (sortTrace h5 fuel input output lib) := by
    unfold sortTrace
    refine ((AccessTraceReader.openFile_spec lawful found closed).weaken may).bind ?_
    rintro ⟨tr, lib₁⟩ ⟨kept, remains, isInput, isChildren, files₁⟩
    refine ((AccessTraceWriter.create_spec lawful output tr.numChildren lib₁).weaken may).bind ?_
    rintro ⟨tw, lib₂⟩ ⟨opened, isOutput, files₂⟩
    rw [files₁] at files₂
    rw [isChildren] at opened
    exact rest tr tw lib₂ isChildren (.start files₂ ⟨isInput, isOutput⟩ kept remains opened)
  constructor
  · intro none
    refine opens (fun _ => .inl) fun tr tw lib' _ inv => ?_
    rw [sortRecords_empty inv none (Nat.zero_lt_of_lt enough)]
    exact .of_error (.inr rfl)
  · intro records
    refine opens (fun _ may => may) fun tr tw lib' children inv => ?_
    refine (sortRecords_spec lawful inv children records enough).mono ?_
    rintro lib'' ⟨written, same, isSorted, streams, perm, ascending⟩
    refine ⟨same, _, isSorted, ?_, fun c => ?_, fun sorted small => ?_⟩
    · have packed := perm.map AccessRecord.pack
      rwa [Job.records, List.map_map] at packed
    · rw [ofStream_map fun acc member => Sorter.child_pack (perm.mem_iff.mp member), streams,
        Job.records, Sorter.ofStream_unpack, List.map_map]
      rfl
    · exact List.pairwise_map.mpr (ascending (Sorter.sortable_unpack sorted small))

end

/-- Two accesses of child 0 after one of child 1 that came later. -/
def twoChildren : List PackedAccessRecord := [⟨0x40, 5, 100, 0, 0⟩, ⟨0x80, 9, 100, 0, 1⟩, ⟨0xc0, 7, 20, 1, 0⟩]

/-- Their trace is in a file. -/
def twoChildrenFile : Memory PackedAccessRecord where
  files := Function.update (fun _ => none) "unsorted.h5"
    (some (((Contents.empty.setTable "accs" twoChildren).setAttr "numChildren" 2).setAttr "finished" 1))
  objects := []

theorem sortTrace_sorts_twoChildren :
    ∃ lib sorted, sortTrace inMemory 11 "unsorted.h5" "sorted.h5" twoChildrenFile = .ok lib ∧
      HasTrace lib.files "sorted.h5" sorted 2 1 ∧ sorted.Perm twoChildren ∧
      sorted.Pairwise (fun a b => a.cycle ≤ b.cycle) ∧ ¬ twoChildren.Pairwise fun a b => a.cycle ≤ b.cycle := by
  have found : HasTrace (Memory.view.files twoChildrenFile) "unsorted.h5" twoChildren 2 1 := by
    refine ⟨_, ?_, .new twoChildren 2 1⟩
    exact Function.update_self "unsorted.h5" _ fun _ => none
  have apart : "unsorted.h5" ≠ "sorted.h5" := by decide
  have enough : 3 * twoChildren.length + 1 < 11 := by decide
  have ends := (sortTrace_sorts inMemory_lawful apart found (by decide) (by decide) enough).2 (by decide)
  obtain ⟨lib, run, -, sorted, trace, perm, -, ascending⟩ := ends.exists_ok fun e may => may.2 inMemory_works
  have same : twoChildren.map PackedAccessRecord.rewritten = twoChildren := map_rewritten (by decide)
  rw [same] at perm
  refine ⟨lib, sorted, run, trace, perm, ascending (fun c => ?_) (by decide), by decide⟩
  have cases : c = 0 ∨ c = 1 ∨ 2 ≤ c := by omega
  rcases cases with rfl | rfl | other
  · decide
  · decide
  · have none : ofStream PackedAccessRecord.child c twoChildren = [] := by
      refine List.filter_eq_nil_iff.mpr fun pr member => ?_
      have range : ∀ pr ∈ twoChildren, pr.child < 2 := by decide
      have small := range pr member
      simp only [decide_eq_true_eq]
      omega
    rw [none]
    exact .nil

end Zsim.AccessTracing
