import Mathlib.Data.List.Count
import Mathlib.Data.List.Sort
import Mathlib.Logic.Function.Basic
import Mathlib.Tactic.Common

/-!
# Merging streams

One list holds the items of many streams.  A merge reads it from the front, puts every item in the
queue of its stream, and writes items from the fronts of queues.  Whatever is read and written when,
no stream loses an item or its order; and if the streams ascend, so does what is written, as long
as each item that is written is the least of all fronts and no stream that is still to come has an
empty queue.
-/

set_option autoImplicit false

namespace Zsim

variable {α ι κ : Type*} [DecidableEq ι] (stream : α → ι)

/-- The items of one stream. -/
def ofStream (c : ι) (items : List α) : List α := items.filter fun a => stream a = c

section
variable {stream} {c : ι} {a : α} {items first second : List α}

theorem mem_ofStream : a ∈ ofStream stream c items ↔ a ∈ items ∧ stream a = c := by
  simp [ofStream]

theorem ofStream_append :
    ofStream stream c (first ++ second) = ofStream stream c first ++ ofStream stream c second :=
  List.filter_append ..

theorem ofStream_self : ofStream stream (stream a) [a] = [a] := by
  simp [ofStream]

theorem ofStream_other (other : stream a ≠ c) : ofStream stream c [a] = [] := by
  simp [ofStream, other]

theorem count_ofStream [DecidableEq α] (stream : α → ι) (items : List α) (a : α) :
    (ofStream stream (stream a) items).count a = items.count a :=
  List.count_filter (decide_eq_true rfl)

theorem ofStream_map {β : Type*} {other : β → ι} {f : α → β} (same : ∀ a ∈ items, other (f a) = stream a) :
    ofStream other c (items.map f) = (ofStream stream c items).map f := by
  unfold ofStream
  rw [List.filter_map]
  congr 1
  refine List.filter_congr fun a member => ?_
  simp [same a member]

theorem perm_of_ofStream (same : ∀ c, ofStream stream c first = ofStream stream c second) :
    first.Perm second := by
  classical
  refine List.perm_iff_count.mpr fun a => ?_
  rw [← count_ofStream stream first, same, count_ofStream]

end

/-- A merge of `input`, of which `left` has not been read. -/
structure Merging (input written : List α) (queued : ι → List α) (left : List α) : Prop where
  streams : ∀ c, ofStream stream c input =
    ofStream stream c written ++ (queued c ++ ofStream stream c left)
  own : ∀ c, ∀ a ∈ queued c, stream a = c

namespace Merging

variable {stream} {input written left : List α} {queued : ι → List α} {a : α}

theorem start (input : List α) : Merging stream input [] (fun _ => []) input where
  streams _ := rfl
  own _ := nofun

theorem read (merging : Merging stream input written queued (a :: left)) :
    Merging stream input written
      (Function.update queued (stream a) (queued (stream a) ++ [a])) left where
  streams c := by
    rw [merging.streams c, ← List.singleton_append, ofStream_append]
    by_cases here : c = stream a
    · subst here
      rw [Function.update_self, ofStream_self, List.append_assoc]
    · rw [Function.update_of_ne here, ofStream_other (Ne.symm here), List.nil_append]
  own c b member := by
    by_cases here : c = stream a
    · subst here
      rw [Function.update_self] at member
      rcases List.mem_append.mp member with member | member
      · exact merging.own _ b member
      · rw [List.mem_singleton.mp member]
    · rw [Function.update_of_ne here] at member
      exact merging.own c b member

theorem write {c : ι} {rest : List α} (merging : Merging stream input written queued left)
    (front : queued c = a :: rest) :
    Merging stream input (written ++ [a]) (Function.update queued c rest) left where
  streams d := by
    have isOwn : stream a = c := merging.own c a (front ▸ List.mem_cons_self)
    rw [merging.streams d, ofStream_append, List.append_assoc]
    by_cases here : d = c
    · subst here
      rw [Function.update_self, front, ← isOwn, ofStream_self]
      rfl
    · have other : stream a ≠ d := fun same => here (same.symm.trans isOwn)
      rw [Function.update_of_ne here, ofStream_other other, List.nil_append]
  own d b member := by
    by_cases here : d = c
    · subst here
      rw [Function.update_self] at member
      exact merging.own d b (front ▸ List.mem_cons_of_mem a member)
    · rw [Function.update_of_ne here] at member
      exact merging.own d b member

theorem length_le (merging : Merging stream input written queued left) : written.length ≤ input.length := by
  classical
  refine (List.subperm_ext_iff.mpr fun a _ => ?_).length_le
  rw [← count_ofStream stream input, merging.streams, List.count_append, count_ofStream]
  exact Nat.le_add_right _ _

theorem done (merging : Merging stream input written queued []) (empty : ∀ c, queued c = []) :
    (∀ c, ofStream stream c written = ofStream stream c input) ∧ written.Perm input := by
  have same : ∀ c, ofStream stream c written = ofStream stream c input := by
    intro c
    rw [merging.streams c, empty c]
    exact (List.append_nil _).symm
  exact ⟨same, perm_of_ofStream same⟩

end Merging

/-! ## Merging in order -/

section
variable [LinearOrder κ] (key : α → κ)

/-- What has been written ascends and is not above what is to come. -/
structure Ascending (written : List α) (queued : ι → List α) (left : List α) : Prop where
  sorted : written.Pairwise fun a b => key a ≤ key b
  before : ∀ w ∈ written, ∀ c, ∀ b ∈ queued c ++ ofStream stream c left, key w ≤ key b

variable {stream} {key} {input written left : List α} {queued : ι → List α} {a : α}

theorem Ascending.start (input : List α) : Ascending stream key [] (fun _ => []) input :=
  ⟨.nil, nofun⟩

theorem Ascending.read (ascending : Ascending stream key written queued (a :: left)) :
    Ascending stream key written
      (Function.update queued (stream a) (queued (stream a) ++ [a])) left where
  sorted := ascending.sorted
  before w member c b later := by
    refine ascending.before w member c b ?_
    rw [← List.singleton_append, ofStream_append]
    by_cases here : c = stream a
    · subst here
      rw [Function.update_self, List.append_assoc] at later
      rw [ofStream_self]
      exact later
    · rw [Function.update_of_ne here] at later
      rw [ofStream_other (Ne.symm here)]
      exact later

/-- The least front of streams that ascend is below all that is to come. -/
theorem Merging.front_le (merging : Merging stream input written queued left)
    (streams : ∀ c, (ofStream stream c input).Pairwise fun a b => key a ≤ key b)
    (least : ∀ d b more, queued d = b :: more → key a ≤ key b)
    (full : ∀ b ∈ left, queued (stream b) ≠ []) :
    ∀ d, ∀ b ∈ queued d ++ ofStream stream d left, key a ≤ key b := by
  intro d b member
  have coming : queued d ≠ [] := by
    rcases List.mem_append.mp member with member | member
    · exact List.ne_nil_of_mem member
    · obtain ⟨later, rfl⟩ := mem_ofStream.mp member
      exact full b later
  obtain ⟨first, more, isFirst⟩ := List.exists_cons_of_ne_nil coming
  have sorted : (queued d ++ ofStream stream d left).Pairwise fun a b => key a ≤ key b := by
    have all := streams d
    rw [merging.streams d] at all
    exact (List.pairwise_append.mp all).2.1
  rw [isFirst, List.cons_append] at sorted member
  rcases List.mem_cons.mp member with rfl | member
  · exact least d b more isFirst
  · exact (least d first more isFirst).trans ((List.pairwise_cons.mp sorted).1 b member)

theorem Ascending.write {c : ι} {rest : List α} (ascending : Ascending stream key written queued left)
    (merging : Merging stream input written queued left)
    (streams : ∀ c, (ofStream stream c input).Pairwise fun a b => key a ≤ key b)
    (least : ∀ d b more, queued d = b :: more → key a ≤ key b)
    (full : ∀ b ∈ left, queued (stream b) ≠ []) (front : queued c = a :: rest) :
    Ascending stream key (written ++ [a]) (Function.update queued c rest) left := by
  have below := merging.front_le streams least full
  have here : a ∈ queued c ++ ofStream stream c left := by
    rw [front]
    exact List.mem_cons_self
  constructor
  · refine List.pairwise_append.mpr ⟨ascending.sorted, List.pairwise_singleton _ _, ?_⟩
    intro w member b isA
    rw [List.mem_singleton.mp isA]
    exact ascending.before w member c a here
  · intro w member d b later
    have remains : b ∈ queued d ++ ofStream stream d left := by
      by_cases same : d = c
      · subst same
        rw [Function.update_self] at later
        rw [front]
        exact List.mem_cons_of_mem a later
      · rw [Function.update_of_ne same] at later
        exact later
    rcases List.mem_append.mp member with member | isA
    · exact ascending.before w member d b remains
    · rw [List.mem_singleton.mp isA]
      exact below d b remains

end

end Zsim
