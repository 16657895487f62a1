import Mathlib.Data.Fintype.Defs
import Zsim.Lib.LinkedList
import Zsim.Lib.Machine

/-!
# Intrusive lists that share their nodes

`InListNode` and `InList` of intrusive_list.h, for any number of lists over one set of nodes: a node
is in one list at a time.  The fields of the nodes and of the lists are tables.
-/

set_option autoImplicit false

namespace Zsim

structure InLists (T L : Type*) where
  next : T → Option T
  prev : T → Option T
  owner : T → Option L
  head : L → Option T
  tail : L → Option T
  elems : L → Nat

namespace InLists

variable {T L : Type*}

def new : InLists T L := ⟨fun _ => none, fun _ => none, fun _ => none, fun _ => none, fun _ => none, fun _ => 0⟩

def empty (s : InLists T L) (lst : L) : Bool := (s.head lst).isNone

def front (s : InLists T L) (lst : L) : Option T := s.head lst

def back (s : InLists T L) (lst : L) : Option T := s.tail lst

def size (s : InLists T L) (lst : L) : Nat := s.elems lst

section
variable [DecidableEq T] [DecidableEq L]

def unlink (s : InLists T L) (e : T) (lst : L) : Option (InLists T L) :=
  let s := { s with prev := redirect s.prev (s.next e) (s.prev e) }
  let s := { s with next := redirect s.next (s.prev e) (s.next e) }
  let s := { s with next := Function.update s.next e none, prev := Function.update s.prev e none }
  if s.owner e = some lst then some { s with owner := Function.update s.owner e none } else none

def linkPrev (s : InLists T L) (e p : T) (lst : L) : Option (InLists T L) :=
  if s.owner e = none ∧ s.prev e = none ∧ s.next e = none then
    match s.next p with
    | some n =>
      if s.prev n = some p then
        some { s with
          prev := Function.update (Function.update s.prev n (some e)) e (some p)
          next := Function.update (Function.update s.next e (some n)) p (some e)
          owner := Function.update s.owner e (some lst) }
      else none
    | none =>
      some { s with
        prev := Function.update s.prev e (some p)
        next := Function.update s.next p (some e)
        owner := Function.update s.owner e (some lst) }
  else none

/-- The assertion of the two pushes. -/
def Unlinked (s : InLists T L) (e : T) : Prop := s.next e = none ∧ s.prev e = none ∧ s.owner e = none

instance decidableUnlinked (s : InLists T L) (e : T) : Decidable (s.Unlinked e) :=
  inferInstanceAs (Decidable (_ ∧ _))

/-- Both pushes to an empty list. -/
def pushOnly (s : InLists T L) (lst : L) (e : T) : InLists T L :=
  { s with
    head := Function.update s.head lst (some e)
    tail := Function.update s.tail lst (some e)
    owner := Function.update s.owner e (some lst)
    elems := Function.update s.elems lst (s.elems lst + 1) }

def pushFront (s : InLists T L) (lst : L) (e : T) : Option (InLists T L) :=
  if s.Unlinked e then
    match s.head lst with
    | none => some (s.pushOnly lst e)
    | some h =>
      if s.prev h = none ∧ s.owner h = some lst then
        some { s with
          next := Function.update s.next e (some h)
          prev := Function.update s.prev h (some e)
          head := Function.update s.head lst (some e)
          owner := Function.update s.owner e (some lst)
          elems := Function.update s.elems lst (s.elems lst + 1) }
      else none
  else none

def pushBack (s : InLists T L) (lst : L) (e : T) : Option (InLists T L) :=
  if s.Unlinked e then
    match s.head lst with
    | none => some (s.pushOnly lst e)
    | some _ =>
      match s.tail lst with
      | none => none
      | some t =>
        (s.linkPrev e t lst).map fun s =>
          { s with
            tail := Function.update s.tail lst (some e)
            elems := Function.update s.elems lst (s.elems lst + 1) }
  else none

def popFront (s : InLists T L) (lst : L) : Option (InLists T L) :=
  match s.head lst with
  | none => some s
  | some e =>
    let s := { s with head := Function.update s.head lst (s.next e) }
    (s.unlink e lst).map fun s =>
      { s with
        tail := if s.head lst = none then Function.update s.tail lst none else s.tail
        elems := Function.update s.elems lst (s.elems lst - 1) }

def popBack (s : InLists T L) (lst : L) : Option (InLists T L) :=
  match s.head lst with
  | none => some s
  | some _ =>
    match s.tail lst with
    | none => none
    | some e =>
      let s := { s with tail := Function.update s.tail lst (s.prev e) }
      (s.unlink e lst).map fun s =>
        { s with
          head := if s.tail lst = none then Function.update s.head lst none else s.head
          elems := Function.update s.elems lst (s.elems lst - 1) }

/-- Note how remove is O(1). -/
def remove (s : InLists T L) (lst : L) (e : T) : Option (InLists T L) :=
  let s := { s with
    head := if s.head lst = some e then Function.update s.head lst (s.next e) else s.head }
  let s := { s with
    tail := if s.tail lst = some e then Function.update s.tail lst (s.prev e) else s.tail }
  (s.unlink e lst).map fun s => { s with elems := Function.update s.elems lst (s.elems lst - 1) }

def insertAfter (s : InLists T L) (lst : L) (prev e : T) : Option (InLists T L) :=
  if s.owner e = none ∧ s.owner prev = some lst then
    (s.linkPrev e prev lst).map fun s =>
      { s with
        tail := if s.tail lst = some prev then Function.update s.tail lst (some e) else s.tail
        elems := Function.update s.elems lst (s.elems lst + 1) }
  else none

end

/-! ## Runs -/

inductive Op (T L : Type*)
  | pushFront (lst : L) (e : T)
  | pushBack (lst : L) (e : T)
  | popFront (lst : L)
  | popBack (lst : L)
  | remove (lst : L) (e : T)
  | insertAfter (lst : L) (prev e : T)

section
variable [DecidableEq T] [DecidableEq L]

def step (s : InLists T L) : Op T L → Option (InLists T L)
  | .pushFront lst e => s.pushFront lst e
  | .pushBack lst e => s.pushBack lst e
  | .popFront lst => s.popFront lst
  | .popBack lst => s.popBack lst
  | .remove lst e => s.remove lst e
  | .insertAfter lst prev e => s.insertAfter lst prev e

/-! ## Sequences -/

def insertBehind (prev e : T) : List T → List T
  | [] => []
  | x :: rest => if x = prev then x :: e :: rest else x :: insertBehind prev e rest

/-- What an operation does to the sequences. -/
def onSequences (seqs : L → List T) : Op T L → L → List T
  | .pushFront lst e => Function.update seqs lst (e :: seqs lst)
  | .pushBack lst e => Function.update seqs lst (seqs lst ++ [e])
  | .popFront lst => Function.update seqs lst (seqs lst).tail
  | .popBack lst => Function.update seqs lst (seqs lst).dropLast
  | .remove lst e => Function.update seqs lst ((seqs lst).erase e)
  | .insertAfter lst prev e => Function.update seqs lst (insertBehind prev e (seqs lst))

/-- New nodes are in no list; what is removed or inserted behind is a member. -/
def Legal (seqs : L → List T) : Op T L → Prop
  | .pushFront _ e => ∀ lst, e ∉ seqs lst
  | .pushBack _ e => ∀ lst, e ∉ seqs lst
  | .popFront _ => True
  | .popBack _ => True
  | .remove lst e => e ∈ seqs lst
  | .insertAfter lst prev e => prev ∈ seqs lst ∧ ∀ lst, e ∉ seqs lst

instance decidableLegal [Fintype L] (seqs : L → List T) : ∀ op : Op T L, Decidable (Legal seqs op)
  | .pushFront _ _ => inferInstanceAs (Decidable (∀ _, _))
  | .pushBack _ _ => inferInstanceAs (Decidable (∀ _, _))
  | .popFront _ => .isTrue trivial
  | .popBack _ => .isTrue trivial
  | .remove _ _ => inferInstanceAs (Decidable (_ ∈ _))
  | .insertAfter _ _ _ => inferInstanceAs (Decidable (_ ∧ _))

/-- Sequences under the operations. -/
def sequences : Machine (L → List T) (Op T L) where
  legal := Legal
  step seqs op := some (onSequences seqs op)

instance decidableSequencesLegal [Fintype L] (seqs : L → List T) (op : Op T L) :
    Decidable (sequences.legal seqs op) :=
  decidableLegal seqs op

/-- The lists under the operations; whether one is legal is said of the sequences. -/
def lists : Machine (InLists T L) (Op T L) where
  legal _ _ := True
  step := step

end

end InLists

end Zsim
