import Mathlib.Algebra.Group.Nat.Defs
import Mathlib.Data.List.ReduceOption
import Mathlib.Logic.Function.Basic
import Mathlib.Tactic.Common

/-!
# The children of a timing event

`addChild` and `visitChildren` of timing_event.h keep the children of an event inline when
there is one, and in a chain of blocks of three with the newest block first when there are
more.
-/

set_option autoImplicit false

namespace Zsim.Timing

variable {T : Type}

/-- `events` of a TimingEventBlock. -/
abbrev Block (T : Type) := Fin 3 → Option T

/-- The union of `child` and `children`. -/
inductive Slot (T : Type) where
  | null
  | child (child : T)
  | children (blocks : List (Block T))

structure Children (T : Type) where
  numChildren : Nat
  slot : Slot T

namespace Block

def empty : Block T := fun _ => none

def visited (b : Block T) : List T := ([b 0, b 1, b 2].takeWhile Option.isSome).reduceOption

def Filled (b : Block T) (k : Nat) : Prop := ∀ i : Fin 3, (b i).isSome = true ↔ i.1 < k

theorem visited_of_filled {b : Block T} {k : Nat} (filled : b.Filled k) (le : k ≤ 3) :
    b.visited.length = k := by
  have first := filled 0
  have second := filled 1
  have third := filled 2
  unfold visited
  cases isFirst : b 0 <;> cases isSecond : b 1 <;> cases isThird : b 2 <;>
    simp [isFirst, isSecond, isThird] at first second third ⊢ <;> omega

theorem visited_update {b : Block T} {k : Nat} (filled : b.Filled k) (lt : k < 3) (x : T) :
    Block.Filled (Function.update b ⟨k, lt⟩ (some x)) (k + 1) ∧
      Block.visited (Function.update b ⟨k, lt⟩ (some x)) = b.visited ++ [x] := by
  constructor
  · intro i
    by_cases same : i = ⟨k, lt⟩
    · rw [same, Function.update_self]
      simp
    · rw [Function.update_of_ne same, filled i]
      have apart : i.1 ≠ k := fun h => same (Fin.ext h)
      omega
  · have first := filled 0
    have second := filled 1
    have third := filled 2
    unfold visited
    match k, lt with
    | 0, _ | 1, _ | 2, _ =>
        cases isFirst : b 0 <;> cases isSecond : b 1 <;> cases isThird : b 2 <;>
          simp [isFirst, isSecond, isThird] at first second third ⊢

end Block

namespace Children

def empty : Children T := ⟨0, .null⟩

/-- The part of `addChild` that stores the child. -/
def addChild (c : Children T) (childEv : T) : Children T :=
  if c.numChildren = 0 then ⟨1, .child childEv⟩
  else
    match c.slot with
    | .null => c
    | .child firstChild => ⟨2, .children [fun i => if i = 0 then some firstChild else
        if i = 1 then some childEv else none]⟩
    | .children blocks =>
      let idx : Fin 3 := ⟨c.numChildren % 3, Nat.mod_lt _ (by decide)⟩
      let blocks := if idx.1 = 0 then Block.empty :: blocks else blocks
      match blocks with
      | [] => c
      | head :: rest => ⟨c.numChildren + 1, .children (Function.update head idx (some childEv) :: rest)⟩

/-- The children in the order in which `visitChildren` comes to them, as long as no child is
added on the way; `none` is the failed assertion on their number. -/
def visit (c : Children T) : Option (List T) :=
  if c.numChildren = 0 then some []
  else
    match c.slot with
    | .null => none
    | .child child => some [child]
    | .children blocks =>
      let visited := blocks.flatMap Block.visited
      if visited.length = c.numChildren then some visited else none

/-- The head block is filled up to its last child, the others altogether. -/
inductive Ok : Children T → Prop
  | empty : Ok ⟨0, .null⟩
  | single (child : T) : Ok ⟨1, .child child⟩
  | blocks {n k : Nat} {head : Block T} {rest : List (Block T)} (several : 2 ≤ n)
      (some' : 0 < k) (le : k ≤ 3) (filled : head.Filled k)
      (full : ∀ b ∈ rest, Block.Filled b 3) (count : n = k + 3 * rest.length) :
      Ok ⟨n, .children (head :: rest)⟩

theorem length_full {rest : List (Block T)} (full : ∀ b ∈ rest, Block.Filled b 3) :
    (rest.flatMap Block.visited).length = 3 * rest.length := by
  induction rest with
  | nil => rfl
  | cons b rest ih =>
      rw [List.flatMap_cons, List.length_append,
        Block.visited_of_filled (full b List.mem_cons_self) (Nat.le_refl 3),
        ih fun b member => full b (List.mem_cons_of_mem _ member), List.length_cons]
      omega

theorem Ok.visit {c : Children T} (ok : c.Ok) : ∃ l, c.visit = some l ∧ l.length = c.numChildren := by
  cases ok with
  | empty => exact ⟨[], rfl, rfl⟩
  | single child => exact ⟨[child], rfl, rfl⟩
  | @blocks n k head rest several some' le filled full count =>
      have length : ((head :: rest).flatMap Block.visited).length = n := by
        rw [List.flatMap_cons, List.length_append, Block.visited_of_filled filled le,
          length_full full, count]
      refine ⟨(head :: rest).flatMap Block.visited, ?_, length⟩
      unfold Children.visit
      rw [if_neg (by dsimp only; omega)]
      exact if_pos length

theorem visit_blocks {n : Nat} {blocks : List (Block T)} {l : List T} (several : 2 ≤ n)
    (visit : Children.visit ⟨n, .children blocks⟩ = some l) : l = blocks.flatMap Block.visited := by
  unfold Children.visit at visit
  rw [if_neg (by dsimp only; omega)] at visit
  dsimp only at visit
  split at visit
  · exact (Option.some.inj visit).symm
  · cases visit

theorem Ok.addChild {c : Children T} (ok : c.Ok) {l : List T} (visit : c.visit = some l)
    (childEv : T) :
    (c.addChild childEv).Ok ∧ ∃ l', (c.addChild childEv).visit = some l' ∧ l'.Perm (childEv :: l) := by
  cases ok with
  | empty =>
      cases Option.some.inj visit
      exact ⟨.single childEv, [childEv], rfl, .refl _⟩
  | single child =>
      cases Option.some.inj visit
      refine ⟨.blocks (k := 2) (Nat.le_refl 2) (by decide) (by decide) (fun i => ?_)
        (fun _ member => nomatch member) rfl, [child, childEv], rfl, .swap _ _ _⟩
      match i with
      | 0 | 1 | 2 => simp
  | @blocks n k head rest several some' le filled full count =>
      have isList := visit_blocks several visit
      have notNone : n ≠ 0 := by omega
      by_cases newBlock : n % 3 = 0
      · -- the head block is full
        have isFull : k = 3 := by omega
        have emptyFilled : Block.Filled (Block.empty : Block T) 0 := fun i => by simp [Block.empty]
        obtain ⟨filled', visited'⟩ := Block.visited_update emptyFilled (by decide) childEv
        have added : Children.addChild ⟨n, .children (head :: rest)⟩ childEv = ⟨n + 1, .children
            (Function.update Block.empty ⟨0, by decide⟩ (some childEv) :: head :: rest)⟩ := by
          unfold Children.addChild
          rw [if_neg notNone]
          simp only [newBlock, if_pos]
        have ok' : Children.Ok ⟨n + 1, .children
            (Function.update Block.empty ⟨0, by decide⟩ (some childEv) :: head :: rest)⟩ := by
          refine .blocks (by omega) Nat.one_pos (by decide) filled' (fun b member => ?_) ?_
          · rcases List.mem_cons.mp member with rfl | later
            · exact isFull ▸ filled
            · exact full b later
          · rw [List.length_cons]
            omega
        rw [added]
        obtain ⟨l', visit', -⟩ := ok'.visit
        refine ⟨ok', l', visit', ?_⟩
        rw [visit_blocks (by omega) visit', List.flatMap_cons, visited', ← isList]
        exact .refl _
      · have idx : n % 3 = k := by omega
        have lt : k < 3 := by omega
        obtain ⟨filled', visited'⟩ := Block.visited_update filled lt childEv
        have added : Children.addChild ⟨n, .children (head :: rest)⟩ childEv = ⟨n + 1, .children
            (Function.update head ⟨k, lt⟩ (some childEv) :: rest)⟩ := by
          unfold Children.addChild
          rw [if_neg notNone]
          simp only [idx, if_neg (show ¬ k = 0 by omega)]
        have ok' : Children.Ok ⟨n + 1, .children
            (Function.update head ⟨k, lt⟩ (some childEv) :: rest)⟩ :=
          .blocks (by omega) (Nat.succ_pos k) lt filled' full (by omega)
        rw [added]
        obtain ⟨l', visit', -⟩ := ok'.visit
        refine ⟨ok', l', visit', ?_⟩
        rw [visit_blocks (by omega) visit', isList, List.flatMap_cons, List.flatMap_cons, visited',
          List.append_assoc]
        exact List.perm_middle

end Children

end Zsim.Timing
