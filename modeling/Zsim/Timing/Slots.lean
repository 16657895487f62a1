import Zsim.Timing.Children

/-!
# The slots of a timing event

`visitChildren` hands out pointers to the slots that hold the children.  A slot is read and
written by its place: the inline one, or one of the three of a block, which is known by the
number of blocks behind it and stays where it is while newer blocks are put in front.  The
children in the order in which they were added are a list, on which the slots have indices.
-/

set_option autoImplicit false

namespace Zsim.Timing

variable {T : Type}

/-- `TimingEvent** childPtr`. -/
inductive ChildPtr
  | child
  /-- an event of the block with `behind` blocks behind it -/
  | event (behind : Nat) (i : Fin 3)
  deriving DecidableEq, Repr

namespace Children

def read (c : Children T) : ChildPtr → Option T
  | .child =>
    match c.slot with
    | .child child => some child
    | _ => none
  | .event behind i =>
    match c.slot with
    | .children blocks => blocks.reverse[behind]?.bind fun b => b i
    | _ => none

def write (c : Children T) (x : T) : ChildPtr → Children T
  | .child => { c with slot := .child x }
  | .event behind i =>
    match c.slot with
    | .children blocks =>
      let write := fun b : Block T => Function.update b i (some x)
      { c with slot := .children (blocks.reverse.modify behind write).reverse }
    | _ => c

/-- The number of blocks. -/
def numBlocks (c : Children T) : Nat :=
  match c.slot with
  | .children blocks => blocks.length
  | _ => 0

/-- The children in the order in which they were added. -/
def toList : Children T → List T
  | ⟨_, .null⟩ => []
  | ⟨_, .child child⟩ => [child]
  | ⟨_, .children blocks⟩ => blocks.reverse.flatMap fun b => (List.ofFn b).reduceOption

/-- The slots hold the children of a list, in its order. -/
inductive Holds : Children T → List T → Prop
  | null : Holds ⟨0, .null⟩ []
  | child (child : T) : Holds ⟨1, .child child⟩ [child]
  | children {blocks : List (Block T)} {l : List T} (several : 2 ≤ l.length)
      (count : blocks.length = (l.length + 2) / 3)
      (slots : ∀ (behind : Nat) (i : Fin 3),
        (blocks.reverse[behind]?.bind fun b => b i) = l[3 * behind + i.1]?) :
      Holds ⟨l.length, .children blocks⟩ l

namespace Holds

variable {c : Children T} {l : List T}

theorem numChildren (holds : c.Holds l) : c.numChildren = l.length := by
  cases holds <;> rfl

theorem numBlocks (holds : c.Holds l) (several : 2 ≤ l.length) : c.numBlocks = (l.length + 2) / 3 := by
  cases holds with
  | null => simp at several
  | child => simp at several
  | children _ count _ => exact count

theorem flatMap_slots {blocks : List (Block T)} (count : blocks.length = (l.length + 2) / 3)
    (slots : ∀ (behind : Nat) (i : Fin 3), (blocks[behind]?.bind fun b => b i) = l[3 * behind + i.1]?) :
    (blocks.flatMap fun b => (List.ofFn b).reduceOption) = l := by
  induction blocks generalizing l with
  | nil =>
      have none : l.length = 0 := by
        rw [List.length_nil] at count
        omega
      rw [List.flatMap_nil, List.eq_nil_of_length_eq_zero none]
  | cons b rest ih =>
      have first : ∀ i : Fin 3, b i = l[i.1]? := fun i => by simpa using slots 0 i
      have isFirst : (List.ofFn b).reduceOption = l.take 3 := by
        rw [funext first]
        match l with
        | [] | [_] | [_, _] | _ :: _ :: _ :: _ => rfl
      rw [List.length_cons] at count
      rw [List.flatMap_cons, isFirst, ih (l := l.drop 3) (by rw [List.length_drop]; omega) fun behind i => ?_]
      · exact List.take_append_drop 3 l
      · rw [List.getElem?_drop, show 3 + (3 * behind + i.1) = 3 * (behind + 1) + i.1 by omega]
        exact slots (behind + 1) i

theorem toList (holds : c.Holds l) : c.toList = l := by
  cases holds with
  | null => rfl
  | child => rfl
  | children _ count slots => exact flatMap_slots (by rw [List.length_reverse, count]) slots

theorem read_child (holds : c.Holds l) (single : l.length = 1) : c.read .child = l[0]? := by
  cases holds with
  | null => rfl
  | child child => rfl
  | children several => omega

theorem read_event (holds : c.Holds l) (several : 2 ≤ l.length) (behind : Nat) (i : Fin 3) :
    c.read (.event behind i) = l[3 * behind + i.1]? := by
  cases holds with
  | null => simp at several
  | child => simp at several
  | children _ _ slots => exact slots behind i

theorem write_child (holds : c.Holds l) (single : l.length = 1) (x : T) :
    (c.write x .child).Holds (l.set 0 x) := by
  cases holds with
  | null => simp at single
  | child child => exact .child x
  | children several => omega

theorem write_event (holds : c.Holds l) (several : 2 ≤ l.length) (behind : Nat) (i : Fin 3)
    (inside : 3 * behind + i.1 < l.length) (x : T) :
    (c.write x (.event behind i)).Holds (l.set (3 * behind + i.1) x) := by
  cases holds with
  | null => simp at several
  | child => simp at several
  | @children blocks l _ count slots =>
      have sameLength : (l.set (3 * behind + i.1) x).length = l.length := List.length_set
      have isWritten : Holds ⟨(l.set (3 * behind + i.1) x).length, .children
          (blocks.reverse.modify behind fun b => Function.update b i (some x)).reverse⟩
          (l.set (3 * behind + i.1) x) := by
        refine .children (sameLength.symm ▸ several) ?_ fun behind' i' => ?_
        · rw [sameLength, List.length_reverse, List.length_modify, List.length_reverse, count]
        · rw [List.reverse_reverse, List.getElem?_modify, List.getElem?_set]
          by_cases sameBlock : behind = behind'
          · subst sameBlock
            have isBlock : behind < blocks.reverse.length := by
              rw [List.length_reverse, count]
              omega
            have here := slots behind i'
            rw [List.getElem?_eq_getElem isBlock] at here ⊢
            by_cases sameSlot : i' = i
            · subst sameSlot
              simp [inside]
            · have apart : ¬ 3 * behind + i.1 = 3 * behind + i'.1 := by
                intro same
                exact sameSlot (Fin.ext (by omega))
              rw [if_neg apart, ← here]
              simp [Function.update_of_ne sameSlot]
          · have apart : ¬ 3 * behind + i.1 = 3 * behind' + i'.1 := by omega
            rw [if_neg apart, ← slots behind' i']
            simp only [if_neg sameBlock, id_map']
      rw [sameLength] at isWritten
      exact isWritten

theorem getElem?_concat (l : List T) (x : T) (j : Nat) :
    (l ++ [x])[j]? = if j = l.length then some x else l[j]? := by
  rcases Nat.lt_trichotomy j l.length with lt | rfl | gt
  · rw [List.getElem?_append_left lt, if_neg (by omega)]
  · simp
  · rw [if_neg (by omega), List.getElem?_eq_none (by simp; omega), List.getElem?_eq_none (by omega)]

theorem addChild (holds : c.Holds l) (x : T) : (c.addChild x).Holds (l ++ [x]) := by
  cases holds with
  | null => exact .child x
  | child child =>
      refine .children (l := [child, x]) (Nat.le_refl 2) (by simp) fun behind i => ?_
      match behind, i with
      | 0, 0 | 0, 1 | 0, 2 | behind + 1, i => simp <;> omega
  | @children blocks l several count slots =>
      have length : (l ++ [x]).length = l.length + 1 := List.length_append
      have isAdded : ∀ (head : Block T) (rest : List (Block T)) (idx : Fin 3), idx.1 = l.length % 3 →
          rest.length = l.length / 3 →
          (∀ (behind : Nat) (i : Fin 3), 3 * behind + i.1 ≠ l.length →
            ((rest.reverse ++ [head])[behind]?.bind fun b => b i) = l[3 * behind + i.1]?) →
          Holds ⟨l.length + 1, .children (Function.update head idx (some x) :: rest)⟩ (l ++ [x]) := by
        intro head rest idx isIdx count others
        have isChildren : Holds ⟨(l ++ [x]).length, .children (Function.update head idx (some x) :: rest)⟩
            (l ++ [x]) := by
          refine .children (by omega) ?_ fun behind i => ?_
          · rw [List.length_cons, length]
            omega
          · rw [List.reverse_cons, getElem?_concat, getElem?_concat l]
            have other := others behind i
            rw [getElem?_concat] at other
            rw [List.length_reverse] at other ⊢
            by_cases isHead : behind = rest.length
            · rw [if_pos isHead] at other ⊢
              by_cases isSlot : i = idx
              · rw [isSlot, if_pos (by omega)]
                simp
              · have apart : 3 * behind + i.1 ≠ l.length := by
                  intro same
                  exact isSlot (Fin.ext (by omega))
                rw [if_neg apart, ← other apart]
                simp [Function.update_of_ne isSlot]
            · have apart : 3 * behind + i.1 ≠ l.length := by omega
              rw [if_neg apart, if_neg isHead, ← other apart, if_neg isHead]
        rw [length] at isChildren
        exact isChildren
      have notNone : l.length ≠ 0 := by omega
      by_cases newBlock : l.length % 3 = 0
      · have added : Children.addChild ⟨l.length, .children blocks⟩ x = ⟨l.length + 1, .children
            (Function.update Block.empty ⟨0, by decide⟩ (some x) :: blocks)⟩ := by
          unfold Children.addChild
          rw [if_neg notNone]
          simp only [newBlock, if_pos]
        rw [added]
        refine isAdded Block.empty blocks ⟨0, by decide⟩ newBlock.symm (by omega) fun behind i apart => ?_
        rw [getElem?_concat, ← slots behind i, List.length_reverse]
        by_cases isNew : behind = blocks.length
        · have beyond : blocks.reverse[behind]? = none :=
            List.getElem?_eq_none (by rw [List.length_reverse]; omega)
          rw [if_pos isNew, beyond]
          rfl
        · rw [if_neg isNew]
      · cases blocks with
        | nil =>
            rw [List.length_nil] at count
            omega
        | cons head rest =>
            rw [List.length_cons] at count
            have added : Children.addChild ⟨l.length, .children (head :: rest)⟩ x = ⟨l.length + 1, .children
                (Function.update head ⟨l.length % 3, Nat.mod_lt _ (by decide)⟩ (some x) :: rest)⟩ := by
              unfold Children.addChild
              rw [if_neg notNone]
              simp only [newBlock, if_false]
            rw [added]
            refine isAdded head rest ⟨l.length % 3, Nat.mod_lt _ (by decide)⟩ rfl (by omega) fun behind i _ => ?_
            rw [← List.reverse_cons]
            exact slots behind i

end Holds

end Children

end Zsim.Timing
