import Zsim.Crossing.Edges

/-!
# The walk

What one step of the walk does, where its cursors stand, and what every state of it keeps.
-/

set_option autoImplicit false

namespace Zsim.Crossing

open Zsim.Timing

namespace Cursor

/-- The index of the slot at the cursor. -/
def slot : Cursor → Option Nat
  | .child => some 0
  | .blocks (left + 1) i _ => if i < 3 then some (3 * left + i) else none
  | _ => none

/-- The cursor stands where it can be in a walk over `n` children; it has not visited more
of them than it has come past. -/
def Ok (n : Nat) : Cursor → Prop
  | .past => True
  | .child => n = 1
  | .blocks left i visitedChildren =>
    2 ≤ n ∧ i ≤ 3 ∧ 3 * left ≤ n + 2 ∧ 3 * left + i ≤ n + 3 ∧ (left = 0 → i = 0) ∧
      visitedChildren + min (3 * left) n ≤ n + i

/-- The slot is still to be visited. -/
def Ahead (j : Nat) : Cursor → Prop
  | .past => False
  | .child => j = 0
  | .blocks left i _ => j < 3 * left ∧ (3 * left ≤ j + 3 → 3 * left + i ≤ j + 3)

/-- All children the cursor has come past have been visited. -/
def Exact (n : Nat) : Cursor → Prop
  | .blocks left i visitedChildren => visitedChildren + min (3 * left) n = n + i
  | _ => True

/-- A child was added where the cursor had come past. -/
def Missed (n : Nat) : Cursor → Prop
  | .blocks left i visitedChildren => visitedChildren + min (3 * left) n < n + i
  | _ => False

variable {n j k : Nat} {cursor : Cursor}

theorem childPtr_blocks (left i visitedChildren : Nat) :
    (Cursor.blocks (left + 1) i visitedChildren).childPtr =
      if h : i < 3 then some (.event left ⟨i, h⟩) else none := rfl

theorem slot_blocks (left i visitedChildren : Nat) :
    (Cursor.blocks (left + 1) i visitedChildren).slot = if i < 3 then some (3 * left + i) else none := rfl

theorem of_slot_blocks {left i visitedChildren : Nat}
    (isSlot : (Cursor.blocks left i visitedChildren).slot = some j) :
    i < 3 ∧ 0 < left ∧ 3 * left + i = j + 3 := by
  cases left with
  | zero => cases isSlot
  | succ left =>
      rw [slot_blocks] at isSlot
      split at isSlot
      · next small =>
          have isJ := Option.some.inj isSlot
          omega
      · cases isSlot

theorem Ok.childPtr {l : List Nat} (ok : cursor.Ok l.length) {childPtr : ChildPtr}
    (isPtr : cursor.childPtr = some childPtr) : ∃ j, cursor.slot = some j ∧ childPtr.At l j := by
  cases cursor with
  | past => cases isPtr
  | child =>
      cases isPtr
      exact ⟨0, rfl, ok, rfl⟩
  | blocks left i visitedChildren =>
      cases left with
      | zero => cases isPtr
      | succ left =>
          rw [childPtr_blocks] at isPtr
          split at isPtr
          · next small =>
              cases isPtr
              exact ⟨3 * left + i, if_pos small, ok.1, rfl⟩
          · cases isPtr

/-! ## A child is visited -/

theorem Ok.advance (ok : cursor.Ok n) (isSlot : cursor.slot = some j) (lt : j < n) : cursor.advance.Ok n := by
  cases cursor with
  | past => trivial
  | child => trivial
  | blocks left i visitedChildren =>
      obtain ⟨small, notNull, isJ⟩ := of_slot_blocks isSlot
      obtain ⟨several, -, inside, -, -, atMost⟩ := ok
      exact ⟨several, by omega, inside, by omega, fun none => by omega, by omega⟩

theorem Ahead.advance (ahead : cursor.Ahead k) (isSlot : cursor.slot = some j) (ne : k ≠ j) :
    cursor.advance.Ahead k := by
  cases cursor with
  | past => cases isSlot
  | child =>
      cases isSlot
      exact absurd ahead ne
  | blocks left i visitedChildren =>
      obtain ⟨small, notNull, isJ⟩ := of_slot_blocks isSlot
      obtain ⟨lt, later⟩ := ahead
      exact ⟨lt, fun here => by omega⟩

theorem Exact.advance (exact' : cursor.Exact n) : cursor.advance.Exact n := by
  cases cursor with
  | past => trivial
  | child => trivial
  | blocks left i visitedChildren =>
      have same : visitedChildren + min (3 * left) n = n + i := exact'
      change visitedChildren + 1 + min (3 * left) n = n + (i + 1)
      omega

theorem Missed.advance (missed : cursor.Missed n) : cursor.advance.Missed n := by
  cases cursor with
  | past => exact missed
  | child => exact missed
  | blocks left i visitedChildren =>
      have less : visitedChildren + min (3 * left) n < n + i := missed
      change visitedChildren + 1 + min (3 * left) n < n + (i + 1)
      omega

theorem advance_ne_child (cursor : Cursor) : cursor.advance ≠ .child := by
  cases cursor <;> simp [Cursor.advance]

/-! ## The events of a block are done -/

variable {left i visitedChildren : Nat}

theorem Ok.nextBlock (ok : Ok n (.blocks (left + 1) i visitedChildren)) :
    Ok n (.blocks left 0 visitedChildren) := by
  obtain ⟨several, small, inside, near, -, atMost⟩ := ok
  exact ⟨several, by omega, by omega, by omega, fun _ => rfl, by omega⟩

theorem Ahead.nextBlock (ahead : Ahead k (.blocks (left + 1) i visitedChildren))
    (done : i = 3 ∨ n = 3 * left + i) (lt : k < n) : Ahead k (.blocks left 0 visitedChildren) := by
  obtain ⟨before, later⟩ := ahead
  refine ⟨?_, fun here => ?_⟩ <;> omega

theorem Ahead.not_done {cursor : Cursor} (ahead : cursor.Ahead k) :
    ¬ (cursor = .past ∨ cursor = .blocks 0 0 n) := by
  rintro (rfl | rfl)
  · exact ahead
  · have before := ahead.1
    omega

theorem Exact.nextBlock (ok : Ok n (.blocks (left + 1) i visitedChildren))
    (exact' : Exact n (.blocks (left + 1) i visitedChildren)) (done : i = 3 ∨ n = 3 * left + i) :
    Exact n (.blocks left 0 visitedChildren) := by
  obtain ⟨-, small, -, near, -, -⟩ := ok
  have same : visitedChildren + min (3 * (left + 1)) n = n + i := exact'
  change visitedChildren + min (3 * left) n = n + 0
  omega

theorem Missed.nextBlock (ok : Ok n (.blocks (left + 1) i visitedChildren))
    (missed : Missed n (.blocks (left + 1) i visitedChildren)) : Missed n (.blocks left 0 visitedChildren) := by
  obtain ⟨-, small, -, near, -, -⟩ := ok
  have less : visitedChildren + min (3 * (left + 1)) n < n + i := missed
  change visitedChildren + min (3 * left) n < n + 0
  omega

/-! ## A child is added -/

theorem Ok.mono (ok : cursor.Ok n) (notChild : cursor ≠ .child) : cursor.Ok (n + 1) := by
  cases cursor with
  | past => trivial
  | child => exact absurd rfl notChild
  | blocks left i visitedChildren =>
      obtain ⟨several, small, inside, near, none, atMost⟩ := ok
      exact ⟨by omega, small, by omega, by omega, none, by omega⟩

theorem Missed.mono (missed : cursor.Missed n) : cursor.Missed (n + 1) := by
  cases cursor with
  | past => exact missed
  | child => exact missed
  | blocks left i visitedChildren =>
      have less : visitedChildren + min (3 * left) n < n + i := missed
      change visitedChildren + min (3 * left) (n + 1) < n + 1 + i
      omega

/-- The newest block has room, and a walk over several children has not left it. -/
def HasRoom (n : Nat) : Cursor → Prop
  | .blocks left _ _ => n < 3 * left
  | _ => True

theorem Exact.grow (exact' : cursor.Exact n) (room : cursor.HasRoom n) : cursor.Exact (n + 1) := by
  cases cursor with
  | past => trivial
  | child => trivial
  | blocks left i visitedChildren =>
      have same : visitedChildren + min (3 * left) n = n + i := exact'
      have lt : n < 3 * left := room
      change visitedChildren + min (3 * left) (n + 1) = n + 1 + i
      omega

theorem Ok.missed (ok : cursor.Ok n) (noRoom : ¬ cursor.HasRoom n) : cursor.Missed (n + 1) := by
  cases cursor with
  | past => exact absurd trivial noRoom
  | child => exact absurd trivial noRoom
  | blocks left i visitedChildren =>
      have le : 3 * left ≤ n := Nat.not_lt.mp noRoom
      obtain ⟨-, -, -, -, -, atMost⟩ := ok
      change visitedChildren + min (3 * left) (n + 1) < n + 1 + i
      omega

end Cursor

/-! ## One step -/

variable {ph : Phase}

/-- The event of a frame is there, and its cursor stands where it can be. -/
structure Sim.Stands (s : Sim) (f : Frame) : Prop where
  isEvent : ∃ e, s.events f.id = some e
  ok : f.cursor.Ok (s.children f.id).length

theorem Sim.Ok.enter {s : Sim} (ok : s.Ok ph) {id : Nat} {e : Event} (isEvent : s.events id = some e) :
    ∃ f, s.enter id = some f ∧ f.id = id ∧ s.Stands f ∧ f.cursor.Exact (s.children id).length ∧
      ∀ j < (s.children id).length, f.cursor.Ahead j := by
  have holds := ok.holds id e isEvent
  rw [Sim.children_of_event isEvent]
  have entered : ∀ cursor : Cursor, s.enter id = some ⟨id, cursor⟩ → cursor.Ok e.children.toList.length →
      cursor.Exact e.children.toList.length → (∀ j < e.children.toList.length, cursor.Ahead j) →
      ∃ f, s.enter id = some f ∧ f.id = id ∧ s.Stands f ∧ f.cursor.Exact e.children.toList.length ∧
        ∀ j < e.children.toList.length, f.cursor.Ahead j := by
    intro cursor isFrame ok exact' ahead
    exact ⟨⟨id, cursor⟩, isFrame, rfl, ⟨⟨e, isEvent⟩, by rw [Sim.children_of_event isEvent]; exact ok⟩,
      exact', ahead⟩
  unfold Sim.enter at entered ⊢
  rw [isEvent] at entered ⊢
  simp only [Option.bind_eq_bind, Option.bind_some, holds.numChildren] at entered ⊢
  by_cases none : e.children.toList.length = 0
  · rw [if_pos none] at entered ⊢
    exact entered .past rfl trivial trivial fun j lt => by omega
  · by_cases single : e.children.toList.length = 1
    · rw [if_neg none, if_pos single] at entered ⊢
      exact entered .child rfl single trivial fun j lt => show j = 0 by omega
    · rw [if_neg none, if_neg single] at entered ⊢
      have several : 2 ≤ e.children.toList.length := by omega
      rw [holds.numBlocks several] at entered ⊢
      refine entered _ rfl ⟨several, ?_, ?_, ?_, ?_, ?_⟩ ?_ fun j lt => ⟨?_, fun _ => ?_⟩
      all_goals try change 0 + min _ _ = _
      all_goals omega

theorem Sim.Ok.entered {s : Sim} (ok : s.Ok ph) {id : Nat} {f : Frame} (isFrame : s.enter id = some f) :
    f.id = id ∧ s.Stands f ∧ f.cursor.Exact (s.children id).length ∧
      ∀ j < (s.children id).length, f.cursor.Ahead j := by
  cases isEvent : s.events id with
  | none =>
      unfold Sim.enter at isFrame
      rw [isEvent] at isFrame
      cases isFrame
  | some e =>
      obtain ⟨f', isFrame', spec⟩ := ok.enter isEvent
      cases Option.some.inj (isFrame.symm.trans isFrame')
      exact spec

/-- What a step of the walk makes of a state with the frame `f` on top. -/
inductive Walk.Next (ph : Phase) (s : Sim) (f : Frame) (rest : List Frame) : Option Walk → Prop
  /-- the number of visited children is wrong -/
  | fails (visitedChildren : Nat) (isCursor : f.cursor = .blocks 0 0 visitedChildren)
      (wrong : visitedChildren ≠ (s.children f.id).length) : Next ph s f rest none
  | returns (isCursor : f.cursor = .past ∨ f.cursor = .blocks 0 0 (s.children f.id).length) :
      Next ph s f rest (some ⟨s, rest⟩)
  | nextBlock (left i visitedChildren : Nat) (isCursor : f.cursor = .blocks (left + 1) i visitedChildren)
      (done : i = 3 ∨ (s.children f.id).length = 3 * left + i) :
      Next ph s f rest (some ⟨s, ⟨f.id, .blocks left 0 visitedChildren⟩ :: rest⟩)
  /-- an edge inside a domain -/
  | visit (j c : Nat) (g : Frame) (isSlot : f.cursor.slot = some j) (edge : s.Edge f.id j c)
      (same : s.domain c = s.domain f.id) (isNew : s.enter c = some g) :
      Next ph s f rest (some ⟨s, g :: ⟨f.id, f.cursor.advance⟩ :: rest⟩)
  /-- an edge between two domains -/
  | crossing (s' : Sim) (p child : Event) (childPtr : ChildPtr) (j c : Nat) (g : Frame)
      (isSlot : f.cursor.slot = some j) (between : s.Between f.id p childPtr j c child)
      (linked : Sim.Linked ph s s' f.id p childPtr c child) (isNew : s'.enter c = some g) :
      Next ph s f rest (some ⟨s', g :: ⟨f.id, f.cursor.advance⟩ :: rest⟩)

theorem Walk.visit_spec {s : Sim} {f : Frame} {rest : List Frame} (ok : s.Ok ph)
    (clocks : ∀ d, ph.curCycle d ≤ ph.lastLimit) {e : Event} (isEvent : s.events f.id = some e)
    {childPtr : ChildPtr} {j c : Nat} (isSlot : f.cursor.slot = some j)
    (at' : childPtr.At e.children.toList j) (edge : s.Edge f.id j c) :
    Next ph s f rest (do
      let s' ← s.link ph f.id childPtr c
      let g ← s'.enter c
      some ⟨s', g :: ⟨f.id, f.cursor.advance⟩ :: rest⟩) := by
  obtain ⟨child, isChild, -⟩ := ok.closed f.id j c edge
  by_cases same : child.domain = e.domain
  · have isLinked : s.link ph f.id childPtr c = some s := by
      unfold Sim.link
      simp [isEvent, isChild, same]
    obtain ⟨g, isNew, -⟩ := ok.enter isChild
    rw [isLinked]
    simp only [Option.bind_eq_bind, Option.bind_some, isNew]
    refine .visit j c g isSlot edge ?_ isNew
    rw [Sim.domain_of_event isChild, Sim.domain_of_event isEvent, same]
  · have between : s.Between f.id e childPtr j c child := ⟨isEvent, isChild, edge, at', same⟩
    obtain ⟨s', isLinked, linked⟩ := ok.link clocks between
    obtain ⟨g, isNew, -⟩ := (linked.ok ok between).enter (linked.event ok isChild)
    rw [isLinked]
    simp only [Option.bind_eq_bind, Option.bind_some, isNew]
    exact .crossing s' e child childPtr j c g isSlot between linked isNew

theorem Walk.step_spec (s : Sim) {f : Frame} (rest : List Frame) (ok : s.Ok ph)
    (clocks : ∀ d, ph.curCycle d ≤ ph.lastLimit) (stands : s.Stands f) :
    Next ph s f rest (Walk.step ph ⟨s, f :: rest⟩) := by
  obtain ⟨e, isEvent⟩ := stands.isEvent
  have holds := ok.holds f.id e isEvent
  have cursorOk := stands.ok
  have isList := Sim.children_of_event isEvent
  rw [isList] at cursorOk
  -- the child that the slot at the cursor holds, if there is one
  have atSlot : ∀ childPtr, f.cursor.childPtr = some childPtr → ∃ j, f.cursor.slot = some j ∧
      childPtr.At e.children.toList j ∧ e.children.read childPtr = (s.children f.id)[j]? := by
    intro childPtr isPtr
    obtain ⟨j, isSlot, at'⟩ := cursorOk.childPtr isPtr
    exact ⟨j, isSlot, at', isList ▸ holds.read at'⟩
  have visits : ∀ childPtr c, f.cursor.childPtr = some childPtr → e.children.read childPtr = some c →
      Next ph s f rest (do
        let s' ← s.link ph f.id childPtr c
        let g ← s'.enter c
        some ⟨s', g :: ⟨f.id, f.cursor.advance⟩ :: rest⟩) := by
    intro childPtr c isPtr isChild
    obtain ⟨j, isSlot, at', isRead⟩ := atSlot childPtr isPtr
    exact visit_spec ok clocks isEvent isSlot at' (isRead.symm.trans isChild)
  obtain ⟨id, cursor⟩ := f
  unfold Walk.step
  simp only [isEvent, Option.bind_eq_bind, Option.bind_some]
  cases cursor with
  | past => exact .returns (.inl rfl)
  | child =>
      obtain ⟨j, isSlot, at', isRead⟩ := atSlot .child rfl
      have single : e.children.toList.length = 1 := cursorOk
      cases isSlot
      have isChild : ∃ c, e.children.read .child = some c := by
        rw [isRead, isList]
        exact ⟨_, List.getElem?_eq_getElem (show 0 < e.children.toList.length by omega)⟩
      obtain ⟨c, isChild⟩ := isChild
      simp only [Cursor.childPtr, Option.bind_some, isChild]
      exact visits .child c rfl isChild
  | blocks left i visitedChildren =>
      cases left with
      | zero =>
          have isFirst : i = 0 := cursorOk.2.2.2.2.1 rfl
          subst isFirst
          change Next ph s _ rest (if visitedChildren = e.children.numChildren then some ⟨s, rest⟩ else none)
          rw [holds.numChildren]
          by_cases same : visitedChildren = e.children.toList.length
          · rw [if_pos same]
            exact .returns (.inr (by rw [isList, same]))
          · rw [if_neg same]
            exact .fails visitedChildren rfl (by rw [isList]; exact same)
      | succ left =>
          have near : 3 * (left + 1) + i ≤ e.children.toList.length + 3 := cursorOk.2.2.2.1
          cases isPtr : (Cursor.blocks (left + 1) i visitedChildren).childPtr with
          | none =>
              have small : i ≤ 3 := cursorOk.2.1
              have done : i = 3 := by
                have isPtr := isPtr
                rw [Cursor.childPtr_blocks] at isPtr
                split at isPtr
                · cases isPtr
                · omega
              simp only [isPtr, Option.bind_none]
              exact .nextBlock left i visitedChildren rfl (.inl done)
          | some childPtr =>
              obtain ⟨j, isSlot, -, isRead⟩ := atSlot childPtr isPtr
              cases isChild : e.children.read childPtr with
              | none =>
                  obtain ⟨-, -, isJ⟩ := Cursor.of_slot_blocks isSlot
                  have beyond : e.children.toList.length ≤ j := by
                    rw [isChild, isList] at isRead
                    exact List.getElem?_eq_none_iff.mp isRead.symm
                  simp only [isPtr, Option.bind_some, isChild]
                  exact .nextBlock left i visitedChildren rfl (.inr (by rw [isList]; omega))
              | some c =>
                  simp only [isPtr, Option.bind_some, isChild]
                  exact visits childPtr c isPtr isChild

end Zsim.Crossing
