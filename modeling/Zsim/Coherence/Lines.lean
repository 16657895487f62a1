import Mathlib.Data.List.Infix
import Zsim.Coherence.Directory

/-!
# One line in a tree of caches

A line gives every cache a state and a directory entry.  An invalidation demotes all the
caches of a subtree; the line stays coherent when the caches above take it into account.
-/

set_option autoImplicit false

namespace Zsim.Coherence

/-- The root is `[]`, child `c` of `p` is `c :: p`. -/
abbrev Node := List Nat

namespace Node

theorem suffix_iff (n m : Node) : n <:+ m ↔ m = n ∨ ∃ c, (c :: n) <:+ m := by
  constructor
  · rintro ⟨path, rfl⟩
    induction path using List.reverseRecOn with
    | nil => exact .inl rfl
    | append_singleton path c _ => exact .inr ⟨c, path, by simp⟩
  · rintro (rfl | ⟨c, below⟩)
    · exact List.suffix_refl m
    · exact (List.suffix_cons c n).trans below

theorem child_unique {n m : Node} {c d : Nat} (below : (c :: n) <:+ m) (other : (d :: n) <:+ m) :
    c = d := by
  have within : (c :: n) <:+ (d :: n) := List.suffix_of_suffix_length_le below other (by simp)
  exact (List.cons.inj (within.eq_of_length (by simp))).1

theorem not_child_suffix (c : Nat) (n : Node) : ¬ (c :: n) <:+ n := fun below => by
  have := below.length_le
  rw [List.length_cons] at this
  omega

end Node

structure Line where
  st : Node → MESIState
  ent : Node → Entry

namespace Line

def Coherent (kids : Node → Nat) (l : Line) : Prop :=
  ∀ p, EntryInv (kids p) (l.st p) (l.ent p) fun c => l.st (c :: p)

/-- The same in the subtree of `n`. -/
def CoherentBelow (kids : Node → Nat) (n : Node) (l : Line) : Prop :=
  ∀ p, n <:+ p → EntryInv (kids p) (l.st p) (l.ent p) fun c => l.st (c :: p)

def setSt (l : Line) (n : Node) (state : MESIState) : Line :=
  { l with st := Function.update l.st n state }

def setEnt (l : Line) (n : Node) (e : Entry) : Line :=
  { l with ent := Function.update l.ent n e }

@[simp] theorem setSt_ent (l : Line) (n : Node) (state : MESIState) : (l.setSt n state).ent = l.ent := rfl
@[simp] theorem setEnt_st (l : Line) (n : Node) (e : Entry) : (l.setEnt n e).st = l.st := rfl
@[simp] theorem setSt_st (l : Line) (n : Node) (state : MESIState) :
    (l.setSt n state).st = Function.update l.st n state := rfl
@[simp] theorem setEnt_ent (l : Line) (n : Node) (e : Entry) :
    (l.setEnt n e).ent = Function.update l.ent n e := rfl

/-- An invalidation of the subtree of `n`. -/
def demote (type : InvType) (n : Node) (l : Line) : Line where
  st m := if n <:+ m then (l.st m).demote type else l.st m
  ent m := if n <:+ m then (l.ent m).demote type else l.ent m

open scoped Classical in
/-- An invalidation of the subtrees of the chosen children of `n`. -/
noncomputable def demoteKids (type : InvType) (n : Node) (chosen : Nat → Prop) (l : Line) : Line where
  st m := if ∃ c, chosen c ∧ (c :: n) <:+ m then (l.st m).demote type else l.st m
  ent m := if ∃ c, chosen c ∧ (c :: n) <:+ m then (l.ent m).demote type else l.ent m

variable {kids : Node → Nat} {l : Line} {type : InvType} {n m : Node} {chosen : Nat → Prop}

theorem Coherent.below (coherent : Coherent kids l) (n : Node) : CoherentBelow kids n l :=
  fun p _ => coherent p

theorem CoherentBelow.child (coherent : CoherentBelow kids n l) (c : Nat) :
    CoherentBelow kids (c :: n) l :=
  fun p below => coherent p ((List.suffix_cons c n).trans below)

theorem CoherentBelow.induction (coherent : CoherentBelow kids n l) (Holds : MESIState → Prop)
    (down : ∀ p, n <:+ p → ∀ c, Holds (l.st p) → Holds (l.st (c :: p))) (here : Holds (l.st n))
    (below : n <:+ m) : Holds (l.st m) := by
  induction m with
  | nil => exact List.suffix_nil.mp below ▸ here
  | cons c p ih =>
      rcases List.suffix_cons_iff.mp below with rfl | above
      · exact here
      · exact down p above c (ih above)

theorem CoherentBelow.invalid (coherent : CoherentBelow kids n l) (invalid : l.st n = .I)
    (below : n <:+ m) : l.st m = .I :=
  coherent.induction (fun state => state = .I)
    (fun p above c invalid => by
      by_contra valid
      exact (coherent p above).inclusive c valid invalid) invalid below

theorem CoherentBelow.shared (coherent : CoherentBelow kids n l)
    (shared : (l.st n).isExclusive = false) (below : n <:+ m) : (l.st m).isExclusive = false :=
  coherent.induction (fun state => state.isExclusive = false)
    (fun p above c shared => by
      cases excl : (l.st (c :: p)).isExclusive with
      | false => rfl
      | true => rw [(coherent p above).ownExclusive c excl] at shared; cases shared) shared below

theorem CoherentBelow.demote_of_invalid (coherent : CoherentBelow kids n l) (invalid : l.st n = .I)
    (type : InvType) (below : n <:+ m) :
    (l.st m).demote type = l.st m ∧ (l.ent m).demote type = l.ent m := by
  have child (c : Nat) : l.st (c :: m) = .I :=
    coherent.invalid invalid (below.trans (List.suffix_cons c m))
  exact ⟨by rw [coherent.invalid invalid below, MESIState.demote_I],
    ((coherent m below).empty_of_invalid child).demote type⟩

theorem CoherentBelow.demote_of_shared (coherent : CoherentBelow kids n l)
    (shared : (l.st n).isExclusive = false) (below : n <:+ m) :
    (l.st m).demote .INVX = l.st m ∧ (l.ent m).demote .INVX = l.ent m := by
  refine ⟨MESIState.demote_INVX_of_shared (coherent.shared shared below), ?_⟩
  apply Entry.demote_INVX_of_shared
  cases excl : (l.ent m).isExclusive with
  | false => rfl
  | true =>
      have flag := Entry.isExclusive_iff.mp excl
      have entry := coherent m below
      have positive : 0 < countIn (Finset.range (kids m)) (l.ent m).sharers (· = true) := by
        rw [← entry.count, flag.1]
        decide
      obtain ⟨c, -, sharer⟩ := countIn_pos_iff _ _ _ |>.mp positive
      have childExcl := entry.exclusive flag.2 c ((entry.exact c).mp sharer)
      rw [coherent.shared shared (below.trans (List.suffix_cons c m))] at childExcl
      cases childExcl

/-! ## demoteKids -/

theorem demoteKids_of (l : Line) (type : InvType) {c : Nat} (isChosen : chosen c) (below : (c :: n) <:+ m) :
    (l.demoteKids type n chosen).st m = (l.st m).demote type ∧
      (l.demoteKids type n chosen).ent m = (l.ent m).demote type :=
  ⟨if_pos ⟨c, isChosen, below⟩, if_pos ⟨c, isChosen, below⟩⟩

theorem demoteKids_not (l : Line) (type : InvType) (spared : ∀ c, chosen c → ¬ (c :: n) <:+ m) :
    (l.demoteKids type n chosen).st m = l.st m ∧ (l.demoteKids type n chosen).ent m = l.ent m := by
  have none : ¬ ∃ c, chosen c ∧ (c :: n) <:+ m := fun ⟨c, isChosen, below⟩ => spared c isChosen below
  exact ⟨if_neg none, if_neg none⟩

theorem eq_of_nodes {l next : Line} (same : ∀ m, l.st m = next.st m ∧ l.ent m = next.ent m) :
    l = next := by
  cases l
  cases next
  congr 1
  · exact funext fun m => (same m).1
  · exact funext fun m => (same m).2

theorem demoteKids_none (none : ∀ c, ¬ chosen c) : l.demoteKids type n chosen = l :=
  eq_of_nodes fun _ => demoteKids_not l _ fun c isChosen => absurd isChosen (none c)

theorem demoteKids_of_shared (coherent : CoherentBelow kids n l)
    (shared : ∀ c, chosen c → (l.st (c :: n)).isExclusive = false) :
    l.demoteKids .INVX n chosen = l := by
  refine eq_of_nodes fun m => ?_
  by_cases below : ∃ c, chosen c ∧ (c :: n) <:+ m
  · obtain ⟨c, isChosen, below⟩ := below
    obtain ⟨st, ent⟩ := demoteKids_of l .INVX isChosen below
    obtain ⟨sameSt, sameEnt⟩ := (coherent.child c).demote_of_shared (shared c isChosen) below
    exact ⟨st.trans sameSt, ent.trans sameEnt⟩
  · exact demoteKids_not l _ fun c isChosen under => below ⟨c, isChosen, under⟩

theorem demoteKids_self : (l.demoteKids type n chosen).st n = l.st n ∧
    (l.demoteKids type n chosen).ent n = l.ent n :=
  demoteKids_not l _ fun c _ => Node.not_child_suffix c n

theorem demoteKids_spared (l : Line) (type : InvType) {d : Nat} (spared : ¬ chosen d) (below : (d :: n) <:+ m) :
    (l.demoteKids type n chosen).st m = l.st m ∧ (l.demoteKids type n chosen).ent m = l.ent m :=
  demoteKids_not l _ fun _ isChosen other => spared (Node.child_unique below other ▸ isChosen)

theorem CoherentBelow.demoteKids_spared {d : Nat} (coherent : CoherentBelow kids (d :: n) l)
    (type : InvType) (spared : ¬ chosen d) :
    CoherentBelow kids (d :: n) (l.demoteKids type n chosen) := by
  intro p below
  obtain ⟨st, ent⟩ := Line.demoteKids_spared l type spared below
  have child : (fun c => (l.demoteKids type n chosen).st (c :: p)) = fun c => l.st (c :: p) :=
    funext fun c => (Line.demoteKids_spared l type spared (below.trans (List.suffix_cons c p))).1
  rw [st, ent, child]
  exact coherent p below

/-- One more child of `n`. -/
theorem demoteKids_demote {next : Nat → Prop} {k : Nat} (fresh : ¬ chosen k)
    (more : ∀ c, next c ↔ chosen c ∨ c = k) :
    (l.demoteKids type n chosen).demote type (k :: n) = l.demoteKids type n next := by
  refine eq_of_nodes fun m => ?_
  by_cases below : (k :: n) <:+ m
  · obtain ⟨st, ent⟩ := demoteKids_of l type ((more k).mpr (.inr rfl)) below
    obtain ⟨sameSt, sameEnt⟩ := demoteKids_spared l type fresh below
    unfold demote
    dsimp only
    rw [if_pos below, if_pos below, st, ent, sameSt, sameEnt]
    exact ⟨rfl, rfl⟩
  · unfold demote
    dsimp only
    rw [if_neg below, if_neg below]
    by_cases earlier : ∃ c, chosen c ∧ (c :: n) <:+ m
    · obtain ⟨c, isChosen, under⟩ := earlier
      obtain ⟨st, ent⟩ := demoteKids_of l type isChosen under
      obtain ⟨st', ent'⟩ := demoteKids_of l type ((more c).mpr (.inl isChosen)) under
      exact ⟨st.trans st'.symm, ent.trans ent'.symm⟩
    · obtain ⟨st, ent⟩ := demoteKids_not l type (n := n) (m := m)
        fun c isChosen under => earlier ⟨c, isChosen, under⟩
      obtain ⟨st', ent'⟩ := demoteKids_not l type (n := n) (m := m)
        fun c isNext under => by
          rcases (more c).mp isNext with isChosen | rfl
          · exact earlier ⟨c, isChosen, under⟩
          · exact below under
      exact ⟨st.trans st'.symm, ent.trans ent'.symm⟩

/-- When every child that holds the line is chosen, only `n` itself is left. -/
theorem demoteKids_node (coherent : CoherentBelow kids n l)
    (all : ∀ c, ¬ chosen c → l.st (c :: n) = .I) :
    ((l.demoteKids type n chosen).setEnt n ((l.ent n).demote type)).setSt n ((l.st n).demote type) =
      l.demote type n := by
  refine eq_of_nodes fun m => ?_
  rw [setSt_st, setSt_ent, setEnt_st, setEnt_ent]
  by_cases here : m = n
  · subst here
    rw [Function.update_self, Function.update_self]
    exact ⟨(if_pos (List.suffix_refl m)).symm, (if_pos (List.suffix_refl m)).symm⟩
  · rw [Function.update_of_ne here, Function.update_of_ne here]
    by_cases below : n <:+ m
    · obtain ⟨c, under⟩ := ((Node.suffix_iff n m).mp below).resolve_left here
      have demoted : (l.demote type n).st m = (l.st m).demote type ∧
          (l.demote type n).ent m = (l.ent m).demote type := ⟨if_pos below, if_pos below⟩
      rw [demoted.1, demoted.2]
      by_cases isChosen : chosen c
      · exact demoteKids_of l type isChosen under
      · obtain ⟨st, ent⟩ := demoteKids_spared l type isChosen under
        obtain ⟨sameSt, sameEnt⟩ := (coherent.child c).demote_of_invalid (all c isChosen) type under
        exact ⟨st.trans sameSt.symm, ent.trans sameEnt.symm⟩
    · have same : (l.demote type n).st m = l.st m ∧ (l.demote type n).ent m = l.ent m :=
        ⟨if_neg below, if_neg below⟩
      rw [same.1, same.2]
      exact demoteKids_not l _ fun c _ under => below ((List.suffix_cons c n).trans under)

/-! ## What keeps a line coherent -/

theorem entryInv_demoteKids {q : Node} (other : q ≠ n)
    (entry : EntryInv (kids q) (l.st q) (l.ent q) fun c => l.st (c :: q)) :
    EntryInv (kids q) ((l.demoteKids type n chosen).st q) ((l.demoteKids type n chosen).ent q)
      fun c => (l.demoteKids type n chosen).st (c :: q) := by
  by_cases below : ∃ c, chosen c ∧ (c :: n) <:+ q
  · obtain ⟨c, isChosen, under⟩ := below
    obtain ⟨st, ent⟩ := demoteKids_of l type isChosen under
    have child : (fun d => (l.demoteKids type n chosen).st (d :: q)) =
        fun d => (l.st (d :: q)).demote type :=
      funext fun d => (demoteKids_of l type isChosen (under.trans (List.suffix_cons d q))).1
    rw [st, ent, child]
    exact entry.demote type
  · have spared (c : Nat) (isChosen : chosen c) : ¬ (c :: n) <:+ q := fun under =>
      below ⟨c, isChosen, under⟩
    obtain ⟨st, ent⟩ := demoteKids_not l type spared
    have child : (fun d => (l.demoteKids type n chosen).st (d :: q)) = fun d => l.st (d :: q) := by
      funext d
      refine (demoteKids_not l type fun c isChosen under => ?_).1
      rcases List.suffix_cons_iff.mp under with same | above
      · exact other (List.cons.inj same).2.symm
      · exact spared c isChosen above
    rw [st, ent, child]
    exact entry

/-- A new entry at `n` and a new state in its child `c` keep the line coherent when they
suit each other and what is below `c`. -/
theorem Coherent.serve {l : Line} {c : Nat} {e : Entry} {given : MESIState}
    (off : ∀ q, q ≠ n → EntryInv (kids q) (l.st q) (l.ent q) fun d => l.st (d :: q))
    (entry : EntryInv (kids n) (l.st n) e (Function.update (fun d => l.st (d :: n)) c given))
    (below : EntryInv (kids (c :: n)) given (l.ent (c :: n)) fun d => l.st (d :: c :: n)) :
    Coherent kids ((l.setEnt n e).setSt (c :: n) given) := by
  intro q
  rw [setSt_st, setSt_ent, setEnt_st, setEnt_ent]
  have notSelf : n ≠ c :: n := fun h => Node.not_child_suffix c n (h ▸ List.suffix_refl n)
  by_cases here : q = n
  · subst here
    rw [Function.update_self, Function.update_of_ne notSelf]
    have child : (fun d => Function.update l.st (c :: q) given (d :: q)) =
        Function.update (fun d => l.st (d :: q)) c given := by
      funext d
      by_cases isC : d = c
      · rw [isC, Function.update_self, Function.update_self]
      · have apart : d :: q ≠ c :: q := fun h => isC (List.cons.inj h).1
        rw [Function.update_of_ne isC, Function.update_of_ne apart]
    rw [child]
    exact entry
  · have apart (d : Nat) : d :: q ≠ c :: n := fun h => here (List.cons.inj h).2
    have child : (fun d => Function.update l.st (c :: n) given (d :: q)) = fun d => l.st (d :: q) :=
      funext fun d => Function.update_of_ne (apart d) ..
    rw [child, Function.update_of_ne here]
    by_cases isC : q = c :: n
    · subst isC
      rw [Function.update_self]
      exact below
    · rw [Function.update_of_ne isC]
      exact off q here

/-- A new entry at `n` alone. -/
theorem Coherent.setEnt {l : Line} {e : Entry}
    (off : ∀ q, q ≠ n → EntryInv (kids q) (l.st q) (l.ent q) fun d => l.st (d :: q))
    (entry : EntryInv (kids n) (l.st n) e fun d => l.st (d :: n)) : Coherent kids (l.setEnt n e) := by
  intro q
  rw [setEnt_st, setEnt_ent]
  by_cases here : q = n
  · subst here
    rw [Function.update_self]
    exact entry
  · rw [Function.update_of_ne here]
    exact off q here

theorem Coherent.modify (coherent : Coherent kids l) (excl : (l.st n).isExclusive = true) :
    Coherent kids (l.setSt n .M) := by
  intro q
  rw [setSt_st, setSt_ent]
  have valid {m : Node} : Function.update l.st n .M m = .I ↔ l.st m = .I := by
    by_cases here : m = n
    · rw [here, Function.update_self]
      exact iff_of_false (by decide) (MESIState.ne_I_of_isExclusive excl)
    · rw [Function.update_of_ne here]
  have exclusive {m : Node} :
      (Function.update l.st n .M m).isExclusive = (l.st m).isExclusive := by
    by_cases here : m = n
    · rw [here, Function.update_self, excl]
      rfl
    · rw [Function.update_of_ne here]
  exact (coherent q).congr valid exclusive (fun _ => valid) fun _ => exclusive

end Line

end Zsim.Coherence
