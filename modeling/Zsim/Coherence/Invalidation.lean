import Zsim.Coherence.Hierarchy

/-!
# Invalidations in the tree

What the caches say of a line is a `Line`; the operations touch the cells of one line
only.  An invalidation demotes the line in a subtree and tells whether a cache of the
subtree had it dirty.
-/

set_option autoImplicit false

namespace Zsim.Coherence.Hierarchy

variable {h : Hierarchy}

namespace Sys

/-- The line id of an address in a cache. -/
def find (sys : Sys h) (n : Node) (a : Address) : Option Nat :=
  ((h.array n).lookup (sys.array n) a).join

/-- The line of an address; where the array does not find it, it is invalid. -/
def line (sys : Sys h) (a : Address) : Line where
  st n := (sys.find n a).elim .I (sys.mesi n)
  ent n := (sys.find n a).elim .clear (sys.dir n)

theorem find_eq_some {sys : Sys h} {n : Node} {a : Address} {id : Nat} :
    sys.find n a = some id ↔ (h.array n).lookup (sys.array n) a = some (some id) :=
  Option.join_eq_some_iff

theorem line_st {sys : Sys h} {n : Node} {a : Address} {id : Nat} (found : sys.find n a = some id) :
    (sys.line a).st n = sys.mesi n id := by
  dsimp only [line]
  rw [found]
  rfl

theorem line_ent {sys : Sys h} {n : Node} {a : Address} {id : Nat} (found : sys.find n a = some id) :
    (sys.line a).ent n = sys.dir n id := by
  dsimp only [line]
  rw [found]
  rfl

theorem find_of_valid {sys : Sys h} {n : Node} {a : Address} (valid : (sys.line a).st n ≠ .I) :
    ∃ id, sys.find n a = some id := by
  cases found : sys.find n a with
  | some id => exact ⟨id, rfl⟩
  | none =>
      dsimp only [line] at valid
      rw [found] at valid
      exact absurd rfl valid

@[simp] theorem find_setMesi (sys : Sys h) (m : Node) (id : Nat) (state : MESIState) :
    (sys.setMesi m id state).find = sys.find := rfl
@[simp] theorem find_setDir (sys : Sys h) (m : Node) (id : Nat) (e : Entry) :
    (sys.setDir m id e).find = sys.find := rfl

theorem line_setMesi {sys : Sys h} {n : Node} {a : Address} {id : Nat}
    (found : sys.find n a = some id) (state : MESIState) :
    (sys.setMesi n id state).line a = (sys.line a).setSt n state := by
  refine Line.eq_of_nodes fun m => ⟨?_, rfl⟩
  rw [Line.setSt_st]
  dsimp only [line]
  rw [find_setMesi]
  by_cases here : m = n
  · subst here
    rw [Function.update_self, found]
    simp [setMesi]
  · rw [Function.update_of_ne here]
    simp [setMesi, Function.update_of_ne here]

theorem line_setDir {sys : Sys h} {n : Node} {a : Address} {id : Nat}
    (found : sys.find n a = some id) (e : Entry) :
    (sys.setDir n id e).line a = (sys.line a).setEnt n e := by
  refine Line.eq_of_nodes fun m => ⟨rfl, ?_⟩
  rw [Line.setEnt_ent]
  dsimp only [line]
  rw [find_setDir]
  by_cases here : m = n
  · subst here
    rw [Function.update_self, found]
    simp [setDir]
  · rw [Function.update_of_ne here]
    simp [setDir, Function.update_of_ne here]

/-- Only cells of the line of `a` change. -/
structure Only (a : Address) (sys next : Sys h) : Prop where
  array : next.array = sys.array
  mesi : ∀ n id, sys.find n a ≠ some id → next.mesi n id = sys.mesi n id
  dir : ∀ n id, sys.find n a ≠ some id → next.dir n id = sys.dir n id

namespace Only

variable {a : Address} {sys mid next : Sys h}

theorem refl (a : Address) (sys : Sys h) : Only a sys sys := ⟨rfl, fun _ _ _ => rfl, fun _ _ _ => rfl⟩

theorem find (only : Only a sys next) (n : Node) (b : Address) : next.find n b = sys.find n b := by
  unfold Sys.find
  rw [only.array]

theorem trans (first : Only a sys mid) (second : Only a mid next) : Only a sys next where
  array := second.array.trans first.array
  mesi n id apart := (second.mesi n id (first.find n a ▸ apart)).trans (first.mesi n id apart)
  dir n id apart := (second.dir n id (first.find n a ▸ apart)).trans (first.dir n id apart)

theorem setMesi {n : Node} {id : Nat} (found : sys.find n a = some id) (state : MESIState) :
    Only a sys (sys.setMesi n id state) where
  array := rfl
  mesi m other apart := by
    unfold Sys.setMesi
    dsimp only
    by_cases here : m = n
    · subst here
      have isOther : other ≠ id := fun same => apart (same ▸ found)
      rw [Function.update_self, Function.update_of_ne isOther]
    · rw [Function.update_of_ne here]
  dir _ _ _ := rfl

theorem setDir {n : Node} {id : Nat} (found : sys.find n a = some id) (e : Entry) :
    Only a sys (sys.setDir n id e) where
  array := rfl
  mesi _ _ _ := rfl
  dir m other apart := by
    unfold Sys.setDir
    dsimp only
    by_cases here : m = n
    · subst here
      have isOther : other ≠ id := fun same => apart (same ▸ found)
      rw [Function.update_self, Function.update_of_ne isOther]
    · rw [Function.update_of_ne here]

theorem line_of_ne (only : Only a sys next) (arrays : ∀ n, (h.array n).Inv (sys.array n))
    {b : Address} (other : b ≠ a) : next.line b = sys.line b := by
  refine Line.eq_of_nodes fun n => ?_
  unfold Sys.line
  dsimp only
  rw [only.find n b]
  cases found : sys.find n b with
  | none => exact ⟨rfl, rfl⟩
  | some id =>
      have apart : sys.find n a ≠ some id := fun isA => other <| by
        rw [← (h.array n).lookup_sound (arrays n) (find_eq_some.mp found),
          ← (h.array n).lookup_sound (arrays n) (find_eq_some.mp isA)]
      exact ⟨only.mesi n id apart, only.dir n id apart⟩

end Only

def Live (sys : Sys h) (n : Node) (id : Nat) : Prop :=
  sys.mesi n id ≠ .I ∨ (sys.dir n id).numSharers ≠ 0 ∨ ∃ c, (sys.dir n id).sharers c = true

structure Inv (sys : Sys h) : Prop where
  arrays : ∀ n, (h.array n).Inv (sys.array n)
  live : ∀ n id, sys.Live n id → sys.find n ((h.array n).tag (sys.array n) id) = some id
  coherent : ∀ a, (sys.line a).Coherent h.kids

theorem inv_init : Inv (init h) where
  arrays n := (h.array n).inv_init
  live n id live := by
    rcases live with valid | counted | ⟨c, sharer⟩
    · exact absurd rfl valid
    · exact absurd rfl counted
    · cases sharer
  coherent a p := by
    have st (n : Node) : ((init h).line a).st n = .I := by
      dsimp only [line]
      cases (init h).find n a <;> rfl
    have ent : ((init h).line a).ent p = .clear := by
      dsimp only [line]
      cases (init h).find p a <;> rfl
    have child : (fun c => ((init h).line a).st (c :: p)) = fun _ => MESIState.I := funext fun c => st _
    rw [ent, child]
    exact EntryInv.clear _ _

theorem Inv.of_only {a : Address} {sys next : Sys h} (inv : Inv sys) (only : Only a sys next)
    (coherent : (next.line a).Coherent h.kids) : Inv next where
  arrays n := only.array ▸ inv.arrays n
  live n id live := by
    rw [only.find, only.array]
    by_cases found : sys.find n a = some id
    · rw [(h.array n).lookup_sound (inv.arrays n) (find_eq_some.mp found)]
      exact found
    · unfold Live at live
      rw [only.mesi n id found, only.dir n id found] at live
      exact inv.live n id live
  coherent b := by
    by_cases here : b = a
    · exact here ▸ coherent
    · rw [only.line_of_ne inv.arrays here]
      exact inv.coherent b

end Sys

open Sys

/-! ## invalidate -/

/-- What an invalidation of the line of `a` leaves, where `l` is the line after it and
`dirty` says that it met a dirty copy. -/
structure Invalidated (a : Address) (l : Line) (dirty : Prop) (s next : Sys h × Bool) : Prop where
  only : Only a s.1 next.1
  memory : next.1.memory = s.1.memory
  line : next.1.line a = l
  writeback : next.2 = true ↔ s.2 = true ∨ dirty

/-- Some cache in the subtree of `n` has the line dirty. -/
def DirtyBelow (l : Line) (n : Node) : Prop := ∃ m, n <:+ m ∧ l.st m = .M

/-- What `invalidate` of the children of `n` is known to do. -/
def ChildrenInvalidate (n : Node) (a : Address)
    (invalidate : InvType → Nat → Sys h × Bool → Option (Sys h × Bool)) : Prop :=
  ∀ type c s, (∀ m, (h.array m).Inv (s.1.array m)) → (s.1.line a).CoherentBelow h.kids (c :: n) →
    Suits type ((s.1.line a).st (c :: n)) →
    ∃ next, invalidate type c s = some next ∧
      Invalidated a ((s.1.line a).demote type (c :: n)) (DirtyBelow (s.1.line a) (c :: n)) s next

/-- The children of `n` below `k` that share the line have been told. -/
def Told (a : Address) (type : InvType) (n : Node) (e : Entry) (s : Sys h × Bool) (k : Nat)
    (next : Sys h × Bool) : Prop :=
  Invalidated a ((s.1.line a).demoteKids type n fun c => c < k ∧ e.sharers c = true)
    (∃ c < k, e.sharers c = true ∧ DirtyBelow (s.1.line a) (c :: n)) s next

theorem Told.start (a : Address) (type : InvType) (n : Node) (e : Entry) (s : Sys h × Bool) :
    Told a type n e s 0 s where
  only := Only.refl a _
  memory := rfl
  line := (Line.demoteKids_none fun c early => absurd early.1 (Nat.not_lt_zero c)).symm
  writeback := ⟨.inl, fun raised => raised.resolve_right fun ⟨c, early, _⟩ => Nat.not_lt_zero c early⟩

section
variable {n : Node} {a : Address} {invalidate : InvType → Nat → Sys h × Bool → Option (Sys h × Bool)}
  {type : InvType} {e : Entry} {s mid : Sys h × Bool} {k : Nat}

theorem Told.visit (children : ChildrenInvalidate n a invalidate)
    (arrays : ∀ m, (h.array m).Inv (s.1.array m)) (coherent : (s.1.line a).CoherentBelow h.kids n)
    (sharer : e.sharers k = true) (suits : Suits type ((s.1.line a).st (k :: n)))
    (told : Told a type n e s k mid) :
    ∃ next, invalidate type k mid = some next ∧ Told a type n e s (k + 1) next := by
  have fresh : ¬ (k < k ∧ e.sharers k = true) := fun h => Nat.lt_irrefl k h.1
  have same (m : Node) (below : (k :: n) <:+ m) : (mid.1.line a).st m = (s.1.line a).st m := by
    rw [told.line]
    exact (Line.demoteKids_spared _ type fresh below).1
  have arraysMid (m : Node) : (h.array m).Inv (mid.1.array m) := told.only.array ▸ arrays m
  have coherentMid : (mid.1.line a).CoherentBelow h.kids (k :: n) := by
    rw [told.line]
    exact (coherent.child k).demoteKids_spared type fresh
  have suitsMid : Suits type ((mid.1.line a).st (k :: n)) := by
    rw [same _ (List.suffix_refl _)]
    exact suits
  obtain ⟨next, run, done⟩ := children type k mid arraysMid coherentMid suitsMid
  refine ⟨next, run, told.only.trans done.only, done.memory.trans told.memory, ?_, ?_⟩
  · rw [done.line, told.line]
    apply Line.demoteKids_demote fresh
    intro c
    constructor
    · rintro ⟨early, isSharer⟩
      rcases Nat.lt_succ_iff_lt_or_eq.mp early with before | rfl
      · exact .inl ⟨before, isSharer⟩
      · exact .inr rfl
    · rintro (⟨before, isSharer⟩ | rfl)
      · exact ⟨Nat.lt_succ_of_lt before, isSharer⟩
      · exact ⟨Nat.lt_succ_self c, sharer⟩
  · have dirty : DirtyBelow (mid.1.line a) (k :: n) ↔ DirtyBelow (s.1.line a) (k :: n) :=
      exists_congr fun m => and_congr_right fun below => by rw [same m below]
    rw [done.writeback, told.writeback, dirty, or_assoc]
    apply or_congr_right
    constructor
    · rintro (⟨c, before, met⟩ | met)
      · exact ⟨c, Nat.lt_succ_of_lt before, met⟩
      · exact ⟨k, Nat.lt_succ_self k, sharer, met⟩
    · rintro ⟨c, early, met⟩
      rcases Nat.lt_succ_iff_lt_or_eq.mp early with before | rfl
      · exact .inl ⟨c, before, met⟩
      · exact .inr met.2

theorem Told.skip (absent : e.sharers k = false) (told : Told a type n e s k mid) :
    Told a type n e s (k + 1) mid := by
  have same (c : Nat) : (c < k + 1 ∧ e.sharers c = true) ↔ (c < k ∧ e.sharers c = true) := by
    refine and_congr_left fun sharer => ?_
    have other : c ≠ k := by
      rintro rfl
      rw [absent] at sharer
      cases sharer
    omega
  unfold Told at told ⊢
  rw [show (fun c => c < k + 1 ∧ e.sharers c = true) = fun c => c < k ∧ e.sharers c = true from
    funext fun c => propext (same c)]
  refine ⟨told.only, told.memory, told.line, told.writeback.trans (or_congr_right ?_)⟩
  apply exists_congr
  intro c
  rw [← and_assoc, ← and_assoc, same c]

/-- `sendInvalidates` demotes the subtrees of the sharers in the entry. -/
theorem sendInvalidates_run (children : ChildrenInvalidate n a invalidate)
    (arrays : ∀ m, (h.array m).Inv (s.1.array m)) (coherent : (s.1.line a).CoherentBelow h.kids n)
    (bounded : ∀ c, e.sharers c = true → c < h.kids n)
    (count : e.numSharers = countIn (Finset.range (h.kids n)) e.sharers (· = true))
    (known : type = .INV ∧ (∀ c, e.sharers c = true → (s.1.line a).st (c :: n) ≠ .I) ∨
      type = .INVX ∧ ∀ c, e.sharers c = true →
        (s.1.line a).st (c :: n) ≠ .I ∧ ((s.1.line a).st (c :: n)).isExclusive = e.isExclusive) :
    ∃ next, MESITopCC.sendInvalidates (h.kids n) invalidate type e s = some (e.demote type, next) ∧
      Invalidated a ((s.1.line a).demoteKids type n fun c => e.sharers c = true)
        (∃ c, e.sharers c = true ∧ DirtyBelow (s.1.line a) (c :: n)) s next := by
  by_cases spared : type = .INVX ∧ e.isExclusive = false
  · obtain ⟨rfl, shared⟩ := spared
    have noExcl (c : Nat) (sharer : e.sharers c = true) :
        ((s.1.line a).st (c :: n)).isExclusive = false := by
      rcases known with ⟨wrong, -⟩ | ⟨-, same⟩
      · cases wrong
      · exact (same c sharer).2.trans shared
    refine ⟨s, ?_, Only.refl a _, rfl, ?_, ?_⟩
    · rw [MESITopCC.sendInvalidates_of_shared s shared, Entry.demote_INVX_of_shared shared]
    · exact (Line.demoteKids_of_shared coherent noExcl).symm
    · refine ⟨.inl, ?_⟩
      rintro (raised | ⟨c, sharer, m, below, dirty⟩)
      · exact raised
      · have clean := (coherent.child c).shared (noExcl c sharer) below
        rw [dirty] at clean
        cases clean
  · have exclusive : type = .INVX → e.isExclusive = true := by
      intro isInvx
      by_contra shared
      exact spared ⟨isInvx, by simpa using shared⟩
    have suits (c : Nat) (sharer : e.sharers c = true) : Suits type ((s.1.line a).st (c :: n)) := by
      rcases known with ⟨isInv, valid⟩ | ⟨isInvx, same⟩
      · exact .inl ⟨isInv, valid c sharer⟩
      · exact .inr ⟨isInvx, (same c sharer).2.trans (exclusive isInvx)⟩
    have notForward : type ≠ .FWD := by
      rcases known with ⟨rfl, -⟩ | ⟨rfl, -⟩ <;> decide
    obtain ⟨next, run, told⟩ := MESITopCC.sendInvalidates_spec notForward bounded count exclusive
      (Told.start a type n e s)
      (fun c mid _ sharer told => told.visit children arrays coherent sharer (suits c sharer))
      (fun c mid _ absent told => told.skip absent)
    refine ⟨next, run, ?_⟩
    have all (c : Nat) : (c < h.kids n ∧ e.sharers c = true) ↔ e.sharers c = true :=
      and_iff_right_of_imp (bounded c)
    unfold Told at told
    rw [show (fun c => c < h.kids n ∧ e.sharers c = true) = fun c => e.sharers c = true from
      funext fun c => propext (all c)] at told
    refine ⟨told.only, told.memory, told.line, told.writeback.trans (or_congr_right ?_)⟩
    apply exists_congr
    intro c
    rw [← and_assoc, all c]

end

theorem terminal_sharers {own : MESIState} {e : Entry} {child : Nat → MESIState}
    (entry : EntryInv 0 own e child) (c : Nat) : ¬ e.sharers c = true :=
  fun sharer => Nat.not_lt_zero c (entry.bounded c sharer)

theorem terminal_demote {own : MESIState} {e : Entry} {child : Nat → MESIState}
    (entry : EntryInv 0 own e child) (type : InvType) : e.demote type = e := by
  refine (entry.empty_of_invalid fun c => ?_).demote type
  by_contra valid
  exact terminal_sharers entry c ((entry.exact c).mpr valid)

theorem terminal_told {n : Node} {a : Address} {type : InvType} {own : MESIState} {e : Entry}
    {child : Nat → MESIState} (entry : EntryInv 0 own e child) (s : Sys h × Bool) :
    Invalidated a ((s.1.line a).demoteKids type n fun c => e.sharers c = true)
      (∃ c, e.sharers c = true ∧ DirtyBelow (s.1.line a) (c :: n)) s s where
  only := Only.refl a _
  memory := rfl
  line := (Line.demoteKids_none (terminal_sharers entry)).symm
  writeback := ⟨.inl, fun raised => raised.resolve_right fun ⟨c, sharer, _⟩ =>
    terminal_sharers entry c sharer⟩

theorem finishInvalidate_spec {n : Node} {a : Address} {type : InvType} {id : Nat}
    {s mid : Sys h × Bool} {top : Entry → Sys h × Bool → Option (Entry × Sys h × Bool)}
    (coherent : (s.1.line a).CoherentBelow h.kids n) (suits : Suits type ((s.1.line a).st n))
    (found : s.1.find n a = some id) (run : top (s.1.dir n id) s = some ((s.1.dir n id).demote type, mid))
    (told : Invalidated a ((s.1.line a).demoteKids type n fun c => (s.1.dir n id).sharers c = true)
      (∃ c, (s.1.dir n id).sharers c = true ∧ DirtyBelow (s.1.line a) (c :: n)) s mid) :
    ∃ next, finishInvalidate n a type top s = some next ∧
      Invalidated a ((s.1.line a).demote type n) (DirtyBelow (s.1.line a) n) s next := by
  obtain ⟨sys, reqWriteback⟩ := s
  obtain ⟨midSys, midWriteback⟩ := mid
  dsimp only at *
  have entry := coherent n (List.suffix_refl n)
  have ent := line_ent found
  have foundMid : midSys.find n a = some id := (told.only.find n a).trans found
  have foundDir : (midSys.setDir n id ((sys.dir n id).demote type)).find n a = some id := foundMid
  have own : midSys.mesi n id = (sys.line a).st n := by
    rw [← line_st foundMid, told.line]
    exact Line.demoteKids_self.1
  have absent (c : Nat) (none : ¬ (sys.dir n id).sharers c = true) : (sys.line a).st (c :: n) = .I := by
    by_contra valid
    exact none (ent ▸ (entry.exact c).mpr valid)
  refine ⟨(((midSys.setDir n id ((sys.dir n id).demote type)).setMesi n id
    (((sys.line a).st n).demote type)), midWriteback || decide ((sys.line a).st n = .M)), ?_,
    ?_, told.memory, ?_, ?_⟩
  · unfold finishInvalidate
    dsimp only [Option.bind_eq_bind]
    rw [find_eq_some.mp found]
    dsimp only
    rw [run]
    dsimp only [Option.bind_some]
    change (MESIBottomCC.processInval type (midSys.mesi n id)).bind _ = _
    rw [own, suits.processInval]
    rfl
  · exact (told.only.trans (Only.setDir foundMid _)).trans (Only.setMesi foundDir _)
  · rw [line_setMesi foundDir, line_setDir foundMid, told.line, ← ent]
    exact Line.demoteKids_node coherent fun c none => absent c (ent ▸ none)
  · rw [Bool.or_eq_true, decide_eq_true_iff, told.writeback, or_assoc]
    refine or_congr_right ⟨?_, ?_⟩
    · rintro (⟨c, -, m, below, dirty⟩ | dirty)
      · exact ⟨m, (List.suffix_cons c n).trans below, dirty⟩
      · exact ⟨n, List.suffix_refl n, dirty⟩
    · rintro ⟨m, below, dirty⟩
      rcases (Node.suffix_iff n m).mp below with rfl | ⟨c, under⟩
      · exact .inr dirty
      · refine .inl ⟨c, ?_, m, under, dirty⟩
        by_contra none
        have clean := (coherent.child c).invalid (absent c none) under
        rw [dirty] at clean
        cases clean

theorem invalidate_spec (a : Address) (levels : Nat) (n : Node) (enough : h.height ≤ n.length + levels)
    (type : InvType) (s : Sys h × Bool) (arrays : ∀ m, (h.array m).Inv (s.1.array m))
    (coherent : (s.1.line a).CoherentBelow h.kids n) (suits : Suits type ((s.1.line a).st n)) :
    ∃ next, invalidate a levels type n s = some next ∧
      Invalidated a ((s.1.line a).demote type n) (DirtyBelow (s.1.line a) n) s next := by
  induction levels generalizing n type s with
  | zero =>
      obtain ⟨id, found⟩ := find_of_valid suits.valid
      have entry := coherent n (List.suffix_refl n)
      rw [h.bounded n enough, line_ent found] at entry
      exact finishInvalidate_spec coherent suits found (congrArg some (Prod.ext
        (terminal_demote entry type).symm rfl)) (terminal_told entry s)
  | succ levels ih =>
      obtain ⟨id, found⟩ := find_of_valid suits.valid
      have entry := coherent n (List.suffix_refl n)
      rw [line_ent found] at entry
      by_cases terminal : h.kids n = 0
      · rw [terminal] at entry
        refine finishInvalidate_spec coherent suits found ?_ (terminal_told entry s)
        rw [if_pos terminal, terminal_demote entry type]
      · have children : ChildrenInvalidate n a fun type c => invalidate a levels type (c :: n) :=
          fun type c s arrays coherent suits => ih (c :: n) (by simp; omega) type s arrays coherent suits
        have known : type = .INV ∧ (∀ c, (s.1.dir n id).sharers c = true → (s.1.line a).st (c :: n) ≠ .I) ∨
            type = .INVX ∧ ∀ c, (s.1.dir n id).sharers c = true → (s.1.line a).st (c :: n) ≠ .I ∧
              ((s.1.line a).st (c :: n)).isExclusive = (s.1.dir n id).isExclusive := by
          rcases suits with ⟨isInv, -⟩ | ⟨isInvx, -⟩
          · exact .inl ⟨isInv, fun c sharer => (entry.exact c).mp sharer⟩
          · exact .inr ⟨isInvx, fun c sharer => ⟨(entry.exact c).mp sharer, entry.isExclusive_eq sharer⟩⟩
        obtain ⟨mid, run, told⟩ :=
          sendInvalidates_run children arrays coherent entry.bounded entry.count known
        refine finishInvalidate_spec coherent suits found ?_ told
        rw [if_neg terminal]
        rcases suits with ⟨rfl, -⟩ | ⟨rfl, -⟩ <;> exact run

end Zsim.Coherence.Hierarchy
