import Zsim.Slabs.Safety

/-!
# Runs of the slab allocator
-/

set_option autoImplicit false

namespace Zsim.Slabs

open Extent

variable {a next : SlabAlloc} {e elem : Extent} {k s sz used : Nat} {slab : Slab}

@[simp] theorem setSlab_self : (a.setSlab k slab).slab k = slab := by
  simp [SlabAlloc.setSlab]

theorem setSlab_of_ne (slab : Slab) (ne : s ≠ k) : (a.setSlab k slab).slab s = a.slab s := by
  simp [SlabAlloc.setSlab, ne]

/-! ## Allocating -/

theorem curAlloc_of_lt (isUsed : (a.slab a.curSlab).usedBytes = used) (fits : used + sz < bufSize) :
    a.curAlloc sz = (a.setSlab a.curSlab ⟨u32 ((a.slab a.curSlab).liveElems + 1), used + sz⟩,
      some (bufAddr a.curSlab + used)) := by
  have noWrap : used + sz < 2 ^ 32 := Nat.lt_trans fits (by decide)
  rw [SlabAlloc.curAlloc, Slab.alloc, isUsed, u32_of_lt noWrap, if_pos fits]
  rfl

theorem curAlloc_of_le (isUsed : (a.slab a.curSlab).usedBytes = used) (full : bufSize ≤ used + sz)
    (noWrap : used + sz < 2 ^ 32) :
    a.curAlloc sz = (a.setSlab a.curSlab ⟨(a.slab a.curSlab).liveElems, used + sz⟩, none) := by
  rw [SlabAlloc.curAlloc, Slab.alloc, isUsed, u32_of_lt noWrap, if_neg (Nat.not_lt.mpr full)]
  rfl

theorem Layout.use (layout : Layout a) (live : a.liveIn s ≠ 0) (more : (a.slab s).usedBytes ≤ used) :
    Layout (a.setSlab s ⟨(a.slab s).liveElems, used⟩) where
  curSlab_lt := layout.curSlab_lt
  slabOf_lt := layout.slabOf_lt
  used e member := by
    have within := layout.used e member
    by_cases here : slabOf e.start = s
    · rw [here] at within ⊢
      rw [setSlab_self]
      exact within.mono more
    · rw [setSlab_of_ne _ here]
      exact within
  inBuf := layout.inBuf
  disjoint := layout.disjoint
  liveElems_eq k isSlab := by
    by_cases here : k = s
    · subst here
      rw [setSlab_self]
      exact layout.liveElems_eq k isSlab
    · rw [setSlab_of_ne _ here]
      exact layout.liveElems_eq k isSlab
  clear k isSlab none := by
    have other : k ≠ s := fun here => live (here ▸ none)
    rw [setSlab_of_ne _ other]
    exact layout.clear k isSlab none
  mem_freeList_iff := layout.mem_freeList_iff
  freeList_nodup := layout.freeList_nodup
  liveSlabs_add := layout.liveSlabs_add
  liveSlabs_lt := layout.liveSlabs_lt

theorem allocSlab_of_concat {rest : List Nat} (isBack : a.freeList = rest ++ [s]) : a.allocSlab =
    { a with curSlab := s, freeList := rest, liveSlabs := u32 (a.liveSlabs + 1) } := by
  rw [SlabAlloc.allocSlab, isBack, List.getLast?_concat, List.dropLast_concat]

theorem allocSlab_of_nil (none : a.freeList = []) : a.allocSlab =
    { a.setSlab a.numSlabs .cleared with
      curSlab := a.numSlabs, numSlabs := a.numSlabs + 1, liveSlabs := u32 (a.liveSlabs + 1) } := by
  rw [SlabAlloc.allocSlab, none]
  rfl

theorem Layout.reuse (layout : Layout a) (live : a.liveIn a.curSlab ≠ 0)
    (noWrap : a.liveSlabs + 1 < 2 ^ 32) {rest : List Nat} (isBack : a.freeList = rest ++ [s]) :
    Layout { a with curSlab := s, freeList := rest, liveSlabs := u32 (a.liveSlabs + 1) } ∧
      (a.slab s).usedBytes = 0 := by
  have nodup := layout.freeList_nodup
  have add := layout.liveSlabs_add
  have wasFree := layout.mem_freeList_iff
  rw [isBack] at nodup wasFree
  rw [isBack, List.length_append, List.length_singleton] at add
  obtain ⟨isSlab, -, isClear⟩ :=
    (wasFree s).mp (List.mem_append_right rest (List.mem_singleton_self s))
  have notIn : s ∉ rest := fun isIn =>
    List.disjoint_of_nodup_append nodup isIn (List.mem_singleton_self s)
  refine ⟨?_, layout.clear s isSlab isClear⟩
  rw [u32_of_lt noWrap]
  exact { layout with
    curSlab_lt := isSlab
    mem_freeList_iff := by
      intro k
      constructor
      · intro isIn
        obtain ⟨isSlab, -, none⟩ := (wasFree k).mp (List.mem_append_left [s] isIn)
        exact ⟨isSlab, fun same : k = s => notIn (same ▸ isIn), none⟩
      · rintro ⟨isSlab, other, none⟩
        have notCur : k ≠ a.curSlab := fun same => live (same ▸ none)
        rcases List.mem_append.mp ((wasFree k).mpr ⟨isSlab, notCur, none⟩) with isIn | isLast
        · exact isIn
        · exact absurd (List.mem_singleton.mp isLast) other
    freeList_nodup := (List.nodup_append.mp nodup).1
    liveSlabs_add := (Nat.add_right_comm _ 1 _).trans add
    liveSlabs_lt := noWrap }

theorem Layout.fresh (layout : Layout a) (live : a.liveIn a.curSlab ≠ 0)
    (noWrap : a.liveSlabs + 1 < 2 ^ 32) (none : a.freeList = []) :
    Layout { a.setSlab a.numSlabs .cleared with
      curSlab := a.numSlabs, numSlabs := a.numSlabs + 1, liveSlabs := u32 (a.liveSlabs + 1) } := by
  have old : ∀ e ∈ a.elems, slabOf e.start ≠ a.numSlabs := fun e member =>
    Nat.ne_of_lt (layout.slabOf_lt e member)
  have isClear : a.liveIn a.numSlabs = 0 :=
    List.countP_eq_zero.mpr fun e member here => old e member (of_decide_eq_true here)
  have add := layout.liveSlabs_add
  have noneFree := layout.mem_freeList_iff
  rw [none] at add noneFree
  rw [u32_of_lt noWrap]
  exact {
    curSlab_lt := Nat.lt_succ_self _
    slabOf_lt := fun e member => Nat.lt_succ_of_lt (layout.slabOf_lt e member)
    used := by
      intro e member
      have within := layout.used e member
      rw [← setSlab_of_ne .cleared (old e member)] at within
      exact within
    inBuf := layout.inBuf
    disjoint := layout.disjoint
    liveElems_eq := by
      intro k isSlab
      by_cases isNew : k = a.numSlabs
      · subst isNew
        exact (congrArg Slab.liveElems setSlab_self).trans isClear.symm
      · have counted := layout.liveElems_eq k (Nat.lt_of_le_of_ne (Nat.le_of_lt_succ isSlab) isNew)
        rw [← setSlab_of_ne .cleared isNew] at counted
        exact counted
    clear := by
      intro k isSlab isZero
      by_cases isNew : k = a.numSlabs
      · subst isNew
        exact congrArg Slab.usedBytes setSlab_self
      · have unused := layout.clear k (Nat.lt_of_le_of_ne (Nat.le_of_lt_succ isSlab) isNew) isZero
        rw [← setSlab_of_ne .cleared isNew] at unused
        exact unused
    mem_freeList_iff := by
      intro k
      refine iff_of_false (fun isIn => ?_) ?_
      · rw [SlabAlloc.setSlab, none] at isIn
        exact List.not_mem_nil isIn
      · rintro ⟨isSlab, isOld, isZero⟩
        have notCur : k ≠ a.curSlab := fun same => live (same ▸ isZero)
        have isSlab := Nat.lt_of_le_of_ne (Nat.le_of_lt_succ isSlab) isOld
        exact List.not_mem_nil ((noneFree k).mpr ⟨isSlab, notCur, isZero⟩)
    freeList_nodup := layout.freeList_nodup
    liveSlabs_add := by
      rw [SlabAlloc.setSlab, none]
      exact congrArg (· + 1) add
    liveSlabs_lt := noWrap }

theorem Layout.allocSlab (layout : Layout a) (live : a.liveIn a.curSlab ≠ 0)
    (noWrap : a.liveSlabs + 1 < 2 ^ 32) : Layout a.allocSlab ∧
      (a.allocSlab.slab a.allocSlab.curSlab).usedBytes = 0 ∧ a.allocSlab.elems = a.elems := by
  rcases List.eq_nil_or_concat a.freeList with none | ⟨rest, s, isBack⟩
  · rw [allocSlab_of_nil none]
    exact ⟨layout.fresh live noWrap none, congrArg Slab.usedBytes setSlab_self, rfl⟩
  · rw [List.concat_eq_append] at isBack
    rw [allocSlab_of_concat isBack]
    exact ⟨(layout.reuse live noWrap isBack).1, (layout.reuse live noWrap isBack).2, rfl⟩

theorem liveIn_concat : SlabAlloc.liveIn { a.setSlab s slab with elems := a.elems ++ [e] } k =
    a.liveIn k + if slabOf e.start = k then 1 else 0 := by
  simp [SlabAlloc.liveIn, List.countP_append, List.countP_cons]

/-- Elements of two buffers do not overlap. -/
theorem apart_of_slabs {x y : Extent} {k s : Nat} (first : x.Within (bufAddr k) bufSize)
    (second : y.Within (bufAddr s) bufSize) (ne : k ≠ s) : Apart x y := by
  obtain ⟨-, xFrom, xTo⟩ := first
  obtain ⟨-, yFrom, yTo⟩ := second
  simp only [Apart, bufAddr, bufSize, headerSize, SLAB_SIZE] at *
  omega

theorem Inv.grow (inv : Inv a) (isUsed : (a.slab a.curSlab).usedBytes = used) (pos : 0 < sz)
    (fits : used + sz < bufSize) :
    Inv { a.setSlab a.curSlab ⟨u32 ((a.slab a.curSlab).liveElems + 1), used + sz⟩ with
      elems := a.elems ++ [⟨bufAddr a.curSlab + used, sz⟩] } := by
  have counted := inv.liveElems_eq a.curSlab inv.curSlab_lt
  have noWrap : (a.slab a.curSlab).liveElems + 1 < 2 ^ 32 := by
    have atMost := inv.liveIn_le_buf a.curSlab
    have small : bufSize < 2 ^ 31 := by decide
    omega
  obtain ⟨new, isNew⟩ : ∃ new : Extent, ⟨bufAddr a.curSlab + used, sz⟩ = new := ⟨_, rfl⟩
  have within : new.Within (bufAddr a.curSlab) (used + sz) := by
    subst isNew
    exact ⟨pos, Nat.le_add_right _ _, Nat.le_of_eq (Nat.add_assoc _ _ _)⟩
  have inCur : slabOf new.start = a.curSlab := by
    subst isNew
    exact slabOf_of_within (Nat.le_add_right _ _) (Nat.add_lt_add_left (by omega) _)
  have usedNow : ((a.setSlab a.curSlab ⟨(a.slab a.curSlab).liveElems + 1, used + sz⟩).slab
      a.curSlab).usedBytes = used + sz := congrArg Slab.usedBytes setSlab_self
  rw [u32_of_lt noWrap, isNew]
  exact {
    curSlab_lt := inv.curSlab_lt
    slabOf_lt := by
      intro e member
      rcases List.mem_append.mp member with old | isLast
      · exact inv.slabOf_lt e old
      · rw [List.mem_singleton.mp isLast, inCur]
        exact inv.curSlab_lt
    used := by
      intro e member
      rcases List.mem_append.mp member with old | isLast
      · have was := inv.used e old
        by_cases here : slabOf e.start = a.curSlab
        · rw [here, isUsed] at was
          have still := was.mono (Nat.le_add_right used sz)
          rw [← usedNow] at still
          rw [here]
          exact still
        · rw [← setSlab_of_ne ⟨(a.slab a.curSlab).liveElems + 1, used + sz⟩ here] at was
          exact was
      · rw [← usedNow] at within
        rw [List.mem_singleton.mp isLast, inCur]
        exact within
    inBuf := by
      intro e member
      rcases List.mem_append.mp member with old | isLast
      · exact inv.inBuf e old
      · rw [List.mem_singleton.mp isLast, inCur]
        exact within.mono (Nat.le_of_lt fits)
    disjoint := by
      refine List.pairwise_append.mpr ⟨inv.disjoint, List.pairwise_singleton _ _, ?_⟩
      intro e old last isLast
      rw [List.mem_singleton.mp isLast]
      by_cases here : slabOf e.start = a.curSlab
      · have was := inv.used e old
        rw [here, isUsed] at was
        subst isNew
        exact .inl was.end_le
      · exact apart_of_slabs (inv.inBuf e old) (within.mono (Nat.le_of_lt fits)) here
    liveElems_eq := by
      intro k isSlab
      rw [liveIn_concat, inCur]
      by_cases here : k = a.curSlab
      · subst here
        rw [if_pos rfl, ← counted]
        exact congrArg Slab.liveElems setSlab_self
      · rw [if_neg (Ne.symm here), ← inv.liveElems_eq k isSlab]
        exact congrArg Slab.liveElems (setSlab_of_ne _ here)
    clear := by
      intro k isSlab none
      rw [liveIn_concat, inCur] at none
      have other : k ≠ a.curSlab := fun here => by
        rw [if_pos here.symm] at none
        omega
      rw [if_neg (Ne.symm other)] at none
      exact (congrArg Slab.usedBytes (setSlab_of_ne _ other)).trans (inv.clear k isSlab none)
    mem_freeList_iff := by
      intro k
      rw [liveIn_concat, inCur]
      refine (inv.mem_freeList_iff k).trans (and_congr_right fun _ => and_congr_right fun other => ?_)
      rw [if_neg (Ne.symm other), Nat.add_zero]
    freeList_nodup := inv.freeList_nodup
    liveSlabs_add := inv.liveSlabs_add
    liveSlabs_lt := inv.liveSlabs_lt
    cur_lt := usedNow.trans_lt fits }

theorem slabOf_cur (fits : used < bufSize) : slabOf (bufAddr k + used) = k :=
  slabOf_of_within (Nat.le_add_right _ _) (Nat.add_lt_add_left fits _)

theorem alloc_of_lt (isUsed : (a.slab a.curSlab).usedBytes = used) (fits : used + sz < bufSize) :
    a.alloc sz = some (a.setSlab a.curSlab ⟨u32 ((a.slab a.curSlab).liveElems + 1), used + sz⟩,
      bufAddr a.curSlab + used) := by
  have small : sz < SLAB_SIZE := Nat.lt_of_le_of_lt (Nat.le_add_left sz used) (Nat.lt_trans fits (by decide))
  have inCur : slabOf (bufAddr a.curSlab + used) = a.curSlab := slabOf_cur (by omega)
  simp [SlabAlloc.alloc, small, curAlloc_of_lt isUsed fits, inCur, SlabAlloc.setSlab]

/-- A full slab is left, and never comes back to. -/
theorem alloc_of_le (isUsed : (a.slab a.curSlab).usedBytes = used) (full : bufSize ≤ used + sz)
    (noWrap : used + sz < 2 ^ 32) {b : SlabAlloc}
    (isNext : (a.setSlab a.curSlab ⟨(a.slab a.curSlab).liveElems, used + sz⟩).allocSlab = b)
    (isClear : (b.slab b.curSlab).usedBytes = 0) (small : sz < bufSize) :
    a.alloc sz = b.alloc sz := by
  have fits : 0 + sz < bufSize := by omega
  simp [SlabAlloc.alloc, curAlloc_of_le isUsed full noWrap, isNext, curAlloc_of_lt isClear fits]

/-- `alloc` finds a place in the current slab, or in the one that `allocSlab` has made current. -/
theorem Inv.alloc (inv : Inv a) (pos : 0 < sz) (small : sz < bufSize)
    (allowed : Allowed a (.alloc sz)) :
    ∃ next, allocator.step a (.alloc sz) = some next ∧ Inv next := by
  have place : ∀ {b : SlabAlloc} {used : Nat}, Inv b → (b.slab b.curSlab).usedBytes = used →
      used + sz < bufSize → a.alloc sz = b.alloc sz →
      ∃ next, allocator.step a (.alloc sz) = some next ∧ Inv next := by
    intro b used inv isUsed fits same
    refine ⟨_, ?_, inv.grow isUsed pos fits⟩
    simp only [allocator]
    rw [same, alloc_of_lt isUsed fits]
    rfl
  by_cases fits : (a.slab a.curSlab).usedBytes + sz < bufSize
  · exact place inv rfl fits rfl
  · have full := Nat.le_of_not_lt fits
    have live : a.liveIn a.curSlab ≠ 0 := by
      intro none
      have unused := inv.clear a.curSlab inv.curSlab_lt none
      omega
    have noWrap : (a.slab a.curSlab).usedBytes + sz < 2 ^ 32 :=
      Nat.lt_trans (Nat.add_lt_add inv.cur_lt small) (by decide)
    have left := inv.toLayout.use live (Nat.le_add_right _ sz)
    obtain ⟨layout, isClear, -⟩ := left.allocSlab live (allowed full)
    have next : Inv _ := ⟨layout, isClear.trans_lt (by decide)⟩
    exact place next isClear (by omega) (alloc_of_le rfl full noWrap rfl isClear small)

theorem allocSlab_liveSlabs (a : SlabAlloc) : a.allocSlab.liveSlabs = u32 (a.liveSlabs + 1) := by
  unfold SlabAlloc.allocSlab
  split <;> rfl

theorem alloc_liveSlabs (full : bufSize ≤ (a.slab a.curSlab).usedBytes + sz)
    (noWrap : (a.slab a.curSlab).usedBytes + sz < 2 ^ 32)
    (step : allocator.step a (.alloc sz) = some next) : next.liveSlabs = u32 (a.liveSlabs + 1) := by
  obtain ⟨⟨b, ptr⟩, run, isNext⟩ := Option.map_eq_some_iff.mp step
  subst isNext
  obtain ⟨c, isC⟩ : ∃ c, (a.setSlab a.curSlab ⟨(a.slab a.curSlab).liveElems,
    (a.slab a.curSlab).usedBytes + sz⟩).allocSlab = c := ⟨_, rfl⟩
  have counted : c.liveSlabs = u32 (a.liveSlabs + 1) := isC ▸ allocSlab_liveSlabs _
  rw [← counted]
  simp only [SlabAlloc.alloc, curAlloc_of_le rfl full noWrap, isC] at run
  obtain ⟨⟨d, offset⟩, isD⟩ : ∃ d, c.curAlloc sz = d := ⟨_, rfl⟩
  have kept : d.liveSlabs = c.liveSlabs := congrArg (fun result => result.1.liveSlabs) isD.symm
  rw [isD] at run
  cases offset with
  | none => simp at run
  | some ptr' =>
      simp only [Option.bind_eq_bind, Option.bind_some] at run
      split at run
      case isTrue => cases run
      case isFalse =>
        split at run
        case isTrue =>
          cases run
          exact kept
        case isFalse => cases run

theorem Inv.allowed_of_alloc (inv : Inv a) (small : sz < bufSize)
    (step : allocator.step a (.alloc sz) = some next) (safe : Safe next) : Allowed a (.alloc sz) := by
  intro full
  have noWrap : (a.slab a.curSlab).usedBytes + sz < 2 ^ 32 :=
    Nat.lt_trans (Nat.add_lt_add inv.cur_lt small) (by decide)
  have counted := alloc_liveSlabs full noWrap step
  have pos := safe.liveSlabs_pos
  have bound := inv.liveSlabs_lt
  by_contra overflow
  have last : a.liveSlabs + 1 = 2 ^ 32 := by omega
  rw [counted, last, u32, Nat.mod_self] at pos
  omega

/-! ## Freeing -/

theorem liveIn_erase (member : elem ∈ a.elems) (isIn : slabOf elem.start = s) :
    SlabAlloc.liveIn { a.setSlab s slab with elems := a.elems.erase elem } k =
      a.liveIn k - if s = k then 1 else 0 := by
  simp [SlabAlloc.liveIn, List.countP_erase, member, isIn]

theorem liveIn_pos (member : elem ∈ a.elems) (isIn : slabOf elem.start = s) : 0 < a.liveIn s :=
  List.countP_pos_iff.mpr ⟨elem, member, decide_eq_true isIn⟩

theorem Placed.erase (placed : Placed a) (member : elem ∈ a.elems) (isIn : slabOf elem.start = s)
    (counted : slab.liveElems = a.liveIn s - 1) (last : a.liveIn s = 1 → slab.usedBytes = 0)
    (others : a.liveIn s ≠ 1 → slab.usedBytes = (a.slab s).usedBytes) :
    Placed { a.setSlab s slab with elems := a.elems.erase elem } where
  slabOf_lt e left := placed.slabOf_lt e (List.mem_of_mem_erase left)
  used e left := by
    have was := placed.used e (List.mem_of_mem_erase left)
    by_cases here : slabOf e.start = s
    · -- it is not the last one
      have more : a.liveIn s ≠ 1 := by
        intro one
        have still : 0 < SlabAlloc.liveIn { a.setSlab s slab with elems := a.elems.erase elem } s :=
          liveIn_pos left here
        rw [liveIn_erase member isIn, if_pos rfl, one] at still
        exact Nat.lt_irrefl 0 still
      have usedNow : ((a.setSlab s slab).slab s).usedBytes = (a.slab s).usedBytes :=
        (congrArg Slab.usedBytes setSlab_self).trans (others more)
      rw [here, ← usedNow] at was
      rw [here]
      exact was
    · rw [← setSlab_of_ne slab here] at was
      exact was
  inBuf e left := placed.inBuf e (List.mem_of_mem_erase left)
  disjoint := placed.disjoint.sublist List.erase_sublist
  liveElems_eq k isSlab := by
    rw [liveIn_erase member isIn]
    by_cases here : k = s
    · subst here
      rw [if_pos rfl, ← counted]
      exact congrArg Slab.liveElems setSlab_self
    · rw [if_neg (Ne.symm here), Nat.sub_zero, ← placed.liveElems_eq k isSlab]
      exact congrArg Slab.liveElems (setSlab_of_ne slab here)
  clear k isSlab none := by
    rw [liveIn_erase member isIn] at none
    by_cases here : k = s
    · subst here
      rw [if_pos rfl] at none
      have pos := liveIn_pos member isIn
      exact (congrArg Slab.usedBytes setSlab_self).trans (last (by omega))
    · rw [if_neg (Ne.symm here), Nat.sub_zero] at none
      exact (congrArg Slab.usedBytes (setSlab_of_ne slab here)).trans (placed.clear k isSlab none)

theorem Inv.erase (inv : Inv a) (member : elem ∈ a.elems) (isIn : slabOf elem.start = s)
    (counted : slab.liveElems = a.liveIn s - 1) (last : a.liveIn s = 1 → slab.usedBytes = 0)
    (others : a.liveIn s ≠ 1 → slab.usedBytes = (a.slab s).usedBytes)
    (kept : a.liveIn s ≠ 1 ∨ s = a.curSlab) :
    Inv { a.setSlab s slab with elems := a.elems.erase elem } where
  toPlaced := inv.toPlaced.erase member isIn counted last others
  curSlab_lt := inv.curSlab_lt
  mem_freeList_iff k := by
    rw [liveIn_erase member isIn]
    refine (inv.mem_freeList_iff k).trans (and_congr_right fun _ => and_congr_right fun other => ?_)
    by_cases here : s = k
    · subst here
      have pos := liveIn_pos member isIn
      have more := kept.resolve_right other
      rw [if_pos rfl]
      omega
    · rw [if_neg here, Nat.sub_zero]
  freeList_nodup := inv.freeList_nodup
  liveSlabs_add := inv.liveSlabs_add
  liveSlabs_lt := inv.liveSlabs_lt
  cur_lt := by
    by_cases here : a.curSlab = s
    · have usedNow : ((a.setSlab s slab).slab s).usedBytes = slab.usedBytes :=
        congrArg Slab.usedBytes setSlab_self
      have cur_lt := inv.cur_lt
      have atMost : slab.usedBytes ≤ (a.slab s).usedBytes := by
        by_cases one : a.liveIn s = 1
        · rw [last one]
          exact Nat.zero_le _
        · exact Nat.le_of_eq (others one)
      rw [here] at cur_lt
      simp only [SlabAlloc.setSlab, here] at usedNow ⊢
      omega
    · exact (congrArg Slab.usedBytes (setSlab_of_ne slab here)).trans_lt inv.cur_lt

theorem Inv.release (inv : Inv a) (member : elem ∈ a.elems) (isIn : slabOf elem.start = s)
    (one : a.liveIn s = 1) (other : s ≠ a.curSlab) :
    Inv { a.setSlab s .cleared with
      freeList := a.freeList ++ [s], liveSlabs := u32Sub a.liveSlabs 1, elems := a.elems.erase elem } ∧
    u32Sub a.liveSlabs 1 ≠ 0 := by
  have isSlab : s < a.numSlabs := isIn ▸ inv.slabOf_lt elem member
  have notFree : s ∉ a.freeList := fun free => by
    have none := ((inv.mem_freeList_iff s).mp free).2.2
    omega
  have two : 2 ≤ a.liveSlabs := by
    have nodup : [s, a.curSlab].Nodup :=
      List.nodup_cons.mpr ⟨fun same => other (List.mem_singleton.mp same), List.nodup_singleton _⟩
    refine inv.length_le_liveSlabs nodup fun k member => ?_
    rcases List.mem_cons.mp member with same | member
    · rw [same]
      exact ⟨isSlab, notFree⟩
    · rw [List.mem_singleton.mp member]
      exact ⟨inv.curSlab_lt, inv.curSlab_notMem⟩
  have less : u32Sub a.liveSlabs 1 = a.liveSlabs - 1 := u32Sub_of_le inv.liveSlabs_lt (by omega)
  have placed : Placed { a.setSlab s .cleared with elems := a.elems.erase elem } :=
    inv.toPlaced.erase member isIn (by rw [one]; rfl) (fun _ => rfl) (fun more => absurd one more)
  rw [less]
  refine ⟨?_, by omega⟩
  exact {
    slabOf_lt := placed.slabOf_lt
    used := placed.used
    inBuf := placed.inBuf
    disjoint := placed.disjoint
    liveElems_eq := placed.liveElems_eq
    clear := placed.clear
    curSlab_lt := inv.curSlab_lt
    mem_freeList_iff := by
      intro k
      have erased : SlabAlloc.liveIn { a.setSlab s .cleared with elems := a.elems.erase elem } k =
        a.liveIn k - if s = k then 1 else 0 := liveIn_erase member isIn
      refine (List.mem_append.trans (or_congr (inv.mem_freeList_iff k) List.mem_singleton)).trans ?_
      by_cases here : k = s
      · subst here
        rw [if_pos rfl, one] at erased
        exact iff_of_true (.inr rfl) ⟨isSlab, other, erased⟩
      · rw [if_neg (Ne.symm here), Nat.sub_zero] at erased
        refine (or_iff_left here).trans (and_congr_right fun _ => and_congr_right fun _ => ?_)
        exact Eq.congr_left erased.symm
    freeList_nodup := by
      refine List.nodup_append.mpr ⟨inv.freeList_nodup, List.nodup_singleton s, ?_⟩
      intro k free last isLast same
      exact notFree (List.mem_singleton.mp isLast ▸ same ▸ free)
    liveSlabs_add := by
      have add := inv.liveSlabs_add
      rw [List.length_append, List.length_singleton]
      simp only [SlabAlloc.setSlab]
      omega
    liveSlabs_lt := Nat.lt_of_le_of_lt (Nat.sub_le _ _) inv.liveSlabs_lt
    cur_lt := (congrArg Slab.usedBytes (setSlab_of_ne .cleared (Ne.symm other))).trans_lt inv.cur_lt }

theorem setSlab_setSlab (a : SlabAlloc) (s : Nat) (first second : Slab) :
    (a.setSlab s first).setSlab s second = a.setSlab s second := by
  simp [SlabAlloc.setSlab]

theorem freeSlab_cur (current : s = a.curSlab) (pos : a.liveSlabs ≠ 0) :
    (a.setSlab s slab).freeSlab s = some (a.setSlab s .cleared) := by
  rw [SlabAlloc.freeSlab, setSlab_setSlab]
  simp [SlabAlloc.setSlab, current, pos]

theorem freeSlab_other (other : s ≠ a.curSlab) (pos : u32Sub a.liveSlabs 1 ≠ 0) :
    (a.setSlab s slab).freeSlab s = some { a.setSlab s .cleared with
      freeList := a.freeList ++ [s], liveSlabs := u32Sub a.liveSlabs 1 } := by
  rw [SlabAlloc.freeSlab, setSlab_setSlab]
  simp [SlabAlloc.setSlab, other, pos]

/-- `freeElem` of a live element, as long as its slab is not full of elements of one byte -/
theorem Inv.freeElem (inv : Inv a) (member : elem ∈ a.elems) (allowed : Allowed a (.freeElem elem)) :
    ∃ next, allocator.step a (.freeElem elem) = some next ∧ Inv next := by
  obtain ⟨s, isIn⟩ : ∃ s, slabOf elem.start = s := ⟨_, rfl⟩
  have isSlab : s < a.numSlabs := isIn ▸ inv.slabOf_lt elem member
  have pos := liveIn_pos member isIn
  have counted := inv.liveElems_eq s isSlab
  have less : a.liveIn s < (a.slab s).usedBytes := by
    refine Nat.lt_of_le_of_ne (inv.liveIn_le_used s) fun full => allowed ?_
    rw [isIn]
    exact (inv.liveIn_eq_used_iff s).mp full
  have noWrap : u32Sub (a.liveIn s) 1 = a.liveIn s - 1 := by
    have atMost := inv.liveIn_le_buf s
    exact u32Sub_of_le (Nat.lt_of_le_of_lt atMost (by decide)) pos
  have passes : ¬ ¬ (a.liveIn s ≠ 0 ∧ a.liveIn s < (a.slab s).usedBytes) :=
    not_not_intro ⟨Nat.ne_of_gt pos, less⟩
  simp only [allocator, SlabAlloc.freeElem, isIn, counted, noWrap, if_neg passes]
  by_cases one : a.liveIn s = 1
  · rw [if_pos one]
    by_cases current : s = a.curSlab
    · rw [freeSlab_cur current (Nat.ne_of_gt inv.liveSlabs_pos)]
      have erased : Inv { a.setSlab s .cleared with elems := a.elems.erase elem } :=
        inv.erase member isIn (by rw [one]; rfl) (fun _ => rfl) (fun more => absurd one more)
          (.inr current)
      exact ⟨_, rfl, erased⟩
    · obtain ⟨released, pos⟩ := inv.release member isIn one current
      rw [freeSlab_other current pos]
      exact ⟨_, rfl, released⟩
  · rw [if_neg one]
    exact ⟨_, rfl, inv.erase member isIn rfl (fun isOne => absurd isOne one) (fun _ => rfl) (.inl one)⟩

/-- The assertion fails in a slab full of elements of one byte. -/
theorem Inv.allowed_of_freeElem (inv : Inv a) (member : elem ∈ a.elems)
    (step : allocator.step a (.freeElem elem) = some next) : Allowed a (.freeElem elem) := by
  intro all
  have full := (inv.liveIn_eq_used_iff _).mpr all
  have isSlab := inv.slabOf_lt elem member
  have fails : ¬ ((a.slab (slabOf elem.start)).liveElems ≠ 0 ∧
      (a.slab (slabOf elem.start)).liveElems < (a.slab (slabOf elem.start)).usedBytes) := by
    rw [inv.liveElems_eq _ isSlab, full]
    exact fun both => Nat.lt_irrefl _ both.2
  simp only [allocator, SlabAlloc.freeElem, if_pos fails] at step
  cases step

/-! ## All runs -/

theorem Inv.new : Inv .new := by
  have empty : Placed SlabAlloc.new := {
    slabOf_lt := fun e member => absurd member List.not_mem_nil
    used := fun e member => absurd member List.not_mem_nil
    inBuf := fun e member => absurd member List.not_mem_nil
    disjoint := List.Pairwise.nil
    liveElems_eq := fun k isSlab => by
      cases Nat.lt_one_iff.mp isSlab
      rfl
    clear := fun k isSlab _ => by
      cases Nat.lt_one_iff.mp isSlab
      rfl }
  exact { empty with
    curSlab_lt := Nat.one_pos
    mem_freeList_iff := by
      intro k
      refine iff_of_false List.not_mem_nil ?_
      rintro ⟨isSlab, other, -⟩
      exact other (Nat.lt_one_iff.mp isSlab)
    freeList_nodup := List.nodup_nil
    liveSlabs_add := rfl
    liveSlabs_lt := by decide
    cur_lt := by decide }

theorem Inv.step {op : Op} (inv : Inv a) (legal : allocator.legal a op) (allowed : Allowed a op) :
    ∃ next, allocator.step a op = some next ∧ Inv next := by
  cases op with
  | alloc sz => exact inv.alloc legal.1 legal.2 allowed
  | freeElem elem => exact inv.freeElem legal allowed

theorem Inv.allowed {op : Op} (inv : Inv a) (legal : allocator.legal a op)
    (step : allocator.step a op = some next) (safe : Safe next) : Allowed a op := by
  cases op with
  | alloc sz => exact inv.allowed_of_alloc legal.2 step safe
  | freeElem elem => exact inv.allowed_of_freeElem legal step

/-- A run of allocations and frees keeps the slabs in order, and no assertion fails, exactly if no
element is freed in a slab full of elements of one byte (and `liveSlabs` does not overflow). -/
theorem slabs_safe_iff (ops : List Op) (legal : allocator.LegalRun ops .new) :
    ((∃ final, allocator.exec ops .new = some final) ∧ allocator.Throughout Safe ops .new) ↔
      allocator.Along Allowed ops .new :=
  legal.safe_iff (fun _ inv => inv.toLayout.safe) (fun _ _ => Inv.step) (fun _ _ _ => Inv.allowed) Inv.new

theorem slabs_safe_reset : (∃ final, allocator.exec [.alloc 24, .alloc 8, .freeElem ⟨16, 24⟩,
      .freeElem ⟨40, 8⟩, .alloc 16] .new = some final) ∧
    allocator.Throughout Safe [.alloc 24, .alloc 8, .freeElem ⟨16, 24⟩, .freeElem ⟨40, 8⟩, .alloc 16] .new :=
  (slabs_safe_iff _ (by decide)).mpr (by decide)

/-- An element of one byte is alone in its slab, and freed. -/
theorem one_byte_panics : allocator.LegalRun [.alloc 1, .freeElem ⟨16, 1⟩] .new ∧
    allocator.exec [.alloc 1, .freeElem ⟨16, 1⟩] .new = none := by
  refine ⟨by decide, rfl⟩

end Zsim.Slabs
