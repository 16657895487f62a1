import Mathlib.Data.List.Nodup
import Zsim.PrioQueue.Invariant

/-!
# The operations of the priority queue

`inside` lists the elements with the cycles they were enqueued with.  Those in
the ring and those in the far map together are exactly these; the far map holds
nothing below the block at which the ring was last refilled, plus `B`.
-/

set_option autoImplicit false

namespace Zsim.PrioQueue

variable {T : Type}

/-- The template parameter `B`, a `uint32_t`. -/
structure BlockCount (B : Nat) : Prop where
  atLeast : 2 ≤ B
  even : B % 2 = 0
  word : B < 2 ^ 32

/-- The elements of `far` are sorted and not linked into any block. -/
structure Far (pq : PrioQueue T) (near : Nat → List T) (far : List (Nat × T)) : Prop where
  once : (far.map Prod.snd).Nodup
  sorted : far.Pairwise fun e f => e.1 ≤ f.1
  unlinked : ∀ e ∈ far, pq.next e.2 = none
  apart : ∀ e ∈ far, ∀ c, e.2 ∉ near c

structure Inv (B : Nat) (pq : PrioQueue T) (near : Nat → List T) (inside : List (Nat × T)) : Prop
    extends Ring B pq near where
  farList : Far pq near pq.feMap
  split : ∀ c obj, (c, obj) ∈ inside ↔ obj ∈ near c ∨ (c, obj) ∈ pq.feMap
  distinct : (inside.map Prod.snd).Nodup
  far : ∀ e ∈ pq.feMap, pq.curBlock / (B / 2) * (B / 2) + B ≤ e.1 / 64
  bounded : ∀ e ∈ inside, e.1 / 64 + B / 2 < 2 ^ 58
  current : pq.curBlock + B / 2 < 2 ^ 58
  size : pq.elems = inside.length

theorem Inv.init {B : Nat} (count : BlockCount B) (next : T → Option T) :
    Inv B (PrioQueue.init next) (fun _ => []) [] where
  linked _ _ := rfl
  occ c _ := by simp [occupied, PrioQueue.init]
  inRing _ filled := absurd rfl filled
  nodup _ := List.nodup_nil
  once _ _ _ member := absurd member (List.not_mem_nil)
  farList := ⟨List.nodup_nil, .nil, fun _ member => absurd member List.not_mem_nil,
    fun _ member => absurd member List.not_mem_nil⟩
  split c obj := by simp [PrioQueue.init]
  distinct := List.nodup_nil
  far _ member := absurd member List.not_mem_nil
  bounded _ member := absurd member List.not_mem_nil
  current := by
    have := count.word
    show 0 + B / 2 < 2 ^ 58
    omega
  size := rfl

section
variable {B : Nat} {pq : PrioQueue T} {near : Nat → List T} {inside : List (Nat × T)}

theorem Far.head_le {far rest : List (Nat × T)} {e : Nat × T} (list : Far pq near far)
    (isHead : far = e :: rest) {cycle : Nat} {obj : T} (member : (cycle, obj) ∈ far) :
    e.1 ≤ cycle := by
  have sorted := isHead ▸ list.sorted
  rcases List.mem_cons.mp (isHead ▸ member) with rfl | later
  · exact Nat.le_refl cycle
  · exact (List.pairwise_cons.mp sorted).1 _ later

theorem Inv.window_fits (inv : Inv B pq near inside) (count : BlockCount B) {i : Nat} (le : i ≤ B) :
    u64 (pq.curBlock + i) = pq.curBlock + i := by
  have := inv.current
  have := count.word
  exact u64_of_lt (by omega)

theorem Inv.far_beyond (inv : Inv B pq near inside) (count : BlockCount B) {e : Nat × T}
    (member : e ∈ pq.feMap) : pq.curBlock + B / 2 < e.1 / 64 := by
  have beyond := inv.far e member
  have half : 0 < B / 2 := by have := count.atLeast; omega
  have rounded := Nat.lt_div_mul_add half (a := pq.curBlock)
  have := count.even
  omega

/-! ## enqueue -/

theorem insertFar_perm (cycle : Nat) (obj : T) (far : List (Nat × T)) :
    (insertFar cycle obj far).Perm ((cycle, obj) :: far) := by
  induction far with
  | nil => exact .refl _
  | cons e rest ih =>
      unfold insertFar
      split
      · exact (ih.cons e).trans (.swap _ _ rest)
      · exact .refl _

theorem insertFar_sorted (cycle : Nat) (obj : T) {far : List (Nat × T)}
    (sorted : far.Pairwise fun e f => e.1 ≤ f.1) :
    (insertFar cycle obj far).Pairwise fun e f => e.1 ≤ f.1 := by
  induction far with
  | nil => exact List.pairwise_singleton _ _
  | cons e rest ih =>
      obtain ⟨least, sortedRest⟩ := List.pairwise_cons.mp sorted
      unfold insertFar
      split
      · rename_i le
        refine List.pairwise_cons.mpr ⟨fun f member => ?_, ih sortedRest⟩
        rcases List.mem_cons.mp ((insertFar_perm cycle obj rest).mem_iff.mp member) with rfl | old
        · exact le
        · exact least f old
      · rename_i before
        refine List.pairwise_cons.mpr ⟨fun f member => ?_, sorted⟩
        rcases List.mem_cons.mp member with rfl | later
        · show cycle ≤ f.1
          omega
        · have := least f later
          show cycle ≤ f.1
          omega

theorem mem_near_linked {cycle : Nat} {obj : T} (c : Nat) (o : T) :
    o ∈ Function.update near cycle (obj :: near cycle) c ↔
      (c, o) = (cycle, obj) ∨ o ∈ near c := by
  by_cases here : c = cycle
  · subst here
    simp
  · rw [Function.update_of_ne here]
    simp [here]

variable [DecidableEq T]

theorem Far.linked {far : List (Nat × T)} (list : Far pq near far) {obj : T}
    (absent : obj ∉ far.map Prod.snd) (cycle : Nat) (link : Option T)
    (blocks : Nat → PQBlock T) :
    Far { pq with blocks := blocks, next := Function.update pq.next obj link }
      (Function.update near cycle (obj :: near cycle)) far where
  once := list.once
  sorted := list.sorted
  unlinked e member := by
    have other : e.2 ≠ obj := fun h => absent (h ▸ List.mem_map_of_mem member)
    show Function.update pq.next obj link e.2 = none
    rw [Function.update_of_ne other]
    exact list.unlinked e member
  apart e member c := by
    have other : e.2 ≠ obj := fun h => absent (h ▸ List.mem_map_of_mem member)
    by_cases here : c = cycle
    · subst here
      rw [Function.update_self, List.mem_cons]
      rintro (same | old)
      · exact other same
      · exact list.apart e member c old
    · rw [Function.update_of_ne here]
      exact list.apart e member c

theorem Inv.enqueue (inv : Inv B pq near inside) (count : BlockCount B) {obj : T} {cycle : Nat}
    (notBefore : pq.curBlock ≤ cycle / 64) (range : cycle / 64 + B / 2 < 2 ^ 58)
    (unlinked : pq.next obj = none) (outside : obj ∉ inside.map Prod.snd) :
    ∃ next near', pq.enqueue B obj cycle = some next ∧ Inv B next near' ((cycle, obj) :: inside) := by
  have absentNear : ∀ c, obj ∉ near c := fun c member =>
    outside (List.mem_map_of_mem ((inv.split c obj).mpr (.inl member)))
  have absentFar : obj ∉ pq.feMap.map Prod.snd := by
    intro member
    obtain ⟨e, far, rfl⟩ := List.mem_map.mp member
    exact outside (List.mem_map_of_mem ((inv.split e.1 e.2).mpr (.inr far)))
  have distinct : (((cycle, obj) :: inside).map Prod.snd).Nodup :=
    List.nodup_cons.mpr ⟨outside, inv.distinct⟩
  have bounded : ∀ e ∈ (cycle, obj) :: inside, e.1 / 64 + B / 2 < 2 ^ 58 := by
    intro e member
    rcases List.mem_cons.mp member with rfl | old
    · exact range
    · exact inv.bounded e old
  unfold PrioQueue.enqueue
  rw [if_pos notBefore, inv.window_fits count (Nat.le_refl B)]
  by_cases close : cycle / 64 < pq.curBlock + B
  · obtain ⟨blocks, link, eq, ring⟩ := blockEnqueue_spec inv.toRing ⟨notBefore, close⟩ unlinked absentNear
    rw [if_pos close, eq]
    refine ⟨_, _, rfl, ⟨ring.linked, ring.occ, ring.inRing, ring.nodup, ring.once⟩, ?_, ?_, distinct,
      inv.far, bounded, inv.current, ?_⟩
    · have list := inv.farList.linked absentFar cycle link blocks
      exact ⟨list.once, list.sorted, list.unlinked, list.apart⟩
    · intro c o
      rw [List.mem_cons, inv.split, mem_near_linked, or_assoc]
    · exact congrArg (· + 1) inv.size
  · rw [if_neg close]
    have perm := insertFar_perm cycle obj pq.feMap
    refine ⟨_, near, rfl, ⟨inv.linked, inv.occ, inv.inRing, inv.nodup, inv.once⟩, ?_, ?_, distinct,
      ?_, bounded, inv.current, congrArg (· + 1) inv.size⟩
    · refine ⟨?_, insertFar_sorted cycle obj inv.farList.sorted, ?_, ?_⟩
      · exact (perm.map Prod.snd).nodup_iff.mpr (List.nodup_cons.mpr ⟨absentFar, inv.farList.once⟩)
      · intro e member
        rcases List.mem_cons.mp (perm.mem_iff.mp member) with rfl | old
        · exact unlinked
        · exact inv.farList.unlinked e old
      · intro e member
        rcases List.mem_cons.mp (perm.mem_iff.mp member) with rfl | old
        · exact absentNear
        · exact inv.farList.apart e old
    · intro c o
      show _ ↔ o ∈ near c ∨ (c, o) ∈ insertFar cycle obj pq.feMap
      rw [perm.mem_iff, List.mem_cons, List.mem_cons, inv.split]
      exact or_left_comm
    · intro e member
      have rounded := Nat.div_mul_le_self pq.curBlock (B / 2)
      rcases List.mem_cons.mp (perm.mem_iff.mp member) with rfl | old
      · show pq.curBlock / (B / 2) * (B / 2) + B ≤ cycle / 64
        omega
      · exact inv.far e old

/-! ## dequeue -/

/-- The loop over the far map links those below `topCycle` and leaves the others. -/
theorem refillFrom_spec {todo : List (Nat × T)} (ring : Ring B pq near) (list : Far pq near todo)
    {topCycle : Nat} (window : u64 (pq.curBlock + B) = pq.curBlock + B)
    (top : topCycle = (pq.curBlock + B) * 64) (reached : ∀ e ∈ todo, pq.curBlock ≤ e.1 / 64) :
    ∃ next near', refillFrom B topCycle todo pq = some next ∧ Ring B next near' ∧
      Far next near' next.feMap ∧ next.curBlock = pq.curBlock ∧ next.elems = pq.elems ∧
      (∀ c obj, obj ∈ near' c ∨ (c, obj) ∈ next.feMap ↔ obj ∈ near c ∨ (c, obj) ∈ todo) ∧
      ∀ e ∈ next.feMap, topCycle ≤ e.1 := by
  induction todo generalizing pq near with
  | nil =>
      exact ⟨_, near, rfl, ⟨ring.linked, ring.occ, ring.inRing, ring.nodup, ring.once⟩,
        ⟨list.once, list.sorted, list.unlinked, list.apart⟩, rfl, rfl, fun c obj => Iff.rfl,
        fun _ member => absurd member List.not_mem_nil⟩
  | cons e rest ih =>
      obtain ⟨cycle, obj⟩ := e
      obtain ⟨absent, once⟩ := List.nodup_cons.mp list.once
      obtain ⟨least, sorted⟩ := List.pairwise_cons.mp list.sorted
      have here : pq.curBlock ≤ cycle / 64 := reached _ List.mem_cons_self
      unfold refillFrom
      by_cases below : cycle < topCycle
      · have close : cycle / 64 < pq.curBlock + B := by omega
        obtain ⟨blocks, link, eq, ring⟩ := blockEnqueue_spec ring ⟨here, close⟩
          (list.unlinked _ List.mem_cons_self) (list.apart _ List.mem_cons_self)
        have rested : Far pq near rest := ⟨once, sorted,
          fun e member => list.unlinked e (List.mem_cons_of_mem _ member),
          fun e member => list.apart e (List.mem_cons_of_mem _ member)⟩
        obtain ⟨next, near', run, ring', far', block, size, members, above⟩ :=
          ih ring (rested.linked absent cycle link blocks) window top
            fun e member => reached e (List.mem_cons_of_mem _ member)
        refine ⟨next, near', ?_, ring', far', block, size, ?_, above⟩
        · rw [if_pos below]
          dsimp only
          rw [window, if_pos ⟨here, close⟩, eq]
          exact run
        · intro c o
          rw [members c o, mem_near_linked, List.mem_cons, or_assoc]
          exact or_left_comm
      · rw [if_neg below]
        refine ⟨_, near, rfl, ⟨ring.linked, ring.occ, ring.inRing, ring.nodup, ring.once⟩,
          ⟨list.once, list.sorted, list.unlinked, list.apart⟩, rfl, rfl, fun c obj => Iff.rfl, ?_⟩
        intro e member
        rcases List.mem_cons.mp member with rfl | later
        · exact Nat.not_lt.mp below
        · exact Nat.le_trans (Nat.not_lt.mp below) (least e later)

omit [DecidableEq T] in
theorem Ring.block_empty (ring : Ring B pq near) {c : Nat} (inRing : InRing B pq c)
    (empty : (pq.blocks (c / 64 % B)).occ = 0) : near c = [] := by
  by_contra filled
  have bit := (ring.occ c inRing).mpr filled
  rw [occupied, empty] at bit
  simp at bit

omit [DecidableEq T] in
theorem Ring.advance (ring : Ring B pq near) (positive : 0 < B)
    (empty : (pq.blocks (pq.curBlock % B)).occ = 0) :
    Ring B { pq with curBlock := pq.curBlock + 1 } near := by
  have current : ∀ c, c / 64 = pq.curBlock → near c = [] := fun c block =>
    ring.block_empty ⟨by omega, by omega⟩ (by rw [block]; exact empty)
  -- the block that comes in at the far end is the one that went out
  have entering : ∀ c, c / 64 = pq.curBlock + B → near c = [] ∧ pq.slot B c = none ∧
      pq.occupied B c = false := by
    intro c block
    have index : c / 64 % B = pq.curBlock % B := by rw [block, Nat.add_mod_right]
    refine ⟨?_, ?_, ?_⟩
    · by_contra filled
      have := (ring.inRing c filled).2
      omega
    · obtain ⟨d, dBlock, dOffset⟩ : ∃ d, d / 64 = pq.curBlock ∧ d % 64 = c % 64 :=
        ⟨pq.curBlock * 64 + c % 64, by omega, by omega⟩
      have linked := ring.linked d ⟨by omega, by omega⟩
      rw [current d dBlock] at linked
      unfold slot
      rw [index, ← dBlock, ← dOffset]
      exact linked
    · unfold occupied
      rw [index, empty]
      simp
  refine ⟨?_, ?_, ?_, ring.nodup, ring.once⟩
  · intro c ⟨low, high⟩
    change pq.curBlock + 1 ≤ c / 64 at low
    change c / 64 < pq.curBlock + 1 + B at high
    by_cases last : c / 64 = pq.curBlock + B
    · obtain ⟨none, slot, -⟩ := entering c last
      rw [none]
      exact slot
    · exact ring.linked c ⟨by omega, by omega⟩
  · intro c ⟨low, high⟩
    change pq.curBlock + 1 ≤ c / 64 at low
    change c / 64 < pq.curBlock + 1 + B at high
    by_cases last : c / 64 = pq.curBlock + B
    · obtain ⟨none, -, bit⟩ := entering c last
      rw [none]
      exact iff_of_false (by rw [← Bool.not_eq_true] at bit; exact bit) (fun h => h rfl)
    · exact ring.occ c ⟨by omega, by omega⟩
  · intro c filled
    obtain ⟨low, high⟩ := ring.inRing c filled
    refine ⟨?_, ?_⟩
    · show pq.curBlock + 1 ≤ c / 64
      by_contra notAfter
      exact filled (current c (by omega))
    · show c / 64 < pq.curBlock + 1 + B
      omega

omit [DecidableEq T] in
theorem Inv.notBefore (inv : Inv B pq near inside) (count : BlockCount B) {e : Nat × T}
    (member : e ∈ inside) : pq.curBlock ≤ e.1 / 64 := by
  rcases (inv.split e.1 e.2).mp member with linked | far
  · exact (inv.mem linked).1
  · have := inv.far_beyond count far
    omega

theorem base_succ (block half : Nat) :
    (block + 1) / half * half =
      if (block + 1) % half = 0 then block / half * half + half else block / half * half := by
  split
  · rename_i refill
    rw [Nat.succ_div_of_dvd (Nat.dvd_of_mod_eq_zero refill), Nat.succ_mul]
  · rename_i between
    rw [Nat.succ_div_of_not_dvd fun h => between (Nat.mod_eq_zero_of_dvd h)]

theorem Inv.advance (inv : Inv B pq near inside) (count : BlockCount B)
    (empty : (pq.blocks (pq.curBlock % B)).occ = 0) {e : Nat × T} (member : e ∈ inside) :
    ∃ next near', pq.advance B = some next ∧ Inv B next near' inside ∧
      next.curBlock = pq.curBlock + 1 := by
  have atLeast := count.atLeast
  have word := count.word
  have half : 0 < B / 2 := by omega
  have ahead : pq.curBlock + 1 ≤ e.1 / 64 := by
    have from' := inv.notBefore count member
    by_contra notAfter
    have block : e.1 / 64 = pq.curBlock := by omega
    rcases (inv.split e.1 e.2).mp member with linked | far
    · rw [inv.block_empty (inv.mem linked) (by rw [block]; exact empty)] at linked
      exact List.not_mem_nil linked
    · have := inv.far_beyond count far
      omega
  have current : pq.curBlock + 1 + B / 2 < 2 ^ 58 := by
    have := inv.bounded e member
    omega
  have moved : u64 (pq.curBlock + 1) = pq.curBlock + 1 := u64_of_lt (by omega)
  have ring := inv.toRing.advance (by omega) empty
  have list : Far { pq with curBlock := pq.curBlock + 1 } near pq.feMap :=
    ⟨inv.farList.once, inv.farList.sorted, inv.farList.unlinked, inv.farList.apart⟩
  unfold PrioQueue.advance
  dsimp only
  rw [moved]
  by_cases refill : (pq.curBlock + 1) % (B / 2) = 0 ∧ pq.feMap ≠ []
  · rw [if_pos refill]
    have base := base_succ pq.curBlock (B / 2)
    rw [if_pos refill.1] at base
    -- the far map is not empty, so its elements keep the sum below the word size
    obtain ⟨f, others, nonempty⟩ := List.exists_cons_of_ne_nil refill.2
    have isFar : f ∈ pq.feMap := nonempty ▸ List.mem_cons_self
    have beyond := inv.far f isFar
    have range := inv.bounded f ((inv.split f.1 f.2).mpr (.inr isFar))
    have next := Nat.div_add_mod (pq.curBlock + 1) (B / 2)
    rw [refill.1, Nat.mul_comm, Nat.add_zero] at next
    have window : u64 (pq.curBlock + 1 + B) = pq.curBlock + 1 + B := u64_of_lt (by omega)
    have top : u64 (u64 (pq.curBlock + 1 + B) * 64) = (pq.curBlock + 1 + B) * 64 := by
      rw [window]
      exact u64_of_lt (by omega)
    obtain ⟨next, near', run, ring', far', block, size, members, above⟩ :=
      refillFrom_spec ring list window top fun g member => by
        have := inv.far g member
        show pq.curBlock + 1 ≤ g.1 / 64
        omega
    refine ⟨next, near', run, ⟨ring', far', ?_, inv.distinct, ?_, inv.bounded, ?_, ?_⟩, block⟩
    · intro c obj
      rw [members, inv.split]
    · intro g member
      have := above g member
      rw [top] at this
      have same : next.curBlock = pq.curBlock + 1 := block
      rw [same]
      omega
    · rw [block]
      exact current
    · rw [size]
      exact inv.size
  · rw [if_neg refill]
    refine ⟨_, near, rfl, ⟨ring, list, inv.split, inv.distinct, ?_, inv.bounded, current, inv.size⟩, rfl⟩
    intro g member
    have between : ¬ (pq.curBlock + 1) % (B / 2) = 0 := fun h =>
      refill ⟨h, List.ne_nil_of_mem member⟩
    have base := base_succ pq.curBlock (B / 2)
    rw [if_neg between] at base
    show (pq.curBlock + 1) / (B / 2) * (B / 2) + B ≤ g.1 / 64
    rw [base]
    exact inv.far g member

/-- The loop stops at a populated block: every element lies ahead of it. -/
theorem seek_spec (inv : Inv B pq near inside) (count : BlockCount B) {e : Nat × T}
    (member : e ∈ inside) {fuel : Nat} (enough : 2 ^ 58 ≤ fuel + pq.curBlock) :
    ∃ next near', seek B fuel pq = .ok next ∧ Inv B next near' inside ∧
      (next.blocks (next.curBlock % B)).occ ≠ 0 := by
  induction fuel generalizing pq near with
  | zero =>
      have := inv.current
      omega
  | succ fuel ih =>
      unfold seek
      by_cases empty : (pq.blocks (pq.curBlock % B)).occ = 0
      · obtain ⟨moved, near', step, inv', block⟩ := inv.advance count empty member
        rw [if_pos empty, step]
        exact ih inv' (by omega)
      · rw [if_neg empty]
        exact ⟨pq, near, rfl, inv, empty⟩

theorem Inv.pop (inv : Inv B pq near inside) {cycle : Nat} {obj : T} {rest : List T}
    (here : near cycle = obj :: rest) {blocks : Nat → PQBlock T}
    (ring : Ring B { pq with blocks := blocks, next := Function.update pq.next obj none }
      (Function.update near cycle rest)) :
    Inv B { pq with
      blocks := blocks
      next := Function.update pq.next obj none
      elems := pq.elems - 1 } (Function.update near cycle rest) (inside.erase (cycle, obj)) := by
  have head : obj ∈ near cycle := here ▸ List.mem_cons_self
  have isInside : (cycle, obj) ∈ inside := (inv.split cycle obj).mpr (.inl head)
  have once : obj ∉ rest := (List.nodup_cons.mp (here ▸ inv.nodup cycle)).1
  have mem_rest : ∀ c o, o ∈ Function.update near cycle rest c ↔
      (c, o) ≠ (cycle, obj) ∧ o ∈ near c := by
    intro c o
    by_cases same : c = cycle
    · subst same
      rw [Function.update_self, here, List.mem_cons]
      constructor
      · intro later
        exact ⟨fun h => once ((Prod.mk.inj h).2 ▸ later), .inr later⟩
      · rintro ⟨other, rfl | later⟩
        · exact absurd rfl other
        · exact later
    · rw [Function.update_of_ne same]
      simp [same]
  have notFar : ∀ c, (c, obj) ∉ pq.feMap := fun c far => inv.farList.apart _ far cycle head
  have nodup : inside.Nodup := List.Nodup.of_map _ inv.distinct
  refine ⟨⟨ring.linked, ring.occ, ring.inRing, ring.nodup, ring.once⟩, ⟨inv.farList.once,
    inv.farList.sorted, ?_, ?_⟩, ?_, inv.distinct.sublist (List.erase_sublist.map Prod.snd),
    inv.far, fun e member => inv.bounded e (List.mem_of_mem_erase member), inv.current, ?_⟩
  · intro e far
    have other : e.2 ≠ obj := fun h => notFar e.1 (h ▸ far)
    show Function.update pq.next obj none e.2 = none
    rw [Function.update_of_ne other]
    exact inv.farList.unlinked e far
  · intro e far c linked
    exact inv.farList.apart e far c ((mem_rest c e.2).mp linked).2
  · intro c o
    rw [nodup.mem_erase_iff, mem_rest, inv.split, and_or_left]
    refine or_congr_right ⟨fun h => h.2, fun far => ⟨fun h => ?_, far⟩⟩
    exact notFar c ((Prod.mk.inj h).2 ▸ far)
  · show pq.elems - 1 = _
    rw [List.length_erase_of_mem isInside, inv.size]

/-- With enough fuel `dequeue` takes out an element with the least cycle. -/
theorem Inv.dequeue (inv : Inv B pq near inside) (count : BlockCount B) (nonempty : inside ≠ [])
    {fuel : Nat} (enough : 2 ^ 58 ≤ fuel) :
    ∃ next near' obj cycle, PrioQueue.dequeue B fuel pq = .ok (next, obj, cycle) ∧
      Inv B next near' (inside.erase (cycle, obj)) ∧ (cycle, obj) ∈ inside ∧
      ∀ e ∈ inside, cycle ≤ e.1 := by
  obtain ⟨e, others, isHead⟩ := List.exists_cons_of_ne_nil nonempty
  have member : e ∈ inside := isHead ▸ List.mem_cons_self
  have populated : pq.elems ≠ 0 := by
    rw [inv.size, isHead]
    simp
  obtain ⟨pq, near, found, inv, filled⟩ :=
    seek_spec inv count member (Nat.le_trans enough (Nat.le_add_right fuel pq.curBlock))
  have positive : 0 < B := Nat.lt_of_lt_of_le (by decide) count.atLeast
  obtain ⟨cycle, obj, rest, blocks, here, block, step, ring, least⟩ :=
    blockDequeue_spec positive inv.toRing filled
  have isInside : (cycle, obj) ∈ inside :=
    (inv.split cycle obj).mpr (.inl (here ▸ List.mem_cons_self))
  have deqCycle : u64 (u64 (pq.curBlock * 64) + cycle % 64) = cycle := by
    have range : cycle / 64 + B / 2 < 2 ^ 58 := inv.bounded _ isInside
    rw [u64_of_lt (n := pq.curBlock * 64) (by omega), u64_of_lt (by omega)]
    omega
  refine ⟨_, _, obj, cycle, ?_, inv.pop here ring, isInside, ?_⟩
  · unfold PrioQueue.dequeue
    rw [if_pos populated, found]
    dsimp only
    rw [step]
    dsimp only
    rw [deqCycle]
  · intro f fMember
    rcases (inv.split f.1 f.2).mp fMember with linked | far
    · exact least f.1 (List.ne_nil_of_mem linked)
    · have := inv.far_beyond count far
      omega

/-! ## firstCycle -/

omit [DecidableEq T] in
theorem Inv.unpopulated (inv : Inv B pq near inside) (count : BlockCount B) {i : Nat} (bound : i < B)
    (empty : pq.populated B i = false) {c : Nat} (block : c / 64 = pq.curBlock + i) :
    near c = [] := by
  apply inv.block_empty ⟨by omega, by omega⟩
  unfold populated at empty
  rw [inv.window_fits count (Nat.le_of_lt bound), ← block] at empty
  simpa using empty

omit [DecidableEq T] in
theorem Inv.populated (inv : Inv B pq near inside) (count : BlockCount B) {i : Nat} (bound : i < B)
    (filled : pq.populated B i = true) :
    near (pq.blockCycle B i) ≠ [] ∧ pq.blockCycle B i / 64 = pq.curBlock + i ∧
      ∀ c, c / 64 = pq.curBlock + i → near c ≠ [] → pq.blockCycle B i ≤ c := by
  unfold PrioQueue.populated at filled
  unfold blockCycle
  rw [inv.window_fits count (Nat.le_of_lt bound)] at filled ⊢
  have nonzero : (pq.blocks ((pq.curBlock + i) % B)).occ ≠ 0 := by simpa using filled
  obtain ⟨pos, posEq⟩ : ∃ pos, pos = (pq.blocks ((pq.curBlock + i) % B)).occ.ctz.toNat := ⟨_, rfl⟩
  have offset : pos < 64 := posEq ▸ BitVec.ctz_lt_iff_ne_zero.mpr nonzero
  obtain ⟨cycle, cycleEq⟩ : ∃ cycle, cycle = (pq.curBlock + i) * 64 + pos := ⟨_, rfl⟩
  have block : cycle / 64 = pq.curBlock + i := by omega
  have mod : cycle % 64 = pos := by omega
  have here : near cycle ≠ [] := by
    apply (inv.occ cycle ⟨by omega, by omega⟩).mp
    unfold occupied
    rw [block, mod, posEq]
    exact BitVec.getLsbD_true_ctz_of_ne_zero nonzero
  have word : cycle < 2 ^ 64 := by
    obtain ⟨obj, rest, isHead⟩ := List.exists_cons_of_ne_nil here
    have member : (cycle, obj) ∈ inside :=
      (inv.split cycle obj).mpr (.inl (isHead ▸ List.mem_cons_self))
    have range : cycle / 64 + B / 2 < 2 ^ 58 := inv.bounded _ member
    omega
  dsimp only
  rw [← posEq, u64_of_lt (n := (pq.curBlock + i) * 64) (by omega), ← cycleEq, u64_of_lt word]
  refine ⟨here, block, fun c sameBlock linked => ?_⟩
  have notBelow : ¬ c % 64 < pos := by
    intro below
    have bit := (inv.occ c (inv.inRing c linked)).mpr linked
    rw [occupied, sameBlock, BitVec.getLsbD_false_of_lt_ctz (posEq ▸ below)] at bit
    cases bit
  omega

omit [DecidableEq T] in
theorem Inv.first_populated (inv : Inv B pq near inside) (count : BlockCount B) {i : Nat}
    (bound : i < B) (filled : pq.populated B i = true)
    (before : ∀ j < i, pq.populated B j = false) {c : Nat} (linked : near c ≠ []) :
    pq.blockCycle B i ≤ c := by
  obtain ⟨-, block, least⟩ := inv.populated count bound filled
  obtain ⟨low, high⟩ := inv.inRing c linked
  obtain ⟨j, jEq⟩ : ∃ j, c / 64 = pq.curBlock + j := ⟨c / 64 - pq.curBlock, by omega⟩
  rcases Nat.lt_trichotomy j i with earlier | same | later
  · exact absurd (inv.unpopulated count (by omega) (before j earlier) jEq) linked
  · exact least c (by omega) linked
  · omega

omit [DecidableEq T] in
/-- `firstCycle` is the cycle of an element inside and no other cycle is below it. -/
theorem Inv.firstCycle (inv : Inv B pq near inside) (count : BlockCount B) {obj : T} {cycle : Nat}
    (member : (cycle, obj) ∈ inside) (least : ∀ e ∈ inside, cycle ≤ e.1) :
    pq.firstCycle B = some cycle := by
  have elems : pq.elems ≠ 0 := by
    rw [inv.size]
    exact Nat.ne_of_gt (List.length_pos_of_mem member)
  have le_near : ∀ c, near c ≠ [] → cycle ≤ c := fun c linked => by
    obtain ⟨o, rest, isHead⟩ := List.exists_cons_of_ne_nil linked
    exact least _ ((inv.split c o).mpr (.inl (isHead ▸ List.mem_cons_self)))
  have le_far : ∀ e ∈ pq.feMap, cycle ≤ e.1 := fun e far =>
    least e ((inv.split e.1 e.2).mpr (.inr far))
  unfold PrioQueue.firstCycle
  rw [if_pos elems]
  cases firstHalf : (List.range (B / 2)).find? (pq.populated B) with
  | some i =>
      obtain ⟨filled, inRange, before⟩ := List.find?_range_eq_some.mp firstHalf
      have close : i < B / 2 := List.mem_range.mp inRange
      have bound : i < B := by omega
      obtain ⟨here, block, -⟩ := inv.populated count bound filled
      have above := le_near _ here
      rcases (inv.split cycle obj).mp member with linked | far
      · have := inv.first_populated count bound filled (fun j lt => by simpa using before j lt)
          (List.ne_nil_of_mem linked)
        exact congrArg some (Nat.le_antisymm this above)
      · have beyond : pq.curBlock + B / 2 < cycle / 64 := inv.far_beyond count far
        omega
  | none =>
      have firstEmpty : ∀ j < B / 2, pq.populated B j = false := fun j lt => by
        simpa using List.find?_range_eq_none.mp firstHalf j lt
      dsimp only
      cases secondHalf : (List.range' (B / 2) (B - B / 2)).find? (pq.populated B) with
      | some i =>
          obtain ⟨filled, inRange, before⟩ := List.find?_range'_eq_some.mp secondHalf
          have bound : i < B := by
            have := (List.mem_range'_1.mp inRange).2
            omega
          have allBefore : ∀ j < i, pq.populated B j = false := fun j lt => by
            by_cases close : j < B / 2
            · exact firstEmpty j close
            · simpa using before j (Nat.not_lt.mp close) lt
          have above := le_near _ (inv.populated count bound filled).1
          have first : near cycle ≠ [] → pq.blockCycle B i ≤ cycle :=
            inv.first_populated count bound filled allBefore
          dsimp only
          cases isFar : pq.feMap with
          | nil =>
              have linked : obj ∈ near cycle := by simpa [isFar] using (inv.split cycle obj).mp member
              exact congrArg some (Nat.le_antisymm (first (List.ne_nil_of_mem linked)) above)
          | cons e rest =>
              have aboveFar := le_far e (isFar ▸ List.mem_cons_self)
              have reached : pq.blockCycle B i ≤ cycle ∨ e.1 ≤ cycle :=
                ((inv.split cycle obj).mp member).imp
                  (fun linked => first (List.ne_nil_of_mem linked))
                  (inv.farList.head_le isFar)
              show some (min (pq.blockCycle B i) e.1) = some cycle
              congr 1
              omega
      | none =>
          have isFar : (cycle, obj) ∈ pq.feMap := by
            rcases (inv.split cycle obj).mp member with linked | far
            · obtain ⟨low, high⟩ := inv.mem linked
              obtain ⟨j, jEq⟩ : ∃ j, cycle / 64 = pq.curBlock + j :=
                ⟨cycle / 64 - pq.curBlock, by omega⟩
              have empty : pq.populated B j = false := by
                by_cases close : j < B / 2
                · exact firstEmpty j close
                · simpa using
                    List.find?_range'_eq_none.mp secondHalf j (Nat.not_lt.mp close) (by omega)
              rw [inv.unpopulated count (by omega) empty jEq] at linked
              exact absurd linked List.not_mem_nil
            · exact far
          obtain ⟨e, rest, isHead⟩ := List.exists_cons_of_ne_nil (List.ne_nil_of_mem isFar)
          have below := inv.farList.head_le isHead isFar
          have above := le_far e (isHead ▸ List.mem_cons_self)
          dsimp only
          rw [isHead]
          exact congrArg some (Nat.le_antisymm below above)

end

end Zsim.PrioQueue
