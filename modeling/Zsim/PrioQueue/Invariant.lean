import Zsim.Lib.LinkedList
import Zsim.PrioQueue.Model

/-!
# The ring of blocks

The ring holds the elements with a cycle in the `B` blocks from `curBlock` on:
`near cycle` is the list that hangs on the slot of that cycle.
-/

set_option autoImplicit false

namespace Zsim.PrioQueue

variable {T : Type}

/-- `cycle` lies in one of the `B` blocks of the ring. -/
def InRing (B : Nat) (pq : PrioQueue T) (cycle : Nat) : Prop :=
  pq.curBlock ≤ cycle / 64 ∧ cycle / 64 < pq.curBlock + B

def slot (B : Nat) (pq : PrioQueue T) (cycle : Nat) : Option T :=
  (pq.blocks (cycle / 64 % B)).array (cycle % 64)

def occupied (B : Nat) (pq : PrioQueue T) (cycle : Nat) : Bool :=
  (pq.blocks (cycle / 64 % B)).occ.getLsbD (cycle % 64)

structure Ring (B : Nat) (pq : PrioQueue T) (near : Nat → List T) : Prop where
  linked : ∀ c, InRing B pq c → Linked pq.next (pq.slot B c) (near c)
  occ : ∀ c, InRing B pq c → (pq.occupied B c = true ↔ near c ≠ [])
  inRing : ∀ c, near c ≠ [] → InRing B pq c
  nodup : ∀ c, (near c).Nodup
  once : ∀ c d obj, obj ∈ near c → obj ∈ near d → c = d

theorem Ring.mem {B : Nat} {pq : PrioQueue T} {near : Nat → List T} (ring : Ring B pq near)
    {c : Nat} {obj : T} (member : obj ∈ near c) : InRing B pq c :=
  ring.inRing c (List.ne_nil_of_mem member)

/-! ## Writes to a slot -/

theorem cycle_eq {c d : Nat} (block : c / 64 = d / 64) (offset : c % 64 = d % 64) : c = d := by
  omega

theorem InRing.block_eq {B : Nat} {pq : PrioQueue T} {c d : Nat} (inC : InRing B pq c)
    (inD : InRing B pq d) (same : c / 64 % B = d / 64 % B) : c / 64 = d / 64 :=
  eq_of_mod_eq inC.1 inC.2 inD.1 inD.2 same

variable [DecidableEq T]

/-- The queue after a write of the slot of `cycle`, of its bit and of a link. -/
def write (B : Nat) (pq : PrioQueue T) (cycle : Nat) (head : Option T) (occ : BitVec 64)
    (obj : T) (link : Option T) : PrioQueue T :=
  { pq with
    blocks := Function.update pq.blocks (cycle / 64 % B)
      { array := Function.update (pq.blocks (cycle / 64 % B)).array (cycle % 64) head, occ := occ }
    next := Function.update pq.next obj link }

section
variable {B : Nat} {pq : PrioQueue T} {c d : Nat}

theorem slot_write (inC : InRing B pq c) (inD : InRing B pq d) (head : Option T)
    (occ : BitVec 64) (obj : T) (link : Option T) :
    (pq.write B c head occ obj link).slot B d = if d = c then head else pq.slot B d := by
  unfold slot write
  dsimp only
  by_cases index : d / 64 % B = c / 64 % B
  · have block := inD.block_eq inC index
    rw [index, Function.update_self]
    dsimp only
    by_cases offset : d % 64 = c % 64
    · rw [offset, Function.update_self, if_pos (cycle_eq block offset)]
    · rw [Function.update_of_ne offset, if_neg (fun h => offset (by rw [h]))]
  · rw [Function.update_of_ne index, if_neg (fun h => index (by rw [h]))]

theorem occupied_write (inC : InRing B pq c) (inD : InRing B pq d) (head : Option T)
    {occ : BitVec 64} {bit : Bool} (obj : T) (link : Option T)
    (bits : ∀ i, i < 64 → occ.getLsbD i =
      if i = c % 64 then bit else (pq.blocks (c / 64 % B)).occ.getLsbD i) :
    (pq.write B c head occ obj link).occupied B d = if d = c then bit else pq.occupied B d := by
  unfold occupied write
  dsimp only
  have bound : d % 64 < 64 := Nat.mod_lt d (by decide)
  by_cases index : d / 64 % B = c / 64 % B
  · have block := inD.block_eq inC index
    rw [index, Function.update_self, bits _ bound]
    by_cases offset : d % 64 = c % 64
    · rw [if_pos offset, if_pos (cycle_eq block offset)]
    · rw [if_neg offset, if_neg (fun h => offset (by rw [h]))]
  · rw [Function.update_of_ne index, if_neg (fun h => index (by rw [h]))]

/-- A write keeps the ring if the slot then holds `objs` and no other list loses
an element. -/
theorem Ring.write {near : Nat → List T} (ring : Ring B pq near) (inC : InRing B pq c)
    {objs : List T} {head : Option T} {occ : BitVec 64} {obj : T} {link : Option T}
    (linked : Linked (Function.update pq.next obj link) head objs)
    (bits : ∀ i, i < 64 → occ.getLsbD i =
      if i = c % 64 then decide (objs ≠ []) else (pq.blocks (c / 64 % B)).occ.getLsbD i)
    (nodup : objs.Nodup) (absent : ∀ d, d ≠ c → ∀ o ∈ obj :: objs, o ∉ near d) :
    Ring B (pq.write B c head occ obj link) (Function.update near c objs) where
  linked d inD := by
    change InRing B pq d at inD
    rw [slot_write inC inD]
    by_cases here : d = c
    · subst here
      rw [if_pos rfl, Function.update_self]
      exact linked
    · rw [if_neg here, Function.update_of_ne here]
      exact (ring.linked d inD).frame (absent d here obj List.mem_cons_self) link
  occ d inD := by
    change InRing B pq d at inD
    rw [occupied_write inC inD head obj link bits]
    by_cases here : d = c
    · subst here
      rw [if_pos rfl, Function.update_self, decide_eq_true_iff]
    · rw [if_neg here, Function.update_of_ne here]
      exact ring.occ d inD
  inRing d filled := by
    by_cases here : d = c
    · exact here ▸ inC
    · rw [Function.update_of_ne here] at filled
      exact ring.inRing d filled
  nodup d := by
    by_cases here : d = c
    · subst here
      rw [Function.update_self]
      exact nodup
    · rw [Function.update_of_ne here]
      exact ring.nodup d
  once d e o inD inE := by
    by_cases hereD : d = c <;> by_cases hereE : e = c
    · rw [hereD, hereE]
    · rw [hereD, Function.update_self] at inD
      rw [Function.update_of_ne hereE] at inE
      exact absurd inE (absent e hereE o (List.mem_cons_of_mem obj inD))
    · rw [hereE, Function.update_self] at inE
      rw [Function.update_of_ne hereD] at inD
      exact absurd inD (absent d hereD o (List.mem_cons_of_mem obj inE))
    · rw [Function.update_of_ne hereD] at inD
      rw [Function.update_of_ne hereE] at inE
      exact ring.once d e o inD inE

end

/-! ## PQBlock -/

theorem blockEnqueue_spec {B : Nat} {pq : PrioQueue T} {near : Nat → List T}
    (ring : Ring B pq near) {cycle : Nat} (inRing : InRing B pq cycle) {obj : T}
    (unlinked : pq.next obj = none) (absent : ∀ c, obj ∉ near c) :
    ∃ blocks link,
      pq.blockEnqueue (cycle / 64 % B) obj (cycle % 64) =
        some { pq with blocks := blocks, next := Function.update pq.next obj link } ∧
      Ring B { pq with blocks := blocks, next := Function.update pq.next obj link }
        (Function.update near cycle (obj :: near cycle)) := by
  have bound : cycle % 64 < 64 := Nat.mod_lt cycle (by decide)
  refine ⟨_, _, if_pos unlinked, ?_⟩
  refine ring.write inRing ((ring.linked cycle inRing).push (absent cycle)) ?_
    (List.nodup_cons.mpr ⟨absent cycle, ring.nodup cycle⟩) ?_
  · intro i hi
    rw [BitVec.getLsbD_or, BitVec.getLsbD_twoPow]
    by_cases here : i = cycle % 64
    · simp [here, bound]
    · simp [here, Ne.symm here]
  · intro d other o member
    rcases List.mem_cons.mp member with rfl | member
    · exact absent d
    rcases List.mem_cons.mp member with rfl | member
    · exact absent d
    · exact fun elsewhere => other (ring.once d cycle o elsewhere member)

theorem blockDequeue_spec {B : Nat} (positive : 0 < B) {pq : PrioQueue T} {near : Nat → List T}
    (ring : Ring B pq near) (filled : (pq.blocks (pq.curBlock % B)).occ ≠ 0) :
    ∃ cycle obj rest blocks,
      near cycle = obj :: rest ∧ cycle / 64 = pq.curBlock ∧
      pq.blockDequeue (pq.curBlock % B) =
        some ({ pq with blocks := blocks, next := Function.update pq.next obj none },
          obj, cycle % 64) ∧
      Ring B { pq with blocks := blocks, next := Function.update pq.next obj none }
        (Function.update near cycle rest) ∧
      ∀ c, near c ≠ [] → cycle ≤ c := by
  obtain ⟨pos, posEq⟩ : ∃ pos, pos = (pq.blocks (pq.curBlock % B)).occ.ctz.toNat := ⟨_, rfl⟩
  have bound : pos < 64 := posEq ▸ BitVec.ctz_lt_iff_ne_zero.mpr filled
  obtain ⟨cycle, block, offset⟩ : ∃ cycle, cycle / 64 = pq.curBlock ∧ cycle % 64 = pos :=
    ⟨pq.curBlock * 64 + pos, by omega, by omega⟩
  have inRing : InRing B pq cycle := ⟨by omega, by omega⟩
  have set : pq.occupied B cycle = true := by
    unfold occupied
    rw [block, offset, posEq]
    exact BitVec.getLsbD_true_ctz_of_ne_zero filled
  obtain ⟨obj, rest, here⟩ := List.exists_cons_of_ne_nil ((ring.occ cycle inRing).mp set)
  have linked := here ▸ ring.linked cycle inRing
  have once := List.nodup_cons.mp (here ▸ ring.nodup cycle)
  have head : (pq.blocks (pq.curBlock % B)).array pos = some obj := by
    rw [← block, ← offset]
    exact linked.1
  have empty : pq.next obj = none ↔ rest = [] := linked.2.head_none_iff
  obtain ⟨occ, occEq⟩ : ∃ occ, occ = if pq.next obj = none
      then (pq.blocks (pq.curBlock % B)).occ ^^^ BitVec.twoPow 64 pos
      else (pq.blocks (pq.curBlock % B)).occ := ⟨_, rfl⟩
  have kept : Ring B (pq.write B cycle (pq.next obj) occ obj none) (Function.update near cycle rest) := by
    refine ring.write inRing (linked.pop once.1) ?_ once.2 ?_
    · intro i hi
      rw [occEq, block, offset]
      by_cases last : rest = []
      · rw [if_pos (empty.mpr last), BitVec.getLsbD_xor, BitVec.getLsbD_twoPow]
        by_cases same : i = pos
        · subst same
          simpa [last, bound, occupied, block, offset] using set
        · simp [same, Ne.symm same]
      · rw [if_neg fun h => last (empty.mp h)]
        by_cases same : i = pos
        · subst same
          simpa [last, occupied, block, offset] using set
        · simp [same]
    · intro d other o member elsewhere
      exact other (ring.once d cycle o elsewhere (here ▸ member))
  refine ⟨cycle, obj, rest, _, here, block, ?_, kept, ?_⟩
  · unfold blockDequeue
    dsimp only
    rw [if_pos filled, ← posEq, head, offset, block, occEq]
  · intro c populated
    have inC := ring.inRing c populated
    have bit := (ring.occ c inC).mpr populated
    by_cases current : c / 64 = pq.curBlock
    · have notBelow : ¬ c % 64 < pos := by
        intro below
        rw [occupied, current, BitVec.getLsbD_false_of_lt_ctz (posEq ▸ below)] at bit
        cases bit
      omega
    · have := inC.1
      omega

end Zsim.PrioQueue
