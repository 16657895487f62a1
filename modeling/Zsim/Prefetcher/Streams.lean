import Zsim.Prefetcher.Model

/-!
# Strides

An access that continues the stream of an entry, and where it prefetches.
-/

set_option autoImplicit false

namespace Zsim.Prefetcher

/-! ## Lines and positions -/

theorem pageAddr_toNat (lineAddr : BitVec 64) : (pageAddr lineAddr).toNat = lineAddr.toNat / 64 := by
  rw [pageAddr, BitVec.toNat_ushiftRight, Nat.shiftRight_eq_div_pow]

theorem posOf_toNat (lineAddr : BitVec 64) : (posOf lineAddr).toNat = lineAddr.toNat % 64 := by
  have mask : (63 : BitVec 64).toNat = 2 ^ 6 - 1 := rfl
  rw [posOf, BitVec.toNat_setWidth, BitVec.toNat_and, mask, Nat.and_two_pow_sub_one_eq_mod]
  omega

theorem posOf_lt (lineAddr : BitVec 64) : (posOf lineAddr).toNat < 64 := by
  rw [posOf_toNat]
  omega

/-- The line of a position in the page of an access. -/
def lineAt (lineAddr : BitVec 64) (pos : BitVec 32) : BitVec 64 :=
  lineAddr + pos.setWidth 64 - (posOf lineAddr).setWidth 64

theorem lineAt_toNat (lineAddr : BitVec 64) {pos : BitVec 32} (lt : pos.toNat < 64) :
    (lineAt lineAddr pos).toNat = lineAddr.toNat / 64 * 64 + pos.toNat := by
  have isPos := posOf_toNat lineAddr
  have word := lineAddr.isLt
  rw [lineAt, BitVec.toNat_sub, BitVec.toNat_add, BitVec.toNat_setWidth, BitVec.toNat_setWidth, isPos]
  omega

theorem pageAddr_lineAt (lineAddr : BitVec 64) {pos : BitVec 32} (lt : pos.toNat < 64) :
    pageAddr (lineAt lineAddr pos) = pageAddr lineAddr := by
  apply BitVec.eq_of_toNat_eq
  rw [pageAddr_toNat, pageAddr_toNat, lineAt_toNat lineAddr lt]
  omega

theorem posOf_lineAt (lineAddr : BitVec 64) {pos : BitVec 32} (lt : pos.toNat < 64) :
    posOf (lineAt lineAddr pos) = pos := by
  apply BitVec.eq_of_toNat_eq
  rw [posOf_toNat, lineAt_toNat lineAddr lt]
  omega

theorem eq_of_page_pos {l l' : BitVec 64} (page : pageAddr l = pageAddr l') (pos : posOf l = posOf l') :
    l = l' := by
  have page := congrArg BitVec.toNat page
  have pos := congrArg BitVec.toNat pos
  rw [pageAddr_toNat, pageAddr_toNat] at page
  rw [posOf_toNat, posOf_toNat] at pos
  apply BitVec.eq_of_toNat_eq
  omega

theorem toInt_sub {p q : BitVec 32} (left : p.toNat < 64) (right : q.toNat < 64) :
    (p - q).toInt = (p.toNat : Int) - q.toNat := by
  rw [BitVec.toInt_eq_toNat_cond, BitVec.toNat_sub]
  split <;> omega

theorem lineAt_add (lineAddr : BitVec 64) {pos stride : BitVec 32} (lt : pos.toNat < 64)
    (lt' : (pos + stride).toNat < 64) :
    lineAt lineAddr pos + stride.signExtend 64 = lineAt lineAddr (pos + stride) := by
  obtain ⟨next, isNext⟩ : ∃ next, next = pos + stride := ⟨_, rfl⟩
  have isStride : stride = next - pos := by
    rw [isNext, BitVec.add_comm, BitVec.add_sub_cancel]
  rw [← isNext] at lt' ⊢
  have sign : (stride.signExtend 64).toNat = (((next.toNat : Int) - pos.toNat) % 2 ^ 64).toNat := by
    rw [isStride, BitVec.signExtend, toInt_sub lt' lt, BitVec.toNat_ofInt]
    rfl
  have word := lineAddr.isLt
  apply BitVec.eq_of_toNat_eq
  rw [BitVec.toNat_add, lineAt_toNat lineAddr lt, lineAt_toNat lineAddr lt', sign]
  omega

theorem toNat_add {p stride : BitVec 32} (lt : p.toNat < 64) (lt' : (p + stride).toNat < 64) :
    ((p + stride).toNat : Int) = p.toNat + stride.toInt := by
  have isStride : stride = p + stride - p := by
    rw [BitVec.add_comm, BitVec.add_sub_cancel]
  have difference := toInt_sub lt' lt
  rw [← isStride] at difference
  omega

namespace Entry

/-- What the entry of a page keeps: a stride, and positions in the page that are a multiple of it
apart. -/
structure Ok (e : Entry) : Prop where
  stride : e.stride ≠ 0
  lastPos : e.lastPos.toNat < 64
  lastPrefetchPos : e.lastPrefetchPos.toNat < 64
  aligned : ∃ k : Int, (e.lastPrefetchPos.toNat : Int) = e.lastPos.toNat + k * e.stride.toInt

/-- The last prefetch is behind a stream that goes up by more than one line. -/
def Stale (e : Entry) : Prop := 2 ≤ e.stride.toInt ∧ e.lastPrefetchPos.toNat < e.lastPos.toNat

instance decidableStale (e : Entry) : Decidable e.Stale := inferInstanceAs (Decidable (_ ∧ _))

theorem toInt_ne_zero {stride : BitVec 32} (ne : stride ≠ 0) : stride.toInt ≠ 0 :=
  fun zero => ne (BitVec.eq_of_toInt_eq zero)

/-- The quotient is unsigned: it is positive only if the last prefetch is ahead, or stale. -/
theorem fetchDepth_pos {e : Entry} (ok : e.Ok) (notStale : ¬ e.Stale) {k : Int}
    (aligned : (e.lastPrefetchPos.toNat : Int) = e.lastPos.toNat + k * e.stride.toInt)
    (deep : (e.fetchDepth e.stride).slt 1 = false) : 1 ≤ k := by
  have left := ok.lastPrefetchPos
  have right := ok.lastPos
  have notZero := toInt_ne_zero ok.stride
  have depth : 1 ≤ (e.fetchDepth e.stride).toInt := by
    rw [BitVec.slt_eq_decide, decide_eq_false_iff_not] at deep
    exact Int.not_lt.mp deep
  have quotient : (e.fetchDepth e.stride).toNat =
      (e.lastPrefetchPos - e.lastPos).toNat / e.stride.toNat := BitVec.toNat_udiv
  have isInt := BitVec.toInt_eq_toNat_cond (e.fetchDepth e.stride)
  have strideInt := BitVec.toInt_eq_toNat_cond e.stride
  have difference := BitVec.toNat_sub e.lastPrefetchPos e.lastPos
  by_contra notAhead
  rcases Int.lt_or_gt_of_ne notZero with down | up
  · rcases Nat.lt_or_ge e.lastPrefetchPos.toNat e.lastPos.toNat with ahead | behind
    · have := Int.mul_nonneg_of_nonpos_of_nonpos (a := k) (b := e.stride.toInt) (by omega) (by omega)
      omega
    · -- the stride is a large divisor
      have small : (e.lastPrefetchPos - e.lastPos).toNat < e.stride.toNat := by omega
      rw [Nat.div_eq_of_lt small] at quotient
      omega
  · rcases Nat.lt_or_ge e.lastPrefetchPos.toNat e.lastPos.toNat with behind | ahead
    · have one : e.stride.toNat = 1 := by
        unfold Stale at notStale
        omega
      rw [one, Nat.div_one] at quotient
      omega
    · have enough : e.stride.toNat ≤ (e.lastPrefetchPos - e.lastPos).toNat := by
        by_contra less
        rw [Nat.div_eq_of_lt (Nat.lt_of_not_le less)] at quotient
        omega
      have := Int.mul_nonpos_of_nonpos_of_nonneg (a := k) (b := e.stride.toInt) (by omega) (by omega)
      omega

theorem prefetchPos_spec {e : Entry} (ok : e.Ok) {pos : BitVec 32} (follows : pos = e.lastPos + e.stride)
    (lt : pos.toNat < 64) (inPage : (e.prefetchPos pos e.stride).toNat < 64) :
    ∃ j : Int, ((e.prefetchPos pos e.stride).toNat : Int) = pos.toNat + j * e.stride.toInt ∧
      (¬ e.Stale → 1 ≤ j) := by
  obtain ⟨k, aligned⟩ := ok.aligned
  have isPos : (pos.toNat : Int) = e.lastPos.toNat + e.stride.toInt := by
    rw [follows] at lt ⊢
    exact toNat_add ok.lastPos lt
  unfold prefetchPos at inPage ⊢
  cases deep : (e.fetchDepth e.stride).slt 1 with
  | true =>
      rw [deep] at inPage
      exact ⟨1, by rw [Int.one_mul]; exact toNat_add lt inPage, fun _ => Int.le_refl 1⟩
  | false =>
      rw [deep] at inPage
      refine ⟨k, ?_, fun notStale => fetchDepth_pos ok notStale aligned deep⟩
      have target : ((e.lastPrefetchPos + e.stride).toNat : Int) = e.lastPrefetchPos.toNat + e.stride.toInt :=
        toNat_add ok.lastPrefetchPos inPage
      change ((e.lastPrefetchPos + e.stride).toNat : Int) = _
      omega

/-- What `issue` may do. -/
inductive Issued (a : Access) (stride : BitVec 32) (e : Entry) : List (BitVec 64) × Entry → Prop
  | nothing : Issued a stride e ([], e)
  | one (lt : (e.prefetchPos (posOf a.lineAddr) stride).toNat < 64)
      (free : e.valid (e.prefetchPos (posOf a.lineAddr) stride) = false) :
      Issued a stride e ([lineAt a.lineAddr (e.prefetchPos (posOf a.lineAddr) stride)],
        { e.fill (e.prefetchPos (posOf a.lineAddr) stride) a.pfRespCycle with
          lastPrefetchPos := e.prefetchPos (posOf a.lineAddr) stride })
  | two (lt : (e.prefetchPos (posOf a.lineAddr) stride).toNat < 64)
      (free : e.valid (e.prefetchPos (posOf a.lineAddr) stride) = false)
      (lt' : (e.prefetchPos (posOf a.lineAddr) stride + stride).toNat < 64)
      (free' : (e.fill (e.prefetchPos (posOf a.lineAddr) stride) a.pfRespCycle).valid
        (e.prefetchPos (posOf a.lineAddr) stride + stride) = false) :
      Issued a stride e ([lineAt a.lineAddr (e.prefetchPos (posOf a.lineAddr) stride),
          lineAt a.lineAddr (e.prefetchPos (posOf a.lineAddr) stride + stride)],
        { (e.fill (e.prefetchPos (posOf a.lineAddr) stride) a.pfRespCycle).fill
            (e.prefetchPos (posOf a.lineAddr) stride + stride) a.doubleRespCycle with
          lastPrefetchPos := e.prefetchPos (posOf a.lineAddr) stride + stride })

theorem issue_issued (e : Entry) (a : Access) (stride : BitVec 32) (shortPrefetch : Bool) :
    Issued a stride e (e.issue a stride shortPrefetch) := by
  unfold issue
  dsimp only
  by_cases first : e.prefetchPos (posOf a.lineAddr) stride < 64 ∧
      e.valid (e.prefetchPos (posOf a.lineAddr) stride) = false
  · have lt : (e.prefetchPos (posOf a.lineAddr) stride).toNat < 64 := BitVec.lt_def.mp first.1
    rw [if_pos first]
    generalize (if (e.fetchDepth stride).slt 1 = true then (1 : BitVec 32) else e.fetchDepth stride) = depth
    split
    case isTrue second =>
      have lt' : (e.prefetchPos (posOf a.lineAddr) stride + stride).toNat < 64 :=
        BitVec.lt_def.mp second.2.2.1
      have double := lineAt_add a.lineAddr lt lt'
      rw [lineAt] at double
      rw [double]
      exact .two lt first.2 lt' second.2.2.2
    case isFalse => exact .one lt first.2
  · rw [if_neg first]
    exact .nothing

/-- What an access to its page makes of an entry in which it has consumed its position. -/
structure Trained (a : Access) (e : Entry) (lines : List (BitVec 64)) (e' : Entry) : Prop where
  ahead : ∀ l ∈ lines, pageAddr l = pageAddr a.lineAddr ∧ e.valid (posOf l) = false ∧
    ∃ j : Int, ((posOf l).toNat : Int) = (posOf a.lineAddr).toNat + j * e.stride.toInt ∧
      (¬ e.Stale → 1 ≤ j)
  nodup : lines.Nodup
  kept : ∀ pos, e.valid pos = true → e'.valid pos = true
  filled : ∀ l ∈ lines, e'.valid (posOf l) = true
  allocated : e'.allocated = e.allocated
  ok : (e'.advance (posOf a.lineAddr)).Ok

theorem Ok.inc {e : Entry} (ok : e.Ok) : e.inc.Ok := ⟨ok.stride, ok.lastPos, ok.lastPrefetchPos, ok.aligned⟩

theorem fill_kept {e : Entry} {pos : BitVec 32} (valid : e.valid pos = true) (other : BitVec 32)
    (respCycle : Nat) : (e.fill other respCycle).valid pos = true := by
  by_cases same : pos = other
  · rw [same]
    exact Function.update_self ..
  · exact (Function.update_of_ne same ..).trans valid

theorem fill_self (e : Entry) (pos : BitVec 32) (respCycle : Nat) : (e.fill pos respCycle).valid pos = true :=
  Function.update_self ..

theorem issue_trained {e : Entry} (ok : e.Ok) {a : Access} (follows : posOf a.lineAddr = e.lastPos + e.stride)
    {issued : List (BitVec 64) × Entry} (isIssued : Issued a e.stride e issued) :
    Trained a e issued.1 issued.2 := by
  have lt := posOf_lt a.lineAddr
  obtain ⟨k, aligned⟩ := ok.aligned
  have isPos : ((posOf a.lineAddr).toNat : Int) = e.lastPos.toNat + e.stride.toInt := by
    rw [follows] at lt ⊢
    exact toNat_add ok.lastPos lt
  cases isIssued with
  | nothing =>
      refine ⟨fun l member => absurd member List.not_mem_nil, .nil, fun _ valid => valid,
        fun l member => absurd member List.not_mem_nil, rfl, ok.stride, lt, ok.lastPrefetchPos, k - 1, ?_⟩
      change (e.lastPrefetchPos.toNat : Int) = (posOf a.lineAddr).toNat + (k - 1) * e.stride.toInt
      rw [Int.sub_mul]
      omega
  | one target free =>
      obtain ⟨j, isTarget, ahead⟩ := prefetchPos_spec ok follows lt target
      refine ⟨fun l member => ?_, List.nodup_singleton _, fun pos valid => fill_kept valid _ a.pfRespCycle,
        fun l member => ?_, rfl, ok.stride, lt, target, j, isTarget⟩
      · rw [List.mem_singleton.mp member, pageAddr_lineAt a.lineAddr target, posOf_lineAt a.lineAddr target]
        exact ⟨rfl, free, j, isTarget, ahead⟩
      · rw [List.mem_singleton.mp member, posOf_lineAt a.lineAddr target]
        exact fill_self e _ a.pfRespCycle
  | two target free target' free' =>
      obtain ⟨j, isTarget, ahead⟩ := prefetchPos_spec ok follows lt target
      have isTarget' := toNat_add target target'
      have ne : e.prefetchPos (posOf a.lineAddr) e.stride + e.stride ≠
          e.prefetchPos (posOf a.lineAddr) e.stride := by
        intro same
        rw [same, fill_self] at free'
        cases free'
      have next : ((e.prefetchPos (posOf a.lineAddr) e.stride + e.stride).toNat : Int) =
          (posOf a.lineAddr).toNat + (j + 1) * e.stride.toInt := by
        rw [Int.add_mul]
        omega
      refine ⟨fun l member => ?_, ?_,
        fun pos valid => fill_kept (fill_kept valid _ a.pfRespCycle) _ a.doubleRespCycle,
        fun l member => ?_, rfl, ok.stride, lt, target', j + 1, next⟩
      · rcases List.mem_pair.mp member with rfl | rfl
        · rw [pageAddr_lineAt a.lineAddr target, posOf_lineAt a.lineAddr target]
          exact ⟨rfl, free, j, isTarget, ahead⟩
        · rw [pageAddr_lineAt a.lineAddr target', posOf_lineAt a.lineAddr target']
          refine ⟨rfl, (Function.update_of_ne ne ..).symm.trans free', j + 1, next, fun notStale => ?_⟩
          have := ahead notStale
          omega
      · refine List.nodup_cons.mpr ⟨fun member => ne ?_, List.nodup_singleton _⟩
        have same := List.mem_singleton.mp member
        calc e.prefetchPos (posOf a.lineAddr) e.stride + e.stride = _ := (posOf_lineAt a.lineAddr target').symm
          _ = _ := congrArg posOf same.symm
          _ = e.prefetchPos (posOf a.lineAddr) e.stride := posOf_lineAt a.lineAddr target
      · rcases List.mem_pair.mp member with rfl | rfl
        · rw [posOf_lineAt a.lineAddr target]
          exact fill_kept (fill_self e _ a.pfRespCycle) _ a.doubleRespCycle
        · rw [posOf_lineAt a.lineAddr target']
          exact fill_self (e.fill _ a.pfRespCycle) _ a.doubleRespCycle

theorem Trained.inc {a : Access} {e e' : Entry} {lines : List (BitVec 64)}
    (trained : Trained a e.inc lines e') : Trained a e lines e' :=
  ⟨trained.ahead, trained.nodup, trained.kept, trained.filled, trained.allocated, trained.ok⟩

theorem switch_trained {e : Entry} (ok : e.Ok) (a : Access) (stride : BitVec 32) :
    Trained a e [] (e.switch (posOf a.lineAddr) stride) := by
  have lt := posOf_lt a.lineAddr
  unfold switch
  dsimp only
  split
  case isTrue switches =>
    exact ⟨fun l member => absurd member List.not_mem_nil, .nil, fun _ valid => valid,
      fun l member => absurd member List.not_mem_nil, rfl, switches.2.1, lt, lt, 0, by simp [advance]⟩
  case isFalse =>
    exact ⟨fun l member => absurd member List.not_mem_nil, .nil, fun _ valid => valid,
      fun l member => absurd member List.not_mem_nil, rfl, ok.stride, lt, lt, 0, by simp [advance]⟩

theorem train_spec {e : Entry} (ok : e.Ok) (a : Access) (shortPrefetch : Bool) :
    ∃ lines e', e.train a shortPrefetch = some (lines, e') ∧ Trained a e lines e' := by
  unfold train
  dsimp only
  by_cases same : e.stride = posOf a.lineAddr - e.lastPos
  · have follows : posOf a.lineAddr = e.lastPos + e.stride := by
      rw [same, BitVec.add_comm, BitVec.sub_add_cancel]
    rw [if_pos same, ← same]
    by_cases confident : e.inc.pred = true
    · rw [if_pos confident, if_neg ok.stride]
      exact ⟨_, _, rfl, (issue_trained ok.inc follows (issue_issued e.inc a e.stride shortPrefetch)).inc⟩
    · rw [if_neg confident]
      exact ⟨_, _, rfl, (issue_trained ok.inc follows .nothing).inc⟩
  · rw [if_neg same]
    exact ⟨_, _, rfl, switch_trained ok a _⟩

theorem Ok.consume {e : Entry} (ok : e.Ok) (pos : BitVec 32) (respCycle : Nat) :
    (e.consume pos respCycle).2.2.Ok := by
  unfold Entry.consume
  split
  · exact ⟨ok.stride, ok.lastPos, ok.lastPrefetchPos, ok.aligned⟩
  · exact ok

theorem consume_valid (e : Entry) (pos : BitVec 32) (respCycle : Nat) (other : BitVec 32) :
    (e.consume pos respCycle).2.2.valid other = (e.valid other && other != pos) := by
  unfold consume
  by_cases same : other = pos
  · subst same
    split <;> simp_all
  · split
    · simp [same]
    · simp [same]

theorem consume_stale (e : Entry) (pos : BitVec 32) (respCycle : Nat) :
    (e.consume pos respCycle).2.2.Stale ↔ e.Stale := by
  unfold consume
  split <;> exact Iff.rfl

theorem consume_stride (e : Entry) (pos : BitVec 32) (respCycle : Nat) :
    (e.consume pos respCycle).2.2.stride = e.stride ∧
      (e.consume pos respCycle).2.2.allocated = e.allocated := by
  unfold consume
  split <;> exact ⟨rfl, rfl⟩

/-- An access to the page of an entry. -/
structure Hit (a : Access) (e : Entry) (lines : List (BitVec 64)) (e' : Entry) : Prop where
  ahead : ∀ l ∈ lines, pageAddr l = pageAddr a.lineAddr ∧
    (e.valid (posOf l) = false ∨ posOf l = posOf a.lineAddr) ∧
    ∃ j : Int, ((posOf l).toNat : Int) = (posOf a.lineAddr).toNat + j * e.stride.toInt ∧
      (¬ e.Stale → 1 ≤ j)
  nodup : lines.Nodup
  kept : ∀ pos, pos ≠ posOf a.lineAddr → e.valid pos = true → e'.valid pos = true
  filled : ∀ l ∈ lines, e'.valid (posOf l) = true
  allocated : e'.allocated = e.allocated
  ok : e'.Ok

theorem hit_spec {e : Entry} (ok : e.Ok) (a : Access) :
    ∃ respCycle lines e', e.hit a = some (respCycle, lines, e') ∧ Hit a e lines e' := by
  obtain ⟨lines, e', trains, trained⟩ := train_spec (ok.consume (posOf a.lineAddr) a.respCycle) a
    (e.consume (posOf a.lineAddr) a.respCycle).1
  obtain ⟨sameStride, sameAllocated⟩ := consume_stride e (posOf a.lineAddr) a.respCycle
  have valid := consume_valid e (posOf a.lineAddr) a.respCycle
  have stale := consume_stale e (posOf a.lineAddr) a.respCycle
  refine ⟨_, lines, e'.advance (posOf a.lineAddr), congrArg (Option.map _) trains, fun l member => ?_,
    trained.nodup, fun pos ne isValid => ?_, trained.filled, trained.allocated.trans sameAllocated, trained.ok⟩
  · obtain ⟨page, free, j, isPos, ahead⟩ := trained.ahead l member
    rw [valid] at free
    rw [sameStride] at isPos
    rw [stale] at ahead
    refine ⟨page, ?_, j, isPos, ahead⟩
    by_cases same : posOf l = posOf a.lineAddr
    · exact .inr same
    · left
      simpa [same] using free
  · apply trained.kept
    rw [valid, isValid]
    simpa using ne

end Entry

end Zsim.Prefetcher
