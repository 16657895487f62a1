import Mathlib.Data.List.Basic
import Zsim.Config.Grammar

/-!
# The reading of masks

An item that can be read becomes a range of machine integers, which fills the mask as the item says if it
fits.
-/

set_option autoImplicit false

namespace Zsim.Config

/-! ## Ranges -/

structure Reads (range : Range) (item : Item) : Prop where
  min : range.min.toInt = item.min
  sup : range.sup.toInt = item.sup
  step : range.step.toInt = item.step

theorem toInt_toInt32 (x : UInt32) :
    x.toInt32.toInt = if x.toNat < 2 ^ 31 then (x.toNat : Int) else x.toNat - 2 ^ 32 := by
  have word := x.toNat_lt
  have cast : x.toInt32 = Int32.ofNat x.toNat := by
    rw [← UInt32.toInt32_ofNat', UInt32.ofNat_toNat]
  rw [cast, Int32.toInt_ofNat', Int.bmod_def, Int32.size]
  omega

theorem toInt_small {x : UInt32} (small : x.toNat < 2 ^ 31) : x.toInt32.toInt = x.toNat := by
  rw [toInt_toInt32, if_pos small]

theorem small_of_nonneg {x : UInt32} (nonneg : 0 ≤ x.toInt32.toInt) : x.toNat < 2 ^ 31 := by
  have word := x.toNat_lt
  rw [toInt_toInt32] at nonneg
  omega

theorem check_eq_some {min sup step : Int32} {range : Range} (checked : Range.check min sup step = some range) :
    range.min = min ∧ range.sup = sup ∧ range.step = step := by
  unfold Range.check at checked
  split at checked
  · cases checked
  · split at checked
    · cases checked
    · split at checked
      · cases checked
      · cases Option.some.inj checked
        exact ⟨rfl, rfl, rfl⟩

theorem check_of {min sup step : Int32} (nonneg : 0 ≤ min.toInt) (lt : min.toInt < sup.toInt)
    (pos : 0 < step.toInt) : ∃ range, Range.check min sup step = some range := by
  have zero := Int32.toInt_zero
  have notNegative : ¬ (min < 0 ∨ step < 0 ∨ sup < 0) := by
    simp only [Int32.lt_iff_toInt_lt, zero]
    omega
  have notZero : step ≠ 0 := by
    rintro rfl
    exact absurd pos (by decide)
  have notEmpty : ¬ sup ≤ min := Int32.not_le.mpr (Int32.lt_iff_toInt_lt.mpr lt)
  unfold Range.check
  rw [dif_neg notNegative, dif_neg notZero, dif_neg notEmpty]
  exact ⟨_, rfl⟩

/-! ## Items -/

/-- Words that are read as numbers are read as `int32_t`. -/
theorem mapM_looseNumeral {parts : List (List Char)} {numbers : List Nat} :
    parts.mapM looseNumeral = some numbers ↔
      ∃ ns, parts.mapM extract = some ns ∧ (∀ x ∈ ns, x.toNat < 2 ^ 31) ∧ numbers = ns.map UInt32.toNat := by
  induction parts generalizing numbers with
  | nil =>
      constructor
      · intro run
        cases Option.some.inj run
        exact ⟨[], rfl, fun x none => absurd none List.not_mem_nil, rfl⟩
      · rintro ⟨ns, run, -, rfl⟩
        cases Option.some.inj run
        rfl
  | cons part rest ih =>
      constructor
      · intro run
        obtain ⟨n, others, isNumber, isOthers, rfl⟩ := mapM_cons_eq_some.mp run
        obtain ⟨x, isX, isSmall⟩ := Option.bind_eq_some_iff.mp isNumber
        obtain ⟨small, same⟩ := Option.ite_none_right_eq_some.mp isSmall
        cases Option.some.inj same
        obtain ⟨ns, isNs, allSmall, rfl⟩ := ih.mp isOthers
        exact ⟨x :: ns, mapM_cons_eq_some.mpr ⟨x, ns, isX, isNs, rfl⟩,
          List.forall_mem_cons.mpr ⟨small, allSmall⟩, rfl⟩
      · rintro ⟨all, run, allSmall, rfl⟩
        obtain ⟨x, ns, isX, isNs, rfl⟩ := mapM_cons_eq_some.mp run
        obtain ⟨small, others⟩ := List.forall_mem_cons.mp allSmall
        refine mapM_cons_eq_some.mpr ⟨x.toNat, ns.map UInt32.toNat, ?_, ih.mpr ⟨ns, isNs, others, rfl⟩, rfl⟩
        rw [looseNumeral, isX, Option.bind_some, if_pos small]

theorem toInt_succ {x : Int32} (nonneg : 0 ≤ x.toInt) : (x + 1).toInt =
    if x.toInt + 1 < 2 ^ 31 then x.toInt + 1 else x.toInt + 1 - 2 ^ 32 := by
  have lt := x.toInt_lt
  rw [Int32.toInt_add, Int32.toInt_one, Int.bmod_def]
  omega

theorem ofNumbers_eq_some {ns : List UInt32} {range : Range} (isRange : Range.ofNumbers ns = some range) :
    (∀ x ∈ ns, x.toNat < 2 ^ 31) ∧ ∃ it, Item.ofNumbers (ns.map UInt32.toNat) = some it ∧ Reads range it := by
  have nonneg : 0 ≤ range.min.toInt := Int32.le_iff_toInt_le.mp range.min_nonneg
  have lt : range.min.toInt < range.sup.toInt := Int32.lt_iff_toInt_lt.mp range.min_lt
  have pos : 0 < range.step.toInt := Int32.lt_iff_toInt_lt.mp range.step_pos
  match ns, isRange with
  | [first], isRange =>
      obtain ⟨isMin, isSup, isStep⟩ := check_eq_some isRange
      have one : range.step.toInt = 1 := by rw [isStep, Int32.toInt_one]
      rw [isMin] at nonneg lt
      have small := small_of_nonneg nonneg
      have succ : range.sup.toInt = first.toInt32.toInt + 1 := by
        rw [isSup, toInt_succ nonneg] at lt ⊢
        split at lt
        case isTrue fits => rw [if_pos fits]
        case isFalse => omega
      refine ⟨List.forall_mem_singleton.mpr small, _, rfl, ⟨?_, ?_, one⟩⟩
      · rw [isMin, toInt_small small]
      · rw [succ, toInt_small small]
        rfl
  | [first, second], isRange =>
      obtain ⟨isMin, isSup, isStep⟩ := check_eq_some isRange
      have one : range.step.toInt = 1 := by rw [isStep, Int32.toInt_one]
      rw [isMin] at nonneg lt
      rw [isSup] at lt
      have small := small_of_nonneg nonneg
      have small' : second.toNat < 2 ^ 31 := small_of_nonneg (by omega)
      rw [toInt_small small, toInt_small small', Int.ofNat_lt] at lt
      refine ⟨List.forall_mem_cons.mpr ⟨small, List.forall_mem_singleton.mpr small'⟩, _, dif_pos lt,
        ⟨?_, ?_, one⟩⟩
      · rw [isMin, toInt_small small]
      · rw [isSup, toInt_small small']
  | [first, second, third], isRange =>
      obtain ⟨isMin, isSup, isStep⟩ := check_eq_some isRange
      rw [isMin] at nonneg lt
      rw [isSup] at lt
      rw [isStep] at pos
      have small := small_of_nonneg nonneg
      have small' : second.toNat < 2 ^ 31 := small_of_nonneg (by omega)
      have small'' : third.toNat < 2 ^ 31 := small_of_nonneg (by omega)
      rw [toInt_small small, toInt_small small', Int.ofNat_lt] at lt
      rw [toInt_small small''] at pos
      have allSmall : ∀ x ∈ [first, second, third], x.toNat < 2 ^ 31 :=
        List.forall_mem_cons.mpr
          ⟨small, List.forall_mem_cons.mpr ⟨small', List.forall_mem_singleton.mpr small''⟩⟩
      refine ⟨allSmall, _, dif_pos ⟨lt, Int.natCast_pos.mp pos⟩, ⟨?_, ?_, ?_⟩⟩
      · rw [isMin, toInt_small small]
      · rw [isSup, toInt_small small']
      · rw [isStep, toInt_small small'']

theorem ofNumbers_of {ns : List UInt32} {it : Item} (small : ∀ x ∈ ns, x.toNat < 2 ^ 31)
    (isItem : Item.ofNumbers (ns.map UInt32.toNat) = some it) (fits : it.sup < 2 ^ 31) :
    ∃ range, Range.ofNumbers ns = some range := by
  match ns, small, isItem with
  | [first], small, isItem =>
      have isFirst := toInt_small (small first (by simp))
      cases Option.some.inj isItem
      simp only at fits
      have succ : (first.toInt32 + 1).toInt = first.toNat + 1 := by
        rw [toInt_succ (by omega), isFirst, if_pos (by omega)]
      exact check_of (by omega) (by omega) (by decide)
  | [first, second], small, isItem =>
      have isFirst := toInt_small (small first (by simp))
      have isSecond := toInt_small (small second (by simp))
      obtain ⟨lt, -⟩ := Option.dite_none_right_eq_some.mp isItem
      exact check_of (by omega) (by omega) (by decide)
  | [first, second, third], small, isItem =>
      have isFirst := toInt_small (small first (by simp))
      have isSecond := toInt_small (small second (by simp))
      have isThird := toInt_small (small third (by simp))
      obtain ⟨⟨lt, pos⟩, -⟩ := Option.dite_none_right_eq_some.mp isItem
      exact check_of (by omega) (by omega) (by omega)

theorem ofString_eq_some {r : List Char} {range : Range} (isRange : Range.ofString r = some range) :
    ∃ it, looseItem r = some it ∧ Reads range it := by
  obtain ⟨ns, isNs, isRange⟩ := Option.bind_eq_some_iff.mp isRange
  obtain ⟨small, it, isItem, reads⟩ := ofNumbers_eq_some isRange
  refine ⟨it, ?_, reads⟩
  rw [looseItem, mapM_looseNumeral.mpr ⟨ns, isNs, small, rfl⟩]
  exact isItem

theorem ofString_of {r : List Char} {it : Item} (isItem : looseItem r = some it) (fits : it.sup < 2 ^ 31) :
    ∃ range, Range.ofString r = some range ∧ Reads range it := by
  obtain ⟨numbers, isNumbers, isItem'⟩ := Option.bind_eq_some_iff.mp isItem
  obtain ⟨ns, isNs, small, rfl⟩ := mapM_looseNumeral.mp isNumbers
  obtain ⟨range, isRange⟩ := ofNumbers_of small isItem' fits
  have made : Range.ofString r = some range := by
    rw [Range.ofString, isNs]
    exact isRange
  obtain ⟨same, isSame, reads⟩ := ofString_eq_some made
  rw [isItem] at isSame
  cases isSame
  exact ⟨range, made, reads⟩

/-! ## Filling -/

/-- What is denoted from an index on -/
def Item.DenotesFrom (item : Item) (n i : Nat) : Prop := ∃ k, i = n + k * item.step ∧ i < item.sup

variable {it : Item} {range : Range} {i : Int32} {mask filled : List Bool} {n j : Nat}

theorem denotesFrom_iff (more : n < it.sup) :
    it.DenotesFrom n j ↔ j = n ∨ it.DenotesFrom (n + it.step) j := by
  constructor
  · rintro ⟨k, rfl, lt⟩
    cases k with
    | zero => exact .inl (by simp)
    | succ k => exact .inr ⟨k, by rw [Nat.succ_mul]; omega, lt⟩
  · rintro (rfl | ⟨k, rfl, lt⟩)
    · exact ⟨0, by simp, more⟩
    · exact ⟨k + 1, by rw [Nat.succ_mul]; omega, lt⟩

theorem not_denotesFrom (done : it.sup ≤ n) : ¬ it.DenotesFrom n j := by
  rintro ⟨k, rfl, lt⟩
  exact absurd (Nat.le_trans done (Nat.le_add_right n _)) (Nat.not_le.mpr lt)

/-- The size of the mask as an `int32_t` -/
theorem inside_iff (word : mask.length < 2 ^ 32) (isIndex : i.toInt = n) :
    ¬ (Int32.ofNat mask.length ≤ i ∨ i < 0) ↔ mask.length < 2 ^ 31 ∧ n < mask.length := by
  have lt := i.toInt_lt
  rw [Int32.le_iff_toInt_le, Int32.lt_iff_toInt_lt, Int32.toInt_ofNat', Int.bmod_def, Int32.size,
    Int32.toInt_zero]
  omega

theorem Reads.lt_sup_iff (reads : Reads range it) (isIndex : i.toInt = n) : i < range.sup ↔ n < it.sup := by
  rw [Int32.lt_iff_toInt_lt, reads.sup, isIndex, Int.ofNat_lt]

theorem getElem?_set_true (lt : n < mask.length) :
    (mask.set n true)[j]? = some true ↔ j = n ∨ mask[j]? = some true := by
  by_cases here : j = n
  · subst here
    simp [lt]
  · simp [Ne.symm here, here]

theorem fillFrom_of (reads : Reads range it) (isIndex : i.toInt = n) (small : mask.length < 2 ^ 31)
    (fits : ∀ j, it.DenotesFrom n j → j < mask.length ∧ j + it.step < 2 ^ 31) :
    ∃ filled, range.fillFrom i mask = some filled ∧ filled.length = mask.length ∧
      ∀ j : Nat, filled[j]? = some true ↔ mask[j]? = some true ∨ it.DenotesFrom n j := by
  induction i, mask using Range.fillFrom.induct range generalizing n with
  | case1 i mask more outside =>
      have moreNat := (reads.lt_sup_iff isIndex).mp more
      have inside := (inside_iff (by omega) isIndex).mpr
        ⟨small, (fits n ((denotesFrom_iff moreNat).mpr (.inl rfl))).1⟩
      exact absurd outside inside
  | case2 i mask more inside ih =>
      have moreNat := (reads.lt_sup_iff isIndex).mp more
      obtain ⟨lt, next⟩ := fits n ((denotesFrom_iff moreNat).mpr (.inl rfl))
      have nonneg : 0 ≤ i := by
        rw [Int32.le_iff_toInt_le, isIndex]
        exact Int.natCast_nonneg n
      have isNext : (i + range.step).toInt = (n + it.step : Nat) := by
        rw [range.add_step_of_lt nonneg, isIndex, reads.step]
        · rfl
        · rw [isIndex, reads.step]
          omega
      have index : i.toNatClampNeg = n := by
        rw [Int32.toNatClampNeg, isIndex]
        rfl
      rw [index] at ih
      rw [Range.fillFrom, if_pos more, dif_neg inside, index]
      have later :
          ∀ j, it.DenotesFrom (n + it.step) j → j < (mask.set n true).length ∧ j + it.step < 2 ^ 31 := by
        intro j denotes
        rw [List.length_set]
        exact fits j ((denotesFrom_iff moreNat).mpr (.inr denotes))
      obtain ⟨filled, run, length, bits⟩ := ih isNext (by rw [List.length_set]; exact small) later
      refine ⟨filled, run, length.trans (List.length_set ..), fun j => ?_⟩
      rw [bits j, getElem?_set_true lt, denotesFrom_iff moreNat]
      tauto
  | case3 i mask done =>
      have doneNat := Nat.not_lt.mp (mt (reads.lt_sup_iff isIndex).mpr done)
      rw [Range.fillFrom, if_neg done]
      exact ⟨mask, rfl, rfl, fun j => (or_iff_left (not_denotesFrom doneNat)).symm⟩

/-- The loop does not end with an index that was not in the mask or wrapped around. -/
theorem fits_of_fillFrom (reads : Reads range it) (isIndex : i.toInt = n) (word : mask.length < 2 ^ 32)
    (run : range.fillFrom i mask = some filled) :
    ∀ j, it.DenotesFrom n j → mask.length < 2 ^ 31 ∧ j < mask.length ∧ j + it.step < 2 ^ 31 := by
  induction i, mask using Range.fillFrom.induct range generalizing n with
  | case1 i mask more outside =>
      rw [Range.fillFrom, if_pos more, dif_pos outside] at run
      cases run
  | case2 i mask more inside ih =>
      have moreNat := (reads.lt_sup_iff isIndex).mp more
      obtain ⟨small, lt⟩ := (inside_iff word isIndex).mp inside
      have nonneg : 0 ≤ i := by
        rw [Int32.le_iff_toInt_le, isIndex]
        exact Int.natCast_nonneg n
      rw [Range.fillFrom, if_pos more, dif_neg inside] at run
      have fits : i.toInt + range.step.toInt < 2 ^ 31 := by
        by_contra wraps
        have negative := range.add_step_neg nonneg (Int.not_lt.mp wraps)
        have wrapped : i + range.step < range.sup :=
          Int32.lt_trans negative (Int32.lt_of_le_of_lt range.min_nonneg range.min_lt)
        rw [Range.fillFrom, if_pos wrapped, dif_pos (.inr negative)] at run
        cases run
      have isNext : (i + range.step).toInt = (n + it.step : Nat) := by
        rw [range.add_step_of_lt nonneg fits, isIndex, reads.step]
        rfl
      rw [isIndex, reads.step] at fits
      intro j denotes
      rcases (denotesFrom_iff moreNat).mp denotes with rfl | later
      · exact ⟨small, lt, by omega⟩
      · have kept := ih isNext (by rw [List.length_set]; exact word) run j later
        rw [List.length_set] at kept
        exact kept
  | case3 i mask done =>
      have doneNat := Nat.not_lt.mp (mt (reads.lt_sup_iff isIndex).mpr done)
      exact fun j denotes => absurd denotes (not_denotesFrom doneNat)

/-! ## Items of a mask -/

variable {maskSize : UInt32} {r : List Char} {rs : List (List Char)} {items : List Item}

theorem sup_lt_of_fits (isItem : looseItem r = some it) (fits : it.Fits maskSize) : it.sup < 2 ^ 31 := by
  obtain ⟨numbers, isNumbers, made⟩ := Option.bind_eq_some_iff.mp isItem
  obtain ⟨ns, -, small, rfl⟩ := mapM_looseNumeral.mp isNumbers
  match ns, small, made with
  | [first], _, made =>
      cases Option.some.inj made
      exact (fits.2 first.toNat ⟨0, by simp, Nat.lt_succ_self _⟩).2
  | [first, second], small, made =>
      obtain ⟨_, same⟩ := Option.dite_none_right_eq_some.mp made
      cases same
      exact small second (by simp)
  | [first, second, third], small, made =>
      obtain ⟨_, same⟩ := Option.dite_none_right_eq_some.mp made
      cases same
      exact small second (by simp)

theorem fill_of (isItem : looseItem r = some it) (fits : it.Fits maskSize)
    (length : mask.length = maskSize.toNat) :
    ∃ filled, ((Range.ofString r).bind fun range => range.fill mask) = some filled ∧
      filled.length = mask.length ∧
      ∀ j : Nat, filled[j]? = some true ↔ mask[j]? = some true ∨ it.Denotes j := by
  obtain ⟨range, isRange, reads⟩ := ofString_of isItem (sup_lt_of_fits isItem fits)
  rw [isRange, Option.bind_some, Range.fill]
  exact fillFrom_of reads reads.min (length ▸ fits.1) fun j denotes => length ▸ fits.2 j denotes

theorem fits_of_fill (length : mask.length = maskSize.toNat)
    (run : ((Range.ofString r).bind fun range => range.fill mask) = some filled) :
    (∃ it, looseItem r = some it ∧ it.Fits maskSize) := by
  obtain ⟨range, isRange, run⟩ := Option.bind_eq_some_iff.mp run
  obtain ⟨it, isItem, reads⟩ := ofString_eq_some isRange
  have word : mask.length < 2 ^ 32 := length ▸ maskSize.toNat_lt
  have fits := fits_of_fillFrom reads reads.min word run
  rw [length] at fits
  refine ⟨it, isItem, (fits it.min ⟨0, by simp, it.min_lt⟩).1, fun j denotes => (fits j denotes).2⟩

theorem fold_of (isItems : rs.mapM looseItem = some items) (fits : ∀ it ∈ items, it.Fits maskSize)
    (length : mask.length = maskSize.toNat) :
    ∃ filled, rs.foldlM (fun mask r => (Range.ofString r).bind fun range => range.fill mask) mask =
        some filled ∧ filled.length = mask.length ∧
      ∀ j : Nat, filled[j]? = some true ↔ mask[j]? = some true ∨ ∃ it ∈ items, it.Denotes j := by
  induction rs generalizing items mask with
  | nil =>
      cases Option.some.inj isItems
      exact ⟨mask, rfl, rfl, by simp⟩
  | cons r rest ih =>
      obtain ⟨it, others, isItem, isOthers, rfl⟩ := mapM_cons_eq_some.mp isItems
      obtain ⟨fitsHere, fitsLater⟩ := List.forall_mem_cons.mp fits
      obtain ⟨mid, step, midLength, midBits⟩ := fill_of isItem fitsHere length
      obtain ⟨filled, run, filledLength, bits⟩ := ih isOthers fitsLater (midLength.trans length)
      refine ⟨filled, ?_, filledLength.trans midLength, fun j => ?_⟩
      · rw [List.foldlM_cons, step]
        exact run
      · rw [bits j, midBits j, List.exists_mem_cons_iff]
        tauto

theorem fits_of_fold (length : mask.length = maskSize.toNat)
    (run : rs.foldlM (fun mask r => (Range.ofString r).bind fun range => range.fill mask) mask =
      some filled) : ∃ items, rs.mapM looseItem = some items ∧ ∀ it ∈ items, it.Fits maskSize := by
  induction rs generalizing mask with
  | nil => exact ⟨[], rfl, fun it none => absurd none List.not_mem_nil⟩
  | cons r rest ih =>
      rw [List.foldlM_cons] at run
      obtain ⟨mid, step, run⟩ := Option.bind_eq_some_iff.mp run
      obtain ⟨it, isItem, fits⟩ := fits_of_fill length step
      obtain ⟨range, isRange, fill⟩ := Option.bind_eq_some_iff.mp step
      obtain ⟨same, isSame, reads⟩ := ofString_eq_some isRange
      rw [isItem] at isSame
      cases isSame
      have midLength : mid.length = mask.length := by
        obtain ⟨again, run', sameLength, -⟩ := fill_of isItem fits length
        rw [step] at run'
        cases run'
        exact sameLength
      obtain ⟨others, isOthers, fitsLater⟩ := ih (midLength.trans length) run
      exact ⟨it :: others, mapM_cons_eq_some.mpr ⟨it, others, isItem, isOthers, rfl⟩,
        List.forall_mem_cons.mpr ⟨fits, fitsLater⟩⟩

/-! ## Masks -/

/-- What can be read and fits is read as it should be, also if it should not be written like that. -/
theorem parseMask_of {maskStr : List Char} (isItems : (words maskStr).mapM looseItem = some items)
    (fits : ∀ it ∈ items, it.Fits maskSize) :
    ∃ mask, parseMask maskStr maskSize = some mask ∧ mask.length = maskSize.toNat ∧
      ∀ j : Nat, mask[j]? = some true ↔ ∃ it ∈ items, it.Denotes j := by
  have length : (List.replicate maskSize.toNat false).length = maskSize.toNat := List.length_replicate
  obtain ⟨mask, run, sameLength, bits⟩ := fold_of isItems fits length
  refine ⟨mask, (parseMask_words maskStr maskSize).trans run, sameLength.trans length, fun j => ?_⟩
  have clear : (List.replicate maskSize.toNat false)[j]? ≠ some true := by
    intro isSet
    have isFalse := List.eq_of_mem_replicate (List.mem_of_getElem? isSet)
    cases isFalse
  rw [bits j, or_iff_right clear]

theorem fits_of_parseMask {maskStr : List Char} (run : parseMask maskStr maskSize = some mask) :
    ∃ items, (words maskStr).mapM looseItem = some items ∧ ∀ it ∈ items, it.Fits maskSize := by
  rw [parseMask_words] at run
  exact fits_of_fold List.length_replicate run

/-- `ParseMask` accepts its grammar exactly if the strings of the grammar have items that fit, and no
others can be read. -/
theorem acceptsGrammar_iff (maskStr : List Char) (maskSize : UInt32) :
    AcceptsGrammar maskStr maskSize ↔ Plain maskStr maskSize := by
  constructor
  · rintro ⟨accepts, rejects⟩
    constructor
    · intro items inGrammar
      obtain ⟨mask, run, -⟩ := accepts items inGrammar
      obtain ⟨same, isSame, fits⟩ := fits_of_parseMask run
      rw [mapM_mono (fun _ _ => looseItem_of_item) inGrammar.1] at isSame
      cases isSame
      exact fits
    · intro none items isItems
      by_contra noMisfit
      have allFit : ∀ it ∈ items, it.Fits maskSize := fun it member =>
        not_not.mp fun misfit => noMisfit ⟨it, member, misfit⟩
      obtain ⟨mask, run, -⟩ := parseMask_of isItems allFit
      rw [rejects none] at run
      cases run
  · rintro ⟨fits, misfits⟩
    constructor
    · intro items inGrammar
      exact parseMask_of (mapM_mono (fun _ _ => looseItem_of_item) inGrammar.1) (fits items inGrammar)
    · intro none
      rw [Option.eq_none_iff_forall_ne_some]
      intro mask run
      obtain ⟨items, isItems, allFit⟩ := fits_of_parseMask run
      obtain ⟨it, member, misfit⟩ := misfits none items isItems
      exact misfit (allFit it member)

/-- "3abc" is no number, but it is read as 3. -/
theorem letters_accepted : ¬ AcceptsGrammar ['3', 'a', 'b', 'c'] 8 := by
  rintro ⟨-, rejects⟩
  have isWord : words ['3', 'a', 'b', 'c'] = [['3', 'a', 'b', 'c']] := by decide
  have noNumeral : numeral ['3', 'a', 'b', 'c'] = none :=
    if_neg fun holds => absurd holds.2.1 (by decide)
  have noItem : item ['3', 'a', 'b', 'c'] = none := by
    have part : ['3', 'a', 'b', 'c'].splitOn ':' = [['3', 'a', 'b', 'c']] := by decide
    rw [item, part, List.mapM_cons, noNumeral]
    rfl
  have isItem : looseItem ['3', 'a', 'b', 'c'] = some ⟨3, 4, 1, Nat.lt_succ_self 3, Nat.one_pos⟩ := by
    rw [looseItem, (tokenize_splitOn ':' _).1]
    decide
  have fits : Item.Fits 8 ⟨3, 4, 1, Nat.lt_succ_self 3, Nat.one_pos⟩ := by
    refine ⟨by decide, ?_⟩
    rintro i ⟨k, rfl, lt⟩
    simp only at lt ⊢
    have small : (8 : UInt32).toNat = 8 := rfl
    omega
  have isItems : (words ['3', 'a', 'b', 'c']).mapM looseItem =
      some [⟨3, 4, 1, Nat.lt_succ_self 3, Nat.one_pos⟩] := by
    rw [isWord]
    exact mapM_cons_eq_some.mpr ⟨_, [], isItem, rfl, rfl⟩
  obtain ⟨mask, run, -⟩ := parseMask_of isItems (List.forall_mem_singleton.mpr fits)
  rw [rejects] at run
  · cases run
  · rintro items ⟨isItems, -⟩
    rw [isWord] at isItems
    obtain ⟨it, others, isIt, -⟩ := mapM_cons_eq_some.mp isItems
    rw [noItem] at isIt
    cases isIt

end Zsim.Config
