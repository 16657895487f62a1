import Mathlib.Data.List.TakeWhile
import Zsim.Config.Mask

/-!
# The grammar of masks

What a mask should be written like, and what `ParseMask` reads besides.
-/

set_option autoImplicit false

namespace Zsim.Config

structure Item where
  min : Nat
  sup : Nat
  step : Nat
  min_lt : min < sup
  step_pos : 0 < step
deriving DecidableEq

def Item.ofNumbers : List Nat → Option Item
  | [n] => some ⟨n, n + 1, 1, Nat.lt_succ_self n, Nat.one_pos⟩
  | [min, sup] => if lt : min < sup then some ⟨min, sup, 1, lt, Nat.one_pos⟩ else none
  | [min, sup, step] =>
    if holds : min < sup ∧ 0 < step then some ⟨min, sup, step, holds.1, holds.2⟩ else none
  | _ => none

def Item.Denotes (item : Item) (i : Nat) : Prop := ∃ k, i = item.min + k * item.step ∧ i < item.sup

/-- A string of digits, for a number below 2^31 -/
def numeral (str : List Char) : Option Nat :=
  if str ≠ [] ∧ str.all Char.isDigit ∧ number str < 2 ^ 31 then some (number str) else none

def item (str : List Char) : Option Item := ((str.splitOn ':').mapM numeral).bind Item.ofNumbers

/-- What stands between the spaces -/
def words (maskStr : List Char) : List (List Char) := (maskStr.splitOn ' ').filter (· ≠ [])

/-- The string is a list of these items, and of no index beyond the mask. -/
def InGrammar (maskStr : List Char) (maskSize : UInt32) (items : List Item) : Prop :=
  (words maskStr).mapM item = some items ∧ ∀ it ∈ items, ∀ i, it.Denotes i → i < maskSize.toNat

/-- The strings of the grammar give their masks, and no others do. -/
def AcceptsGrammar (maskStr : List Char) (maskSize : UInt32) : Prop :=
  (∀ items, InGrammar maskStr maskSize items →
    ∃ mask, parseMask maskStr maskSize = some mask ∧ mask.length = maskSize.toNat ∧
      ∀ i : Nat, mask[i]? = some true ↔ ∃ it ∈ items, it.Denotes i) ∧
  ((∀ items, ¬ InGrammar maskStr maskSize items) → parseMask maskStr maskSize = none)

/-- A string that begins, after white space and a sign, with digits.  The number is below 2^31, if it has
a minus as a word. -/
def looseNumeral (str : List Char) : Option Nat :=
  (extract str).bind fun x => if x.toNat < 2 ^ 31 then some x.toNat else none

/-- An item as it may be written: with more than one colon for one, and with colons at the end -/
def looseItem (str : List Char) : Option Item :=
  ((tokenize [':'] str).mapM looseNumeral).bind Item.ofNumbers

/-- The sizes and the indices are `int32_t`, also the index after the last one. -/
def Item.Fits (maskSize : UInt32) (item : Item) : Prop :=
  maskSize.toNat < 2 ^ 31 ∧ ∀ i, item.Denotes i → i < maskSize.toNat ∧ i + item.step < 2 ^ 31

/-- A string of the grammar has items that fit, and any other one has an item that cannot be read or
does not fit. -/
def Plain (maskStr : List Char) (maskSize : UInt32) : Prop :=
  (∀ items, InGrammar maskStr maskSize items → ∀ it ∈ items, it.Fits maskSize) ∧
  ((∀ items, ¬ InGrammar maskStr maskSize items) →
    ∀ items, (words maskStr).mapM looseItem = some items → ∃ it ∈ items, ¬ it.Fits maskSize)

/-! ## Tokens -/

/-- All parts but the empty ones, of which the first is kept -/
def squeeze : List (List Char) → List (List Char)
  | [] => []
  | first :: rest => first :: rest.filter (· ≠ [])

theorem filter_squeeze (parts : List (List Char)) :
    (squeeze parts).filter (· ≠ []) = parts.filter (· ≠ []) := by
  cases parts with
  | nil => rfl
  | cons first rest =>
      by_cases empty : first = []
      · simp [squeeze, empty]
      · simp [squeeze, empty]

theorem squeeze_of_filled {parts : List (List Char)} (filled : ∀ part ∈ parts, part ≠ []) :
    squeeze parts = parts := by
  cases parts with
  | nil => rfl
  | cons first rest =>
      have same : rest.filter (· ≠ []) = rest :=
        List.filter_eq_self.mpr fun part member =>
          decide_eq_true (filled part (List.mem_cons_of_mem first member))
      rw [squeeze, same]

theorem nextToken_cons {d c : Char} (other : c ≠ d) (rest : List Char) :
    nextToken [d] (c :: rest) = nextToken [d] rest := by
  simp [nextToken, other]

theorem tokenize_cons {d c : Char} (other : c ≠ d) (rest : List Char) :
    tokenize [d] (c :: rest) = (tokenize [d] rest).modifyHead (c :: ·) := by
  have token : (c :: rest).takeWhile (· ∉ [d]) = c :: rest.takeWhile (· ∉ [d]) := by simp [other]
  rw [tokenize, tokenize.eq_def [d] rest, nextToken_cons other, token]
  split <;> rfl

theorem tokenize_delimiter (d : Char) (rest : List Char) : tokenize [d] (d :: rest) =
    [] :: if rest.dropWhile (· = d) = [] then [] else tokenize [d] (rest.dropWhile (· = d)) := by
  have next : nextToken [d] (d :: rest) = rest.dropWhile (· = d) := by simp [nextToken]
  have token : (d :: rest).takeWhile (· ∉ [d]) = [] := by simp
  rw [tokenize, next, token]
  split <;> rfl

/-- A token is a part between two delimiters, and empty parts but the first are skipped. -/
theorem tokenize_splitOn (d : Char) (str : List Char) :
    tokenize [d] str = squeeze (str.splitOn d) ∧
      (if str.dropWhile (· = d) = [] then [] else tokenize [d] (str.dropWhile (· = d))) =
        (str.splitOn d).filter (· ≠ []) := by
  induction str with
  | nil =>
      constructor
      · rw [tokenize]
        simp [nextToken, squeeze]
      · simp
  | cons c rest ih =>
      obtain ⟨tokens, skips⟩ := ih
      by_cases isDelimiter : c = d
      · subst isDelimiter
        have parts : (c :: rest).splitOn c = [] :: rest.splitOn c := by
          rw [List.splitOn, List.splitOnP_cons_eq_if_modifyHead, if_pos (beq_self_eq_true c), List.splitOn]
        rw [tokenize_delimiter, skips, parts]
        have drop : (c :: rest).dropWhile (· = c) = rest.dropWhile (· = c) := by simp
        rw [drop, skips]
        simp [squeeze]
      · have parts : (c :: rest).splitOn d = (rest.splitOn d).modifyHead (c :: ·) := by
          rw [List.splitOn, List.splitOnP_cons_eq_if_modifyHead, if_neg (mt beq_iff_eq.mp isDelimiter),
            List.splitOn]
        have drop : (c :: rest).dropWhile (· = d) = c :: rest := by simp [isDelimiter]
        have filled : c :: rest ≠ [] := List.cons_ne_nil c rest
        rw [drop, if_neg filled, tokenize_cons isDelimiter, tokens, parts]
        cases rest.splitOn d with
        | nil => simp [squeeze]
        | cons first others => simp [squeeze]

theorem parseMask_words (maskStr : List Char) (maskSize : UInt32) : parseMask maskStr maskSize =
    (words maskStr).foldlM (fun mask r => (Range.ofString r).bind fun range => range.fill mask)
      (List.replicate maskSize.toNat false) := by
  have tokens := (tokenize_splitOn ' ' maskStr).1
  rw [words, ← filter_squeeze, ← tokens, List.foldlM_filter, parseMask]
  congr 1
  funext mask r
  by_cases empty : r = []
  · simp [empty]
  · simp [empty]

/-! ## Numbers -/

theorem mapM_cons_eq_some {α β : Type} {f : α → Option β} {x : α} {xs : List α} {ys : List β} :
    (x :: xs).mapM f = some ys ↔ ∃ y rest, f x = some y ∧ xs.mapM f = some rest ∧ ys = y :: rest := by
  rw [List.mapM_cons]
  constructor
  · intro run
    obtain ⟨y, isY, run⟩ := Option.bind_eq_some_iff.mp run
    obtain ⟨rest, isRest, run⟩ := Option.bind_eq_some_iff.mp run
    exact ⟨y, rest, isY, isRest, (Option.some.inj run).symm⟩
  · rintro ⟨y, rest, isY, isRest, rfl⟩
    rw [isY, isRest]
    rfl

theorem mapM_mono {α β : Type} {f g : α → Option β} {xs : List α} {ys : List β}
    (mono : ∀ x y, f x = some y → g x = some y) (run : xs.mapM f = some ys) : xs.mapM g = some ys := by
  induction xs generalizing ys with
  | nil => exact run
  | cons x xs ih =>
      obtain ⟨y, rest, isY, isRest, same⟩ := mapM_cons_eq_some.mp run
      exact mapM_cons_eq_some.mpr ⟨y, rest, mono x y isY, ih isRest, same⟩

theorem mapM_defined {α β : Type} {f : α → Option β} {xs : List α} {ys : List β} (run : xs.mapM f = some ys)
    {x : α} (member : x ∈ xs) : ∃ y, f x = some y := by
  induction xs generalizing ys with
  | nil => exact absurd member List.not_mem_nil
  | cons first xs ih =>
      obtain ⟨y, rest, isY, isRest, -⟩ := mapM_cons_eq_some.mp run
      rcases List.mem_cons.mp member with rfl | later
      · exact ⟨y, isY⟩
      · exact ih isRest later

theorem digit_first {c : Char} (digit : c.isDigit) : isSpace c = false ∧ c ≠ '-' ∧ c ≠ '+' := by
  refine ⟨?_, ?_, ?_⟩
  · rw [isSpace, decide_eq_false_iff_not]
    rintro (rfl | rfl | rfl | rfl | rfl | rfl) <;> exact absurd digit (by decide)
  · rintro rfl
    exact absurd digit (by decide)
  · rintro rfl
    exact absurd digit (by decide)

theorem looseNumeral_of_numeral {str : List Char} {n : Nat} (isNumeral : numeral str = some n) :
    looseNumeral str = some n := by
  obtain ⟨⟨filled, allDigits, lt⟩, same⟩ := Option.ite_none_right_eq_some.mp isNumeral
  have digits := List.all_eq_true.mp allDigits
  have lt' : number str < 2 ^ 32 := Nat.lt_trans lt (by decide)
  have whole : extract str = some (UInt32.ofNat (number str)) := by
    cases str with
    | nil => exact absurd rfl filled
    | cons c rest =>
        have digit := digits c List.mem_cons_self
        obtain ⟨notSpace, notMinus, notPlus⟩ := digit_first digit
        have trimmed : (c :: rest).dropWhile isSpace = c :: rest := by simp [notSpace]
        have noSign : sign (c :: rest) = (false, c :: rest) := by simp [sign, notMinus, notPlus]
        have all : (c :: rest).takeWhile Char.isDigit = c :: rest := List.takeWhile_eq_self_iff.mpr digits
        unfold extract
        simp only [trimmed, noSign, all]
        rw [if_neg (List.cons_ne_nil c rest), if_neg (Nat.not_le.mpr lt')]
        rfl
  rw [looseNumeral, whole, Option.bind_some, UInt32.toNat_ofNat_of_lt' lt', if_pos lt]
  exact same

theorem looseItem_of_item {str : List Char} {it : Item} (isItem : item str = some it) :
    looseItem str = some it := by
  obtain ⟨numbers, isNumbers, same⟩ := Option.bind_eq_some_iff.mp isItem
  have filled : ∀ part ∈ str.splitOn ':', part ≠ [] := by
    intro part member
    obtain ⟨n, isNumeral⟩ := mapM_defined isNumbers member
    exact (Option.ite_none_right_eq_some.mp isNumeral).1.1
  rw [looseItem, (tokenize_splitOn ':' str).1, squeeze_of_filled filled,
    mapM_mono (fun _ _ => looseNumeral_of_numeral) isNumbers]
  exact same

end Zsim.Config
