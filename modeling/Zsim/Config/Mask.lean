import Mathlib.Algebra.Group.Int.Defs
import Mathlib.Algebra.Group.Nat.Defs
import Mathlib.Tactic.Common

/-!
# Masks

`ParseMask` of config.cpp with its helpers `Tokenize` and `Range`.  A string is the list of its characters,
and the extraction of a number is the one of libstdc++ in the C locale.  `none` is a panic.
-/

set_option autoImplicit false

namespace Zsim.Config

/-! ## Tokens -/

/-- What begins at the next token, or nothing if there is none -/
def nextToken (delimiters str : List Char) : List Char :=
  (str.dropWhile (· ∉ delimiters)).dropWhile (· ∈ delimiters)

theorem nextToken_length {delimiters str : List Char} (more : nextToken delimiters str ≠ []) :
    (nextToken delimiters str).length < str.length := by
  cases str with
  | nil => exact absurd rfl more
  | cons first rest =>
      have drops : ∀ (p : Char → Bool) (xs : List Char), (xs.dropWhile p).length ≤ xs.length :=
        fun p xs => (List.dropWhile_suffix p).length_le
      rw [List.length_cons, Nat.lt_succ_iff]
      by_cases isDelimiter : first ∈ delimiters
      · have next : nextToken delimiters (first :: rest) = rest.dropWhile (· ∈ delimiters) := by
          simp [nextToken, isDelimiter]
        rw [next]
        exact drops _ rest
      · have next : nextToken delimiters (first :: rest) =
            (rest.dropWhile (· ∉ delimiters)).dropWhile (· ∈ delimiters) := by
          simp [nextToken, isDelimiter]
        rw [next]
        exact Nat.le_trans (drops _ _) (drops _ rest)

/-- The first token may be empty, and is even in the empty string. -/
def tokenize (delimiters str : List Char) : List (List Char) :=
  if nextToken delimiters str = [] then [str.takeWhile (· ∉ delimiters)]
  else str.takeWhile (· ∉ delimiters) :: tokenize delimiters (nextToken delimiters str)
termination_by str.length
decreasing_by
  exact nextToken_length (by assumption)

/-! ## Numbers -/

def isSpace (c : Char) : Bool :=
  c = ' ' ∨ c = '\t' ∨ c = '\n' ∨ c = '\x0b' ∨ c = '\x0c' ∨ c = '\r'

def number (digits : List Char) : Nat :=
  digits.foldl (fun n c => 10 * n + (c.toNat - '0'.toNat)) 0

def sign : List Char → Bool × List Char
  | '-' :: rest => (true, rest)
  | '+' :: rest => (false, rest)
  | str => (false, str)

/-- `ss >> x` for a `uint32_t`, which is left at the first character that is no digit.  What has a minus is
negated as a word. -/
def extract (str : List Char) : Option UInt32 :=
  let (negative, str) := sign (str.dropWhile isSpace)
  let digits := str.takeWhile Char.isDigit
  if digits = [] then none
  else if 2 ^ 32 ≤ number digits then none
  else some (if negative then - UInt32.ofNat (number digits) else UInt32.ofNat (number digits))

/-! ## Ranges -/

structure Range where
  min : Int32
  sup : Int32
  step : Int32
  min_nonneg : 0 ≤ min
  min_lt : min < sup
  step_pos : 0 < step

namespace Range

def check (min sup step : Int32) : Option Range :=
  if negative : min < 0 ∨ step < 0 ∨ sup < 0 then none
  else if zero : step = 0 then none
  else if empty : sup ≤ min then none
  else some {
    min := min
    sup := sup
    step := step
    min_nonneg := Int32.not_lt.mp fun lt => negative (.inl lt)
    min_lt := Int32.not_le.mp empty
    step_pos := Int32.lt_of_le_of_ne (Int32.not_lt.mp fun lt => negative (.inr (.inl lt))) (Ne.symm zero) }

def ofNumbers : List UInt32 → Option Range
  | [first] => check first.toInt32 (first.toInt32 + 1) 1
  | [first, second] => check first.toInt32 second.toInt32 1
  | [first, second, third] => check first.toInt32 second.toInt32 third.toInt32
  | _ => none

def ofString (r : List Char) : Option Range := do
  let n ← (tokenize [':'] r).mapM extract
  ofNumbers n

/-- An index that is not negative and a step may wrap around, and then to a negative index. -/
theorem add_step (range : Range) {i : Int32} (nonneg : 0 ≤ i) : (i + range.step).toInt =
    if i.toInt + range.step.toInt < 2 ^ 31 then i.toInt + range.step.toInt
    else i.toInt + range.step.toInt - 2 ^ 32 := by
  have isNonneg : 0 ≤ i.toInt := Int32.le_iff_toInt_le.mp nonneg
  have isPos : 0 < range.step.toInt := Int32.lt_iff_toInt_lt.mp range.step_pos
  have lt := i.toInt_lt
  have stepLt := range.step.toInt_lt
  rw [Int32.toInt_add, Int.bmod_def]
  omega

theorem add_step_of_lt (range : Range) {i : Int32} (nonneg : 0 ≤ i)
    (fits : i.toInt + range.step.toInt < 2 ^ 31) : (i + range.step).toInt = i.toInt + range.step.toInt := by
  rw [range.add_step nonneg, if_pos fits]

theorem add_step_neg (range : Range) {i : Int32} (nonneg : 0 ≤ i)
    (wraps : 2 ^ 31 ≤ i.toInt + range.step.toInt) : i + range.step < 0 := by
  have lt := i.toInt_lt
  have stepLt := range.step.toInt_lt
  rw [Int32.lt_iff_toInt_lt, range.add_step nonneg, if_neg (Int.not_lt.mpr wraps), Int32.toInt_zero]
  omega

/-- How many rounds may be left at an index -/
def room (i : Int32) : Nat := if i < 0 then 0 else (2 ^ 31 - i.toInt).toNat

theorem room_add_step (range : Range) {i : Int32} (nonneg : 0 ≤ i) : room (i + range.step) < room i := by
  have isPos : 0 < range.step.toInt := Int32.lt_iff_toInt_lt.mp range.step_pos
  have lt := i.toInt_lt
  unfold room
  rw [if_neg (Int32.not_lt.mpr nonneg)]
  by_cases fits : i.toInt + range.step.toInt < 2 ^ 31
  · rw [range.add_step_of_lt nonneg fits]
    split <;> omega
  · rw [if_pos (range.add_step_neg nonneg (Int.not_lt.mp fits))]
    omega

/-- The loop of `fill` from `i` on, which wraps around -/
def fillFrom (range : Range) (i : Int32) (mask : List Bool) : Option (List Bool) :=
  if i < range.sup then
    if _outside : Int32.ofNat mask.length ≤ i ∨ i < 0 then none
    else range.fillFrom (i + range.step) (mask.set i.toNatClampNeg true)
  else some mask
termination_by room i
decreasing_by
  exact range.room_add_step (Int32.not_lt.mp fun negative => _outside (.inr negative))

def fill (range : Range) (mask : List Bool) : Option (List Bool) := range.fillFrom range.min mask

end Range

def parseMask (maskStr : List Char) (maskSize : UInt32) : Option (List Bool) :=
  (tokenize [' '] maskStr).foldlM
    (fun mask r => if r.length = 0 then some mask else do
      let range ← Range.ofString r
      range.fill mask)
    (List.replicate maskSize.toNat false)

end Zsim.Config
