import Kappai.Spec.JinjaParse
import Mathlib.Algebra.Ring.Int.Defs

/-! What the evaluator uses of the C library and of the string helpers. -/

namespace Kappai.Jinja

def longMin : ℤ := -2 ^ 63
def longMax : ℤ := 2 ^ 63 - 1

/-- The value of an operation on signed 64-bit numbers, which C leaves undefined out of their range. -/
def checked (x : ℤ) : Option ℤ := if longMin ≤ x ∧ x ≤ longMax then some x else none

def digits (s : Text) : ℕ := s.foldl (fun n c => 10 * n + (c.toNat - '0'.toNat)) 0

def signed : Text → Bool × Text
  | '-' :: s => (true, s)
  | '+' :: s => (false, s)
  | s => (false, s)

/-- The number that `strtoll` reads, of any size. -/
def strtollExact (s : Text) : ℤ :=
  let (negative, s) := signed (s.dropWhile isspace)
  let n : ℤ := digits (s.takeWhile Char.isDigit)
  if negative then -n else n

/-- `strtoll` and `atol` in base ten, which stop at the ends of their range. -/
def atol (s : Text) : ℤ := max longMin (min longMax (strtollExact s))

/-- `errno == ERANGE` after `strtoll` -/
def outOfRange (s : Text) : Bool := strtollExact s < longMin || longMax < strtollExact s

/-- `"%" PRId64` -/
def intText : ℤ → Text
  | .ofNat n => Nat.toDigits 10 n
  | .negSucc n => '-' :: Nat.toDigits 10 (n + 1)

/-- The byte read as the `tolower` of the C locale. -/
def tolower (c : Char) : Char := if c.isUpper then Char.ofNat (c.toNat + 32) else c

def toupper (c : Char) : Char := if c.isLower then Char.ofNat (c.toNat - 32) else c

/-- `trim_dup` -/
def trimDup (s : Text) (left right : Bool) : Text :=
  let s := if left then s.dropWhile isspace else s
  if right then s.rdropWhile isspace else s

/-- What stands before the first `pat` and what stands after it, as `strstr` finds it. -/
def splitAtFirst (pat : Text) : Text → Option (Text × Text)
  | [] => if pat = [] then some ([], []) else none
  | c :: s =>
    if pat.isPrefixOf (c :: s) then some ([], (c :: s).drop pat.length)
    else (splitAtFirst pat s).map fun r => (c :: r.1, r.2)

/-- The parts between the places of a pattern that is not empty, at most `fuel + 1` of them. -/
def splitParts (pat : Text) : ℕ → Text → List Text
  | 0, s => [s]
  | fuel + 1, s =>
    match splitAtFirst pat s with
    | none => [s]
    | some (before, after) => before :: splitParts pat fuel after

/-- The loop of `method_split`; every part but the last has used a byte or more. -/
def splitOn (sep s : Text) : List Text := splitParts sep s.length s

/-- `str_replace_all` -/
def strReplaceAll (s old new : Text) : Text :=
  if old = [] then s else new.intercalate (splitOn old s)

/-- `\u%04x` -/
def hexEscape (c : Char) : Text :=
  let ds := Nat.toDigits 16 c.toNat
  ['\\', 'u'] ++ List.replicate (4 - ds.length) '0' ++ ds

def jsonEscapeChar (c : Char) : Text :=
  if c = '\x22' then ['\\', '\x22']
  else if c = '\\' then ['\\', '\\']
  else if c = '\n' then ['\\', 'n']
  else if c = '\r' then ['\\', 'r']
  else if c = '\t' then ['\\', 't']
  else if c.toNat < 0x20 then hexEscape c
  else [c]

/-- `json_escape_append` -/
def jsonEscape (s : Text) : Text := s.flatMap jsonEscapeChar

/-- `json_append_str` -/
def jsonStr (s : Text) : Text := ['\x22'] ++ jsonEscape s ++ ['\x22']

/-- `json_newline` -/
def jsonNewline (indent : ℤ) (level : ℕ) : Text := '\n' :: List.replicate (indent * level).toNat ' '

/-- The positions that a loop visits which adds `step` to `i` until it reaches `stop`, unless an
addition overflows or there are more than `fuel` of them. -/
def stepsFrom (step stop : ℤ) : ℕ → ℤ → Option (List ℤ)
  | 0, _ => none
  | fuel + 1, i =>
    if (0 < step ∧ i < stop) ∨ (step < 0 ∧ stop < i) then do
      let next ← checked (i + step)
      let rest ← stepsFrom step stop fuel next
      some (i :: rest)
    else some []

/-- Where a slice starts, from the number that is given. -/
def sliceStart (start n step : ℤ) : ℤ :=
  let start := if start < 0 then start + n else start
  let start :=
    if start < 0 then (if 0 < step then 0 else -1) else if n < start then n else start
  if step < 0 ∧ n ≤ start then n - 1 else start

/-- Where a slice ends. -/
def sliceEnd (stop n step : ℤ) : ℤ :=
  let stop := if stop < 0 then stop + n else stop
  if 0 < step then (if stop < 0 then 0 else if n < stop then n else stop)
  else if stop < -1 then -1 else if n ≤ stop then n - 1 else stop

/-- The positions that `EX_SLICE` reads of a value with `n` elements. -/
def slicePositions (n : ℕ) (start stop : Option ℤ) (step : ℤ) : Option (List ℤ) :=
  let first : ℤ := if 0 < step then 0 else n - 1
  let last : ℤ := if 0 < step then n else -1
  stepsFrom step ((stop.map fun x => sliceEnd x n step).getD last) (n + 1)
    ((start.map fun x => sliceStart x n step).getD first)

/-- `JINJA_MAX_RANGE_ELEMS` -/
def maxRangeElems : ℕ := 2 ^ 20

/-- The numbers of a `range`, `none` if there are too many. -/
def rangeNumbers (lo hi step : ℤ) : Option (Option (List ℤ)) := do
  let span ← if 0 < step then checked (hi - lo) else checked (lo - hi)
  let count ← if step ≠ 0 ∧ 0 < span then do
      let width ← if 0 < step then some step else checked (-step)
      let top ← checked (span + width)
      some ((top - 1) / width)
    else some 0
  if (maxRangeElems : ℤ) < count then some none
  else some <$> stepsFrom step hi (maxRangeElems + 1) lo

/-! What slices and ranges are in Python, and when the numbers the evaluator computes for one stay in
the range of a `long`. -/

def InLong (x : ℤ) : Prop := longMin ≤ x ∧ x ≤ longMax

instance (x : ℤ) : Decidable (InLong x) := inferInstanceAs (Decidable (_ ∧ _))

/-- How many numbers `range(lo, hi, step)` has. -/
def pyCount (lo hi step : ℤ) : ℕ :=
  if 0 < step then ((hi - lo + step - 1) / step).toNat else ((lo - hi + -step - 1) / -step).toNat

/-- `range(lo, hi, step)` -/
def pyRange (lo hi step : ℤ) : List ℤ :=
  (List.range (pyCount lo hi step)).map fun k : ℕ => lo + k * step

/-- A bound that is given, made to fit a sequence of length `n`. -/
def pyBound (n step x : ℤ) : ℤ :=
  let x := if x < 0 then x + n else x
  if 0 < step then max 0 (min n x) else max (-1) (min (n - 1) x)

def pyStart (n step : ℤ) : Option ℤ → ℤ
  | none => if 0 < step then 0 else n - 1
  | some x => pyBound n step x

def pyStop (n step : ℤ) : Option ℤ → ℤ
  | none => if 0 < step then n else -1
  | some x => pyBound n step x

/-- The positions of `s[start:stop:step]` for a sequence of length `n`. -/
def pySlice (n : ℤ) (start stop : Option ℤ) (step : ℤ) : List ℤ :=
  pyRange (pyStart n step start) (pyStop n step stop) step

/-- The position after the last one of a slice. -/
def SliceFits (n : ℤ) (start stop : Option ℤ) (step : ℤ) : Prop :=
  let lo := pyStart n step start
  let hi := pyStop n step stop
  0 < step → lo < hi → InLong (lo + pyCount lo hi step * step)

/-- The distance, the distance with a step more, and the number after the last one of a range that is
not too long. -/
def RangeFits (lo hi step : ℤ) : Prop :=
  (0 < step → InLong (hi - lo) ∧ (lo < hi → InLong (hi - lo + step))) ∧
    (step < 0 → InLong (lo - hi) ∧ (hi < lo → InLong (-step) ∧ InLong (lo - hi + -step))) ∧
      (0 < pyCount lo hi step → pyCount lo hi step ≤ maxRangeElems →
        InLong (lo + pyCount lo hi step * step))

/-- The numbers of Python's range, or the error if there are too many. -/
def RangeRight (lo hi step : ℤ) : Prop :=
  if (pyRange lo hi step).length ≤ maxRangeElems then
    rangeNumbers lo hi step = some (some (pyRange lo hi step))
  else rangeNumbers lo hi step = some none

end Kappai.Jinja
