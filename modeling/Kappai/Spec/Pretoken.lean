import Mathlib.Data.Int.Notation
import Kappai.Spec.Chat
import Mathlib.Algebra.Ring.Int.Defs

/-! The pretokens of a text: `next_pretoken` by bytes, `next_pretoken_unicode` by characters, and the loop
of `encode_gpt2_chunk`. The text is `s`, as far as `len`. -/

namespace Kappai

namespace Pretoken

/-- `g_is_letter_tab` -/
def isLetter (c : UInt8) : Bool := 65 ≤ c && c ≤ 90 || 97 ≤ c && c ≤ 122 || 128 ≤ c

/-- `g_is_digit_tab` -/
def isDigit (c : UInt8) : Bool := 48 ≤ c && c ≤ 57

/-- `g_is_space_tab` -/
def isSpace (c : UInt8) : Bool := c == 32 || c == 9 || c == 10 || c == 11 || c == 12 || c == 13

/-- `g_is_newline_tab` -/
def isNewline (c : UInt8) : Bool := c == 10 || c == 13

def byteAt (s : Text) (j : ℕ) : UInt8 := s.getD j 0

/-- `while (j < len && p(s[j])) j++` -/
def skip (p : UInt8 → Bool) (s : Text) (j : ℕ) : ℕ := j + ((s.drop j).takeWhile p).length

/-- A byte before the end that satisfies `p`. -/
def has (p : UInt8 → Bool) (s : Text) (j : ℕ) : Bool := decide (j < s.length) && p (byteAt s j)

/-- An apostrophe with `s`, `t`, `m`, `d`, `re`, `ve` or `ll`, which `lower` is applied to before. -/
def contraction (lower : UInt8 → UInt8) (s : Text) (i : ℕ) : Option ℕ :=
  let c1 := lower (byteAt s (i + 1))
  let c2 := lower (byteAt s (i + 2))
  if byteAt s i == 39 && decide (i + 1 < s.length) then
    if c1 == 115 || c1 == 116 || c1 == 109 || c1 == 100 then some (i + 2)
    else if decide (i + 2 < s.length) &&
        (c1 == 114 && c2 == 101 || c1 == 118 && c2 == 101 || c1 == 108 && c2 == 108) then
      some (i + 3)
    else none
  else none

section Bytes

variable (s : Text) (i : ℕ)

def spaceDigits : Option ℕ :=
  if byteAt s i == 32 && has isDigit s (i + 1) then some (skip isDigit s (i + 1)) else none

def letters : Option ℕ :=
  let c := byteAt s i
  let j := if !isNewline c && !isLetter c && !isDigit c then i + 1 else i
  if has isLetter s j then some (skip isLetter s j) else none

def digits : Option ℕ := if isDigit (byteAt s i) then some (skip isDigit s i) else none

/-- No space, letter or digit. -/
def isOther (c : UInt8) : Bool := !isSpace c && !isLetter c && !isDigit c

def others : Option ℕ :=
  let j := if byteAt s i == 32 then i + 1 else i
  if has isOther s j then some (skip isNewline s (skip isOther s j)) else none

def newlines : Option ℕ :=
  let j := skip (fun c => c == 32 || c == 9) s i
  if has isNewline s j then some (skip isNewline s j) else none

def spaces : Option ℕ :=
  if isSpace (byteAt s i) then
    let j := skip isSpace s i
    some (if has (fun c => !isSpace c) s j && decide (j > i + 1) then j - 1 else j)
  else none

/-- The end of the pretoken at `i`, from the alternatives in their order. -/
def pretokenEnd : ℕ :=
  (contraction id s i <|> spaceDigits s i <|> letters s i <|> digits s i <|> others s i <|>
    newlines s i <|> spaces s i).getD (i + 1)

/-- `next_pretoken`: what it returns, and `*pos` after it. -/
def nextPretoken : ℕ × ℕ :=
  if i ≥ s.length then (0, i) else (pretokenEnd s i - i, pretokenEnd s i)

end Bytes

/-- A `size_t` as an `int`. -/
def toInt (n : ℕ) : ℤ := (n + 2 ^ 31) % 2 ^ 32 - 2 ^ 31

/-- `utf8_to_cp`: the length that it returns, and the code point. -/
def utf8ToCp (s : Text) (len : ℤ) : ℕ × ℕ :=
  let c := byteAt s 0
  let low := fun k => (byteAt s k &&& 0x3F).toNat
  if len ≤ 0 then (0, 0)
  else if c < 0x80 then (1, c.toNat)
  else if c &&& 0xE0 == 0xC0 && decide (len ≥ 2) then
    (2, (c &&& 0x1F).toNat <<< 6 ||| low 1)
  else if c &&& 0xF0 == 0xE0 && decide (len ≥ 3) then
    (3, (c &&& 0x0F).toNat <<< 12 ||| low 1 <<< 6 ||| low 2)
  else if c &&& 0xF8 == 0xF0 && decide (len ≥ 4) then
    (4, (c &&& 0x07).toNat <<< 18 ||| low 1 <<< 12 ||| low 2 <<< 6 ||| low 3)
  else (1, c.toNat)

/-- `cp_is_letter` -/
def cpIsLetter (cp : ℕ) : Bool :=
  if cp < 0x80 then 65 ≤ cp && cp ≤ 90 || 97 ≤ cp && cp ≤ 122
  else if 0x2000 ≤ cp && cp ≤ 0x2BFF then false
  else if 0x1F000 ≤ cp && cp ≤ 0x1FFFF then false
  else if 0x80 ≤ cp && cp ≤ 0xA9 || 0xAB ≤ cp && cp ≤ 0xB4 || 0xB6 ≤ cp && cp ≤ 0xB9 ||
      0xBB ≤ cp && cp ≤ 0xBF || cp == 0xD7 || cp == 0xF7 then false
  else true

/-- `cp_is_digit` -/
def cpIsDigit (cp : ℕ) : Bool := 48 ≤ cp && cp ≤ 57

/-- `tolower`, in the C locale. -/
def tolower (c : UInt8) : UInt8 := if 65 ≤ c && c ≤ 90 then c + 32 else c

section Chars

variable (s : Text)

/-- `cp_at`: the code point at `j` and `*cp_len`. -/
def cpAt (j : ℕ) : ℕ × ℕ :=
  let r := utf8ToCp (s.drop j) (toInt (s.length - j))
  if r.1 > 0 then (r.2, r.1) else ((byteAt s j).toNat, 1)

/-- `p` of the byte at `j` and of the code point there. -/
def hasCp (p : UInt8 → ℕ → Bool) (j : ℕ) : Bool :=
  decide (j < s.length) && p (byteAt s j) (cpAt s j).1

/-- Characters that satisfy `p`, as many as `fuel` at most. -/
def skipCps (p : UInt8 → ℕ → Bool) : ℕ → ℕ → ℕ
  | 0, j => j
  | fuel + 1, j => if hasCp s p j then skipCps p fuel (j + (cpAt s j).2) else j

variable (i : ℕ)

def unicodeLetters : Option ℕ :=
  let cp0 := (cpAt s i).1
  let j := if !isNewline (byteAt s i) && !cpIsLetter cp0 && !cpIsDigit cp0 then i + (cpAt s i).2 else i
  if hasCp s (fun _ => cpIsLetter) j then
    some (skipCps s (fun _ => cpIsLetter) (s.length - j) j)
  else none

def unicodeDigits (digitRun : ℕ) : Option ℕ :=
  if isDigit (byteAt s i) then some (i + ((s.drop i).takeWhile isDigit |>.take digitRun).length)
  else none

/-- The byte is no space, the character no letter and no digit. -/
def isOtherCp (c : UInt8) (cp : ℕ) : Bool := !isSpace c && !cpIsLetter cp && !cpIsDigit cp

def unicodeOthers : Option ℕ :=
  let j := if byteAt s i == 32 then i + 1 else i
  if hasCp s isOtherCp j then some (skip isNewline s (skipCps s isOtherCp (s.length - j) j))
  else none

/-- `contains_newline_before_non_newline_run` -/
def containsNewlineBeforeNonNewlineRun : Bool := ((s.drop i).takeWhile isSpace).any isNewline

/-- The loop over spaces up to the last newline; the second position is `last_nl_end`. -/
def lastNewlineEnd : ℕ → ℕ → ℕ → ℕ
  | 0, _, last => last
  | fuel + 1, j, last =>
    if has isSpace s j then
      if isNewline (byteAt s j) then lastNewlineEnd fuel (j + 1) (j + 1)
      else
        let k := skip (fun c => isSpace c && !isNewline c) s j
        if has isNewline s k then lastNewlineEnd fuel k last else last
    else last

def unicodeSpaces : Option ℕ :=
  if isSpace (byteAt s i) then
    if containsNewlineBeforeNonNewlineRun s i then
      some (lastNewlineEnd s (s.length - i) i i)
    else
      let j := skip isSpace s i
      some (if decide (j < s.length) && decide (j > i + 1) then j - 1 else j)
  else none

def unicodePretokenEnd (digitRun : ℕ) : ℕ :=
  (contraction tolower s i <|> unicodeLetters s i <|> unicodeDigits s i digitRun <|>
    unicodeOthers s i <|> unicodeSpaces s i).getD (i + 1)

/-- `next_pretoken_unicode`: what it returns, and `*pos` after it. -/
def nextPretokenUnicode (digitRun : ℕ) : ℕ × ℕ :=
  if i ≥ s.length then (0, i)
  else (unicodePretokenEnd s i digitRun - i, unicodePretokenEnd s i digitRun)

end Chars

/-- `pre_type` -/
inductive TokPre
  | gpt2 | llama3 | qwen35
deriving DecidableEq, Repr

/-- The pretokenizer of `encode_gpt2_chunk`. -/
def TokPre.next (s : Text) : TokPre → ℕ → ℕ × ℕ
  | .llama3, i => nextPretokenUnicode s i 3
  | .qwen35, i => nextPretokenUnicode s i 1
  | .gpt2, i => nextPretoken s i

/-- The loop of `encode_gpt2_chunk` up to `stop`, of as many turns as `fuel` at most: `pstart` and
`plen` of every pretoken. -/
def pieces (next : ℕ → ℕ × ℕ) (stop : ℕ) : ℕ → ℕ → List (ℕ × ℕ)
  | 0, _ => []
  | fuel + 1, pos =>
    if pos < stop then
      if (next pos).1 = 0 then [] else (pos, (next pos).1) :: pieces next stop fuel (next pos).2
    else []

/-- The pretokens of `text` from `start` to `stop`. -/
def encodeGpt2Chunk (pre : TokPre) (text : Text) (start stop : ℕ) : List (ℕ × ℕ) :=
  pieces (pre.next (text.take stop)) stop (stop - start) start

/-- How many bytes the character of a lead byte has. -/
def leadLength (c : UInt8) : ℕ :=
  if c &&& 0xE0 == 0xC0 then 2
  else if c &&& 0xF0 == 0xE0 then 3
  else if c &&& 0xF8 == 0xF0 then 4
  else 1

def isContinuation (c : UInt8) : Bool := c &&& 0xC0 == 0x80

/-- From `start` on, a lead byte that has room for its character is followed by continuation bytes. So is
every one of a text in UTF-8. -/
def LeadsComplete (s : Text) (start : ℕ) : Prop :=
  ∀ j, start ≤ j → j + leadLength (byteAt s j) ≤ s.length →
    ∀ k, 0 < k → k < leadLength (byteAt s j) → isContinuation (byteAt s (j + k)) = true

/-- `j` is inside a valid UTF-8 sequence, that of character `ch` at `a`. -/
def Inside (s : Text) (j : ℕ) : Prop :=
  ∃ (a : ℕ) (ch : Char), String.utf8EncodeChar ch <+: s.drop a ∧ a < j ∧ j < a + ch.utf8Size

/-- Between `i` and `j` there is no digit, or there are only digits and at most `n` of them. -/
def DigitsApart (s : Text) (n i j : ℕ) : Prop :=
  (∀ k, i ≤ k → k < j → isDigit (byteAt s k) = false) ∨
    (∀ k, i ≤ k → k < j → isDigit (byteAt s k) = true) ∧ j - i ≤ n

/-- The pieces stand one after the other from `start` to `stop`, none of them empty. -/
def Partition : ℕ → ℕ → List (ℕ × ℕ) → Prop
  | start, stop, [] => start = stop
  | start, stop, (a, n) :: rest => a = start ∧ 0 < n ∧ Partition (a + n) stop rest

end Pretoken

end Kappai
