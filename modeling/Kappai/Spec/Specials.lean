import Kappai.Lib.Buckets
import Kappai.Lib.Occurrence
import Kappai.Spec.Chat

/-! The special tokens of a vocabulary in a text: the index by first byte that `tokenizer_init` builds
and the search of `find_next_special` in it. -/

namespace Kappai

/-- `text` has `text_len` bytes. -/
structure VocabToken where
  text : Text
  type : UInt8

def tokTypeControl : UInt8 := 3

def tokTypeUserDefined : UInt8 := 4

/-- `tokens` and `n_tokens` of a `tokenizer`. -/
structure Vocab where
  tokens : ℕ → VocabToken
  nTokens : ℕ

/-- `special_first_byte_bitmap`, the `n_special_first_bytes` members of `special_first_bytes`,
`special_by_first_byte_off` and `special_by_first_byte`. -/
structure SpecialIndex where
  bitmap : ℕ → UInt8
  firstBytes : List UInt8
  off : ℕ → ℕ
  byFirstByte : ℕ → ℕ

/-- Where byte `c` is in the bitmap. -/
def bitmapCell (c : UInt8) : ℕ := (c >>> 3).toNat

def bitmapBit (c : UInt8) : UInt8 := 1 <<< (c &&& 7)

namespace Vocab

variable (v : Vocab)

def isSpecial (sid : ℕ) : Bool :=
  (v.tokens sid).type == tokTypeControl || (v.tokens sid).type == tokTypeUserDefined

def specialIds : List ℕ := (List.range v.nTokens).filter v.isSpecial

def textLen (sid : ℕ) : ℕ := (v.tokens sid).text.length

/-- `text[0]` -/
def firstByte (sid : ℕ) : UInt8 := (v.tokens sid).text.headD 0

/-- `counts` and the bitmap after one more special token. -/
def countStep (s : (ℕ → ℕ) × (ℕ → UInt8)) (sid : ℕ) : (ℕ → ℕ) × (ℕ → UInt8) :=
  if v.textLen sid = 0 then s
  else
    let fb := v.firstByte sid
    (Function.update s.1 fb.toNat (s.1 fb.toNat + 1),
      Function.update s.2 (bitmapCell fb) (s.2 (bitmapCell fb) ||| bitmapBit fb))

def counted : (ℕ → ℕ) × (ℕ → UInt8) := v.specialIds.foldl v.countStep (fun _ => 0, fun _ => 0)

def specialOff : ℕ → ℕ := stretch v.counted.1

/-- `cursor` and `special_by_first_byte` after one more special token. -/
def placeStep (s : (ℕ → ℕ) × (ℕ → ℕ)) (sid : ℕ) : (ℕ → ℕ) × (ℕ → ℕ) :=
  if v.textLen sid = 0 then s else scatterStep (fun sid => (v.firstByte sid).toNat) s sid

def placed : ℕ → ℕ := (v.specialIds.foldl v.placeStep (v.specialOff, fun _ => 0)).2

/-- The tokens of first byte `b2`, longer texts before shorter ones. -/
def sortFirstByte (arr : ℕ → ℕ) (b2 : ℕ) : ℕ → ℕ :=
  let cnt := v.specialOff (b2 + 1) - v.specialOff b2
  if cnt ≤ 1 then arr
  else sortCells (fun x key => decide (v.textLen x < v.textLen key)) (v.specialOff b2) cnt arr

/-- The index of `tokenizer_init`. -/
def specialIndex : SpecialIndex where
  bitmap := v.counted.2
  firstBytes := ((List.range 256).filter fun b2 => v.counted.1 b2 != 0).map UInt8.ofNat
  off := v.specialOff
  byFirstByte := (List.range 256).foldl v.sortFirstByte v.placed

/-- `memchr(text + p, b, len - p)`, as a place in the text. -/
def memchrFrom (text : Text) (p : ℕ) (b : UInt8) : Option ℕ :=
  ((text.drop p).findIdx? (· == b)).map (p + ·)

/-- `next` after one more of the first bytes. -/
def nearer (text : Text) (p next : ℕ) (b : UInt8) : ℕ :=
  match memchrFrom text p b with
  | some hit => if hit < next then hit else next
  | none => next

/-- The bytes of token `sid` stand at `p`. -/
def matchesAt (text : Text) (p sid : ℕ) : Bool :=
  if p + v.textLen sid > text.length then false
  else (text.drop p).take (v.textLen sid) == (v.tokens sid).text

/-- The loop of `find_next_special` with the index `ix`, of as many turns as `fuel` at most: the
place and the token, or `none` for -1. -/
def findNextSpecialFrom (ix : SpecialIndex) (text : Text) : ℕ → ℕ → Option (Option (ℕ × ℕ))
  | 0, _ => none
  | fuel + 1, p =>
    if h : p < text.length then
      let c := text[p]
      if ix.bitmap (bitmapCell c) &&& bitmapBit c == 0 then
        let next := ix.firstBytes.foldl (nearer text p) text.length
        if next ≥ text.length then some none else findNextSpecialFrom ix text fuel next
      else
        let b0 := ix.off c.toNat
        let b1 := ix.off (c.toNat + 1)
        match (cellsFrom b0 (b1 - b0) ix.byFirstByte).find? (v.matchesAt text p) with
        | some sid => some (some (p, sid))
        | none => findNextSpecialFrom ix text fuel (p + 1)
    else some none

/-- `find_next_special` -/
def findNextSpecial (text : Text) (start : ℕ) : Option (Option (ℕ × ℕ)) :=
  v.findNextSpecialFrom v.specialIndex text (text.length - start + 1) start

/-- A control or user-defined token with a text stands at `p`. -/
structure SpecialAt (text : Text) (p sid : ℕ) : Prop where
  lt : sid < v.nTokens
  special : v.isSpecial sid = true
  nonempty : (v.tokens sid).text ≠ []
  occurs : OccursAt (v.tokens sid).text text p

/-- The first special token from `start` on, and the longest there, of those the one with the smallest
id. -/
def FirstSpecial (text : Text) (start : ℕ) : Option (ℕ × ℕ) → Prop
  | none => ∀ p ≥ start, ∀ sid, ¬v.SpecialAt text p sid
  | some (p, sid) => start ≤ p ∧ v.SpecialAt text p sid ∧
      (∀ q, start ≤ q → q < p → ∀ s, ¬v.SpecialAt text q s) ∧
      ∀ s, v.SpecialAt text p s →
        v.textLen s < v.textLen sid ∨ v.textLen s = v.textLen sid ∧ sid ≤ s

/-- The search without an index: of the special tokens at `p` the longest. -/
def longestAt (text : Text) (p : ℕ) : Option ℕ :=
  v.specialIds.foldl
    (fun best sid =>
      if v.textLen sid ≠ 0 ∧ v.matchesAt text p sid = true ∧
          ∀ b ∈ best, v.textLen b < v.textLen sid then some sid
      else best)
    none

/-- Every place of the text from `start` on is tried with every special token. -/
def scanSpecial (text : Text) (start : ℕ) : Option (ℕ × ℕ) :=
  (List.range' start (text.length - start)).findSome? fun p => (v.longestAt text p).map (p, ·)

end Vocab

end Kappai
