import Mathlib.Algebra.Ring.Nat
import Mathlib.Data.List.Basic
import Mathlib.Data.Nat.Notation

/-! The lexer of chat templates. A source is the list of its bytes; offsets and lengths are 32-bit
numbers, and what a token points at in the source is its `text`. -/

namespace Kappai.Jinja

inductive TokType
  | text | exprOpen | exprClose | stmtOpen | stmtClose | ident | string | number | dot
  | lbracket | rbracket | lparen | rparen | comma | colon | lbrace | rbrace | op | pipe
  | unknown | eof
  deriving DecidableEq

structure Tok where
  type : TokType
  start : ℕ
  text : List Char
  stripLeft : Bool
  stripRight : Bool

structure Lexer where
  src : List Char
  len : ℕ
  pos : ℕ
  toks : List Tok
  diagnostics : List String
  textStart : ℕ
  nextStripLeft : Bool
  nextTrimNl : Bool
  tagStart : ℕ
  tagIsExpr : Bool
  tagStripAfter : Bool

def u32 (n : ℕ) : ℕ := n % 2 ^ 32

def strlen (s : List Char) : ℕ := (s.takeWhile (· ≠ '\x00')).length

/-- `src[i]`; after the last byte there is the terminator. -/
def byteAt (src : List Char) (i : ℕ) : Char := src.getD i '\x00'

/-- `!strncmp(src + i, "ab", 2)` -/
def twoAt (src : List Char) (i : ℕ) (a b : Char) : Bool := byteAt src i == a && byteAt src (i + 1) == b

def isspace (c : Char) : Bool :=
  c == ' ' || c == '\t' || c == '\n' || c == '\x0b' || c == '\x0c' || c == '\x0d'

def isIdentStart (c : Char) : Bool := c.isAlpha || c == '_'

def isIdentChar (c : Char) : Bool := c.isAlphanum || c == '_'

def gOpWords : List (List Char) := ["and", "or", "not", "in", "is"].map String.toList

def lexWordIsOp (s : List Char) : Bool := gOpWords.contains s

namespace Lexer

variable (lx : Lexer)

/-- What lies between two offsets of the source. -/
def slice (start len : ℕ) : List Char := (lx.src.drop start).take len

/-- `lex_push` -/
def push (type : TokType) (start len : ℕ) (stripLeft stripRight : Bool) : Lexer :=
  { lx with toks := lx.toks ++ [⟨type, start, lx.slice start len, stripLeft, stripRight⟩] }

/-- The end of the run of bytes with `p` that starts at an offset. -/
def skip (p : Char → Bool) (pos : ℕ) : ℕ := pos + (((lx.src.take lx.len).drop pos).takeWhile p).length

/-- `lex_lstrip_text_end` -/
def lstripTextEnd (tstart tagStart : ℕ) : ℕ :=
  let e := tagStart - ((lx.slice tstart (tagStart - tstart)).reverse.takeWhile
    fun c => c == ' ' || c == '\t').length
  if e = tagStart then tagStart
  else if tstart < e then if byteAt lx.src (e - 1) = '\n' then e else tagStart
  else if tstart = 0 || byteAt lx.src (tstart - 1) == '\n' then e
  else tagStart

/-- `lex_flush_text` -/
def flushText (tagStart : ℕ) (stripLeftOfTextBefore applyLstrip : Bool) : Lexer :=
  let tstart := if !lx.nextStripLeft && lx.nextTrimNl && decide (lx.textStart < tagStart) &&
    byteAt lx.src lx.textStart == '\n' then lx.textStart + 1 else lx.textStart
  let tend := if applyLstrip && !lx.nextStripLeft then lx.lstripTextEnd tstart tagStart else tagStart
  let lx := { lx with nextTrimNl := false }
  if tstart < tend || stripLeftOfTextBefore then
    lx.push .text tstart (tend - tstart) lx.nextStripLeft stripLeftOfTextBefore
  else lx

/-- The loop of `lex_comment`: where the comment ends and whether a `-` stands before its end. -/
def commentEnd : ℕ → ℕ → Option (Option (ℕ × Bool))
  | 0, _ => none
  | n + 1, pos =>
    if lx.len ≤ pos then some none
    else if byteAt lx.src pos == '-' && twoAt lx.src (pos + 1) '#' '}' then
      some (some (u32 (pos + 3), true))
    else if twoAt lx.src pos '#' '}' then some (some (u32 (pos + 2), false))
    else commentEnd n (pos + 1)

/-- `lex_comment` -/
def comment : Option (Except String Lexer) :=
  let start := lx.pos
  let pos := u32 (lx.pos + 2)
  let before := decide (pos < lx.len) && byteAt lx.src pos == '-'
  match lx.commentEnd (lx.len + 1) (if before then pos + 1 else pos) with
  | none => none
  | some none => some (.error ("unterminated comment at offset " ++ toString start))
  | some (some (pos, after)) =>
    let lx := { lx with pos }.flushText start before true
    some (.ok { lx with textStart := lx.pos, nextStripLeft := after, nextTrimNl := !after })

/-- How many bytes of a string literal there are up to its closing quote. -/
def stringLength (q : Char) : List Char → ℕ
  | [] => 0
  | [c] => if c = q then 0 else 1
  | c :: d :: cs => if c = q then 0
    else if c = '\\' then 2 + stringLength q cs
    else 1 + stringLength q (d :: cs)

/-- The digits of a number, and those after its point if there are any. -/
def numberEnd : ℕ :=
  let pos := lx.skip Char.isDigit lx.pos
  if pos + 1 < lx.len && byteAt lx.src pos == '.' && (byteAt lx.src (pos + 1)).isDigit then
    lx.skip Char.isDigit (pos + 1)
  else pos

/-- The tokens of one byte. -/
def punctuation : List (Char × TokType) :=
  [('.', .dot), ('[', .lbracket), (']', .rbracket), ('(', .lparen), (')', .rparen), (',', .comma),
    (':', .colon), ('{', .lbrace), ('}', .rbrace), ('|', .pipe)]

/-- A token that starts at the current byte and takes it and the next `n - 1`. -/
def take (type : TokType) (n : ℕ) : Lexer :=
  { lx.push type lx.pos n false false with pos := u32 (lx.pos + n) }

def unsupportedChar (c : Char) (pos : ℕ) : String :=
  "unsupported character '" ++ c.toString ++ "' at offset " ++ toString pos

/-- One token inside a tag, from a byte that is neither a blank nor the tag's end. -/
def tagToken : Lexer :=
  let c := byteAt lx.src lx.pos
  let next := byteAt lx.src (lx.pos + 1)
  if c == '\x27' || c == '\x22' then
    let s := lx.pos + 1
    let n := stringLength c ((lx.src.take lx.len).drop s)
    let lx := lx.push .string s n false false
    { lx with pos := if s + n < lx.len then s + n + 1 else s + n }
  else if c.isDigit then
    let e := lx.numberEnd
    { lx.push .number lx.pos (e - lx.pos) false false with pos := e }
  else if isIdentStart c then
    let e := lx.skip isIdentChar lx.pos
    let n := e - lx.pos
    { lx.push (if lexWordIsOp (lx.slice lx.pos n) then .op else .ident) lx.pos n false false with pos := e }
  else match punctuation.lookup c with
    | some type => lx.take type 1
    | none =>
      if c == '=' && next == '=' then lx.take .op 2
      else if c == '!' && next == '=' then lx.take .op 2
      else if (c == '>' || c == '<') && next == '=' then lx.take .op 2
      else if c == '>' || c == '<' then lx.take .op 1
      else if c == '+' || c == '-' || c == '=' || c == '~' then lx.take .op 1
      else
        { lx with diagnostics := lx.diagnostics ++ [unsupportedChar c lx.pos] }.take
          .unknown 1

/-- The first byte of the tag's close. -/
def closeByte : Char := if lx.tagIsExpr then '}' else '%'

/-- The close of a tag, which takes `n` bytes. -/
def tagClose (n : ℕ) (strip : Bool) : Lexer :=
  { lx.push (if lx.tagIsExpr then .exprClose else .stmtClose) lx.pos n strip false with
    pos := u32 (lx.pos + n), tagStripAfter := lx.tagStripAfter || strip }

/-- `lex_tag_inner` -/
def tagInner : ℕ → Lexer → Option (Except String Lexer)
  | 0, _ => none
  | n + 1, lx =>
    let lx := { lx with pos := lx.skip isspace lx.pos }
    if lx.len ≤ lx.pos then some (.error ("unterminated tag at offset " ++ toString lx.tagStart))
    else if byteAt lx.src lx.pos == '-' && twoAt lx.src (lx.pos + 1) lx.closeByte '}' then
      some (.ok (lx.tagClose 3 true))
    else if twoAt lx.src lx.pos lx.closeByte '}' then some (.ok (lx.tagClose 2 false))
    else tagInner n lx.tagToken

/-- The opening of a tag, its token with it. -/
def tagOpen : Lexer :=
  let isExpr := byteAt lx.src (lx.pos + 1) == '{'
  let start := lx.pos
  let pos := u32 (lx.pos + 2)
  let before := decide (pos < lx.len) && byteAt lx.src pos == '-'
  let lx := { lx with
    pos := if before then pos + 1 else pos, tagStart := start, tagIsExpr := isExpr, tagStripAfter := false }
  let lx := if lx.textStart < start || lx.nextStripLeft then lx.flushText start before (!isExpr) else lx
  lx.push (if isExpr then .exprOpen else .stmtOpen) start (lx.pos - start) false false

/-- A tag, from its opening on. -/
def tag : Option (Except String Lexer) :=
  match tagInner (lx.len + 1) lx.tagOpen with
  | none => none
  | some (.error msg) => some (.error msg)
  | some (.ok lx) => some (.ok { lx with
      textStart := lx.pos, nextStripLeft := lx.tagStripAfter,
      nextTrimNl := !lx.tagIsExpr && !lx.tagStripAfter })

/-- One turn of the loop of `jinja_lex`. -/
def turn : Option (Except String Lexer) :=
  if twoAt lx.src lx.pos '{' '#' then lx.comment
  else if twoAt lx.src lx.pos '{' '{' || twoAt lx.src lx.pos '{' '%' then lx.tag
  else some (.ok { lx with pos := lx.pos + 1 })

def scan : ℕ → Lexer → Option (Except String Lexer)
  | 0, _ => none
  | n + 1, lx =>
    if lx.len ≤ lx.pos then some (.ok lx)
    else match lx.turn with
      | none => none
      | some (.error msg) => some (.error msg)
      | some (.ok lx) => scan n lx

end Lexer

/-- The lexer before its first byte; the last newline of a source is not part of the template. -/
def lexStart (src : List Char) : Lexer :=
  let len := u32 (strlen src)
  { src, len := if 0 < len && byteAt src (len - 1) == '\n' then len - 1 else len, pos := 0, toks := [],
    diagnostics := [], textStart := 0, nextStripLeft := false, nextTrimNl := false, tagStart := 0,
    tagIsExpr := false, tagStripAfter := false }

/-- `jinja_lex`; an error is the text that is reported. -/
def jinjaLex (src : List Char) : Option (Except String Lexer) :=
  match Lexer.scan (src.length + 1) (lexStart src) with
  | none => none
  | some (.error msg) => some (.error msg)
  | some (.ok lx) =>
    let lx := if lx.textStart < lx.len || lx.nextStripLeft then lx.flushText lx.len false false else lx
    some (.ok (lx.push .eof lx.len 0 false false))

end Kappai.Jinja
