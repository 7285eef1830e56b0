import Mathlib.Data.Int.Notation
import Kappai.Spec.Chat

/-! Reasoning and content of a generation as the server sends them, token by token, and what a
generation with one thinking span looks like. -/

namespace Kappai

inductive ThinkFilterEvent
  | thinkEmit | thinkStart | thinkEnd | thinkSwallow
deriving DecidableEq, Repr

structure ThinkFilter where
  inThinking : Bool
  skipLabel : Bool
  firstToken : Bool
deriving DecidableEq, Repr

/-- What follows the first line break. -/
def afterLine (piece : Text) : Option Text :=
  match piece.dropWhile (· != 10) with
  | [] => none
  | _ :: rest => some rest

/-- `think_filter_feed`: the event, the filter and what is left of the piece. -/
def thinkFilterFeed (f : ThinkFilter) (id startId endId : ℤ) (thinkOpen labelLine : Bool) (piece : Text) :
    ThinkFilterEvent × ThinkFilter × Text :=
  let f := { f with inThinking := f.inThinking || (f.firstToken && thinkOpen), firstToken := false }
  if id = startId then (.thinkStart, { f with inThinking := true, skipLabel := labelLine }, piece)
  else if id = endId then (.thinkEnd, { f with inThinking := false }, piece)
  else if f.skipLabel then
    match afterLine piece with
    | none => (.thinkSwallow, f, piece)
    | some rest => (.thinkEmit, { f with skipLabel := false }, rest)
  else (.thinkEmit, f, piece)

/-- What `oa_gen` collects of a chat request. -/
structure GenTexts where
  think : ThinkFilter
  reasoning : Text
  content : Text
deriving DecidableEq, Repr

/-- The collector at the start of `run_generation`. -/
def GenTexts.start : GenTexts := ⟨⟨false, false, true⟩, [], []⟩

/-- `gen_on_token`, without tools and stop sequences, for a client that stays. -/
def genOnToken (startId endId : ℤ) (thinkOpen labelLine : Bool) (g : GenTexts) (id : ℤ) (piece : Text) :
    GenTexts :=
  match thinkFilterFeed g.think id startId endId thinkOpen labelLine piece with
  | (.thinkEmit, think, piece) =>
    if think.inThinking then { g with think, reasoning := g.reasoning ++ piece }
    else { g with think, content := g.content ++ piece }
  | (_, think, _) => { g with think }

structure GenToken where
  id : ℤ
  piece : Text
deriving DecidableEq, Repr

def pieces (toks : List GenToken) : Text := toks.flatMap GenToken.piece

/-- A thinking format: the two marker texts, which are one line each and not parts of one another. -/
structure ThinkFormat where
  start : Text
  stop : Text
  labelLine : Bool
  start_ne : start ≠ []
  stop_ne : stop ≠ []
  start_line : (10 : UInt8) ∉ start
  stop_line : (10 : UInt8) ∉ stop
  stop_apart : strstr stop start = none

/-- The bytes of an ASCII text. -/
def ascii (s : String) : Text := s.toList.map fun c => UInt8.ofNat c.toNat

/-- The format whose spans begin with a label. -/
def channelThinking : ThinkFormat :=
  ⟨ascii "<|channel>", ascii "<channel|>", true, by decide +kernel, by decide +kernel,
    by decide +kernel, by decide +kernel, by decide +kernel⟩

/-- The thinking markers of `marker_pairs`. -/
def thinkFormats : List ThinkFormat :=
  [⟨ascii "<think>", ascii "</think>", false, by decide +kernel, by decide +kernel, by decide +kernel,
      by decide +kernel, by decide +kernel⟩,
    channelThinking,
    ⟨ascii "<|think|>", ascii "<|/think|>", false, by decide +kernel, by decide +kernel,
      by decide +kernel, by decide +kernel, by decide +kernel⟩,
    ⟨ascii "<start_of_thought>", ascii "<|end_of_thought|>", false, by decide +kernel,
      by decide +kernel, by decide +kernel, by decide +kernel, by decide +kernel⟩]

namespace ThinkFormat

variable (f : ThinkFormat)

/-- A template with this format. -/
def template (keep : Bool) (render : ℕ → Option Text → List ChatMessage → Bool → Option Text) :
    ChatTemplate :=
  ⟨some (f.start, f.stop), f.labelLine, keep, render⟩

end ThinkFormat

/-- A generation with at most one thinking span, which is at its beginning: the span is opened by the
prompt, by the start token or by both, and closed by the end token or not at all. Without a span, what
is `inside` is the content. -/
structure ThinkStream (f : ThinkFormat) where
  startId : ℤ
  endId : ℤ
  thinkOpen : Bool
  started : Bool
  inside : List GenToken
  closed : Option (List GenToken)
  ids_ne : startId ≠ endId
  spanless : thinkOpen = false → started = false → closed = none
  ordinary : ∀ t ∈ inside ++ closed.getD [], t.id ≠ startId ∧ t.id ≠ endId ∧
    strstr f.start t.piece = none ∧ strstr f.stop t.piece = none

namespace ThinkStream

variable {f : ThinkFormat} (S : ThinkStream f)

def opening : List GenToken := if S.started then [⟨S.startId, f.start⟩] else []

def closing : List GenToken :=
  match S.closed with
  | some after => ⟨S.endId, f.stop⟩ :: after
  | none => []

def tokens : List GenToken := S.opening ++ S.inside ++ S.closing

/-- What the callbacks of the server have collected after all tokens. -/
def collected : GenTexts :=
  S.tokens.foldl (fun g t => genOnToken S.startId S.endId S.thinkOpen f.labelLine g t.id t.piece) .start

/-- What the history keeps of all pieces: reasoning and content. -/
def recorded (keep : Bool) (render : ℕ → Option Text → List ChatMessage → Bool → Option Text) :
    Text × Text :=
  let r := (f.template keep render).splitThinking (pieces S.tokens)
  (r.1.getD [], r.2)

end ThinkStream

/-! Stop sequences of a generation: what a request asks for, and the search after each piece.
The search is `strstr` on a copy of the end of the text, so both sides end at a zero byte. -/

/-- The `stop` field of a request; the items of an array that are no strings are `none`. -/
inductive StopField
  | absent
  | string (s : Text)
  | array (items : List (Option Text))
  | other
deriving DecidableEq, Repr

/-- The loop for `stop_max`. -/
def stopMax (needles : List Text) : ℕ := needles.foldl (fun m n => max m n.length) 0

/-- `parse_stop`: `stop_needles`, and an error text no caller looks at. -/
def parseStop : StopField → List Text × Option String
  | .absent => ([], none)
  | .string s => (if s.length = 0 then [] else [s], none)
  | .array items => (items.filterMap fun item => item.filter fun s => s.length ≠ 0, none)
  | .other => ([], some "'stop' must be a string or an array of strings")

/-- A C string ends at its first zero byte. -/
def cstr (t : Text) : Text := t.takeWhile (· != 0)

/-- `strstr` as an offset. -/
def strstrAt (window needle : Text) : Option ℕ :=
  (strstr (cstr needle) (cstr window)).map fun r => r.1.length

/-- The loop over `stop_needles`: the first needle of the list with a hit. -/
def stopHit (window : Text) : List Text → Option ℕ
  | [] => none
  | needle :: needles =>
    match strstrAt window needle with
    | some hit => some hit
    | none => stopHit window needles

/-- The part of `oa_gen` the token callback works on. -/
structure StopGen where
  think : ThinkFilter
  reasoning : Text
  content : Text
  stoppedByStop : Bool
deriving DecidableEq, Repr

namespace StopGen

/-- The collector at the start of `run_generation`. -/
def start : StopGen := ⟨⟨false, false, true⟩, [], [], false⟩

/-- `check_stop_sequences` -/
def checkStopSequences (needles : List Text) (g : StopGen) : StopGen :=
  if g.stoppedByStop || needles.length == 0 then g
  else
    let rlen := g.reasoning.length
    let clen := g.content.length
    let total := rlen + clen
    let maxNeedle := stopMax needles
    if total = 0 ∨ maxNeedle = 0 ∨ total < maxNeedle then g
    else
      let windowLen := 2 * maxNeedle - 1
      let windowStart := if windowLen < total then total - windowLen else 0
      let window :=
        if windowStart < rlen then g.reasoning.drop windowStart ++ g.content
        else g.content.drop (windowStart - rlen)
      match stopHit window needles with
      | none => g
      | some hit =>
        let cut := windowStart + hit
        if cut ≤ rlen then
          { g with stoppedByStop := true, reasoning := g.reasoning.take cut, content := [] }
        else { g with stoppedByStop := true, content := g.content.take (cut - rlen) }

end StopGen

/-- A text completion, or a chat with the thinking markers of its template. -/
inductive GenApi
  | text
  | chat (startId endId : ℤ) (thinkOpen labelLine : Bool)

/-- `gen_on_token` of a request without tools, for a client that stays. -/
def StopGen.onToken (api : GenApi) (needles : List Text) (g : StopGen) (t : GenToken) : StopGen :=
  match api with
  | .text => { g with content := g.content ++ t.piece }.checkStopSequences needles
  | .chat startId endId thinkOpen labelLine =>
    match thinkFilterFeed g.think t.id startId endId thinkOpen labelLine t.piece with
    | (.thinkEmit, think, piece) =>
      if piece.length = 0 then { g with think }
      else if think.inThinking then
        { g with think, reasoning := g.reasoning ++ piece }.checkStopSequences needles
      else { g with think, content := g.content ++ piece }.checkStopSequences needles
    | (_, think, _) => { g with think }

/-- The tokens given to the callback one after the other: a stop interrupts the generation, and
the decode loop ends before the next token. The tokens that were given stand beside the result. -/
def stopRun (api : GenApi) (needles : List Text) : StopGen → List GenToken → StopGen × List GenToken
  | g, [] => (g, [])
  | g, t :: toks =>
    if g.stoppedByStop then (g, [])
    else
      let r := stopRun api needles (g.onToken api needles t) toks
      (r.1, t :: r.2)

/-- Where the first of all occurrences of a stop string begins. -/
def earliestStop (needles : List Text) (text : Text) : Option ℕ :=
  (List.range (text.length + 1)).find? fun k => needles.any fun n => n.isPrefixOf (text.drop k)

/-- The text up to the first stop string in it. -/
def cutAtStop (needles : List Text) (text : Text) : Text :=
  match earliestStop needles text with
  | some k => text.take k
  | none => text

end Kappai
