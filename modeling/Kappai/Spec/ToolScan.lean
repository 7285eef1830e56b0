import Kappai.Lib.Occurrence
import Kappai.Spec.ThinkFilter

/-! Tool calls in a generated text: the formats, and the scanner that takes the calls out of the
content while the text arrives. The payload parsers and json-c are parameters. -/

namespace Kappai

inductive MarkerPayload
  | none | callcolon | auto | funcargs | xmlfunc | xmlargs
deriving DecidableEq, Repr

/-- `marker_pair`, less what only the choice of a format reads. -/
structure MarkerPair where
  /-- `open`; empty for bare JSON calls. -/
  opening : Text
  close : Option Text
  payload : MarkerPayload
  stop : Option Text
deriving DecidableEq, Repr

/-- A json-c value; a number is kept as its text. -/
inductive Json
  | null
  | boolean (b : Bool)
  | number (digits : Text)
  | string (s : Text)
  | array (items : List Json)
  | object (fields : List (Text × Json))

namespace Json

/-- `json_get` -/
def get (obj : Json) (key : Text) : Option Json :=
  match obj with
  | .object fields =>
    match fields.find? fun f => f.1 == key with
    | some (_, .null) | none => none
    | some (_, v) => some v
  | _ => none

/-- `json_get_str` without a fallback -/
def getStr (obj : Json) (key : Text) : Option Text :=
  match obj.get key with
  | some (.string s) => some (cstr s)
  | _ => none

/-- `json_object_object_add` -/
def objectAdd (obj : Json) (key : Text) (val : Json) : Json :=
  match obj with
  | .object fields =>
    if fields.any fun f => f.1 == key then
      .object (fields.map fun f => if f.1 == key then (key, val) else f)
    else .object (fields ++ [(key, val)])
  | _ => obj

end Json

/-- `json_tokener_parse_ex` and `json_tokener_get_error`. -/
inductive TokenerResult
  | parsed (obj : Json) (used : ℕ)
  /-- `json_tokener_continue` -/
  | more
  | error

/-- `json_parse_len_ex_code` -/
def jsonParseLenExCode (tokener : Text → TokenerResult) (s : Text) : TokenerResult :=
  if 2147483647 < s.length then .error else tokener s

/-- What a payload parser hands back: `name_out`, `args_out` and `end_out`. -/
structure PayloadHit where
  name : Text
  args : Json
  stop : ℕ

/-- The payload parsers `payload_*` and json-c. -/
structure ToolEnv where
  payload : MarkerPayload → Text → ℕ → Option PayloadHit
  tokener : Text → TokenerResult
  /-- json-c stops where the value ends, whatever comes after it. -/
  used_le : ∀ s obj used, tokener s = .parsed obj used → 0 < used ∧ used ≤ s.length
  parsed_append : ∀ s obj used y, tokener s = .parsed obj used → tokener (s ++ y) = .parsed obj used
  toJsonString : Json → Text

/-- An entry of `calls`. Its id is made from the clock and a counter of the process. -/
structure ToolCall where
  name : Text
  arguments : Text
deriving DecidableEq, Repr

/-- `isspace` in the C locale. -/
def isSpaceByte (b : UInt8) : Bool := b == 32 || (9 ≤ b && b ≤ 13)

/-- `find_marker` -/
def findMarker (s : Text) (start : ℕ) : Option Text → Option ℕ
  | none => none
  | some marker =>
    if marker = [] then none
    else if s.length < marker.length ∨ s.length - marker.length < start then none
    else (findAt marker (s.drop start)).map (start + ·)

/-- A marker that is there and not empty begins at `k`. -/
def MarkAt (marker : Option Text) (s : Text) (k : ℕ) : Prop :=
  ∃ w, marker = some w ∧ w ≠ [] ∧ OccursAt w s k

/-- The loop of `marker_tail_len`. -/
def tailLoop (s marker : Text) : ℕ → ℕ
  | 0 => 0
  | k + 1 =>
    if s.drop (s.length - (k + 1)) = marker.take (k + 1) then k + 1 else tailLoop s marker k

/-- `marker_tail_len` -/
def markerTailLen (s : Text) : Option Text → ℕ
  | none => 0
  | some marker =>
    if marker.length ≤ 1 then 0 else tailLoop s marker (min s.length (marker.length - 1))

/-- `partial_open_hold` -/
def partialOpenHold (s : Text) (fmt : MarkerPair) : ℕ :=
  max (markerTailLen s (some fmt.opening)) (markerTailLen s fmt.stop)

/-- The tool formats of `marker_pairs` that have an opening marker. -/
def toolFormats : List MarkerPair :=
  [⟨ascii "<|tool_call>", some (ascii "<tool_call|>"), .callcolon, some (ascii "<|tool_response>")⟩,
    ⟨ascii "<tool_call>", some (ascii "</tool_call>"), .xmlargs, none⟩,
    ⟨ascii "<tool_call>", some (ascii "</tool_call>"), .xmlfunc, none⟩,
    ⟨ascii "<|tool_call_start|>", some (ascii "<|tool_call_end|>"), .funcargs,
      some (ascii "<|tool_call_end|>")⟩,
    ⟨ascii "<function=", some (ascii "</function>"), .xmlfunc, some (ascii "<|im_end|>")⟩]

/-- The format without an opening marker. -/
def bareFormat : MarkerPair := ⟨[], some [], .auto, some (ascii "<|eot_id|>")⟩

/-- Neither of the opening and the stop marker ends inside the other. -/
def MarkersApart (fmt : MarkerPair) : Prop :=
  findMarker fmt.opening.dropLast 0 fmt.stop = none ∧
    findMarker (fmt.stop.getD []).dropLast 1 (some fmt.opening) = none

instance (fmt : MarkerPair) : Decidable (MarkersApart fmt) := inferInstanceAs (Decidable (_ ∧ _))

example : ∀ fmt ∈ toolFormats, MarkersApart fmt := by decide +kernel

structure ToolScanner where
  content : Text
  inCall : Bool
  suppressed : Bool
  buf : Text
  scanPos : ℕ
  closeScan : ℕ
  autoStopEnd : ℕ
  autoStopFound : Bool
  autoDeadI : ℕ
  autoDeadN : ℕ
  forceJsonAttempt : Bool
  calls : List ToolCall
  /-- All that went to `on_content`. -/
  sent : Text
  /-- How often `advance` warned of an unparseable block. -/
  unparsed : ℕ
deriving DecidableEq, Repr

/-- One turn of the loop of `advance`. -/
inductive ScanTurn
  | next (sc : ToolScanner)
  | done (sc : ToolScanner)

def ScanTurn.scanner : ScanTurn → ToolScanner
  | .next sc | .done sc => sc

namespace ToolScanner

/-- `toolcall_scanner_new` -/
def new : ToolScanner := ⟨[], false, false, [], 0, 0, 0, false, 0, 0, false, [], [], 0⟩

/-- `emit_content` -/
def emitContent (sc : ToolScanner) (start stop : ℕ) : ToolScanner :=
  { sc with sent := sc.sent ++ (sc.content.drop start).take (stop - start) }

/-- `emit_content` from `scan_pos` on, and the move of `scan_pos` after it. -/
def emitTo (sc : ToolScanner) (stop : ℕ) : ToolScanner :=
  { sc.emitContent sc.scanPos stop with scanPos := stop }

/-- `suppress_truncate` -/
def suppressTruncate (sc : ToolScanner) (emitEnd : ℕ) : ToolScanner :=
  { sc.emitTo emitEnd with content := sc.content.take emitEnd, suppressed := true }

end ToolScanner

section Scan

variable (E : ToolEnv) (fmt : MarkerPair)

/-- `json_parse_first` -/
def jsonParseFirst (s : Text) : Option Json :=
  match jsonParseLenExCode E.tokener (cstr s) with
  | .parsed .null _ => none
  | .parsed obj _ => some obj
  | _ => none

/-- `json_args_of` -/
def jsonArgsOf (obj : Json) : Json :=
  match (obj.get (ascii "arguments")).or (obj.get (ascii "parameters")) with
  | some (.object fields) => .object fields
  | some (.string s) => (jsonParseFirst E s).getD (.object [])
  | _ => .object []

/-- The call as `record_call` writes it down. -/
def callOf (name : Text) (args : Json) : ToolCall := ⟨cstr name, E.toJsonString args⟩

/-- `toolcall_parse`; no caller reads `saw_close`. -/
def toolcallParse (text : Text) : Option PayloadHit :=
  if fmt.opening.isPrefixOf text then
    match E.payload fmt.payload text fmt.opening.length with
    | none => none
    | some hit =>
      let pos := hit.stop + ((text.drop hit.stop).takeWhile isSpaceByte).length
      let close := fmt.close.getD []
      let closed := 0 < close.length ∧ close.isPrefixOf (text.drop pos)
      some { hit with stop := if closed then pos + close.length else hit.stop }
  else none

/-- The loop over the payloads of a closed block, from `buf_consumed` on. A payload has at least
the byte of a name, so a turn for each byte is enough. -/
def blockLoop : ℕ → Bool → Text → List ToolCall
  | 0, _, _ => []
  | fuel + 1, anyOk, rest =>
    if rest = [] then []
    else
      match if anyOk then E.payload fmt.payload rest 0 else toolcallParse E fmt rest with
      | none => []
      | some hit =>
        callOf E hit.name hit.args ::
          blockLoop fuel true ((rest.drop hit.stop).dropWhile fun b => b == 44 || isSpaceByte b)

/-- The calls of a closed block, given without its closing marker. -/
def blockCalls (block : Text) : List ToolCall := blockLoop E fmt block.length false block

namespace ToolScanner

/-- The search for the stop marker in `advance` without an opening marker. -/
def autoStop (sc : ToolScanner) : Option ℕ :=
  let slen := (fmt.stop.getD []).length
  if 0 < slen ∧ sc.autoStopFound = false ∧ sc.scanPos ≤ sc.autoStopEnd ∧
      sc.autoStopEnd ≤ sc.content.length then
    let resume := if slen - 1 < sc.autoStopEnd then sc.autoStopEnd - (slen - 1) else 0
    findMarker sc.content (if sc.scanPos < resume then resume else sc.scanPos) fmt.stop
  else findMarker sc.content sc.scanPos fmt.stop

/-- The object at `i`, unless a parse of the same bytes has failed before. -/
def autoObject (sc : ToolScanner) (i : ℕ) : ToolScanner × Option (Json × ℕ) :=
  let avail := sc.content.length - i
  if i ≠ sc.autoDeadI ∨ sc.autoDeadN < avail then
    match jsonParseLenExCode E.tokener (sc.content.drop i) with
    | .parsed obj used => (sc, some (obj, used))
    | .more => (sc, none)
    | .error => ({ sc with autoDeadI := i, autoDeadN := avail }, none)
  else (sc, none)

/-- The loop over the braces; `done` is a return from `advance`. -/
def autoLoop (kStop : Option ℕ) (closable : Bool) : ℕ → ℕ → ToolScanner → ScanTurn
  | 0, _, sc => .next sc
  | n + 1, i, sc =>
    if sc.content[i]? ≠ some 123 then autoLoop kStop closable n (i + 1) sc
    else if closable = false then .done (sc.emitTo i)
    else
      match sc.autoObject E i with
      | (sc, none) => .done (sc.emitTo i)
      | (sc, some (obj, used)) =>
        match obj.getStr (ascii "name") with
        | none =>
          autoLoop kStop closable n (i + 1) (sc.emitTo (i + used))
        | some name =>
          let sc := { sc.emitTo i with
            calls := sc.calls ++ [callOf E name (jsonArgsOf E obj)], scanPos := i + used }
          match kStop with
          | some k => if k ≤ sc.scanPos then .done (sc.suppressTruncate k) else .next sc
          | none => .next sc

/-- `tail_closable` -/
def tailClosable (sc : ToolScanner) : Bool :=
  sc.forceJsonAttempt ||
    ((sc.content.drop sc.scanPos).reverse.dropWhile isSpaceByte).head? == some 125

/-- A turn of `advance` without an opening marker; all its ways out return. -/
def autoTurn (sc : ToolScanner) : ToolScanner :=
  if sc.content.length < sc.scanPos then { sc with scanPos := sc.content.length }
  else
    let kStop := sc.autoStop fmt
    let searchEnd := kStop.getD sc.content.length
    let closable := sc.tailClosable
    let sc := { sc with autoStopEnd := sc.content.length, autoStopFound := kStop.isSome }
    match sc.autoLoop E kStop closable (searchEnd - sc.scanPos) sc.scanPos with
    | .done sc => sc
    | .next sc =>
      match kStop with
      | some k => sc.suppressTruncate k
      | none => sc.emitTo searchEnd

/-- The opening marker at `k`: the content from it on goes to the buffer. -/
def startCall (sc : ToolScanner) (k : ℕ) : ToolScanner :=
  { sc.emitTo k with
    buf := sc.buf ++ sc.content.drop k, content := sc.content.take k, inCall := true,
    closeScan := 0, scanPos := 0 }

/-- A turn of `advance` outside a call. -/
def contentTurn (sc : ToolScanner) : ScanTurn :=
  if sc.content.length < sc.scanPos then .done { sc with scanPos := sc.content.length }
  else
    let kOpen := findMarker sc.content sc.scanPos (some fmt.opening)
    let kStop := findMarker sc.content sc.scanPos fmt.stop
    match kOpen, kStop with
    | some k, none => .next (sc.startCall k)
    | some k, some k' => if k ≤ k' then .next (sc.startCall k) else .done (sc.suppressTruncate k')
    | none, some k' => .done (sc.suppressTruncate k')
    | none, none =>
      .done (sc.emitTo (max (sc.content.length - partialOpenHold sc.content fmt) sc.scanPos))

/-- A turn of `advance` in a call. -/
def callTurn (sc : ToolScanner) : ScanTurn :=
  match fmt.close with
  | none => .done sc
  | some close =>
    match findMarker sc.buf sc.closeScan fmt.close with
    | none => .done { sc with closeScan := sc.buf.length - (close.length - 1) }
    | some k =>
      let total := k + close.length
      let calls := blockCalls E fmt (sc.buf.take k)
      let content := if calls = [] then sc.content ++ sc.buf.take total else sc.content
      .next { sc with
        content := content ++ sc.buf.drop total, inCall := false, buf := [],
        scanPos := content.length, closeScan := 0, calls := sc.calls ++ calls,
        unparsed := sc.unparsed + if calls = [] then 1 else 0 }

def turn (sc : ToolScanner) : ScanTurn :=
  if sc.suppressed then .done sc
  else if fmt.opening = [] ∧ sc.inCall = false then .done (sc.autoTurn E fmt)
  else if sc.inCall then sc.callTurn E fmt
  else sc.contentTurn fmt

/-- The loop of `advance`. -/
def advanceLoop : ℕ → ToolScanner → ToolScanner
  | 0, sc => sc
  | guard + 1, sc =>
    match sc.turn E fmt with
    | .next sc => advanceLoop guard sc
    | .done sc => sc

def advance (sc : ToolScanner) : ToolScanner := sc.advanceLoop E fmt 8192

/-- Whether the loop of `advance` ends with its warning. -/
def guardFires : ℕ → ToolScanner → Bool
  | 0, _ => true
  | guard + 1, sc =>
    match sc.turn E fmt with
    | .next sc => guardFires guard sc
    | .done _ => false

/-- `toolcall_scanner_feed_capture` -/
def feedCapture (sc : ToolScanner) (piece : Text) : ToolScanner :=
  if sc.inCall then { sc with buf := sc.buf ++ piece }.advance E fmt else sc

/-- `toolcall_scanner_feed` -/
def feed (sc : ToolScanner) : ToolScanner := sc.advance E fmt

/-- The way of a piece of the content through `gen_on_token`. -/
def onPiece (sc : ToolScanner) (piece : Text) : ToolScanner :=
  if sc.suppressed then sc
  else if sc.inCall then sc.feedCapture E fmt piece
  else { sc with content := sc.content ++ piece }.feed E fmt

/-- A call that the end of the generation leaves open. -/
def closeOpenCall (sc : ToolScanner) : ToolScanner :=
  if sc.inCall ∧ sc.buf ≠ [] then
    match toolcallParse E fmt sc.buf with
    | some hit =>
      { sc with calls := sc.calls ++ [callOf E hit.name hit.args], buf := [], inCall := false }
    | none =>
      { { sc with content := sc.content ++ sc.buf }.emitContent sc.content.length
          (sc.content.length + sc.buf.length) with buf := [], inCall := false }
  else sc

/-- The end of `toolcall_scanner_finish`: all that is left of the content is sent. -/
def sendRest (sc : ToolScanner) : ToolScanner :=
  if sc.scanPos < sc.content.length then sc.emitTo sc.content.length else sc

/-- `toolcall_scanner_finish` -/
def finish (sc : ToolScanner) : ToolScanner :=
  if sc.suppressed then { sc with buf := [], inCall := false }
  else
    let sc := sc.closeOpenCall E fmt
    if sc.inCall then sc
    else
      let sc := { sc with scanPos := min sc.scanPos sc.content.length }
      if fmt.opening = [] ∧ sc.scanPos < sc.content.length then
        let sc := advance E fmt { sc with forceJsonAttempt := true }
        sendRest { sc with forceJsonAttempt := false }
      else sc.sendRest

/-- The scanner over a whole generation whose text arrives in `pieces`. -/
def run (pieces : List Text) : ToolScanner :=
  (pieces.foldl (onPiece E fmt) new).finish E fmt

end ToolScanner

end Scan

/-! The payload of the XML formats with one tag for each key and one for each value. -/

section Xmlargs

variable (tokener : Text → TokenerResult)

/-- `coerce_arg_value` -/
def coerceArgValue (v : Text) : Json :=
  if v.head? = some 123 ∨ v.head? = some 91 then
    match jsonParseLenExCode tokener v with
    | .parsed .null _ => .string v
    | .parsed val _ => val
    | _ => .string v
  else .string v

/-- The loop over `<arg_key>` in `payload_xmlargs`: where it ends, and the arguments. -/
def xmlargsLoop (p : Text) : ℕ → ℕ → Json → ℕ × Json
  | 0, pos, args => (pos, args)
  | fuel + 1, pos, args =>
    if (ascii "<arg_key>").isPrefixOf (p.drop pos) then
      let kstart := pos + 9
      match findMarker p kstart (some (ascii "</arg_key>")) with
      | none => (kstart, args)
      | some kend =>
        let pos := kend + 10
        if (ascii "<arg_value>").isPrefixOf (p.drop pos) then
          let vstart := pos + 11
          match findMarker p vstart (some (ascii "</arg_value>")) with
          | none => (vstart, args)
          | some vend =>
            let key := cstr ((p.drop kstart).take (kend - kstart))
            let val := coerceArgValue tokener ((p.drop vstart).take (vend - vstart))
            xmlargsLoop p fuel (vend + 12) (args.objectAdd key val)
        else (pos, args)
    else (pos, args)

def trimSpaces (t : Text) : Text :=
  ((t.dropWhile isSpaceByte).reverse.dropWhile isSpaceByte).reverse

/-- `payload_xmlargs`. Every turn of its loop takes a tag, so a turn for each byte is enough. -/
def payloadXmlargs (p : Text) (pos : ℕ) : Option PayloadHit :=
  let nstart := pos + ((p.drop pos).takeWhile isSpaceByte).length
  let pos := nstart + ((p.drop nstart).takeWhile (· != 60)).length
  let name := trimSpaces ((p.drop nstart).take (pos - nstart))
  if p.length ≤ pos ∨ name = [] then none
  else
    let (stop, args) := xmlargsLoop tokener p p.length pos (.object [])
    some ⟨name, args, stop⟩

end Xmlargs

/-- json-c for arguments `k` and `v`: it is not asked to read anything. -/
def argsEnv : ToolEnv :=
  ⟨fun _ => payloadXmlargs fun _ => .error, fun _ => .error, (fun _ _ _ h => by cases h),
    (fun _ _ _ _ h => by cases h), fun _ => 123 :: ascii "\"k\":\"v\"" ++ [125]⟩

def argsFormat : MarkerPair := ⟨ascii "<tool_call>", some (ascii "</tool_call>"), .xmlargs, none⟩

def callBlock : Text :=
  ascii "<tool_call>f<arg_key>k</arg_key><arg_value>v</arg_value></tool_call>"

end Kappai

/-! Bare JSON calls as the whole text has them, and the runs in which the scanner meets them one by
one. -/

namespace Kappai

/-- What a reader of the whole text makes of it. -/
structure BareOutcome where
  calls : List ToolCall
  content : Text
  sent : Text

def BareOutcome.after (calls : List ToolCall) (content sent : Text) (o : BareOutcome) : BareOutcome :=
  ⟨calls ++ o.calls, content ++ o.content, sent ++ o.sent⟩

section Bare

variable (E : ToolEnv) (fmt : MarkerPair)

/-- The outcome of a text that is not empty, from the outcomes `rest` of what comes after its first
byte or object. -/
def bareStep (rest : Text → BareOutcome) (b : UInt8) (r : Text) : BareOutcome :=
  if findMarker (b :: r) 0 fmt.stop = some 0 then ⟨[], [], []⟩
  else if b = 123 then
    match jsonParseLenExCode E.tokener (b :: r) with
    | .parsed obj used =>
      let object := (b :: r).take used
      match obj.getStr (ascii "name") with
      | none => (rest ((b :: r).drop used)).after [] object object
      | some name =>
        let call := callOf E name (jsonArgsOf E obj)
        match (findMarker (b :: r) 0 fmt.stop).filter (· < used) with
        | some k => ⟨[call], (b :: r).take k, []⟩
        | none => (rest ((b :: r).drop used)).after [call] object []
    | .more => ⟨[], b :: r, b :: r⟩
    | .error => (rest r).after [] [b] [b]
  else (rest r).after [] [b] [b]

def bareScan : ℕ → Text → BareOutcome
  | 0, _ | _, [] => ⟨[], [], []⟩
  | fuel + 1, b :: r => bareStep E fmt (bareScan fuel) b r

/-- Every complete object with a name is a call, up to the stop marker. An object that is not
complete takes the rest of the text; a brace that does not begin one is text. -/
def bareOutcome (text : Text) : BareOutcome := bareScan E fmt text.length text

/-- The end of what a chunk shows: no brace, and either the stop marker, or none that begins here
and ends in the text `y` that is still to come. -/
def LastPart (y r : Text) : Prop :=
  (123 ∉ r ∧ ∀ k < r.length, ¬MarkAt fmt.stop (r ++ y) k) ∨
    ∃ k, findMarker r 0 fmt.stop = some k ∧ 123 ∉ r.take k

/-- No stop marker begins among the first `n` bytes. -/
def StopFree (y r : Text) (n : ℕ) : Prop :=
  ∀ k < n, ¬MarkAt fmt.stop (r ++ y) k

/-- What a chunk shows behind `scan_pos`, piece by piece: objects without a name and without
another brace, then at most one call with no brace behind it, or a brace that has to wait. -/
inductive Tidy (closable : Bool) (wait : Text → Prop) (y : Text) : Text → Prop
  | last {r : Text} (h : LastPart fmt y r) : Tidy closable wait y r
  | waits {a r : Text} (hbrace : 123 ∉ a) (hhead : r.head? = some 123)
      (hstop : StopFree fmt y (a ++ r) (a.length + 1)) (hwait : wait r) : Tidy closable wait y (a ++ r)
  | object {a r : Text} {obj : Json} {used : ℕ} (hclosable : closable = true) (hbrace : 123 ∉ a)
      (hhead : r.head? = some 123) (hstop : StopFree fmt y (a ++ r) (a.length + used))
      (hobj : jsonParseLenExCode E.tokener r = .parsed obj used)
      (hname : obj.getStr (ascii "name") = none) (hflat : 123 ∉ (r.take used).tail)
      (hrest : Tidy closable wait y (r.drop used)) : Tidy closable wait y (a ++ r)
  | call {a r name : Text} {obj : Json} {used : ℕ} (hclosable : closable = true) (hbrace : 123 ∉ a)
      (hhead : r.head? = some 123) (hstop : StopFree fmt y (a ++ r) (a.length + 1))
      (hobj : jsonParseLenExCode E.tokener r = .parsed obj used)
      (hname : obj.getStr (ascii "name") = some name)
      (hafter : (∃ k < used, findMarker r 0 fmt.stop = some k) ∨
        (StopFree fmt y r used ∧ LastPart fmt y (r.drop used))) : Tidy closable wait y (a ++ r)

/-- A brace waits while the content does not end in a closing brace, and while json-c finds no
object. -/
def FeedWaits (closable : Bool) (r : Text) : Prop :=
  closable = false ∨ ∀ obj used, jsonParseLenExCode E.tokener r ≠ .parsed obj used

/-- A brace may wait to the end for an object that is not complete, or if nothing but text is
behind it. -/
def EndWaits (r : Text) : Prop :=
  jsonParseLenExCode E.tokener r = .more ∨
    (jsonParseLenExCode E.tokener r = .error ∧ 123 ∉ r.tail ∧ StopFree fmt [] r r.length)

namespace ToolScanner

/-- Every chunk, and what is left at the end, is tidy. -/
def GoodRun (sc : ToolScanner) : List Text → Prop
  | [] => sc.suppressed = false → sc.scanPos < sc.content.length →
      Tidy E fmt true (EndWaits E fmt) [] (sc.content.drop sc.scanPos)
  | x :: pieces =>
    (sc.suppressed = false →
      Tidy E fmt (tailClosable { sc with content := sc.content ++ x })
        (FeedWaits E (tailClosable { sc with content := sc.content ++ x })) pieces.flatten
        ((sc.content ++ x).drop sc.scanPos)) ∧ GoodRun (sc.onPiece E fmt x) pieces

end ToolScanner

end Bare

/-! A generated text as the reader of it sees it: parts that are kept, and blocks that have become
calls. -/

inductive TextPart
  | kept (t : Text)
  | block (t : Text) (calls : List ToolCall)

namespace TextPart

def text : TextPart → Text
  | .kept t | .block t _ => t

def keptText : TextPart → Text
  | .kept t => t
  | .block _ _ => []

def calls : TextPart → List ToolCall
  | .kept _ => []
  | .block _ calls => calls

end TextPart

def partsText (parts : List TextPart) : Text := parts.flatMap TextPart.text

def partsKept (parts : List TextPart) : Text := parts.flatMap TextPart.keptText

def partsCalls (parts : List TextPart) : List ToolCall := parts.flatMap TextPart.calls

section Blocks

variable (E : ToolEnv) (fmt : MarkerPair)

/-- The blocks that become calls: from the opening through the closing marker, an open one at the
end of the text, and a JSON object with a name. -/
inductive RecordedBlock : Text → List ToolCall → Prop
  | closed {inner close : Text} (hclose : fmt.close = some close)
      (hcalls : blockCalls E fmt inner ≠ []) :
      RecordedBlock (inner ++ close) (blockCalls E fmt inner)
  | leftOpen {t : Text} {hit : PayloadHit} (hhit : toolcallParse E fmt t = some hit) :
      RecordedBlock t [callOf E hit.name hit.args]
  | bare {t rest name : Text} {obj : Json} (hopen : fmt.opening = [])
      (hobj : jsonParseLenExCode E.tokener (t ++ rest) = .parsed obj t.length)
      (hname : obj.getStr (ascii "name") = some name) :
      RecordedBlock t [callOf E name (jsonArgsOf E obj)]

/-- The text that is dropped begins with a stop marker, or the block before it reaches a stop
marker. -/
def Dropped (parts : List TextPart) (rest : Text) : Prop :=
  ∃ stop, fmt.stop = some stop ∧ stop ≠ [] ∧
    (stop <+: rest ∨ ∃ before t calls k, parts = before ++ [.block t calls] ∧ k ≤ t.length ∧
      OccursAt stop (t ++ rest) k)

/-- Every byte of `text` is kept, belongs to a block that has become calls, or is dropped. -/
structure Accounts (text : Text) (parts : List TextPart) (rest : Text) (sc : ToolScanner) : Prop where
  text : text = partsText parts ++ rest
  dropped : rest = [] ∨ Dropped fmt parts rest
  blocks : ∀ t calls, .block t calls ∈ parts → RecordedBlock E fmt t calls
  calls : sc.calls = partsCalls parts
  sent : sc.sent = partsKept parts
  /-- The content of bare calls still has the objects in it. -/
  content : fmt.opening ≠ [] ∨ sc.calls = [] → sc.content = sc.sent

/-- In no object without a name begins another brace or a stop marker. -/
def FlatObjects (text : Text) : Prop :=
  ∀ s obj used, s <:+: text → jsonParseLenExCode E.tokener s = .parsed obj used →
    obj.getStr (ascii "name") = none → ∀ j, 0 < j → j < used →
      s[j]? ≠ some 123 ∧ ¬MarkAt fmt.stop s j

end Blocks

end Kappai
