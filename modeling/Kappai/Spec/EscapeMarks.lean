import Kappai.Spec.Decision
import Kappai.Spec.ThinkFilter

/-! The values of a decision prompt and the escape of the marks in them. A template is what it renders
to: its fixed texts and the texts of the request that stand between them. -/

namespace Kappai

namespace Decision

/-- `isalnum` in the C locale, or an underscore. -/
def isWord (c : UInt8) : Bool :=
  48 ≤ c && c ≤ 57 || 65 ≤ c && c ≤ 90 || 97 ≤ c && c ≤ 122 || c == 95

def openMark : Text := ascii "<<d1omni:"

/-- The name of a mark `<|name|>` at the head of a text. -/
def nameAt (p : Text) : Option Text :=
  let name := (p.drop 2).takeWhile isWord
  if p.take 2 = ascii "<|" ∧ name ≠ [] ∧ (p.drop (2 + name.length)).take 2 = ascii "|>" then some name
  else none

/-- The loop of `escape_marks`, which has `skip` bytes behind it already. -/
def escapeFrom : ℕ → Text → Text
  | _, [] => []
  | skip + 1, _ :: rest => escapeFrom skip rest
  | 0, c :: rest =>
    if openMark.isPrefixOf (c :: rest) then ascii "<<d1omni " ++ escapeFrom 8 rest
    else
      match nameAt (c :: rest) with
      -- the broken bar is C2 A6
      | some name => [60, 194, 166] ++ name ++ [194, 166, 62] ++ escapeFrom (name.length + 3) rest
      | none => c :: escapeFrom 0 rest

/-- `escape_marks` -/
def escapeMarks (text : Text) : Text := escapeFrom 0 text

/-- `<|name|>` -/
def named (name : Text) : Text := [60, 124] ++ name ++ [124, 62]

/-- What `escape_marks` takes out. -/
inductive IsMark : Text → Prop
  | opening : IsMark openMark
  | named (name : Text) (hne : name ≠ []) (hword : ∀ c ∈ name, isWord c = true) : IsMark (named name)

/-- No mark anywhere. -/
def MarkFree (s : Text) : Prop := ∀ w, IsMark w → ¬w <:+: s

/-- `jinja_value`. What is no string prints without a `<`. -/
inductive Value
  | string (s : Text)
  | plain (t : {t : Text // 60 ∉ t})
  | list (items : List Value)
  | dict (entries : List (Text × Value))

mutual

/-- `f` on every string and every key. -/
def Value.mapTexts (f : Text → Text) : Value → Value
  | .string s => .string (f s)
  | .plain t => .plain t
  | .list items => .list (mapItems f items)
  | .dict entries => .dict (mapEntries f entries)

def mapItems (f : Text → Text) : List Value → List Value
  | [] => []
  | v :: items => v.mapTexts f :: mapItems f items

def mapEntries (f : Text → Text) : List (Text × Value) → List (Text × Value)
  | [] => []
  | e :: entries => (f e.1, e.2.mapTexts f) :: mapEntries f entries

end

/-- `escape_marks_values` -/
def escapeMarksValues : Value → Value := Value.mapTexts escapeMarks

/-- A way into a value. -/
inductive Sel
  | item (i : ℕ)
  | entry (i : ℕ)
  | key (i : ℕ)

/-- The text at the end of a way; nothing where the way leads nowhere. -/
def Value.textAt : Value → List Sel → Text
  | .string s, [] => s
  | .plain t, [] => t.1
  | .list items, .item i :: way => ((items[i]?).map fun v => v.textAt way).getD []
  | .dict entries, .entry i :: way => ((entries[i]?).map fun e => e.2.textAt way).getD []
  | .dict entries, [.key i] => ((entries[i]?).map (·.1)).getD []
  | _, _ => []

structure Choice where
  key : Text
  description : Value
  /-- The code of its label. -/
  label : Text

/-- What of a request a question is rendered with. -/
structure Request where
  id : Text
  type : Text
  instructions : Value
  state : Value
  options : List Choice

/-- `options_to_jinja` -/
def optionsToJinja (options : List Choice) : Value :=
  .list (options.map fun o =>
    .dict [(ascii "key", .string o.key), (ascii "description", o.description), (ascii "label", .string o.label)])

/-- `decision_prompt_values` -/
def decisionPromptValues (req : Request) : Value :=
  .dict [(ascii "id", .string req.id), (ascii "type", .string req.type),
    (ascii "instructions", req.instructions), (ascii "state", req.state),
    (ascii "options", optionsToJinja req.options), (ascii "images", .list [])]

/-- The values that `decision_build` renders with: the state is escaped when it is first converted. -/
def promptValues (req : Request) : Value :=
  escapeMarksValues (decisionPromptValues { req with state := escapeMarksValues req.state })

/-- A request with all its texts empty. -/
def Request.blank (req : Request) : Request where
  id := []
  type := req.type
  instructions := req.instructions.mapTexts fun _ => []
  state := req.state.mapTexts fun _ => []
  options := req.options.map fun o => { o with key := [], description := o.description.mapTexts fun _ => [] }

structure Template where
  before : Text
  /-- A text of the request and the fixed text behind it. -/
  slots : List (List Sel × Text)

/-- The texts with the fixed text behind each. -/
def joined (slots : List (Text × Text)) : Text := slots.flatMap fun s => s.1 ++ s.2

/-- The prompt of a question, as the template renders it. -/
def Template.render (t : Template) (req : Request) : Text :=
  t.before ++ joined (t.slots.map fun s => ((promptValues req).textAt s.1, s.2))

def sepMark : Text := ascii "<<d1omni:sep>>"

def stateMark : Text := ascii "<<d1omni:state>>"

def questionMark : Text := ascii "<<d1omni:question>>"

def optionMark : Text := ascii "<<d1omni:option>>"

def scoreMark : Text := ascii "<|mask|>"

/-- `omni_ops` -/
def omniOps : Ops :=
  ⟨some sepMark, some stateMark, some questionMark, some optionMark, by decide +kernel⟩

/-- The limit and the kind of each piece. -/
def kinds (lim : Limits) (prompt : Text) : List (ℕ × Bool) :=
  (splitPieces omniOps prompt).map fun p => (kindOf omniOps lim p).2

/-- The marks a prompt is read by. -/
def promptMarks : List Text := [sepMark, stateMark, questionMark, optionMark, scoreMark]

/-- The fixed texts, each with the next. -/
def Template.pairs (t : Template) : List (Text × Text) :=
  (t.before :: t.slots.map (·.2)).zip (t.slots.map (·.2))

/-- The fixed texts do no more than to stand between the texts of a request. -/
structure Template.Parts (t : Template) : Prop where
  /-- There is a line break between one text and the next. -/
  breaks : ∀ f ∈ (t.slots.map (·.2)).dropLast, 10 ∈ f
  /-- No mark begins before a text and goes on into it. -/
  before : ∀ f ∈ t.pairs, ∀ m ∈ promptMarks, ∀ w, w <+: m → w ≠ [] → w ≠ m → ¬w <:+ f.1
  behind : ∀ f ∈ t.pairs, ∀ m ∈ promptMarks, ∀ w, w <:+ m → w ≠ [] → w ≠ m → ¬w <+: f.2
  /-- Behind a text that begins a piece there is no mark of a kind. -/
  kinds : ∀ f ∈ t.pairs, f.1 = [] ∨ sepMark <:+ f.1 →
    ∀ m ∈ [stateMark, questionMark, optionMark], ¬m <+: f.2

end Decision

end Kappai
