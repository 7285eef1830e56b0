import Mathlib.Data.Nat.Notation
import Mathlib.Tactic.Common

/-! Chat messages and what `chat_template.c` does to their texts. The rendering itself is a
parameter. -/

namespace Kappai

/-- The bytes of a C string. -/
abbrev Text := List UInt8

structure ChatMessage where
  role : Text
  content : Text
  reasoningContent : Option Text
  /-- The tool calls as JSON text. -/
  toolCalls : Option Text
  toolCallId : Option Text
  name : Option Text
deriving DecidableEq, Repr

/-- `"user"` -/
def userRole : Text := [117, 115, 101, 114]

/-- `"assistant"` -/
def assistantRole : Text := [97, 115, 115, 105, 115, 116, 97, 110, 116]

def simpleMessage (role content : Text) : ChatMessage := ⟨role, content, none, none, none, none⟩

/-- A chat template. It can print the time, so rendering is asked for with the clock;
`none` is a failed render. -/
structure ChatTemplate where
  /-- `think_start_text` and `think_end_text`, if both are set. -/
  think : Option (Text × Text)
  thinkLabelLine : Bool
  keepThinkingInHistory : Bool
  render : ℕ → Option Text → List ChatMessage → Bool → Option Text

/-- `strstr`: the text before the first occurrence and the text from it on. -/
def strstr (needle : Text) : Text → Option (Text × Text)
  | [] => if needle = [] then some ([], []) else none
  | b :: text =>
    if needle.isPrefixOf (b :: text) then some ([], b :: text)
    else (strstr needle text).map fun r => (b :: r.1, r.2)

/-- The loop of `strip_thinking_spans`; each turn takes at least the tags off the text. -/
def stripSpans (start stop : Text) : ℕ → Text → Text
  | 0, text => text
  | fuel + 1, text =>
    match strstr start text with
    | none => text
    | some (before, span) =>
      match strstr stop (span.drop start.length) with
      | none => before
      | some (_, after) => before ++ stripSpans start stop fuel (after.drop stop.length)

def skipNewlines (text : Text) : Text := text.dropWhile (· == 10)

namespace ChatTemplate

variable (T : ChatTemplate)

/-- `strip_thinking_spans` -/
def stripThinkingSpans (content : Text) : Text :=
  match T.think with
  | none => content
  | some (start, stop) =>
    if T.keepThinkingInHistory then content else stripSpans start stop content.length content

/-- `chat_template_split_thinking`: reasoning and content. -/
def splitThinking (raw : Text) : Option Text × Text :=
  match T.think with
  | none => (none, raw)
  | some (start, stop) =>
    match strstr stop raw with
    | none => (none, raw)
    | some (before, rest) =>
      let tag := if start.isPrefixOf raw then start.length else 0
      let opened :=
        if T.thinkLabelLine then
          match (raw.drop tag).dropWhile (· != 10) with
          | [] => before.length
          | _ :: line => raw.length - line.length
        else raw.length - (skipNewlines (raw.drop tag)).length
      (some (before.drop opened), skipNewlines (rest.drop stop.length))

/-- The copy of a message that `chat_template_add_message_ex` keeps. -/
def stored (msg : ChatMessage) : ChatMessage :=
  if msg.role = assistantRole then { msg with content := T.stripThinkingSpans msg.content }
  else msg

theorem stored_role (msg : ChatMessage) : (T.stored msg).role = msg.role := by
  unfold stored
  split_ifs <;> rfl

end ChatTemplate

end Kappai
