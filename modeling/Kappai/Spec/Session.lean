import Kappai.Lib.Loop
import Kappai.Spec.Chat
import Kappai.Spec.Decode
import Kappai.Spec.Feed

/-! A context with its chat history: chat turns, completions, the idle prefill, resets, and
runs of these. The tokenizer and the template are parameters. -/

namespace Kappai

/-- The tokenizer and the chat template. -/
structure Front extends ChatTemplate where
  /-- `tokenizer_encode_with_specials`, before the capacity check. -/
  encode : Text → List Token
  /-- `tokenizer_decode` of one token; empty for an id outside the vocabulary. -/
  decode : Token → Text
  /-- `bos_id` if `add_bos` is set. -/
  bos : Option Token

structure Session extends Context where
  messages : List ChatMessage
  lastRender : Text
  tools : Option Text
  /-- `sync_render` and `sync_tok` -/
  sync : Option (Text × ℕ)

variable (M : Model) (E : Env M) (F : Front) (P : Sampling)

structure Generated where
  ctx : Context
  rc : Except Err ℕ
  delivered : List Token
  unfedTail : Bool

/-- `run_generation` of a context: `prompt` from `reuse` on is prefilled, then decoded. -/
def runGeneration (c : Context) (prompt : List Token) (reuse : ℕ) (plan : List KvShiftChunk)
    (maxTokens : ℤ) : Generated :=
  let r := contextPrefillWithPlan M E c.toCore (prompt.drop reuse) plan
  let c := { c with toCore := r.1 }
  let failed (c : Context) (rc : Except Err ℕ) : Generated :=
    { ctx := c, rc := rc, delivered := [], unfedTail := false }
  match r.2 with
  | .error .interrupted => failed { c with sessionPoisoned := true } (.ok 0)
  | .error .computeFail => failed { c with sessionPoisoned := true } (.error .computeFail)
  | .error _ => failed c (.error .invalidArg)
  | .ok _ =>
    let e := contextDecodeLoop M E P maxTokens (c.started prompt)
    { ctx := e.ctx, rc := .ok e.delivered.length, delivered := e.delivered
      unfedTail := e.unfedTail }

/-- Prefix reuse and `run_generation` over a whole prompt. -/
def generatePrompt (c : Context) (prompt : List Token) (maxTokens : ℤ) : Generated :=
  let r := contextReusePrefix M E c.toCore prompt
  runGeneration M E P { c with toCore := r.1 } prompt r.2.1 r.2.2 maxTokens

namespace Session

def tick (s : Session) : Session := { s with toContext := s.toContext.tick }

def fedIdsSync (s : Session) : Session := { s with toContext := s.toContext.sync }

/-- `sync_invariant_ok` -/
def syncInvariantOk (s : Session) : Bool :=
  match s.sync with
  | none => false
  | some (render, tok) => 0 < tok && tok ≤ s.fedIds.n && render.isPrefixOf s.lastRender

/-- `chat_template_add_turn_ex`; a failed render leaves the message added. -/
def addTurn (s : Session) (msg : ChatMessage) (addGenerationPrompt : Bool) : Session × Bool :=
  let messages := s.messages ++ [F.stored msg]
  match F.render s.clock s.tools messages addGenerationPrompt with
  | some render => ({ s.tick with messages := messages, lastRender := render }, true)
  | none => ({ s.tick with messages := messages }, false)

end Session

/-- `tail_boundary_is_clean`, with the 127 bytes its buffer takes. -/
def tailBoundaryIsClean (lastId : Token) (suffix : Text) (suffixIds : List Token) : Bool :=
  let lastText := F.decode lastId
  0 < lastText.length && lastText.length < 127 &&
    F.encode (lastText ++ suffix) == lastId :: suffixIds

/-- The whole render encoded, if it fits. -/
def encodeWhole (text : Text) : Option (List Token) :=
  if M.nCtx < (F.encode text).length then none else some (F.encode text)

/-- `tail_encode_ids` -/
def tailEncodeIds (s : Session) : Option (List Token) :=
  match s.sync with
  | none => encodeWhole M F s.lastRender
  | some (render, tok) =>
    if s.syncInvariantOk then
      let suffix := s.lastRender.drop render.length
      let suf := F.encode suffix
      if M.nCtx - tok < suf.length then none
      else if tailBoundaryIsClean F (s.fedIds.p (tok - 1)) suffix suf then
        some (s.fedIds.ids.take tok ++ suf)
      else encodeWhole M F s.lastRender
    else encodeWhole M F s.lastRender

/-- `assistant_capture_cb` over the delivered tokens: the text and `last_piece_start`. -/
def assistantCapture (delivered : List Token) : Text × ℕ :=
  delivered.foldl (fun acc tok =>
    let piece := if (F.decode tok).length < 256 then F.decode tok else []
    if piece = [] then acc else (acc.1 ++ piece, acc.1.length)) ([], 0)

/-- The assistant text a turn records; a last piece that was not fed is cut off. -/
def assistantText (g : Generated) : Text :=
  let captured := assistantCapture F g.delivered
  if g.unfedTail && captured.2 < captured.1.length then captured.1.take captured.2
  else captured.1

/-- The end of `context_chat_turn_msg`, with `prev` as it was before the turn. -/
def chatTurnRecord (prev s : Session) (addGenerationPrompt : Bool) (g : Generated) : Session :=
  let s := { s with toContext := g.ctx }
  match g.rc with
  | .error _ => if s.sessionPoisoned then s else { s with lastRender := prev.lastRender }
  | .ok n =>
    if addGenerationPrompt && 0 < n then
      let text := F.splitThinking (assistantText F g)
      let turn := s.addTurn F { simpleMessage assistantRole text.2 with
        reasoningContent := text.1 } false
      if turn.2 then turn.1 else { turn.1 with sessionPoisoned := true }
    else s

/-- `context_chat_turn_msg` -/
def contextChatTurnMsg (s : Session) (msg : ChatMessage) (addGenerationPrompt : Bool)
    (maxTokens : ℤ) : Session × Except Err ℕ :=
  if s.sessionPoisoned then (s, .error .internal)
  else
    let turn := s.addTurn F msg addGenerationPrompt
    if turn.2 then
      let added := turn.1.fedIdsSync
      match tailEncodeIds M F added with
      | none =>
        ({ added with messages := s.messages, lastRender := s.lastRender }, .error .invalidArg)
      | some ids =>
        let g := generatePrompt M E P added.toContext ids maxTokens
        let linked := { added with sync := some (added.lastRender, ids.length) }
        (chatTurnRecord F s linked addGenerationPrompt g, g.rc)
    else ({ turn.1 with messages := s.messages }, .error .format)

/-- The ids of a completion prompt, if they fit. -/
def completionIds (prompt : Text) : Option (List Token) :=
  let bos := F.bos.toList
  if M.nCtx - bos.length < (F.encode prompt).length then none
  else some (bos ++ F.encode prompt)

/-- `context_completion` -/
def contextCompletion (s : Session) (prompt : Text) (maxTokens : ℤ) :
    Session × Except Err ℕ :=
  match completionIds M F prompt with
  | none => (s, .error .invalidArg)
  | some ids =>
    let g := generatePrompt M E P s.fedIdsSync.toContext ids maxTokens
    ({ s with toContext := g.ctx }, g.rc)

/-- The header the idle prefill looks for: what the next user turn starts with whatever it
says. `none` is one of the ways out of `idle_prefill_thread` before any token is fed. -/
def idleHeader (s : Session) : Session × Option (Text × List Token) :=
  let preview (s : Session) (content : Text) : Option Text :=
    F.render s.clock s.tools (s.messages ++ [simpleMessage userRole content]) false
  match preview s [97], preview s.tick [98] with
  | some r1, some r2 =>
    let s := s.tick.tick
    if E.interrupt s.clock then (s.tick, none)
    else
      let s := s.tick
      let header := r1.take (commonPrefix r1 r2)
      let ids := F.encode header
      if header = [] ∨ M.nCtx < ids.length then (s, none)
      else if E.interrupt s.clock ∨ ids = [] then (s.tick, none)
      else (s.tick, some (header, ids))
  | _, _ => (s.tick.tick, none)

/-- The state of the idle prefill when it starts to feed the header from `reuse` on: the
link is taken down and the cache rewound, unless there is recurrent state. -/
def idleRewound (s : Session) (reuse : ℕ) : Session :=
  let s := { s with sync := none }
  if reuse < s.fedIds.n && !M.hybrid then
    { s with toContext := { s.toContext with toCore := s.toCore.rewind reuse } }
  else s

/-- The feed of the idle prefill and what follows it. A failure puts the counters and the
link back as they were. -/
def idleFeed (s : Session) (header : Text) (ids : List Token) : Session :=
  let reuse := s.fedIdsCommonPrefix ids
  let rewound := idleRewound M s reuse
  let fed := contextFeedTokensBatch M E rewound.toCore (ids.drop reuse)
  match fed.2 with
  | .error e =>
    { s with
      toContext := { s.toContext with
        toCore := { fed.1 with nPos := s.nPos, fedIds := { fed.1.fedIds with n := s.fedIds.n } }
        sessionPoisoned := s.sessionPoisoned || e == .computeFail } }
  | .ok _ =>
    { rewound with
      toContext := { rewound.toContext with toCore := fed.1 }
      sync := some (header, ids.length) }

/-- The state in which the idle prefill starts to feed, with the header and its ids; `none`
if it has nothing to feed. -/
def idleStart (s : Session) : Session × Option (Text × List Token) :=
  match idleHeader M E F s with
  | (s, none) => (s, none)
  | (s, some (header, ids)) =>
    let s := s.fedIdsSync
    if ids.length ≤ s.fedIdsCommonPrefix ids then (s, none)
    else if E.interrupt s.clock then (s.tick, none)
    else (s.tick, some (header, ids))

/-- `idle_prefill_thread`, between `context_idle_prefill_start` and `_wait`. -/
def idlePrefill (s : Session) : Session :=
  match idleStart M E F s with
  | (s, none) => s
  | (s, some (header, ids)) => idleFeed M E s header ids

namespace Session

/-- `chat_template_set_tools` -/
def setTools (s : Session) (tools : Option Text) : Session :=
  { s with tools := tools, sync := none }

/-- `context_reset_session` -/
def resetSession (s : Session) : Session :=
  { s with messages := [], lastRender := [], sync := none, contextLimitHit := false }

/-- `context_reset` -/
def reset (s : Session) : Session :=
  let s := s.resetSession
  { s with toContext := { s.toContext with toCore := s.toCore.reset, sessionPoisoned := false } }

def addMessage (s : Session) (msg : ChatMessage) : Session :=
  { s with messages := s.messages ++ [F.stored msg] }

/-- `chat_template_rewrite_last_assistant` -/
def rewriteLastAssistant (s : Session) (content : Text) (reasoning toolCalls : Option Text) :
    Session :=
  match s.messages.getLast? with
  | none => s
  | some last =>
    if last.role = assistantRole then
      let messages := s.messages.dropLast ++ [{ last with
        content := content, reasoningContent := reasoning.filter (· ≠ []), toolCalls := toolCalls }]
      { s.tick with
        messages := messages
        lastRender := (F.render s.clock s.tools messages false).getD s.lastRender
        sync := none }
    else s

/-- The part of `task_start` that is about the context of the slot. -/
def taskStart (s : Session) : Session := { s with logitsOnHost := true, decodeStep := true }

/-- The part of `task_finish` that is about the context of the slot. -/
def taskFinish (s : Session) : Session := { s with decodeStep := false }

/-- The static prefix of the chat template fed by `engine_prepare_system`. -/
def warmup (s : Session) (tokens : List Token) : Session :=
  let fed := contextFeedTokensBatch M E s.toCore tokens
  { s with toContext := { s.toContext with
      toCore := fed.1
      sessionPoisoned := s.sessionPoisoned || !fed.2.isOk } }

/-- `decision_forward_prefill` -/
def decision (s : Session) (ids : List Token) : Session :=
  let s := if s.sessionPoisoned || M.hybrid then s.reset else s
  let fed := contextPrefillPrompt M E s.toCore ids
  { s with toContext := { s.toContext with
      toCore := fed.1
      sessionPoisoned := s.sessionPoisoned ||
        match fed.2 with
        | .error e => e == .computeFail
        | .ok _ => false } }

/-- A context that has just been set up. -/
def init : Session where
  toContext := Context.fresh []
  messages := []
  lastRender := []
  tools := none
  sync := none

end Session

/-- What can be done with a context, one call at a time. -/
inductive Op
  | chatTurn (P : Sampling) (msg : ChatMessage) (addGenerationPrompt : Bool) (maxTokens : ℤ)
  | completion (P : Sampling) (prompt : Text) (maxTokens : ℤ)
  | idlePrefill
  | decision (ids : List Token)
  | warmup (tokens : List Token)
  | rewind (pos : ℕ)
  | resetSession
  | reset
  | setTools (tools : Option Text)
  | addMessage (msg : ChatMessage)
  | addTurn (msg : ChatMessage)
  | rewriteLastAssistant (content : Text) (reasoning toolCalls : Option Text)
  | taskStart
  | taskFinish

def Session.apply (s : Session) : Op → Session
  | .chatTurn P msg addGen maxTokens => (contextChatTurnMsg M E F P s msg addGen maxTokens).1
  | .completion P prompt maxTokens => (contextCompletion M E F P s prompt maxTokens).1
  | .idlePrefill => Kappai.idlePrefill M E F s
  | .decision ids => s.decision M E ids
  | .warmup tokens => s.warmup M E tokens
  | .rewind pos => { s with toContext := { s.toContext with toCore := s.toCore.rewind pos } }
  | .resetSession => s.resetSession
  | .reset => s.reset
  | .setTools tools => s.setTools tools
  | .addMessage msg => s.addMessage F msg
  | .addTurn msg => (s.addTurn F msg false).1
  | .rewriteLastAssistant content reasoning toolCalls =>
    s.rewriteLastAssistant F content reasoning toolCalls
  | .taskStart => s.taskStart
  | .taskFinish => s.taskFinish

/-- The ids a chat turn gives to `run_generation`; `none` if it does not get that far. -/
def turnIds (s : Session) (msg : ChatMessage) (addGenerationPrompt : Bool) : Option (List Token) :=
  let turn := s.addTurn F msg addGenerationPrompt
  if !s.sessionPoisoned && turn.2 then tailEncodeIds M F turn.1.fedIdsSync else none

/-- The prompt an operation generates from. -/
def Session.prompt (s : Session) : Op → Option (List Token)
  | .chatTurn _ msg addGen _ => turnIds M F s msg addGen
  | .completion _ prompt _ => completionIds M F prompt
  | _ => none

/-- Every byte is a token. -/
def Front.bytes : Front where
  encode text := text.map fun b => (b.toNat : ℤ)
  decode t := [UInt8.ofNat t.toNat]
  bos := none
  think := none
  thinkLabelLine := false
  keepThinkingInHistory := true
  render _ _ messages _ := some (messages.flatMap ChatMessage.content)

/-! A chat turn with all that it changes of the chat and takes back, one exit at a time. -/

/-- A session with `think_open`. -/
structure ChatContext extends Session where
  thinkOpen : Bool

/-- The loop for `last_open` and `last_close`: the offset of the last occurrence that `strstr` finds,
each search starting behind the one before. Each turn takes at least the tag off the text. -/
def lastFound (tag : Text) : ℕ → ℕ → Text → Option ℕ
  | 0, _, _ => none
  | fuel + 1, off, text =>
    (strstr tag text).map fun (before, found) =>
      let start := off + before.length
      (lastFound tag fuel (start + tag.length) (found.drop tag.length)).getD start

namespace ChatTemplate

variable (T : ChatTemplate)

/-- `think_open` after a render, from the part of it behind what it shares with the last one. -/
def leavesThinkOpen (last rendered : Text) (addGenerationPrompt : Bool) : Bool :=
  match T.think with
  | none => false
  | some (start, stop) =>
    let diff := rendered.drop (commonPrefix rendered last)
    addGenerationPrompt &&
      match lastFound start diff.length 0 diff, lastFound stop diff.length 0 diff with
      | none, _ => false
      | some _, none => true
      | some lastOpen, some lastClose => decide (lastClose < lastOpen)

end ChatTemplate

variable (M : Model) (E : Env M) (F : Front) (P : Sampling)

namespace ChatContext

variable (s : ChatContext)

/-- `chat_template_add_turn_ex_steal`: the state, `prev_out`, and whether it went well. -/
def addTurnExSteal (msg : ChatMessage) (addGenerationPrompt : Bool) :
    ChatContext × Option Text × Bool :=
  let messages := s.messages ++ [F.stored msg]
  match F.render s.clock s.tools messages addGenerationPrompt with
  | none => ({ s with toSession := { s.tick with messages := messages } }, none, false)
  | some rendered =>
    ({ s with
        toSession := { s.tick with messages := messages, lastRender := rendered }
        thinkOpen := F.leavesThinkOpen s.lastRender rendered addGenerationPrompt },
      some s.lastRender, true)

/-- `rollback_unfed_turn` -/
def rollbackUnfedTurn (nMessages : ℕ) (prevRender : Option Text) (prevThinkOpen : Bool) :
    ChatContext :=
  { s with
    messages := s.messages.take nMessages
    lastRender := prevRender.getD s.lastRender
    thinkOpen := prevThinkOpen }

/-- The end of `context_chat_turn_msg` behind `run_generation`. -/
def turnRecord (prevRender : Option Text) (addGenerationPrompt : Bool) (g : Generated) :
    ChatContext :=
  let s := { s with toContext := g.ctx }
  match g.rc with
  | .error _ => if s.sessionPoisoned then s else { s with lastRender := prevRender.getD [] }
  | .ok n =>
    if addGenerationPrompt && 0 < n then
      let text := F.splitThinking (assistantText F g)
      let turn := s.addTurnExSteal F { simpleMessage assistantRole text.2 with
        reasoningContent := text.1 } false
      if turn.2.2 then turn.1 else { turn.1 with sessionPoisoned := true }
    else s

/-- `context_chat_turn_msg` -/
def chatTurnMsg (msg : ChatMessage) (addGenerationPrompt : Bool) (maxTokens : ℤ) :
    ChatContext × Except Err ℕ :=
  if s.sessionPoisoned then (s, .error .internal)
  else
    let prevNMessages := s.messages.length
    let prevThinkOpen := s.thinkOpen
    match s.addTurnExSteal F msg addGenerationPrompt with
    | (added, prevRender, false) =>
      (added.rollbackUnfedTurn prevNMessages prevRender prevThinkOpen, .error .format)
    | (added, prevRender, true) =>
      let added := { added with toSession := added.fedIdsSync }
      match tailEncodeIds M F added.toSession with
      | none => (added.rollbackUnfedTurn prevNMessages prevRender prevThinkOpen, .error .invalidArg)
      | some ids =>
        let g := generatePrompt M E P added.toContext ids maxTokens
        let linked := { added with sync := some (added.lastRender, ids.length) }
        (linked.turnRecord F prevRender addGenerationPrompt g, g.rc)

end ChatContext

end Kappai
