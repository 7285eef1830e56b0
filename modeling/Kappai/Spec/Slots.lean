import Kappai.Spec.Session

/-! The session slots of the server: how a chat request is given one, what it does to the
slot's chat history, and under which hash the slot is filed afterwards. A task has its slot to
itself from its start to its end, so its effect is taken in one step, at its end. -/

namespace Kappai

variable (M : Model) (E : Env M) (F : Front)

/-- `FNV1A_OFFSET_BASIS` -/
def fnv1aOffsetBasis : UInt64 := 0xcbf29ce484222325

def fnv1aUpdateStr (h : UInt64) (s : Text) : UInt64 :=
  s.foldl (fun h b => (h ^^^ b.toUInt64) * 0x100000001b3) h

/-- `fnv1a` of a text, from the offset basis on. -/
def fnv1a (text : Text) : UInt64 := fnv1aUpdateStr fnv1aOffsetBasis text

/-- The part of `oa_req_params` that a chat task uses. `parse_chat_request` refuses a request
without messages. -/
structure OaReqParams where
  messages : List ChatMessage
  messages_ne : messages ≠ []
  tools : Option Text
  toolChoice : Option Text
  forcedFunction : Option Text
  maxTokens : ℤ
  sampling : Sampling

/-- `"none"` -/
def toolChoiceNone : Text := [110, 111, 110, 101]

/-- The tools `chat_template_set_tools` keeps. -/
def OaReqParams.activeTools (p : OaReqParams) : Option Text :=
  if p.toolChoice = some toolChoiceNone then none else p.tools

/-- `0x1f` and `0x1e` -/
def unitSep : UInt8 := 0x1f

def recordSep : UInt8 := 0x1e

/-- What is absent feeds nothing. -/
def oaMessageHash (h : UInt64) (m : ChatMessage) : UInt64 :=
  let h := fnv1aUpdateStr h m.role
  let h := fnv1aUpdateStr h [unitSep]
  let h := fnv1aUpdateStr h m.content
  let h := fnv1aUpdateStr h (m.reasoningContent.getD [])
  let h := fnv1aUpdateStr h (m.toolCalls.getD [])
  let h := fnv1aUpdateStr h [unitSep]
  let h := fnv1aUpdateStr h (m.toolCallId.getD [])
  let h := fnv1aUpdateStr h [unitSep]
  let h := fnv1aUpdateStr h (m.name.getD [])
  fnv1aUpdateStr h [recordSep]

/-- `chain[0]` -/
def sessionHeaderHash (p : OaReqParams) : UInt64 :=
  let h := fnv1aOffsetBasis
  let h := fnv1aUpdateStr h (p.tools.getD [])
  let h := fnv1aUpdateStr h [unitSep]
  let h := fnv1aUpdateStr h (p.toolChoice.getD [])
  let h := fnv1aUpdateStr h (p.forcedFunction.getD [])
  fnv1aUpdateStr h [recordSep]

/-- `session_prefix_hash_chain`: one hash more than there are messages. -/
def sessionPrefixHashChain (p : OaReqParams) : List UInt64 :=
  p.messages.scanl oaMessageHash (sessionHeaderHash p)

structure OaSlot where
  sess : Session
  fullHash : UInt64
  nMsgs : ℕ
  lastNs : ℕ
  /-- The request of the slot's task and whether it was matched; a slot with a task is busy. -/
  task : Option (OaReqParams × Bool)

/-- The locals of `slot_pick_chat`; `lru` goes with its `last_ns`. -/
structure SlotPick where
  best : Option ℕ
  bestMatch : Bool
  bestReuse : ℕ
  lru : Option (ℕ × ℕ)

def OaSlot.isMatch (chain : List UInt64) (s : OaSlot) : Bool :=
  s.nMsgs < chain.length && chain[s.nMsgs]? == some s.fullHash

/-- One turn of the loop of `slot_pick_chat`, for an idle slot. -/
def SlotPick.visit (chain : List UInt64) (s : OaSlot) (i : ℕ) (p : SlotPick) : SlotPick :=
  let lru :=
    match p.lru with
    | some (j, ns) => if s.lastNs < ns then some (i, s.lastNs) else some (j, ns)
    | none => some (i, s.lastNs)
  let reuse := if s.isMatch chain then s.nMsgs else 0
  if p.best.isNone || p.bestReuse < reuse then ⟨some i, s.isMatch chain, reuse, lru⟩
  else { p with lru := lru }

/-- The loop of `slot_pick_chat`, which stops at the first match. -/
def slotPickLoop (chain : List UInt64) : List OaSlot → ℕ → SlotPick → SlotPick
  | [], _, p => p
  | s :: slots, i, p =>
    if s.task.isSome then slotPickLoop chain slots (i + 1) p
    else if s.isMatch chain then p.visit chain s i
    else slotPickLoop chain slots (i + 1) (p.visit chain s i)

def slotPickChat (slots : List OaSlot) (chain : List UInt64) : SlotPick :=
  slotPickLoop chain slots 0 ⟨none, false, 0, none⟩

/-- The session as `run_generation` gives it to `context_chat_turn_msg`: reset unless it is
continued, with the request's tools and all but its last message. -/
def oaPrepared (p : OaReqParams) (isMatch : Bool) (s : Session) : Session :=
  let s :=
    if !isMatch || s.sessionPoisoned then
      if s.sessionPoisoned || M.hybrid then s.reset else s.resetSession
    else s
  let s := s.setTools p.activeTools
  (p.messages.dropLast.drop s.messages.length).foldl (fun s m => s.addMessage F m) s

/-- What the tool call scanner has left: content, reasoning and tool calls. -/
structure ToolRewrite where
  content : Text
  reasoning : Option Text
  toolCalls : Option Text

/-- `run_generation` of a chat request. `calls` is there if the scanner found tool calls or
suppressed text, which takes at least one token. -/
def oaRunGeneration (p : OaReqParams) (isMatch gone : Bool) (calls : Option ToolRewrite)
    (s : Session) : Session :=
  if gone then s
  else
    let turn := contextChatTurnMsg M E F p.sampling (oaPrepared M F p isMatch s)
      (p.messages.getLast p.messages_ne) true p.maxTokens
    match turn.2, calls with
    | .ok (_ + 1), some r => turn.1.rewriteLastAssistant F r.content r.reasoning r.toolCalls
    | _, _ => turn.1

/-- What is hashed, before it is written out as bytes: the texts of the tools and the messages. -/
structure Hashed where
  tools : Option Text
  toolChoice : Option Text
  forcedFunction : Option Text
  messages : List ChatMessage

def OaReqParams.hashed (p : OaReqParams) (messages : List ChatMessage) : Hashed :=
  ⟨p.tools, p.toolChoice, p.forcedFunction, messages⟩

/-- `fed` records what has been hashed so far. -/
structure OaServer where
  slots : List OaSlot
  slotsCap : ℕ
  fed : List Hashed

namespace OaServer

/-- The server as it comes up, with its first slot warmed and reset. -/
def init (warm : Session) (slotsCap : ℕ) : OaServer :=
  ⟨[⟨warm.resetSession, 0, 0, 0, none⟩], slotsCap, []⟩

/-- The chain of a request has been computed. -/
def chained (o : OaServer) (p : OaReqParams) : OaServer :=
  { o with fed := o.fed ++
      (List.range (p.messages.length + 1)).map fun n => p.hashed (p.messages.take n) }

/-- The slot gets its task. -/
def occupy (o : OaServer) (i : ℕ) (p : OaReqParams) (isMatch : Bool) : OaServer :=
  { o with slots := o.slots.modify i fun s =>
      { s with sess := s.sess.taskStart, task := some (p, isMatch) } }

/-- `task_start` of a chat job. `fresh` is the session a new slot comes with, if there is memory
for it; without a slot the job waits. -/
def start (o : OaServer) (p : OaReqParams) (fresh : Option Session) (now : ℕ) : OaServer :=
  let o := o.chained p
  let pick := slotPickChat o.slots (sessionPrefixHashChain p)
  match pick.best, pick.bestMatch with
  | some i, true => o.occupy i p true
  | _, _ =>
    match (if o.slots.length < o.slotsCap then fresh else none) with
    | some sess =>
      occupy { o with slots := o.slots ++ [⟨sess, 0, 0, now, none⟩] } o.slots.length p false
    | none =>
      match pick.lru with
      | some (i, _) => o.occupy i p false
      | none => o

/-- The slot after `task_main` and `task_finish`, with the hash of `slot_adopt_chat_chain`. -/
def finished (slot : OaSlot) (p : OaReqParams) (isMatch gone : Bool) (calls : Option ToolRewrite)
    (now : ℕ) : OaSlot :=
  let sess := oaRunGeneration M E F p isMatch gone calls slot.sess
  ⟨sess.taskFinish, sess.messages.foldl oaMessageHash (sessionHeaderHash p), sess.messages.length,
    now, none⟩

def finish (o : OaServer) (i : ℕ) (gone : Bool) (calls : Option ToolRewrite) (now : ℕ) :
    OaServer :=
  match o.slots[i]? with
  | none => o
  | some slot =>
    match slot.task with
    | none => o
    | some (p, isMatch) =>
      let slot' := finished M E F slot p isMatch gone calls now
      { o with slots := o.slots.set i slot', fed := o.fed ++ [p.hashed slot'.sess.messages] }

end OaServer

/-- A chat task is started on some slot, or the task of slot `i` ends; `gone` is set if its
client had left before it ran. -/
inductive ServerOp
  | start (p : OaReqParams) (fresh : Option Session) (now : ℕ)
  | finish (i : ℕ) (gone : Bool) (calls : Option ToolRewrite) (now : ℕ)

def OaServer.apply (o : OaServer) : ServerOp → OaServer
  | .start p fresh now => o.start p fresh now
  | .finish i gone calls now => o.finish M E F i gone calls now

end Kappai
