import Kappai.Lib.Loop
import Kappai.Spec.Feed

/-! `context_decode_loop`: sampling a token, feeding it, and the ways out. Sampled tokens are
recorded with the logits they were drawn from and the generation they were drawn in. -/

namespace Kappai

/-- A token the server's batched decode step sampled ahead, and the generation it was
sampled in. -/
structure Parked where
  tok : Token
  gen : ℕ
deriving DecidableEq, Repr

inductive DrawSource
  | host (logits : Logits)
  | device (logits : Logits)
  | parked (gen : ℕ)
deriving DecidableEq, Repr

structure Draw where
  gen : ℕ
  tok : Token
  source : DrawSource
deriving DecidableEq, Repr

/-- A decode loop that was entered: its number, its prompt, and the host logits it found. -/
structure Start where
  gen : ℕ
  prompt : List Token
  logitsHost : Logits
deriving DecidableEq, Repr

structure Context extends Core where
  /-- `has_presampled` and `presampled_token` -/
  presampled : Option Parked
  logitsOnHost : Bool
  /-- The server decodes for several contexts at once (`decode_step` is set). -/
  decodeStep : Bool
  sessionPoisoned : Bool
  contextLimitHit : Bool
  /-- The number of decode loops entered. -/
  gen : ℕ
  draws : List Draw
  starts : List Start

/-- What the decode loop works out from the sampling parameters and the backend. -/
structure Sampling where
  /-- A backend is set and `debug_forward` is not. -/
  backend : Bool
  /-- `sampler_device_eligible` -/
  eligible : Bool
  /-- No repeat penalty, temperature 0 or `top_k` 1, and a device that has `argmax`. -/
  greedy : Bool
  /-- `context_token_regs_usable` apart from `decode_step`. -/
  tokenRegs : Bool

variable (M : Model) (E : Env M) (S : Sampling)

namespace Context

def tick (c : Context) : Context := { c with toCore := c.toCore.tick }

def sync (c : Context) : Context := { c with toCore := c.toCore.fedIdsSync }

/-- `fed_ids_append` after a pass, with the position counted. -/
def counted (c : Context) (tok : Token) : Context :=
  { c with nPos := c.nPos + 1, fedIds := c.fedIds.append tok }

/-- A context that has just computed `ids` and generated nothing. -/
def fresh (ids : List Token) : Context :=
  ⟨.holding ids, none, false, false, false, false, 0, [], []⟩

def drew (c : Context) (tok : Token) (source : DrawSource) : Context :=
  { c with draws := c.draws ++ [⟨c.gen, tok, source⟩] }

/-- One row of the server's batched decode step. The batch has its own scratch, so the
device logits of the context stay as they are, and only a caller that wants no host logits
lets the batch sample on the device. -/
def batchedStep (c : Context) (out : StepOutcome) (cached : List Token) (tok : Token) (pos : ℕ)
    (wantLogits : Bool) : Context × Option Err :=
  let ran (out : PassOutcome) : Core :=
    { (c.toCore.forward M out cached [tok] pos false).1 with logitsDevice := c.logitsDevice }
  let read : Context × Option Err :=
    ({ c with
        toCore := { ran .ok with logitsHost := .of (cached ++ [tok]) }
        logitsOnHost := true }, none)
  match out with
  | .status e => (c, some e)
  | .failed f => ({ c with toCore := ran (.fail f) }, some f.err)
  | .read => read
  | .sampled t =>
    if wantLogits then read
    else
      ({ c with toCore := ran .ok, logitsOnHost := true, presampled := some ⟨t, c.gen⟩ }, none)
  | .unread e =>
    if wantLogits then read
    else
      ({ c with toCore := { ran .ok with logitsHost := .unset }, logitsOnHost := true }, some e)

/-- `decode_step` if it is set, else `compute_forward`. -/
def feedPass (c : Context) (tok : Token) (wantLogits : Bool) : Context × Option Err :=
  if c.decodeStep then
    c.tick.batchedStep M (E.step c.clock) c.fedIds.ids tok c.nPos wantLogits
  else
    let r := c.tick.toCore.forward M (E.pass c.clock) c.fedIds.ids [tok] c.nPos wantLogits
    ({ c with toCore := r.1 }, r.2)

end Context

/-- `token < 0 || token >= vocab_size` -/
def Model.outOfVocab (tok : ℤ) : Prop := tok < 0 ∨ (M.vocab : ℤ) ≤ tok

instance (tok : ℤ) : Decidable (M.outOfVocab tok) := inferInstanceAs (Decidable (_ ∨ _))

/-- `context_feed_token_inner`; the position it returns is `nPos` afterwards. -/
def contextFeedTokenInner (c : Context) (tok : Token) (wantLogits : Bool) :
    Context × Option Err :=
  if M.nCtx ≤ c.nPos then (c, some .invalidArg)
  else if M.outOfVocab tok then (c, some .invalidArg)
  else
    match c.sync.feedPass M E tok wantLogits with
    | (c, none) => (c.counted tok, none)
    | (c, some e) => (c, some (if e = .interrupted then .interrupted else .computeFail))

/-- `context_feed_reg`: the position is counted, the token joins `fed_ids` once it is
known. -/
def contextFeedReg (c : Context) (reg : Fin M.vocab) : Context × Option Err :=
  if M.nCtx ≤ c.nPos then (c, some .invalidArg)
  else
    let c := c.sync
    match c.tick.toCore.forward M (E.pass c.clock) c.fedIds.ids [(reg.val : Token)] c.nPos false with
    | (core, none) => ({ c with toCore := { core with nPos := core.nPos + 1 } }, none)
    | (core, some e) =>
      ({ c with toCore := core },
        some (if e = .interrupted ∨ e = .unsupported then e else .computeFail))

/-- `context_device_pick` of the logits the last pass left on the device. -/
def contextDevicePick (c : Context) : Context × Option Token :=
  match E.pick c.clock with
  | .ok t => (c.tick.drew (t.val : Token) (.device c.logitsDevice), some (t.val : Token))
  | .error _ => (c.tick, none)

/-- `context_sample_next` -/
def contextSampleNext (c : Context) : Context × Token :=
  match c.presampled with
  | some pk => ({ c with presampled := none }.drew pk.tok (.parked pk.gen), pk.tok)
  | none =>
    let picked :=
      if !c.logitsOnHost && (S.greedy || S.eligible) then contextDevicePick M E c else (c, none)
    match picked with
    | (c, some t) => (c, t)
    | (c, none) => (c.tick.drew (E.sample c.clock) (.host c.logitsHost), E.sample c.clock)

/-- The state at the head of the decode loop; `delivered` are the tokens given to
`on_token`, as many as `generated` counts. -/
structure DecodeState where
  ctx : Context
  i : ℕ
  delivered : List Token
  pipelined : Bool
  devicePick : Bool
  /-- `has_fed_tok` and `last_fed_tok` -/
  lastFed : Option Token

structure DecodeEnd where
  ctx : Context
  delivered : List Token
  unfedTail : Bool
  /-- The loop left because the last token could not be fed again for host logits. -/
  redoFailed : Bool

/-- The locals of one iteration once it has a token, or knows that it needs host logits. -/
structure Drawn where
  ctx : Context
  pipelined : Bool
  devicePick : Bool
  tok : Token
  specFed : Bool
  hostRedo : Bool
  preRc : Option Err

/-- The pipelined branch: the token is fed from its register before the host reads it. -/
def drawPipelined (s : DecodeState) : Drawn :=
  let fallback (c : Context) : Drawn :=
    { ctx := c, pipelined := false, devicePick := false, tok := 0, specFed := false
      hostRedo := true, preRc := none }
  match E.pickReg s.ctx.clock with
  | .error _ => fallback s.ctx.tick
  | .ok reg =>
    let logits := s.ctx.logitsDevice
    let (c, preRc) := contextFeedReg M E s.ctx.tick reg
    let specFed := preRc.isNone
    let pipelined := preRc ≠ some .unsupported
    match E.readReg c.clock with
    | none =>
      { ctx := c.tick.drew (reg.val : Token) (.device logits)
        pipelined := pipelined
        devicePick := s.devicePick
        tok := (reg.val : Token)
        specFed := specFed
        hostRedo := false
        preRc := if pipelined then preRc else none }
    | some _ =>
      fallback (if specFed then { c.tick with nPos := c.nPos - 1 } else c.tick)

/-- Sampling, up to the decision to fall back to host logits. -/
def drawToken (s : DecodeState) : Drawn :=
  let plain (c : Context) (tok : Token) : Drawn :=
    { ctx := c, pipelined := false, devicePick := s.devicePick, tok := tok, specFed := false
      hostRedo := false, preRc := none }
  if s.pipelined then drawPipelined M E s
  else if s.devicePick && !s.ctx.logitsOnHost then
    match contextDevicePick M E s.ctx with
    | (c, some tok) => plain c tok
    | (c, none) => { plain c 0 with devicePick := false, hostRedo := true }
  else
    let (c, tok) := contextSampleNext M E S s.ctx
    plain c tok

/-- The fallback to host sampling: the last fed token is taken back and fed again for its
logits. `none` is a failed redo. -/
def redoOnHost (d : Drawn) (lastFed : Option Token) : Context × Option Token :=
  let refed : Context × Option Err :=
    match lastFed with
    | some last => contextFeedTokenInner M E { d.ctx with nPos := d.ctx.nPos - 1 } last true
    | none => (d.ctx, none)
  match refed with
  | (c, some _) => ({ c with sessionPoisoned := true }, none)
  | (c, none) =>
    let (c, tok) := contextSampleNext M E S c
    (c, some tok)

/-- Feeding the delivered token, unless its register was fed already. -/
def feedDelivered (d : Drawn) (c : Context) (tok : Token) : Context × Option Err :=
  if d.specFed then ({ c with fedIds := c.fedIds.append tok }, none)
  else
    match d.preRc with
    | some e => (c, some e)
    | none => contextFeedTokenInner M E c tok (!d.devicePick)

/-- What an error of the feed does to the session. -/
def feedFailed (c : Context) (e : Err) : Context :=
  match e with
  | .computeFail => { c with sessionPoisoned := true }
  | .interrupted => { c with sessionPoisoned := c.sessionPoisoned || M.hybrid }
  | _ => { c with contextLimitHit := true }

/-- One iteration of `context_decode_loop` from its draw on. -/
def decodeDrawn (s : DecodeState) (d : Drawn) : LoopStep DecodeState DecodeEnd :=
  let leave (c : Context) (unfed redo : Bool) (delivered : List Token) :
      LoopStep DecodeState DecodeEnd :=
    .done { ctx := c, delivered := delivered, unfedTail := unfed, redoFailed := redo }
  let drawn := if d.hostRedo then redoOnHost M E S d s.lastFed else (d.ctx, some d.tok)
  match drawn with
  | (c, none) => leave c false true s.delivered
  | (c, some tok) =>
    if M.isEog tok then
      leave (if d.specFed then { c with nPos := c.nPos - 1 } else c) false false s.delivered
    else
      match feedDelivered M E d c tok with
      | (c, some e) => leave (feedFailed M c e) true false (s.delivered ++ [tok])
      | (c, none) =>
        .next
          { ctx := c
            i := s.i + 1
            delivered := s.delivered ++ [tok]
            pipelined := d.pipelined
            devicePick := d.devicePick
            lastFed := some tok }

/-- One iteration of `context_decode_loop`. -/
def decodeIter (maxTokens : ℤ) (s : DecodeState) : LoopStep DecodeState DecodeEnd :=
  let leave (c : Context) : LoopStep DecodeState DecodeEnd :=
    .done { ctx := c, delivered := s.delivered, unfedTail := false, redoFailed := false }
  if 0 ≤ maxTokens ∧ maxTokens ≤ s.i then leave s.ctx
  else if E.interrupt s.ctx.clock then leave s.ctx.tick
  else
    let s := { s with ctx := s.ctx.tick }
    decodeDrawn M E S s (drawToken M E S s)

/-- The state in which the decode loop starts. -/
def decodeStart (c : Context) : DecodeState :=
  let onDevice := S.backend && !M.hybrid
  let devicePick := onDevice && (S.eligible || S.greedy)
  { ctx := { c with gen := c.gen + 1 }
    i := 0
    delivered := []
    pipelined := devicePick && S.tokenRegs && !c.decodeStep
    devicePick := devicePick
    lastFed := none }

/-- The record of a decode loop entered with `prompt` prefilled. -/
def Context.started (c : Context) (prompt : List Token) : Context :=
  { c with starts := c.starts ++ [⟨c.gen + 1, prompt, c.logitsHost⟩] }

/-- `context_decode_loop`. Every iteration counts a position, so the loop returns within
`nCtx + 1` of them and the default is not reached (`contextDecodeLoop_exits`). -/
def contextDecodeLoop (maxTokens : ℤ) (c : Context) : DecodeEnd :=
  ((Loop.run (decodeIter M E S maxTokens) (M.nCtx + 1) (decodeStart M S c))).getD
    { ctx := c, delivered := [], unfedTail := false, redoFailed := false }

end Kappai
