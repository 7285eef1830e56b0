import Kappai.Spec.Context

/-! Forward passes and `context_feed_tokens_batch`. -/

namespace Kappai

variable (M : Model) (E : Env M)

def writeRows (kv : ℕ → ℕ → Option Row) (pos : ℕ) (tokens : List Token) : ℕ → ℕ → Option Row :=
  fun l p =>
    if l < M.nStores ∧ pos ≤ p ∧ p < pos + tokens.length then
      tokens[p - pos]?.map fun t => ⟨t, p⟩
    else kv l p

def tearRows (kv rows : ℕ → ℕ → Option Row) (pos n : ℕ) : ℕ → ℕ → Option Row := fun l p =>
  if l < M.nStores ∧ pos ≤ p ∧ p < pos + n then rows l p else kv l p

namespace Core

/-- `compute_forward_rows` for `tokens` at `pos`, with `cached` before them. `wantLogits`
says whether the caller passed `logits_host`. A pass at position 0 starts from the zero
state (`d.reset` in `op_gated_delta_net`, the `memset` in `op_shortconv`). -/
def forward (c : Core) (out : PassOutcome) (cached tokens : List Token) (pos : ℕ)
    (wantLogits : Bool) : Core × Option Err :=
  let start := if pos = 0 then .folded [] else c.recurrent
  let passes := c.passes ++ [⟨pos, tokens, cached, start⟩]
  match out with
  | .ok =>
    let logits := .of (cached ++ tokens)
    ({ c with
        kv := writeRows M c.kv pos tokens
        recurrent := start.feed tokens
        logitsDevice := logits
        logitsHost := if wantLogits then logits else c.logitsHost
        passes := passes }, none)
  | .fail f =>
    ({ c with
        kv := tearRows M c.kv f.rows pos tokens.length
        recurrent := f.recurrent
        logitsDevice := f.device
        logitsHost := if wantLogits && f.zeroes then .zeroed else c.logitsHost
        passes := passes }, some f.err)

end Core

/-- The slack of a compacted sliding-window layer. -/
def slack (w : ℕ) : ℕ := if w / 4 < 8 then 8 else w / 4

/-- The guard of `compute_forward_batch` against batches that outrun the window slack. -/
def batchOutrunsWindow (w pos n : ℕ) : Bool :=
  0 < w && w + slack w < pos + n && slack w + 1 < n

/-- `compute_forward_batch` -/
def computeForwardBatch (c : Core) (cached tokens : List Token) (pos : ℕ) (wantLogits : Bool) :
    Core × Option Err :=
  if batchOutrunsWindow M.slidingWindow pos tokens.length then (c, some .invalidArg)
  else c.tick.forward M (E.pass c.clock) cached tokens pos wantLogits

/-- `context_prefill_chunk_size` -/
def prefillChunkSize : ℕ :=
  let nThreads := max M.nThreads 1
  let target := 8 <<< 20
  let wsTarget :=
    if 0 < M.l2Bytes then min (max (M.l2Bytes * nThreads) (1 <<< 20)) target else target
  let byKv := wsTarget / (if 0 < M.kvBytesPerToken then M.kvBytesPerToken else 1)
  let chunk :=
    if 0 < M.slotBytesPerToken then min byKv (wsTarget / M.slotBytesPerToken) else byKv
  let floor := min (max (4 * nThreads) 32) 512
  let chunk := min chunk 512
  let chunk := if chunk < floor then floor else chunk - chunk % 4
  if chunk < floor then floor else chunk

/-- The chunk loop of `context_feed_tokens_batch`; `off` is `chunk_offset`. The result has
the offset at which the loop left and the error that made it leave. -/
def feedChunks (chunk : ℕ) (tokens : List Token) :
    ℕ → Core → ℕ → Core × ℕ × Option Err
  | 0, c, off => (c, off, none)
  | fuel + 1, c, off =>
    if off < tokens.length then
      if E.interrupt c.clock then (c.tick, off, some .interrupted)
      else
        let batch := (tokens.drop off).take chunk
        let last := off + batch.length = tokens.length
        match computeForwardBatch M E c.tick (c.fedIds.ids ++ tokens.take off) batch
            (c.nPos + off) last with
        | (c, none) => feedChunks chunk tokens fuel c (off + batch.length)
        | (c, some e) => (c, off, some (if e = .interrupted then .interrupted else .computeFail))
    else (c, off, none)

/-- `context_feed_tokens_batch`: the tokens of the completed chunks are counted, also when
a later chunk fails. -/
def contextFeedTokensBatch (c : Core) (tokens : List Token) : Core × Except Err ℕ :=
  if tokens.length = 0 then (c, .ok 0)
  else if M.nCtx < c.nPos + tokens.length then (c, .error .invalidArg)
  else
    let c := c.fedIdsSync
    let chunk := min (prefillChunkSize M) tokens.length
    let r := feedChunks M E chunk tokens tokens.length c 0
    let fed := { r.1 with
      nPos := r.1.nPos + r.2.1
      fedIds := r.1.fedIds.appendAll (tokens.take r.2.1) }
    match r.2.2 with
    | none => (fed, .ok (c.nPos + tokens.length))
    | some e => (fed, .error e)

/-! Prefix reuse: the cached tokens a prompt shares with the last one stay, rows that occur
further up in the cache are moved down, and the rest of the prompt is fed. -/

/-- `kv_shift_chunk`: `src_pos`, `dst_pos`, `n_rows`. -/
abbrev KvShiftChunk := RowMove

def kvShiftMinChunk : ℕ := 32

def kvShiftMaxChunks : ℕ := 64

/-- The loop of `kv_reuse_plan_build`. `matched` counts equal tokens from `headC` in the
cache and `headP` in the prompt; the last token of the prompt is never matched. -/
def kvReusePlanLoop (fed ids : List Token) :
    ℕ → ℕ → ℕ → List KvShiftChunk → List KvShiftChunk
  | 0, _, _, plan => plan
  | fuel + 1, headC, headP, plan =>
    if headC < fed.length ∧ headP + 1 < ids.length ∧ plan.length < kvShiftMaxChunks then
      let matched := commonPrefix (fed.drop headC) ((ids.drop headP).take (ids.length - 1 - headP))
      if matched < kvShiftMinChunk then kvReusePlanLoop fed ids fuel (headC + 1) headP plan
      else
        kvReusePlanLoop fed ids fuel (headC + matched) (headP + matched)
          (plan ++ [⟨headC, headP, matched⟩])
    else plan

/-- `kv_reuse_plan_build` -/
def kvReusePlanBuild (fed ids : List Token) (reuse : ℕ) : List KvShiftChunk :=
  kvReusePlanLoop fed ids fed.length reuse reuse []

/-- `cpu_kv_rotate_head` by the chunk's `dst_pos - src_pos`. -/
def Row.rotate (m : KvShiftChunk) (r : Row) : Row :=
  { r with pos := r.pos + ((m.dst : ℤ) - m.src) }

/-- `kv_shift` of one store: all source rows are gathered before the first one is put. -/
def kvShift (chunks : List KvShiftChunk) (rows : ℕ → Option Row) : ℕ → Option Row :=
  RowMove.gatherPut (fun m r => r.map (Row.rotate m)) chunks rows

def tearDestinations (chunks : List KvShiftChunk) (rows torn : ℕ → Option Row) :
    ℕ → Option Row := fun p =>
  if chunks.any fun m => decide (m.Covers p) then torn p else rows p

/-- `kvcache_shift` from store `l` on: the first failing store ends it. -/
def kvcacheShiftFrom (chunks : List KvShiftChunk) : ℕ → Core → ℕ → Core × Option Err
  | 0, c, _ => (c, none)
  | left + 1, c, l =>
    match E.shift c.clock with
    | .ok =>
      kvcacheShiftFrom chunks left
        { c.tick with kv := Function.update c.kv l (kvShift chunks (c.kv l)) } (l + 1)
    | .fail e torn =>
      ({ c.tick with kv := Function.update c.kv l (tearDestinations chunks (c.kv l) torn) }, some e)

/-- `kvcache_shift` -/
def kvcacheShift (c : Core) (chunks : List KvShiftChunk) : Core × Option Err :=
  kvcacheShiftFrom M E chunks M.nStores c 0

/-- `kv_reuse_plan_shift`: chunks already in place need no move. -/
def kvReusePlanShift (c : Core) (plan : List KvShiftChunk) : Core × Bool :=
  let moves := plan.filter fun m => m.src ≠ m.dst
  if moves = [] then (c, true)
  else
    let r := kvcacheShift M E c moves
    (r.1, r.2.isNone)

/-- How many cached tokens `context_reuse_prefix` keeps. A prompt that ends inside the
cache gives its last token back, to be fed again for its logits. -/
def reusedPrefix (fed ids : List Token) : ℕ :=
  let reuse := commonPrefix fed ids
  if 0 < ids.length ∧ reuse = ids.length ∧ reuse < fed.length then reuse - 1 else reuse

/-- `kvcache_can_shift`: never with recurrent state, else up to the backends. -/
def kvcacheCanShift (c : Core) : Bool := !M.hybrid && E.canShift c.clock

/-- The plan of `context_reuse_prefix` and the state its move attempt leaves. -/
def contextReusePlan (c : Core) (ids : List Token) (reuse : ℕ) : Core × List KvShiftChunk :=
  if kvcacheCanShift M E c then
    let plan := kvReusePlanBuild c.fedIds.ids ids reuse
    if plan = [] then (c.tick, [])
    else
      match kvReusePlanShift M E c.tick plan with
      | (c, true) => (c, plan)
      | (c, false) => (c, [])
  else (c.tick, [])

/-- `context_reuse_prefix` -/
def contextReusePrefix (c : Core) (ids : List Token) : Core × ℕ × List KvShiftChunk :=
  let reuse := reusedPrefix c.fedIds.ids ids
  if c.fedIds.n ≤ reuse then (c, reuse, [])
  else
    let r := contextReusePlan M E c ids reuse
    (r.1.rewind reuse, reuse, r.2)

/-- The chunk loop of `context_prefill_with_plan` for `tokens` starting at `base`: the gap
before a chunk is fed, the tokens of the chunk are only counted. -/
def prefillPlanned (tokens : List Token) (base : ℕ) :
    List KvShiftChunk → Core → Core × Option Err
  | [], c => (c, none)
  | m :: plan, c =>
    let gap := m.dst - c.nPos
    let fed :=
      if 0 < gap then
        contextFeedTokensBatch M E c ((tokens.drop (c.nPos - base)).take gap)
      else (c, .ok 0)
    match fed with
    | (c, .error e) => (c, some e)
    | (c, .ok _) =>
      prefillPlanned tokens base plan
        { c with
          fedIds := c.fedIds.appendAll ((tokens.drop (m.dst - base)).take m.n)
          nPos := m.dst + m.n }

/-- `context_prefill_with_plan` -/
def contextPrefillWithPlan (c : Core) (tokens : List Token) (plan : List KvShiftChunk) :
    Core × Except Err ℕ :=
  match prefillPlanned M E tokens c.nPos plan c with
  | (c', some e) => (c', .error e)
  | (c', none) => contextFeedTokensBatch M E c' (tokens.drop (c'.nPos - c.nPos))

/-- `context_prefill_prompt` -/
def contextPrefillPrompt (c : Core) (ids : List Token) : Core × Except Err ℕ :=
  let r := contextReusePrefix M E c.fedIdsSync ids
  contextPrefillWithPlan M E r.1 (ids.drop r.2.1) r.2.2

end Kappai
