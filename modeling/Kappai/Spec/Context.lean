import Kappai.Lib.Occurrence
import Kappai.Lib.RowMoves
import Mathlib.Data.Nat.Notation
import Mathlib.Data.Int.Notation

/-! The part of `context` that a forward pass reads and writes. Buffers the device fills
with numbers hold a symbolic value here: what the numbers were computed from. The device,
the interrupt flag and the sampler answer through `Env`, one answer for each time they are
asked, so a theorem about every `Env` is about every sequence of outcomes. -/

namespace Kappai

/-- `status_code` without `OK`. -/
inductive Err
  | io | format | notFound | unsupported | outOfMemory
  | invalidArg | internal | interrupted | fallback | computeFail
deriving DecidableEq, Repr

/-- `int32_t` token ids. -/
abbrev Token := ℤ

/-- A cached row: the token it was computed for and the position its key is rotated to. -/
structure Row where
  tok : Token
  pos : ℤ
deriving DecidableEq, Repr

/-- A logits buffer: the logits after the last of `ids` with the tokens before it cached,
the zeros that `compute_forward_rows` leaves on an error, or bytes no pass wrote. -/
inductive Logits
  | of (ids : List Token)
  | zeroed
  | unset
deriving DecidableEq, Repr

/-- The recurrent and convolution state: the tokens folded into it from the zero state, or
what a pass that broke off left. -/
inductive Recurrent
  | folded (ids : List Token)
  | torn
deriving DecidableEq, Repr

def Recurrent.feed : Recurrent → List Token → Recurrent
  | .folded ids, ts => .folded (ids ++ ts)
  | .torn, _ => .torn

/-- `fed_ids`: the array and the number of entries in use. Entries from `n` on are stale,
and setting `n` back up brings them back. -/
structure FedIds where
  p : ℕ → Token
  n : ℕ

namespace FedIds

def ids (f : FedIds) : List Token := (List.range f.n).map f.p

def append (f : FedIds) (t : Token) : FedIds :=
  ⟨Function.update f.p f.n t, f.n + 1⟩

def appendAll (f : FedIds) (ts : List Token) : FedIds := ts.foldl append f

end FedIds

/-- A record of one forward pass: its first position, its tokens, the tokens cached before
it and the recurrent state it started from. -/
structure Pass where
  pos : ℕ
  tokens : List Token
  cached : List Token
  start : Recurrent
deriving DecidableEq, Repr

/-- The positions the passes ran over. -/
def fedPositions (passes : List Pass) : List ℕ :=
  passes.flatMap fun p => List.range' p.pos p.tokens.length

structure Core where
  fedIds : FedIds
  nPos : ℕ
  /-- The rows of store `l`, by position. The stores are the pairs of a KV layer and a
  device holding it, in the order `kvcache_shift` visits them. -/
  kv : ℕ → ℕ → Option Row
  recurrent : Recurrent
  logitsHost : Logits
  logitsDevice : Logits
  passes : List Pass
  clock : ℕ

/-- What the context keeps of the loaded model and the machine. -/
structure Model where
  nCtx : ℕ
  vocab : ℕ
  nStores : ℕ
  hybrid : Bool
  slidingWindow : ℕ
  l2Bytes : ℕ
  nThreads : ℕ
  kvBytesPerToken : ℕ
  slotBytesPerToken : ℕ
  isEog : Token → Bool

/-- What a failed pass leaves behind: any rows at the positions of the batch, any recurrent
state, any device logits, and zeroed host logits if it got as far as clearing them. -/
structure Failure where
  err : Err
  rows : ℕ → ℕ → Option Row
  recurrent : Recurrent
  device : Logits
  zeroes : Bool

inductive PassOutcome
  | ok
  | fail (f : Failure)

/-- One store of `kvcache_shift`: moved, or failed with any rows at the destinations. -/
inductive ShiftOutcome
  | ok
  | fail (err : Err) (rows : ℕ → Option Row)

/-- The server's batched decode step for one context. `status` is what the callback returns
without a pass (client gone, interrupted while parked). `sampled` leaves the logits on the
device and parks a token, `read` copies them to `logits_host`; `unread` ran the pass and
could not read its logits. -/
inductive StepOutcome
  | status (err : Err)
  | failed (f : Failure)
  | sampled (tok : Token)
  | read
  | unread (err : Err)

structure Env (M : Model) where
  interrupt : ℕ → Bool
  pass : ℕ → PassOutcome
  step : ℕ → StepOutcome
  canShift : ℕ → Bool
  shift : ℕ → ShiftOutcome
  /-- `argmax_to_reg` or `sample_to_reg`, with the token the shader wrote to the register.
  It is an index below the vocabulary size, and the host does not know it yet. -/
  pickReg : ℕ → Except Err (Fin M.vocab)
  /-- `read_token_reg`; `none` is `OK`. -/
  readReg : ℕ → Option Err
  /-- `context_device_pick` -/
  pick : ℕ → Except Err (Fin M.vocab)
  sample : ℕ → Token

namespace Core

def tick (c : Core) : Core := { c with clock := c.clock + 1 }

/-- `fed_ids_sync` -/
def fedIdsSync (c : Core) : Core :=
  if c.nPos < c.fedIds.n then { c with fedIds := { c.fedIds with n := c.nPos } } else c

/-- `fed_ids_common_prefix` -/
def fedIdsCommonPrefix (c : Core) (ids : List Token) : ℕ := commonPrefix c.fedIds.ids ids

/-- `context_rewind` -/
def rewind (c : Core) (pos : ℕ) : Core :=
  let pos := min (min pos c.fedIds.n) c.nPos
  { c with fedIds := { c.fedIds with n := pos }, nPos := pos }

/-- `kvcache_reset` and the counters `context_reset` clears. The recurrent state on the host
is zeroed; state kept on a device is reset by the next pass, which starts at position 0. -/
def reset (c : Core) : Core :=
  { c with nPos := 0, fedIds := { c.fedIds with n := 0 }, recurrent := .folded [] }

/-- A context that has just computed `ids` and nothing else. -/
def holding (ids : List Token) : Core where
  fedIds := FedIds.appendAll ⟨fun _ => 0, 0⟩ ids
  nPos := ids.length
  kv _ p := ids[p]?.map fun t => ⟨t, p⟩
  recurrent := .folded ids
  logitsHost := .of ids
  logitsDevice := .of ids
  passes := []
  clock := 0

end Core

/-- A small model for concrete runs: one KV store, 64 positions, an end token 0. -/
def Model.small (hybrid : Bool) : Model where
  nCtx := 64
  vocab := 100
  nStores := 1
  hybrid := hybrid
  slidingWindow := 0
  l2Bytes := 0
  nThreads := 1
  kvBytesPerToken := 0
  slotBytesPerToken := 0
  isEog t := t == 0

/-- Nothing fails and nothing interrupts; the device does not pick tokens and the sampler
draws the end token. -/
def Env.calm (M : Model) : Env M where
  interrupt _ := false
  pass _ := .ok
  step _ := .read
  canShift _ := true
  shift _ := .ok
  pickReg _ := .error .unsupported
  readReg _ := some .unsupported
  pick _ := .error .unsupported
  sample _ := 0

end Kappai
