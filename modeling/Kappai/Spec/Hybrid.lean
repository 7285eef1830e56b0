import Kappai.Lib.RowMoves
import Kappai.Spec.RmsnormAdd
import Mathlib.Order.Defs.LinearOrder

/-! The layers with a state on the host: the short convolution and the gated delta net. Arithmetic is
exact, over an ordered field; `expf`, `log1pf` and `sqrtf` are given. The chunks of a parallel loop come
one after the other, in any order. -/

namespace Kappai

open Strided

variable {B K : Type*}

/-- A store to one cell of a buffer. -/
def storeCell [DecidableEq B] (m : B → ℕ → K) (b : B) (a : ℕ) (v : K) : B → ℕ → K :=
  Function.update m b (Function.update (m b) a v)

/-- The ranges that a parallel loop over `n` items is split into. -/
def Tiles (n : ℕ) (chunks : List (ℕ × ℕ)) : Prop :=
  (chunks.flatMap fun r => List.range' r.1 (r.2 - r.1)).Perm (List.range n)

instance (n : ℕ) (chunks : List (ℕ × ℕ)) : Decidable (Tiles n chunks) := by
  unfold Tiles
  infer_instance

/-! ### The short convolution -/

inductive ConvBuf
  | out
  | state
deriving DecidableEq, Repr

abbrev ConvMem (K : Type*) := ConvBuf → ℕ → K

/-- `shortconv_desc` of a causal convolution; `out` is where its rows begin in the output. -/
structure ShortconvDesc (K : Type*) where
  out : ℕ
  mixed : ℕ → K
  convW : ℕ → K
  dim : ℕ
  kernel : ℕ
  inStride : ℕ
  outStride : ℕ
  nRows : ℕ

namespace ShortconvDesc

variable [Field K] (d : ShortconvDesc K)

/-- `bx`, the product of the first and the third column. -/
def bx (c t : ℕ) : K :=
  d.mixed (c + t * d.inStride) * d.mixed (2 * d.dim + c + t * d.inStride)

def w (c k : ℕ) : K := d.convW (c * d.kernel + k)

/-- The store of a row. -/
def put (m : ConvMem K) (c t : ℕ) (sum : K) : ConvMem K :=
  storeCell m .out (d.out + c + t * d.outStride) (d.mixed (d.dim + c + t * d.inStride) * sum)

/-- A turn of the loop for three taps, with `h0` and `h1` in registers. -/
def row3 (c : ℕ) (r : K × K × ConvMem K) (t : ℕ) : K × K × ConvMem K :=
  (r.2.1, d.bx c t, d.put r.2.2 c t (r.1 * d.w c 0 + r.2.1 * d.w c 1 + d.bx c t * d.w c 2))

/-- A turn of the loop for any number of taps. -/
def row (c : ℕ) (m : ConvMem K) (t : ℕ) : ConvMem K :=
  let history := d.kernel - 1
  let hist := c * history
  let sum := (List.range history).foldl (fun sum k => sum + m .state (hist + k) * d.w c k)
    (d.bx c t * d.w c (d.kernel - 1))
  let m := Function.update m .state (moveDown (m .state) hist 1 (history - 1))
  let m := storeCell m .state (hist + (history - 1)) (d.bx c t)
  d.put m c t sum

/-- The loop over the rows of one channel. -/
def channel (c : ℕ) (m : ConvMem K) : ConvMem K :=
  let hist := c * (d.kernel - 1)
  if d.kernel = 3 then
    let r := (List.range d.nRows).foldl (d.row3 c) (m .state hist, m .state (hist + 1), m)
    storeCell (storeCell r.2.2 .state hist r.1) .state (hist + 1) r.2.1
  else (List.range d.nRows).foldl (d.row c) m

/-- `shortconv_causal_chunk` -/
def shortconvCausalChunk (chunk : ℕ × ℕ) (m : ConvMem K) : ConvMem K :=
  (List.range' chunk.1 (chunk.2 - chunk.1)).foldl (fun m c => d.channel c m) m

/-- `cpu_shortconv`; `none` is `ERR_INVALID_ARG`. -/
def cpuShortconv (chunks : List (ℕ × ℕ)) (m : ConvMem K) : Option (ConvMem K) :=
  if d.dim < 1 ∨ d.nRows < 1 ∨ d.inStride < 3 * d.dim ∨ d.outStride < d.dim ∨ d.kernel < 2 then none
  else some (chunks.foldl (fun m chunk => d.shortconvCausalChunk chunk m) m)

/-- The descriptor of the rows `row0`, …, `row0 + n - 1`. -/
def segment (row0 n : ℕ) : ShortconvDesc K :=
  { d with
    out := d.out + row0 * d.outStride
    mixed := fun i => d.mixed (row0 * d.inStride + i)
    nRows := n }

/-- The `memset` of `op_shortconv` before a segment at position 0. -/
def resetState (m : ConvMem K) : ConvMem K :=
  Function.update m .state (writeBlock (m .state) 0 (d.dim * (d.kernel - 1)) fun _ => 0)

end ShortconvDesc

/-- A call for some rows, and how its channels are split. -/
structure ShortconvCall where
  rows : ℕ
  chunks : List (ℕ × ℕ)
deriving DecidableEq, Repr

/-- The calls for consecutive chunks of rows. -/
def shortconvCalls [Field K] (d : ShortconvDesc K) :
    ℕ → List ShortconvCall → ConvMem K → Option (ConvMem K)
  | _, [], m => some m
  | row0, call :: calls, m =>
    ((d.segment row0 call.rows).cpuShortconv call.chunks m).bind
      (shortconvCalls d (row0 + call.rows) calls)

/-! ### The gated delta net -/

/-- The functions of the mathematics library. -/
structure MathFns (K : Type*) where
  expf : K → K
  log1pf : K → K
  sqrtf : K → K

namespace MathFns

variable [Field K] [LinearOrder K] (f : MathFns K)

def silu (x : K) : K := x / (1 + f.expf (-x))

def sigmoidf (x : K) : K :=
  if x ≥ 0 then 1 / (1 + f.expf (-x)) else f.expf x / (1 + f.expf x)

def softplusf (x : K) : K :=
  if x > 20 then x else if x < -20 then f.expf x else f.log1pf (f.expf x)

end MathFns

/-- The dimensions of a `gdn_desc`, as `model_load` sets them. -/
structure GdnDims where
  nValueHeads : ℕ
  nKeyHeads : ℕ
  convDim : ℕ
  convKernel : ℕ
  keyDim : ℕ
  stateSize : ℕ
  valueHeadDim : ℕ
  valueDim : ℕ
  nKeyHeads_pos : 0 < nKeyHeads
  convKernel_pos : 0 < convKernel
  keyDim_eq : keyDim = stateSize * nKeyHeads
  valueDim_eq : valueDim = nValueHeads * valueHeadDim
  convDim_eq : convDim = 2 * keyDim + valueDim

/-- `gdn_desc`, without its state and its output. -/
structure GdnDesc (K : Type*) extends GdnDims where
  nTokens : ℕ
  reset : Bool
  eps : K
  mixed : ℕ → K
  z : ℕ → K
  alpha : ℕ → K
  beta : ℕ → K
  convW : ℕ → K
  dt : ℕ → K
  aVec : ℕ → K
  normW : ℕ → K
  /-- where its rows begin in the output -/
  out : ℕ

inductive GdnConvBuf
  | convOut
  | convState
deriving DecidableEq, Repr

inductive GdnHeadBuf
  | state
  | out
deriving DecidableEq, Repr

/-- The workspace and the state of the convolution at the start of a call. -/
def convStart {K : Type*} (ws convState : ℕ → K) : GdnConvBuf → ℕ → K
  | .convOut => ws
  | .convState => convState

/-- The buffers that outlive a call. -/
structure GdnMem (K : Type*) where
  convState : ℕ → K
  heads : GdnHeadBuf → ℕ → K

namespace GdnDesc

variable [Field K] [LinearOrder K] (f : MathFns K) (d : GdnDesc K)

def history : ℕ := d.convKernel - 1

def w (c k : ℕ) : K := d.convW (c * d.convKernel + k)

def mix (c t : ℕ) : K := d.mixed (c + t * d.convDim)

/-- A turn of the loop for a history of three. -/
def convRow3 (c : ℕ) (r : K × K × K × (GdnConvBuf → ℕ → K)) (t : ℕ) :
    K × K × K × (GdnConvBuf → ℕ → K) :=
  (r.2.1, r.2.2.1, d.mix c t,
    storeCell r.2.2.2 .convOut (t * d.convDim + c) (f.silu
      (r.1 * d.w c 0 + r.2.1 * d.w c 1 + r.2.2.1 * d.w c 2 + d.mix c t * d.w c 3)))

/-- A turn of the loop for any history. -/
def convRow (c : ℕ) (m : GdnConvBuf → ℕ → K) (t : ℕ) : GdnConvBuf → ℕ → K :=
  let hist := c * d.history
  let sum := (List.range d.history).foldl (fun sum k => sum + m .convState (hist + k) * d.w c k)
    (d.mix c t * d.w c d.history)
  let m :=
    if d.history > 0 then
      let m :=
        if d.history > 1 then
          Function.update m .convState (moveDown (m .convState) hist 1 (d.history - 1))
        else m
      storeCell m .convState (hist + (d.history - 1)) (d.mix c t)
    else m
  storeCell m .convOut (t * d.convDim + c) (f.silu sum)

/-- The loop over the tokens of one channel. -/
def convChannel (c : ℕ) (m : GdnConvBuf → ℕ → K) : GdnConvBuf → ℕ → K :=
  let hist := c * d.history
  if d.history = 3 then
    let r := (List.range d.nTokens).foldl (d.convRow3 f c)
      (m .convState hist, m .convState (hist + 1), m .convState (hist + 2), m)
    storeCell (storeCell (storeCell r.2.2.2 .convState hist r.1) .convState (hist + 1) r.2.1)
      .convState (hist + 2) r.2.2.1
  else (List.range d.nTokens).foldl (d.convRow f c) m

/-- `gdn_conv_chunk` -/
def gdnConvChunk (chunk : ℕ × ℕ) (m : GdnConvBuf → ℕ → K) : GdnConvBuf → ℕ → K :=
  (List.range' chunk.1 (chunk.2 - chunk.1)).foldl (fun m c => d.convChannel f c m) m

/-- The cells of a block that a pointer points to. -/
def block (n : ℕ) (mem : ℕ → K) (off : ℕ) : ℕ → K := fun i => if i < n then mem (off + i) else 0

/-- `gdn_decay_accum_f32` on the row of `s.1` at `row`, with `s.2` for `mem`. -/
def gdnDecayAccum (row : ℕ) (decay ks : K) (n : ℕ) (s : (ℕ → K) × (ℕ → K)) : (ℕ → K) × (ℕ → K) :=
  (List.range n).foldl (fun s i =>
    let r := s.1 (row + i) * decay
    (Function.update s.1 (row + i) r, Function.update s.2 i (s.2 i + r * ks))) s

/-- `gdn_update_accum_f32`, with `s.2` for `y`. -/
def gdnUpdateAccum (row : ℕ) (delta : ℕ → K) (ks qs : K) (n : ℕ) (s : (ℕ → K) × (ℕ → K)) :
    (ℕ → K) × (ℕ → K) :=
  (List.range n).foldl (fun s i =>
    let r := s.1 (row + i) + ks * delta i
    (Function.update s.1 (row + i) r, Function.update s.2 i (s.2 i + r * qs))) s

/-- The update of a head by one token, from its query, key, value and gate. -/
def headUpdate (q k v zT : ℕ → K) (decay b : K) (shead : ℕ → K) : (ℕ → K) × (ℕ → K) :=
  let kd := d.stateSize
  let vd := d.valueHeadDim
  let qScale := 1 / f.sqrtf kd
  let qn := qScale / f.sqrtf (d.eps + rmsnormSumSq q kd)
  let kn := 1 / f.sqrtf (d.eps + rmsnormSumSq k kd)
  let qS := fun i => q i * qn
  let kS := fun i => k i * kn
  let decayed := (List.range kd).foldl
    (fun s e => gdnDecayAccum (e * vd) decay (kS e) vd s) (shead, fun _ => 0)
  let delta := fun j => (v j - decayed.2 j) * b
  let updated := (List.range kd).foldl
    (fun s e => gdnUpdateAccum (e * vd) delta (kS e) (qS e) vd s) (decayed.1, fun _ => 0)
  let y := updated.2
  let invRms := 1 / f.sqrtf (d.eps + rmsnormSumSq y vd / vd)
  (updated.1, fun i => y i * invRms * d.normW i * f.silu (zT i))

/-- One token of one head: the new state of the head, and its row of the output. -/
def headStep (conv : ℕ → K) (vh t : ℕ) (shead : ℕ → K) : (ℕ → K) × (ℕ → K) :=
  let kd := d.stateSize
  let vd := d.valueHeadDim
  let kh := vh % d.nKeyHeads
  let convT := t * d.convDim
  let q := fun i => conv (convT + kh * kd + i)
  let k := fun i => conv (convT + d.keyDim + kh * kd + i)
  let v := fun i => conv (convT + 2 * d.keyDim + vh * vd + i)
  let zT := fun i => d.z (t * d.valueDim + vh * vd + i)
  let decay := f.expf (d.aVec vh * f.softplusf (d.alpha (t * d.nValueHeads + vh) + d.dt vh))
  let b := f.sigmoidf (d.beta (t * d.nValueHeads + vh))
  d.headUpdate f q k v zT decay b shead

/-- A turn of the loop over the tokens of one head. -/
def headRow (conv : ℕ → K) (vh : ℕ) (m : GdnHeadBuf → ℕ → K) (t : ℕ) : GdnHeadBuf → ℕ → K :=
  let stateHead := d.stateSize * d.valueHeadDim
  let r := d.headStep f conv vh t (block stateHead (m .state) (vh * stateHead))
  let m := Function.update m .state (writeBlock (m .state) (vh * stateHead) stateHead r.1)
  Function.update m .out (writeBlock (m .out) (d.out + t * d.valueDim + vh * d.valueHeadDim)
    d.valueHeadDim r.2)

/-- `gdn_heads` -/
def gdnHeads (conv : ℕ → K) (chunk : ℕ × ℕ) (m : GdnHeadBuf → ℕ → K) : GdnHeadBuf → ℕ → K :=
  (List.range' chunk.1 (chunk.2 - chunk.1)).foldl
    (fun m vh => (List.range d.nTokens).foldl (d.headRow f conv vh) m) m

/-- The `memset`s of a call with `reset`. -/
def resetState (m : GdnMem K) : GdnMem K :=
  if d.reset then
    { convState := writeBlock m.convState 0 (d.convDim * d.history) fun _ => 0
      heads := Function.update m.heads .state
        (writeBlock (m.heads .state) 0 (d.nValueHeads * d.stateSize * d.valueHeadDim) fun _ => 0) }
  else m

/-- `cpu_gated_delta_net`; `ws` is what the workspace holds. -/
def cpuGatedDeltaNet (ws : ℕ → K) (convChunks headChunks : List (ℕ × ℕ)) (m : GdnMem K) : GdnMem K :=
  let m := d.resetState m
  let conv := convChunks.foldl (fun m chunk => d.gdnConvChunk f chunk m) (convStart ws m.convState)
  { convState := conv .convState
    heads := headChunks.foldl (fun m chunk => d.gdnHeads f (conv .convOut) chunk m) m.heads }

/-- The descriptor of the rows `row0`, …, `row0 + n - 1`. -/
def segment (row0 n : ℕ) (reset : Bool) : GdnDesc K :=
  { d with
    nTokens := n
    reset := reset
    mixed := fun i => d.mixed (row0 * d.convDim + i)
    z := fun i => d.z (row0 * d.valueDim + i)
    alpha := fun i => d.alpha (row0 * d.nValueHeads + i)
    beta := fun i => d.beta (row0 * d.nValueHeads + i)
    out := d.out + row0 * d.valueDim }

end GdnDesc

/-- A call for some tokens: its workspace, and how its channels and heads are split. -/
structure GdnCall (K : Type*) where
  rows : ℕ
  ws : ℕ → K
  convChunks : List (ℕ × ℕ)
  headChunks : List (ℕ × ℕ)

/-- The calls for consecutive chunks of tokens, the first with `reset` or not. -/
def gdnCalls [Field K] [LinearOrder K] (f : MathFns K) (d : GdnDesc K) :
    Bool → ℕ → List (GdnCall K) → GdnMem K → GdnMem K
  | _, _, [], m => m
  | reset, row0, call :: calls, m =>
    gdnCalls f d false (row0 + call.rows) calls
      ((d.segment row0 call.rows reset).cpuGatedDeltaNet f call.ws call.convChunks call.headChunks m)

end Kappai
