import Kappai.Lib.RowMoves
import Kappai.Spec.Feed

/-! The KV cache of the CPU backend. The rows of a cache are bytes of its own buffers; how
they are laid out, and the position the first row of each compacted layer is for, is state
of the backend. The K and the V buffer are laid out alike and a byte here is one of each. -/

namespace Kappai

inductive KvQuant
  | f16 | q8_0
deriving DecidableEq, Repr

/-- `kv_row_bytes`; 34 is `KV_Q8_0_BLOCK_BYTES`. -/
def kvRowBytes (q : KvQuant) (headDim : ℕ) : ℕ :=
  match q with
  | .f16 => headDim * 2
  | .q8_0 => (headDim + 31) / 32 * 34

structure KvDesc where
  nKvLayers : ℕ
  nKvHeads : ℕ
  headDim : ℕ
  nCtx : ℕ
  kvQuant : KvQuant
  /-- `layer_head_dim` and `layer_n_kv_heads` -/
  layerDims : Option (ℕ → ℕ × ℕ)
  layerPosCap : Option (ℕ → ℕ)

/-- The part of `cpu_priv` that is about KV caches. Pointers that are still `NULL` read as
arrays of zeros, which every use of them treats alike. -/
structure CpuPriv where
  kvQuant : KvQuant
  kvLayerOff : Option (ℕ → ℕ)
  kvPosCap : ℕ → ℕ
  kvBasePos : ℕ → ℕ
  kvNLayers : ℕ
  kvKBytes : ℕ

def CpuPriv.init : CpuPriv := ⟨.f16, none, fun _ => 0, fun _ => 0, 0, 0⟩

/-- Bytes of a buffer; `none` is what nobody has written. -/
abbrev KvMem (β : Type*) := ℕ → Option β

def layerOff (bytes : ℕ → ℕ) : ℕ → ℕ
  | 0 => 0
  | i + 1 => layerOff bytes i + bytes i

/-- The smallest of the position capacities, as `cpu_kv_uniform_rows` takes it. -/
def kvUniformRows (d : KvDesc) (cap : ℕ → ℕ) : ℕ :=
  if d.nKvLayers = 0 then d.nCtx
  else (List.range d.nKvLayers).foldl (fun r i => min r (cap i)) (cap 0)

/-- The private state after `cpu_kv_alloc`: nothing of the old one is kept. -/
def cpuKvAlloc (d : KvDesc) : CpuPriv :=
  let n := if 0 < d.nKvLayers then d.nKvLayers else 1
  let cap (i : ℕ) : ℕ :=
    match d.layerPosCap with
    | some f => if 0 < f i then f i else d.nCtx
    | none => d.nCtx
  let base : CpuPriv := ⟨d.kvQuant, none, cap, fun _ => 0, n, 0⟩
  match (if 0 < d.nKvLayers then d.layerDims else none) with
  | some dims =>
    let off := layerOff fun i => (dims i).2 * (cap i * kvRowBytes d.kvQuant (dims i).1)
    { base with kvLayerOff := some off, kvKBytes := off d.nKvLayers }
  | none =>
    { base with
      kvKBytes := d.nKvHeads * kvUniformRows d cap * kvRowBytes d.kvQuant d.headDim * n }

/-- What every call about a layer is given: `n_kv_heads`, `head_dim`, `n_ctx` and
`n_kv_heads_active`. -/
structure KvArgs where
  nKvHeads : ℕ
  headDim : ℕ
  nCtx : ℕ
  nKvHeadsActive : ℕ

def KvArgs.nActive (a : KvArgs) : ℕ := if 0 < a.nKvHeadsActive then a.nKvHeadsActive else a.nKvHeads

namespace CpuPriv

variable (p : CpuPriv) (a : KvArgs)

/-- `cpu_kv_layer_check`, which aborts when it fails. -/
def layerCheck (layer : ℕ) : Bool := p.kvNLayers = 0 || layer < p.kvNLayers

/-- `cpu_kv_layer_rows` -/
def layerRows (layer : ℕ) : ℕ := if 0 < p.kvPosCap layer then p.kvPosCap layer else a.nCtx

def rowBytes : ℕ := kvRowBytes p.kvQuant a.headDim

/-- `cpu_kv_layer_base` in bytes. The offsets of `cpu_kv_alloc` are whole elements. -/
def layerBase (layer : ℕ) : ℕ :=
  match p.kvLayerOff with
  | some off => off layer
  | none => layer * (a.nKvHeads * (p.layerRows a layer * p.rowBytes a))

end CpuPriv

/-- The arithmetic of `cpu_kv_put_slot`: by how many rows the layer is moved down, and the
slot of `pos` after that. -/
def cpuKvPutSlot (cap nCtx base pos : ℕ) : ℕ × ℕ :=
  if cap = 0 ∨ nCtx ≤ cap then (0, pos)
  else
    let shift := if base + cap ≤ pos then min (pos - base - cap + 1) cap else 0
    (shift, if pos < base + shift then 0 else pos - (base + shift))

/-- `cpu_kv_put_slot` aborts on a layer that does not fit the buffer it knows of. -/
def cpuKvPutFits (p : CpuPriv) (a : KvArgs) (layer : ℕ) : Bool :=
  let cap := p.kvPosCap layer
  cap = 0 || a.nCtx ≤ cap || p.kvKBytes = 0 ||
    p.layerBase a layer + a.nActive * (p.layerRows a layer * p.rowBytes a) ≤ p.kvKBytes

variable {β : Type*}

/-- `cpu_kv_put_prepare` and `cpu_kv_put_batch_chunk` for `m` rows from `posStart` on; `rows`
has the converted row `i` of a head. `none` is an abort. -/
def cpuKvPutRows (p : CpuPriv) (mem : KvMem β) (a : KvArgs) (layer posStart m : ℕ)
    (rows : ℕ → ℕ → ℕ → Option β) : Option (CpuPriv × KvMem β) :=
  if !p.layerCheck layer || !cpuKvPutFits p a layer then none
  else
    let r := cpuKvPutSlot (p.kvPosCap layer) a.nCtx (p.kvBasePos layer) (posStart + m - 1)
    let moved :=
      if r.1 = 0 then mem
      else
        Strided.moveRows mem (p.layerBase a layer) (p.layerRows a layer) (p.rowBytes a) a.nActive r.1
    some
      ({ p with kvBasePos := Function.update p.kvBasePos layer (p.kvBasePos layer + r.1) },
        Strided.writeRows moved (p.layerBase a layer) (p.layerRows a layer) (p.rowBytes a)
          a.nActive (r.2 - (m - 1)) m rows)

def cpuKvPut (p : CpuPriv) (mem : KvMem β) (a : KvArgs) (layer pos : ℕ)
    (row : ℕ → ℕ → Option β) : Option (CpuPriv × KvMem β) :=
  cpuKvPutRows p mem a layer pos 1 fun _ => row

def cpuKvPutBatch (p : CpuPriv) (mem : KvMem β) (a : KvArgs) (layer posStart m : ℕ)
    (rows : ℕ → ℕ → ℕ → Option β) : Option (CpuPriv × KvMem β) :=
  if m * a.nActive = 0 then some (p, mem) else cpuKvPutRows p mem a layer posStart m rows

/-- `cpu_kv_window_to_slots_base`: the first slot and the number of rows. -/
def cpuKvWindowToSlots (base attnStart nPos : ℕ) : ℕ × ℕ :=
  if base = 0 then (attnStart, nPos)
  else if attnStart < base then (0, nPos - (base - attnStart))
  else (attnStart - base, nPos)

/-- The first position and the number of positions a query at `pos` attends to. -/
def attnWindow (window pos : ℕ) : ℕ × ℕ :=
  if 0 < window ∧ window < pos + 1 then (pos + 1 - window, window) else (0, pos + 1)

/-- The rows of one head that `cpu_attn_batch_chunk` reads for the query at `pos`. -/
def cpuAttnRows (p : CpuPriv) (mem : KvMem β) (a : KvArgs) (layer window pos head : ℕ) :
    List (List (Option β)) :=
  let w := attnWindow window pos
  let r := cpuKvWindowToSlots (p.kvBasePos layer) w.1 w.2
  (List.range r.2).map fun t => (List.range (p.rowBytes a)).map fun b =>
    mem (Strided.cell (p.layerBase a layer) (p.layerRows a layer) (p.rowBytes a) head (r.1 + t) b)

/-- `model_kv_layer_pos_cap` -/
def modelKvLayerPosCap (window nCtx : ℕ) (sliding : Bool) : ℕ :=
  if window = 0 ∨ !sliding then nCtx
  else if nCtx ≤ window + slack window then nCtx
  else window + slack window

/-- A model with sliding-window layers, as `kvcache_alloc` describes it to the backend. -/
structure SwaModel where
  nLayers : ℕ
  nCtx : ℕ
  window : ℕ
  sliding : ℕ → Bool
  kvQuant : KvQuant
  headDim : ℕ → ℕ
  nKvHeads : ℕ → ℕ

namespace SwaModel

variable (S : SwaModel)

def posCap (l : ℕ) : ℕ := modelKvLayerPosCap S.window S.nCtx (S.sliding l)

def desc : KvDesc where
  nKvLayers := S.nLayers
  nKvHeads := S.nKvHeads 0
  headDim := S.headDim 0
  nCtx := S.nCtx
  kvQuant := S.kvQuant
  layerDims := some fun l => (S.headDim l, S.nKvHeads l)
  layerPosCap := some S.posCap

def args (l : ℕ) : KvArgs := ⟨S.nKvHeads l, S.headDim l, S.nCtx, S.nKvHeads l⟩

/-- The window `attention_dynamic` attends with. -/
def layerWindow (l : ℕ) : ℕ := if S.sliding l then S.window else 0

end SwaModel

/-- A cache with its position, and the rows put last, by layer and position. -/
structure SwaCache (β : Type*) where
  priv : CpuPriv
  mem : KvMem β
  nPos : ℕ
  lastPut : ℕ → ℕ → Option (ℕ → ℕ → β)

namespace SwaCache

variable (S : SwaModel)

def init : SwaCache β := ⟨cpuKvAlloc S.desc, fun _ => none, 0, fun _ _ => none⟩

/-- The put of one layer in a pass over `m` rows; `rows l` are its new rows. -/
def putLayer (m : ℕ) (rows : ℕ → ℕ → ℕ → ℕ → β) (l : ℕ) (c : SwaCache β) :
    Option (SwaCache β) :=
  (cpuKvPutBatch c.priv c.mem (S.args l) l c.nPos m fun i head b => some (rows l i head b)).map
    fun r => { c with
      priv := r.1
      mem := r.2
      lastPut := Function.update c.lastPut l fun q =>
        if c.nPos ≤ q ∧ q < c.nPos + m then some (rows l (q - c.nPos)) else c.lastPut l q }

/-- The puts of the first `k` layers. -/
def putLayers (m : ℕ) (rows : ℕ → ℕ → ℕ → ℕ → β) (c : SwaCache β) : ℕ → Option (SwaCache β)
  | 0 => some c
  | k + 1 => (putLayers m rows c k).bind (putLayer S m rows k)

/-- What `kvcache_put_batch` and the guard of `compute_forward_batch` let through. -/
def accepts (c : SwaCache β) (m : ℕ) : Bool :=
  0 < m && c.nPos + m ≤ S.nCtx && !batchOutrunsWindow S.window c.nPos m

end SwaCache

/-- `batch` is a pass over `m` tokens; one that fails after the puts of `failed` layers is not
counted. -/
inductive SwaOp (β : Type*)
  | batch (m : ℕ) (rows : ℕ → ℕ → ℕ → ℕ → β) (failed : Option ℕ)
  | rewind (pos : ℕ)
  | reset

namespace SwaCache

variable (S : SwaModel)

def apply (c : SwaCache β) : SwaOp β → Option (SwaCache β)
  | .batch m rows failed =>
    if c.accepts S m then
      match failed with
      | none => (c.putLayers S m rows S.nLayers).map fun c => { c with nPos := c.nPos + m }
      | some k => c.putLayers S m rows (min k S.nLayers)
    else some c
  | .rewind pos => some { c with nPos := min pos c.nPos }
  | .reset => some { c with nPos := 0 }

end SwaCache

end Kappai
