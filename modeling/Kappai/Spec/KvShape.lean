import Kappai.Spec.CpuKv
import Kappai.Lib.FreeRanges

/-! The shape of a loaded model, as far as its KV cache depends on it, and what `kvcache_init` and
`kvcache_alloc_slots` tell a backend about it. -/

namespace Kappai

/-- The fields of `layer_weights` that a KV cache is sized by. -/
structure KvLayer where
  headDim : ℕ
  nKvHeads : ℕ
  isSliding : Bool
  isRecurrent : Bool

/-- A model as the loader leaves it; what is not positive in the file is 0 here. Head counts of
single layers and shared layers are read for some architectures only, and a hybrid model has no
layer with more heads than `n_kv_heads`. -/
structure KvShape where
  hasVariableLayerDims : Bool
  isHybridRecurrent : Bool
  nLayers : ℕ
  nKvHeads : ℕ
  headDim : ℕ
  layers : ℕ → KvLayer
  nKvHeadsPerLayer : Option (ℕ → ℕ)
  nLayerKvFromStart : ℕ
  slidingWindow : ℕ
  layers_headDim : hasVariableLayerDims = false → ∀ l < nLayers, (layers l).headDim = headDim
  layers_nKvHeads : ∀ l < nLayers, (layers l).nKvHeads =
    if 0 < (nKvHeadsPerLayer.getD fun _ => 0) l then (nKvHeadsPerLayer.getD fun _ => 0) l
    else nKvHeads
  perLayer_varies : nKvHeadsPerLayer ≠ none → hasVariableLayerDims = true ∨ isHybridRecurrent = true
  perLayer_le : hasVariableLayerDims = false → ∀ l < nLayers,
    (nKvHeadsPerLayer.getD fun _ => 0) l ≤ nKvHeads
  shared_varies : 0 < nLayerKvFromStart → hasVariableLayerDims = true

/-- What a description depends on of the capabilities of a backend. -/
structure KvCaps where
  isHost : Bool
  kvPosCap : Bool

def cpuCaps : KvCaps := ⟨true, true⟩

def vulkanCaps : KvCaps := ⟨false, false⟩

namespace KvShape

variable (m : KvShape) (caps : KvCaps) (nCtx : ℕ) (quant : KvQuant)

def modelLayerHeadDim (l : ℕ) : ℕ :=
  if l < m.nLayers ∧ 0 < (m.layers l).headDim then (m.layers l).headDim else m.headDim

def modelLayerKvHeads (l : ℕ) : ℕ :=
  if l < m.nLayers ∧ 0 < (m.layers l).nKvHeads then (m.layers l).nKvHeads else m.nKvHeads

/-- `model_kv_layer_pos_cap` for a layer of the model. -/
def kvLayerPosCap (l : ℕ) : ℕ :=
  if l < m.nLayers then modelKvLayerPosCap m.slidingWindow nCtx (m.layers l).isSliding else nCtx

/-- The head count of a slot: a layer without K/V heads of its own has none. -/
def slotKvHeads (l : ℕ) : ℕ :=
  match m.nKvHeadsPerLayer with
  | some f =>
    if !m.hasVariableLayerDims && l < m.nLayers then f l else m.modelLayerKvHeads l
  | none => m.modelLayerKvHeads l

def headDimMax : ℕ :=
  if m.hasVariableLayerDims then
    (List.range m.nLayers).foldl (fun r i => max r (m.modelLayerHeadDim i)) m.headDim
  else m.headDim

def nKvHeadsMax : ℕ :=
  if m.hasVariableLayerDims then
    (List.range m.nLayers).foldl (fun r i => max r (m.modelLayerKvHeads i)) m.nKvHeads
  else m.nKvHeads

def nKvLayers : ℕ := if 0 < m.nLayerKvFromStart then m.nLayerKvFromStart else m.nLayers

def perLayerDims : Bool := (m.hasVariableLayerDims || m.isHybridRecurrent) && caps.isHost

/-- The description of `kvcache_init`. Its arrays of sizes have an entry for every layer of the model;
behind them is `stray`. -/
def kvcacheInit (stray : ℕ → ℕ × ℕ) : KvDesc where
  nKvLayers := m.nKvLayers
  nKvHeads := m.nKvHeadsMax
  headDim := m.headDimMax
  nCtx := nCtx
  kvQuant := quant
  layerDims :=
    if m.perLayerDims caps then
      some fun i => if i < m.nLayers then (m.modelLayerHeadDim i, m.slotKvHeads i) else stray i
    else none
  layerPosCap :=
    if caps.kvPosCap ∧ 0 < m.nKvLayers ∧ 0 < m.slidingWindow then some (m.kvLayerPosCap nCtx)
    else none

/-- `slot_list`: the layers that a device holds. -/
def slotList (holds : ℕ → Bool) : List ℕ := (List.range m.nLayers).filter holds

def kvcacheAllocSlots (holds : ℕ → Bool) : KvDesc where
  nKvLayers := (m.slotList holds).length
  nKvHeads := m.nKvHeadsMax
  headDim := m.headDimMax
  nCtx := nCtx
  kvQuant := quant
  layerDims :=
    if m.perLayerDims caps then
      some fun s => (m.modelLayerHeadDim ((m.slotList holds).getD s 0),
        m.slotKvHeads ((m.slotList holds).getD s 0))
    else none
  layerPosCap :=
    if caps.kvPosCap ∧ 0 < m.slidingWindow then
      some fun s => m.kvLayerPosCap nCtx ((m.slotList holds).getD s 0)
    else none

end KvShape

/-- Who holds the slots of a cache: one backend all of them, or a device those of its layers. -/
inductive KvHolder
  | all
  | device (holds : ℕ → Bool)

namespace KvHolder

variable (m : KvShape)

def slots : KvHolder → ℕ
  | .all => m.nKvLayers
  | .device holds => (m.slotList holds).length

/-- The layer a slot is for. -/
def layer : KvHolder → ℕ → ℕ
  | .all, s => s
  | .device holds, s => (m.slotList holds).getD s 0

def desc (caps : KvCaps) (nCtx : ℕ) (quant : KvQuant) (stray : ℕ → ℕ × ℕ) : KvHolder → KvDesc
  | .all => m.kvcacheInit caps nCtx quant stray
  | .device holds => m.kvcacheAllocSlots caps nCtx quant holds

end KvHolder

/-! Where the operations of the CPU backend find the rows of a layer. Each takes its strides from the
sizes it is called with, in bytes or in the elements of its pointers. -/

/-- The computations that place a layer: `cpu_kv_put_prepare`, `cpu_attention_impl`,
`cpu_kv_layer_view_get`, `cpu_kv_shift` and `cpu_kv_range_copy`. -/
inductive KvAccess
  | put
  | attention
  | attentionBatch
  | shift
  | rangeCopy

namespace CpuPriv

variable (p : CpuPriv) (a : KvArgs) (layer : ℕ)

/-- `cpu_kv_layer_base`, in elements of `elemBytes` bytes. -/
def kvLayerBase (layer layerStride elemBytes : ℕ) : ℕ :=
  match p.kvLayerOff with
  | some off => off layer / elemBytes
  | none => layer * layerStride

/-- The first byte of the layer, and the bytes from a head to the next and from a row to the next. -/
structure View where
  base : ℕ
  headStride : ℕ
  rowStride : ℕ

/-- A view through a pointer to elements of two bytes. -/
def View.halves (v : View) : View := ⟨v.base * 2, v.headStride * 2, v.rowStride * 2⟩

/-- A layer of Q8_0 rows. -/
def viewBlocks : View :=
  let stride := (a.headDim + 31) / 32 * 34
  let headStride := p.layerRows a layer * stride
  ⟨p.kvLayerBase layer (a.nKvHeads * headStride) 1, headStride, stride⟩

/-- A layer of f16 rows. -/
def viewHalves : View :=
  let headStride := p.layerRows a layer * a.headDim
  View.halves ⟨p.kvLayerBase layer (a.nKvHeads * headStride) 2, headStride, a.headDim⟩

/-- A layer of rows of either kind, in bytes. -/
def viewBytes : View :=
  let headStride := p.layerRows a layer * p.rowBytes a
  ⟨p.kvLayerBase layer (a.nKvHeads * headStride) 1, headStride, p.rowBytes a⟩

/-- `cpu_kv_put_prepare`: the stride of a layer is rows times blocks, or rows times elements. -/
def viewPut : View :=
  match p.kvQuant with
  | .q8_0 =>
    let blkStride := (a.headDim + 31) / 32 * 34
    ⟨p.kvLayerBase layer (a.nKvHeads * p.layerRows a layer * blkStride) 1,
      p.layerRows a layer * blkStride, blkStride⟩
  | .f16 =>
    View.halves ⟨p.kvLayerBase layer (a.nKvHeads * p.layerRows a layer * a.headDim) 2,
      p.layerRows a layer * a.headDim, a.headDim⟩

def view : KvAccess → View
  | .put => p.viewPut a layer
  | .attention | .attentionBatch =>
    match p.kvQuant with
    | .q8_0 => p.viewBlocks a layer
    | .f16 => p.viewHalves a layer
  | .shift | .rangeCopy => p.viewBytes a layer

end CpuPriv

namespace KvHolder

variable (h : KvHolder) (m : KvShape) (nCtx : ℕ) (quant : KvQuant)

/-- The position capacity of a slot. -/
def rows (s : ℕ) : ℕ := m.kvLayerPosCap nCtx (h.layer m s)

/-- The bytes that the rows of a slot need. -/
def slotBytes (s : ℕ) : ℕ :=
  m.slotKvHeads (h.layer m s) *
    (h.rows m nCtx s * kvRowBytes quant (m.modelLayerHeadDim (h.layer m s)))

/-- A call about a slot passes the head count and the head size of its layer. The head count a stride
is taken from may also be the largest of the model's. -/
structure Calls (s : ℕ) (a : KvArgs) : Prop where
  headDim : a.headDim = m.modelLayerHeadDim (h.layer m s)
  nCtx : a.nCtx = nCtx
  active : a.nActive = m.slotKvHeads (h.layer m s)
  heads : a.nKvHeads = m.slotKvHeads (h.layer m s) ∨ a.nKvHeads = m.nKvHeadsMax

/-- Every operation finds a slot in the same place, with a row for each head and position, and the
slots lie in the buffer and apart from each other, whatever is behind the arrays of sizes. -/
def OwnRegions : Prop :=
  ∀ stray : ℕ → ℕ × ℕ, ∃ start : ℕ → ℕ,
    (∀ s < h.slots m, ∀ a, h.Calls m nCtx s a → ∀ op,
      (cpuKvAlloc (h.desc m cpuCaps nCtx quant stray)).view a s op =
        ⟨start s, h.rows m nCtx s * kvRowBytes quant a.headDim, kvRowBytes quant a.headDim⟩) ∧
      Regions (h.slots m) start (h.slotBytes m nCtx quant)
        (cpuKvAlloc (h.desc m cpuCaps nCtx quant stray)).kvKBytes

end KvHolder

end Kappai
