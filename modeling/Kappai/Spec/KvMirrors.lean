import Mathlib.Logic.Function.Basic
import Kappai.Spec.Feed

/-! The KV cache over several devices: which device holds which layer and in which slot, and the puts
and shifts that reach every device with a copy. A row is what a put is given for one position, K and V
together. `none` as a result is any status but `OK`. -/

namespace Kappai

/-- What the cache asks about a backend; each of them has `buffer_read_f32`. -/
structure KvBackend where
  kvPutBatch : Bool
  kvExport : Bool
  kvImport : Bool

/-- The part of a model that lays out the cache. Backends are numbers; `kvOwner` is the backend that
allocates the primary cache, `rowsShift` says of a layer that its rope table serves `kvcache_shift`. -/
structure KvModel where
  nLayers : ℕ
  backend : ℕ
  kvOwner : ℕ
  layerBackends : List (Option ℕ)
  backends : ℕ → KvBackend
  mixedBackendMode : Bool
  hybridRecurrent : Bool
  hasVariableLayerDims : Bool
  nLayerKvFromStart : ℤ
  isGlobalLayer : ℕ → Bool
  kvLayerGlobal : ℤ
  kvLayerSwa : ℤ
  rowsShift : ℕ → Bool

namespace KvModel

variable (m : KvModel)

/-- `model_layer_backend` -/
def layerBackend (li : ℕ) : ℕ := (m.layerBackends.getD li none).getD m.backend

/-- `model_layer_has_kv` -/
def layerHasKv (li : ℕ) : Bool :=
  if !m.hasVariableLayerDims then true
  else if m.nLayerKvFromStart ≤ 0 then true
  else decide ((li : ℤ) < m.nLayerKvFromStart)

/-- `model_layer_kv_layer` -/
def layerKvLayer (li : ℕ) : ℤ :=
  if m.layerHasKv li then li
  else if m.isGlobalLayer li then m.kvLayerGlobal
  else m.kvLayerSwa

/-- `n_kv_layers` -/
def nKvLayers : ℕ := if 0 < m.nLayerKvFromStart then m.nLayerKvFromStart.toNat else m.nLayers

/-- What loading checks of the layers that share K and V, and sets for these models only. -/
structure Shares : Prop where
  uniform : m.hasVariableLayerDims = false → m.nLayerKvFromStart = 0
  target : ∀ li < m.nLayers, m.layerHasKv li = false →
    0 ≤ m.layerKvLayer li ∧ m.layerKvLayer li < m.nLayerKvFromStart ∧ m.layerKvLayer li < m.nLayers

end KvModel

structure KvMirror where
  be : ℕ
  remap : ℕ → Option ℕ
  nSlots : ℕ

/-- The tables of a cache. The arrays have an entry for each layer of the model. -/
structure KvLayout where
  nKvLayers : ℕ
  mirrors : List KvMirror
  /-- `primary_remap` and `n_primary_slots` -/
  primary : Option ((ℕ → Option ℕ) × ℕ)
  slotDevices : Option (ℕ → ℕ)

/-- `kvcache_device_of`, given the backends of the mirrors -/
def kvcacheDeviceOf (m : KvModel) (mirrors : List ℕ) (b : ℕ) : Option ℕ :=
  if b = m.backend then some 0 else (mirrors.idxOf? b).map (· + 1)

/-- `kvcache_register_device`; 7 is `KV_MAX_MIRRORS`. -/
def kvcacheRegisterDevice (m : KvModel) (mirrors : List ℕ) (b : ℕ) : Option (List ℕ × ℕ) :=
  match kvcacheDeviceOf m mirrors b with
  | some dev => some (mirrors, dev)
  | none => if 7 ≤ mirrors.length then none else some (mirrors ++ [b], mirrors.length + 1)

/-- `slot_devices[slot] |= 1u << dev` -/
def addSlotDevice (devices : ℕ → ℕ) (slot dev : ℕ) : ℕ → ℕ :=
  Function.update devices slot (devices slot ||| 1 <<< dev)

/-- One layer of `kvcache_map_slots`; the recipe is built before. -/
def mapSlot (m : KvModel) (s : List ℕ × (ℕ → ℕ)) (i : ℕ) : Option (List ℕ × (ℕ → ℕ)) :=
  (kvcacheRegisterDevice m s.1 (m.layerBackend i)).map fun r =>
    let slot := m.layerKvLayer i
    let devices := if 0 ≤ slot ∧ slot < m.nLayers then addSlotDevice s.2 slot.toNat r.2 else s.2
    (r.1, if i < m.nKvLayers then addSlotDevice devices i r.2 else devices)

/-- `kvcache_map_slots`: the backends of the mirrors and `slot_devices`. -/
def kvcacheMapSlots (m : KvModel) : Option (List ℕ × (ℕ → ℕ)) :=
  (List.range m.nLayers).foldlM (mapSlot m) ([], fun _ => 0)

/-- `kvcache_slot_remap`: the table and the number of slots. -/
def kvcacheSlotRemap (nLayers : ℕ) (devices : ℕ → ℕ) (dev : ℕ) : (ℕ → Option ℕ) × ℕ :=
  (List.range nLayers).foldl (fun s i =>
    if (devices i).testBit dev then (Function.update s.1 i (some s.2), s.2 + 1) else s)
    (fun _ => none, 0)

/-- The tables after `kvcache_init` and `kvcache_alloc_mirrors`. The latter is called for mixed
backends, and the former maps the slots of these unless there is recurrent state. -/
def kvcacheSetup (m : KvModel) : Option KvLayout :=
  if m.mixedBackendMode then
    (kvcacheMapSlots m).bind fun (mirrors, devices) =>
      let held := (List.range m.nLayers).any fun i => (devices i).testBit 0
      let tables := mirrors.zipIdx.map fun (be, i) =>
        let r := kvcacheSlotRemap m.nLayers devices (i + 1)
        (⟨be, r.1, r.2⟩ : KvMirror)
      if tables.any fun t => t.nSlots == 0 then none
      else
        some
          { nKvLayers := m.nKvLayers
            mirrors := tables
            primary :=
              if !m.hybridRecurrent && held then some (kvcacheSlotRemap m.nLayers devices 0)
              else none
            slotDevices := some devices }
  else some ⟨m.nKvLayers, [], none, none⟩

namespace KvLayout

variable (c : KvLayout) (m : KvModel)

/-- `kvcache_layer_device`; a backend the cache does not know is device -1, which every use of it
takes for the primary one. -/
def layerDevice (layer : ℕ) : ℕ :=
  (kvcacheDeviceOf m (c.mirrors.map KvMirror.be) (m.layerBackend layer)).getD 0

/-- `kvcache_device_view`: the slot, and whether it is mapped. -/
def deviceView (dev layer : ℕ) : ℕ × Bool :=
  match dev with
  | 0 =>
    match c.primary with
    | some (remap, _) =>
      if layer < m.nLayers then ((remap layer).getD layer, (remap layer).isSome) else (layer, true)
    | none => (layer, true)
  | i + 1 =>
    let mapped := if layer < m.nLayers then (c.mirrors[i]?.bind fun mir => mir.remap layer) else none
    (mapped.getD layer, mapped.isSome)

/-- `kvcache_attn_view`: the device and the slot. -/
def attnView (execLayer kvLayer : ℕ) : ℕ × ℕ :=
  let dev := c.layerDevice m execLayer
  (dev, (c.deviceView m dev kvLayer).1)

/-- `kvcache_device_slots` -/
def deviceSlots (dev : ℕ) : ℕ :=
  match dev with
  | 0 => (c.primary.map (·.2)).getD c.nKvLayers
  | i + 1 => (c.mirrors[i]?.map KvMirror.nSlots).getD 0

/-- `kvcache_slot_mask` -/
def slotMask (slot : ℕ) : ℕ :=
  match c.slotDevices with
  | some devices => if slot < m.nLayers then devices slot else 1
  | none => 1

/-- `kvcache_put_mask` -/
def putMask (layer : ℕ) : ℕ := c.slotMask m layer ||| 1 <<< c.layerDevice m layer

/-- The backend that owns the buffers of a device. -/
def ownerOf (dev : ℕ) : ℕ :=
  match dev with
  | 0 => m.kvOwner
  | i + 1 => (c.mirrors[i]?.map KvMirror.be).getD m.backend

end KvLayout

variable {α : Type*}

/-- The rows that the devices store, by device, slot and position. -/
abbrev KvRows (α : Type*) := ℕ → ℕ → ℕ → Option α

inductive KvStatus
  | ok
  | unsupported
  | failed
deriving DecidableEq

/-- How the backends answer in one call: `put` at a device and a position, `stage` the copy of an
input row to the host, `exported` and `imported` the transfer from device to device. -/
structure KvAnswers where
  put : ℕ → ℕ → Bool
  putBatch : ℕ → Bool
  stage : ℕ → ℕ → Bool
  exported : KvStatus
  imported : ℕ → KvStatus

/-- The input of a put: its rows, and the owners of the K and the V buffer. -/
structure KvInput (α : Type*) where
  rows : ℕ → α
  kOwner : Option ℕ
  vOwner : Option ℕ

/-- What a put has stored and what is in its buffers: `kv_transfer_buf` if it is ready, and the rows in
`kv_native_buf`. -/
structure KvPut (α : Type*) where
  rows : KvRows α
  staged : Option α
  native : Option (ℕ → Option α)
  nativeOff : Bool

def storeRow (rows : KvRows α) (dev slot pos : ℕ) (row : Option α) : KvRows α :=
  Function.update rows dev (Function.update (rows dev) slot
    (Function.update (rows dev slot) pos row))

/-- A range of rows of one slot. -/
def storeRows (rows : KvRows α) (dev slot posStart n : ℕ) (new : ℕ → Option α) : KvRows α :=
  (List.range n).foldl (fun rows i => storeRow rows dev slot (posStart + i) (new i)) rows

section

variable (c : KvLayout) (m : KvModel) (ans : KvAnswers) (inp : KvInput α)

/-- The input of a put is on the device. -/
def KvInput.onDevice (dev : ℕ) : Bool :=
  inp.kOwner.getD (c.ownerOf m dev) == c.ownerOf m dev &&
    inp.vOwner.getD (c.ownerOf m dev) == c.ownerOf m dev

/-- `kvcache_put_device` of row `i` of the input -/
def kvcachePutDevice (dev layer pos i : ℕ) (s : KvPut α) : Option (KvPut α) :=
  let slot := (c.deviceView m dev layer).1
  if inp.onDevice c m dev then
    if ans.put dev pos then some { s with rows := storeRow s.rows dev slot pos (some (inp.rows i)) }
    else none
  else
    let staged : Option α :=
      match s.staged with
      | some row => some row
      | none => if ans.stage dev pos then some (inp.rows i) else none
    match staged with
    | some row =>
      if ans.put dev pos then
        some { s with rows := storeRow s.rows dev slot pos (some row), staged := some row }
      else none
    | none => none

/-- One row of the loop of `kvcache_put_device_range` -/
def putRangeRow (dev layer posStart nRows : ℕ) (s : KvPut α) (i : ℕ) : Option (KvPut α) :=
  (kvcachePutDevice c m ans inp dev layer (posStart + i) i s).map fun s =>
    if 1 < nRows then { s with staged := none } else s

/-- `kvcache_put_device_range` -/
def kvcachePutDeviceRange (dev layer posStart nRows : ℕ) (s : KvPut α) : Option (KvPut α) :=
  let slot := (c.deviceView m dev layer).1
  if 1 < nRows ∧ (m.backends (c.ownerOf m dev)).kvPutBatch ∧ inp.onDevice c m dev then
    if ans.putBatch dev then
      some { s with rows := storeRows s.rows dev slot posStart nRows fun i => some (inp.rows i) }
    else none
  else (List.range nRows).foldlM (putRangeRow c m ans inp dev layer posStart nRows) s

/-- `kvcache_native_pair` -/
def kvcacheNativePair (src dst : ℕ) : Bool :=
  src != dst && (m.backends src).kvExport && (m.backends dst).kvImport

/-- The export of `kvcache_put_range` unless it was done before: the rows that are put last are read
back from the owner. -/
def kvcacheNativeExport (owner layer posStart : ℕ) (s : KvPut α) : Option (KvPut α) :=
  match s.native with
  | some _ => some s
  | none =>
    match ans.exported with
    | .ok =>
      some { s with
        native := some fun i => s.rows owner (c.deviceView m owner layer).1 (posStart + i) }
    | .unsupported => some { s with nativeOff := true }
    | .failed => none

/-- One device of `kvcache_put_range` behind the owner. -/
def putRangeDevice (owner layer posStart nRows : ℕ) (s : KvPut α) (dev : ℕ) : Option (KvPut α) :=
  if dev = owner ∨ (c.putMask m layer).testBit dev = false then some s
  else if !s.nativeOff && kvcacheNativePair m (c.ownerOf m owner) (c.ownerOf m dev) then
    (kvcacheNativeExport c m ans owner layer posStart s).bind fun s =>
      match s.native with
      | some new =>
        match ans.imported dev with
        | .ok =>
          some { s with
            rows := storeRows s.rows dev (c.deviceView m dev layer).1 posStart nRows new }
        | .unsupported =>
          kvcachePutDeviceRange c m ans inp dev layer posStart nRows { s with nativeOff := true }
        | .failed => none
      | none => kvcachePutDeviceRange c m ans inp dev layer posStart nRows s
  else kvcachePutDeviceRange c m ans inp dev layer posStart nRows s

/-- `kvcache_put_range` -/
def kvcachePutRange (layer posStart nRows : ℕ) (rows : KvRows α) : Option (KvRows α) :=
  let owner := c.layerDevice m layer
  ((kvcachePutDeviceRange c m ans inp owner layer posStart nRows ⟨rows, none, none, false⟩).bind
    fun s => (List.range (c.mirrors.length + 1)).foldlM
      (putRangeDevice c m ans inp owner layer posStart nRows) s).map KvPut.rows

end

/-- One call: `put` is `kvcache_put`, `putBatch` is `kvcache_put_batch`, and `answers` of a shift says
of a layer and a device how `kv_shift` goes. -/
inductive KvOp (α : Type*)
  | put (layer : ℕ) (pos : ℤ) (inp : KvInput α) (ans : KvAnswers)
  | putBatch (layer : ℕ) (posStart : ℤ) (nRows : ℕ) (inp : KvInput α) (ans : KvAnswers)
  | shift (chunks : List KvShiftChunk) (answers : ℕ → ℕ → Bool)

section

variable (rotate : ℕ → List KvShiftChunk → (ℕ → Option α) → ℕ → Option α)
variable (c : KvLayout) (m : KvModel)

/-- `kv_shift` of one layer on one device; `rotate` is what it does to the rows of a slot. -/
def shiftDevice (chunks : List KvShiftChunk) (answers : ℕ → ℕ → Bool) (li : ℕ) (rows : KvRows α)
    (dev : ℕ) : Option (KvRows α) :=
  if (c.slotMask m li).testBit dev then
    let slot := (c.deviceView m dev li).1
    if answers li dev then
      some (Function.update rows dev
        (Function.update (rows dev) slot (rotate li chunks (rows dev slot))))
    else none
  else some rows

/-- One layer of `kvcache_shift` -/
def shiftLayer (chunks : List KvShiftChunk) (answers : ℕ → ℕ → Bool) (rows : KvRows α) (li : ℕ) :
    Option (KvRows α) :=
  if m.isGlobalLayer li && !m.rowsShift li then none
  else
    (List.range (c.mirrors.length + 1)).foldlM (shiftDevice rotate c m chunks answers li) rows

/-- `kvcache_put`, `kvcache_put_batch` and `kvcache_shift` -/
def kvApply (nCtx : ℕ) (rows : KvRows α) : KvOp α → Option (KvRows α)
  | .put layer pos inp ans =>
    if pos < 0 ∨ nCtx ≤ pos ∨ m.nLayers ≤ layer then none
    else kvcachePutRange c m ans inp layer pos.toNat 1 rows
  | .putBatch layer posStart nRows inp ans =>
    if nRows = 0 ∨ m.nLayers ≤ layer ∨ posStart < 0 ∨ nCtx < posStart + nRows then none
    else kvcachePutRange c m ans inp layer posStart.toNat nRows rows
  | .shift chunks answers =>
    (List.range c.nKvLayers).foldlM (shiftLayer rotate c m chunks answers) rows

end

end Kappai
