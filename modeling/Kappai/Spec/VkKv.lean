import Kappai.Lib.RowMoves
import Kappai.Spec.CpuKv
import Mathlib.Algebra.Ring.Nat

/-! The KV cache of the Vulkan backend: how `vk_kv_alloc` lays it out, and where the operations find the
row of a head at a position. The shaders compute with 32-bit numbers, f16 rows in words of two
elements. -/

namespace Kappai

/-- The limits of a device. Vulkan gives the range as a 32-bit number. -/
structure VkCaps where
  maxStorageBufferRange : ℕ
  unifiedMemory : Bool
  range_pos : 0 < maxStorageBufferRange
  range_lt : maxStorageBufferRange < 2 ^ 32

/-- Whether the driver has memory for one buffer of everything, and for one buffer a layer. -/
structure VkGrants where
  single : Bool
  chunks : Bool

/-- `vk_kv_store` -/
structure VkStore where
  chunked : Bool
  nKvLayers : ℕ
  total : ℕ
  perLayerSize : ℕ
  layerBytes : Option (ℕ → ℕ)
  layerOffElems : ℕ → ℕ
  layerOffBytes : ℕ → ℕ

/-- The size that decides whether a layer fits a buffer of its own. -/
def perLayerForChecks (perLayerSize nKvLayers : ℕ) (layerBytes : Option (ℕ → ℕ)) : ℕ :=
  match layerBytes with
  | some bytes => (List.range nKvLayers).foldl (fun r i => max r (bytes i)) 0
  | none => perLayerSize

def vkNeedsChunking (caps : VkCaps) (total nKvLayers : ℕ) : Bool :=
  caps.maxStorageBufferRange < total ||
    (caps.unifiedMemory && 1 < nKvLayers && 128 * 1024 * 1024 < total)

/-- `vk_kv_store_alloc`; `none` is a failure. -/
def vkKvStoreAlloc (caps : VkCaps) (grants : VkGrants) (total perLayerSize nKvLayers : ℕ)
    (layerBytes : Option (ℕ → ℕ)) (layerOffElems layerOffBytes : ℕ → ℕ) : Option VkStore :=
  let store (chunked : Bool) : VkStore :=
    ⟨chunked, nKvLayers, total, perLayerForChecks perLayerSize nKvLayers layerBytes, layerBytes,
      layerOffElems, layerOffBytes⟩
  if !vkNeedsChunking caps total nKvLayers && grants.single then some (store false)
  else if !vkNeedsChunking caps total nKvLayers && nKvLayers ≤ 1 then none
  else if caps.maxStorageBufferRange < perLayerForChecks perLayerSize nKvLayers layerBytes then none
  else if grants.chunks then some (store true)
  else none

namespace VkStore

variable (s : VkStore)

/-- The buffer of a layer, and its size; `vk_alloc_buffer` makes none of no bytes. -/
def layerBuf (layer : ℕ) : ℕ := if s.chunked then min layer (s.nKvLayers - 1) else 0

def bufSize (i : ℕ) : ℕ :=
  if s.chunked then
    max 1 (match s.layerBytes with
      | some bytes => bytes i
      | none => s.perLayerSize)
  else max 1 s.total

/-- `vk_kv_layer_off_elems`, `vk_kv_layer_off_bytes` -/
def offElems (layer : ℕ) : ℕ := if s.chunked then 0 else s.layerOffElems (min layer s.nKvLayers)

def offBytes (layer : ℕ) : ℕ := if s.chunked then 0 else s.layerOffBytes (min layer s.nKvLayers)

end VkStore

/-- The two stores of a cache, with what `vk_kv_handle` keeps of it. -/
structure VkKv where
  k : VkStore
  v : VkStore
  kvQuant : KvQuant
  kvRowBytes : ℕ

/-- The layers of a store: one at least. -/
def vkLayers (d : KvDesc) : ℕ := if 0 < d.nKvLayers then d.nKvLayers else 1

/-- The largest row of the layers. -/
def vkMaxRowBytes (d : KvDesc) : ℕ :=
  match d.layerDims with
  | some dims =>
    (List.range (vkLayers d)).foldl (fun r i => max r (kvRowBytes d.kvQuant (dims i).1)) 0
  | none => kvRowBytes d.kvQuant d.headDim

def vkKvAlloc (caps : VkCaps) (gk gv : VkGrants) (d : KvDesc) : Option VkKv :=
  let n := vkLayers d
  let row := if 0 < vkMaxRowBytes d then vkMaxRowBytes d else d.headDim * 2
  match d.layerDims with
  | some dims =>
    let elems (i : ℕ) : ℕ := (dims i).2 * d.nCtx * (dims i).1
    let bytes (i : ℕ) : ℕ := (dims i).2 * d.nCtx * kvRowBytes d.kvQuant (dims i).1
    let perLayerUniform :=
      match d.kvQuant with
      | .q8_0 => 0
      | .f16 => (List.range n).foldl (fun r i => max r (elems i)) 0 * 2
    let total :=
      match d.kvQuant with
      | .q8_0 => layerOff bytes n
      | .f16 => layerOff elems n * 2
    (vkKvStoreAlloc caps gk total perLayerUniform n (some bytes) (layerOff elems)
      (layerOff bytes)).bind fun k =>
        (vkKvStoreAlloc caps gv total 0 n (some bytes) (layerOff elems) (layerOff bytes)).map
          fun v => ⟨k, v, d.kvQuant, row⟩
  | none =>
    let perLayerUniform := d.nCtx * d.nKvHeads * kvRowBytes d.kvQuant d.headDim
    let total := perLayerUniform * n
    let offElems (i : ℕ) : ℕ := i * d.nCtx * d.nKvHeads * d.headDim
    let offBytes (i : ℕ) : ℕ := i * perLayerUniform
    (vkKvStoreAlloc caps gk total perLayerUniform n none offElems offBytes).bind fun k =>
      (vkKvStoreAlloc caps gv total 0 n none offElems offBytes).map
        fun v => ⟨k, v, d.kvQuant, row⟩

/-- The operations on rows; the attention shaders all find a row alike. -/
inductive VkAccess
  | put
  | attention
  | shift
  | copyOut
  | copyIn

/-- A row in the K or the V buffer of its layer. -/
structure VkRow where
  start : ℕ
  len : ℕ
deriving DecidableEq

namespace VkKv

variable (kv : VkKv) (a : KvArgs) (layer head pos : ℕ)

/-- `layer_off` as the shaders get it: bytes of Q8_0 rows, elements of f16 rows, in 32 bits. -/
def pushedOff : ℕ :=
  match kv.kvQuant with
  | .q8_0 => kv.k.offBytes layer % 2 ^ 32
  | .f16 => kv.k.offElems layer % 2 ^ 32

/-- The number a shader computes for a row, given the size of a row. -/
def shaderBase (stride : ℕ) : ℕ :=
  (kv.pushedOff layer + head * (a.nCtx * stride) + pos * stride) % 2 ^ 32

/-- The row a shader reads or writes in words: of an f16 row pairs of elements. -/
def rowWords : VkRow :=
  match kv.kvQuant with
  | .q8_0 =>
    ⟨kv.shaderBase a layer head pos (Kappai.kvRowBytes .q8_0 a.headDim),
      Kappai.kvRowBytes .q8_0 a.headDim⟩
  | .f16 => ⟨kv.shaderBase a layer head pos a.headDim / 2 * 4, a.headDim / 2 * 4⟩

/-- The row `kv_shift_gather` loads, element by element. -/
def rowElems : VkRow :=
  match kv.kvQuant with
  | .q8_0 =>
    ⟨kv.shaderBase a layer head pos (Kappai.kvRowBytes .q8_0 a.headDim),
      Kappai.kvRowBytes .q8_0 a.headDim⟩
  | .f16 => ⟨kv.shaderBase a layer head pos a.headDim * 2, 2 * (a.headDim / 2) * 2⟩

/-- The row `vk_kv_range_get` addresses, of the stored size. -/
def rowStored : VkRow :=
  let rowBytes := if 0 < kv.kvRowBytes then kv.kvRowBytes else a.headDim * 2
  ⟨kv.k.offBytes layer + pos * rowBytes + head * (a.nCtx * rowBytes), rowBytes⟩

def row : VkAccess → VkRow
  | .put | .attention => kv.rowWords a layer head pos
  | .shift => kv.rowElems a layer head pos
  | .copyOut | .copyIn => kv.rowStored a layer head pos

end VkKv

inductive KvSide
  | k
  | v

/-- The bytes of the buffers of the K and of the V store. -/
abbrev VkMem (β : Type) := KvSide → ℕ → ℕ → β

namespace VkKv

variable {β : Type} (kv : VkKv) (mem : VkMem β) (a : KvArgs) (layer posStart n : ℕ)

def store : KvSide → VkStore
  | .k => kv.k
  | .v => kv.v

/-- `vk_kv_put_impl` for `n` rows; `rows side t head` are the converted bytes of row `t`. -/
def kvPut (rows : KvSide → ℕ → ℕ → ℕ → β) : VkMem β := fun side i =>
  if i = (kv.store side).layerBuf layer then
    (List.range (n * a.nActive)).foldl (fun bytes j =>
      let r := kv.row a layer (j % a.nActive) (posStart + j / a.nActive) .put
      Strided.writeBlock bytes r.start r.len (rows side (j / a.nActive) (j % a.nActive)))
      (mem side i)
  else mem side i

/-- `vk_kv_export`: byte `x` of what is copied of a head. -/
def kvExport (side : KvSide) (head x : ℕ) : β :=
  mem side ((kv.store side).layerBuf layer)
    ((kv.row a layer head posStart .copyOut).start + x)

/-- `vk_kv_import` of `n` rows -/
def kvImport (src : KvSide → ℕ → ℕ → β) : VkMem β := fun side i =>
  if i = (kv.store side).layerBuf layer then
    (List.range a.nActive).foldl (fun bytes head =>
      let r := kv.row a layer head posStart .copyIn
      Strided.writeBlock bytes r.start (n * r.len) (src side head)) (mem side i)
  else mem side i

end VkKv

/-- A description, with the head size and head count that calls about a layer pass. A description
without sizes of layers has the largest. -/
structure VkModel where
  desc : KvDesc
  dims : ℕ → ℕ × ℕ
  dims_layer : ∀ f, desc.layerDims = some f → dims = f
  dims_le : desc.layerDims = none → ∀ l, (dims l).1 ≤ desc.headDim ∧ (dims l).2 ≤ desc.nKvHeads

namespace VkModel

variable (M : VkModel)

def args (l : ℕ) : KvArgs := ⟨(M.dims l).2, (M.dims l).1, M.desc.nCtx, (M.dims l).2⟩

/-- A row of a layer, head and position below `n_ctx`. -/
structure HasRow (l head pos : ℕ) : Prop where
  layer : l < vkLayers M.desc
  head : head < (M.dims l).2
  pos : pos < M.desc.nCtx

/-- What the cache is for: all operations take a row to be in the same place, which lies in the buffer
and apart from all others, and what is put comes out again. -/
structure Sound (kv : VkKv) : Prop where
  same : ∀ l head pos, M.HasRow l head pos → ∀ op,
    kv.row (M.args l) l head pos op = kv.row (M.args l) l head pos .put
  inside : ∀ side l head pos, M.HasRow l head pos →
    ∀ b < (kv.row (M.args l) l head pos .put).len,
      (kv.row (M.args l) l head pos .put).start + b <
        (kv.store side).bufSize ((kv.store side).layerBuf l)
  apart : ∀ side l head pos l' head' pos', M.HasRow l head pos → M.HasRow l' head' pos' →
    (kv.store side).layerBuf l = (kv.store side).layerBuf l' →
    ∀ b < (kv.row (M.args l) l head pos .put).len,
      ∀ b' < (kv.row (M.args l') l' head' pos' .put).len,
        (kv.row (M.args l) l head pos .put).start + b =
          (kv.row (M.args l') l' head' pos' .put).start + b' → l = l' ∧ head = head' ∧ pos = pos'
  put_export : ∀ (β : Type) (mem : VkMem β) side l head posStart n t rows,
    M.HasRow l head (posStart + t) → t < n → posStart + n ≤ M.desc.nCtx →
    ∀ b < (kv.row (M.args l) l head (posStart + t) .put).len,
      kv.kvExport (kv.kvPut mem (M.args l) l posStart n rows) (M.args l) l posStart side head
        (t * (kv.row (M.args l) l head posStart .copyOut).len + b) = rows side t head b
  import_export : ∀ (β : Type) (mem : VkMem β) l posStart n,
    kv.kvImport mem (M.args l) l posStart n (kv.kvExport mem (M.args l) l posStart) = mem

/-- The layer has rows of at least one byte. -/
def Busy (l : ℕ) : Prop :=
  l < vkLayers M.desc ∧
    0 < (M.dims l).2 * M.desc.nCtx * kvRowBytes M.desc.kvQuant (M.dims l).1

end VkModel

/-- The size of a row that the copies go by. -/
def vkStoredRow (d : KvDesc) : ℕ := if 0 < vkMaxRowBytes d then vkMaxRowBytes d else d.headDim * 2

/-- The bytes of a store. -/
def vkTotal (d : KvDesc) : ℕ :=
  match d.layerDims with
  | some dims => layerOff (fun i => (dims i).2 * d.nCtx * kvRowBytes d.kvQuant (dims i).1) (vkLayers d)
  | none => d.nCtx * d.nKvHeads * kvRowBytes d.kvQuant d.headDim * vkLayers d

/-- Whether a store is split by layers. -/
def vkSplits (caps : VkCaps) (grants : VkGrants) (d : KvDesc) : Bool :=
  vkNeedsChunking caps (vkTotal d) (vkLayers d) || !grants.single

end Kappai
