import Kappai.Spec.KvShape
import Kappai.Spec.VkKv
import Mathlib.Algebra.BigOperators.Group.Finset.Basic

/-! The bytes of a cache twice over: as `memory.c` counts them for the guards against running out of
memory, and as `kvcache_init` allocates them. All layers are on one backend, the CPU's or Vulkan's. -/

namespace Kappai

/-- A model's shape with the sizes of its recurrent state and of its latent rows. A KDA model is a hybrid
and an MLA model too; one with gated delta nets has a state in each of them. -/
structure CacheShape extends KvShape where
  fullSequence : Bool
  isMla : Bool
  isKda : Bool
  hybridShortconv : Bool
  convChannels : ℕ
  convDim : ℕ
  convKernel : ℕ
  nValueHeads : ℕ
  stateSize : ℕ
  valueHeadDim : ℕ
  kvLora : ℕ
  qkRope : ℕ
  kda_mla : isKda = true → isMla = true
  kda_hybrid : isKda = true → isHybridRecurrent = true
  kda_conv : isKda = true → convChannels = convDim
  gdn_conv : isHybridRecurrent = true → isKda = false → hybridShortconv = false → convChannels = 0
  gdn_state : isHybridRecurrent = true → isKda = false → hybridShortconv = false →
    0 < nValueHeads * stateSize * valueHeadDim

/-- The backend of all layers. -/
inductive CacheDevice
  | cpu | vulkan
deriving DecidableEq

def CacheDevice.caps : CacheDevice → KvCaps
  | .cpu => cpuCaps
  | .vulkan => vulkanCaps

namespace CacheShape

variable (m : CacheShape) (nCtx : ℕ) (quant : KvQuant) (compacted : Bool)

def layerIsRecurrent (l : ℕ) : Bool :=
  m.isHybridRecurrent && (l < m.nLayers && (m.layers l).isRecurrent)

def recurrentFloats : ℕ := m.nValueHeads * m.stateSize * m.valueHeadDim

/-- `model_kv_slot_bytes` -/
def modelKvSlotBytes (slot : ℕ) : ℕ :=
  let pcap := if compacted then m.kvLayerPosCap nCtx slot else nCtx
  match quant with
  | .q8_0 => m.slotKvHeads slot * ((m.modelLayerHeadDim slot + 31) / 32) * 34 * pcap * 2
  | .f16 => m.slotKvHeads slot * m.modelLayerHeadDim slot * pcap * 2 * 2

def modelKdaStateBytes : ℕ :=
  ∑ l ∈ Finset.range m.nLayers,
    (if m.layerIsRecurrent l then m.convChannels * (m.convKernel - 1) + m.recurrentFloats
      else nCtx * m.kvLora) * 4

def modelGdnStateBytes : ℕ :=
  ∑ l ∈ Finset.range m.nLayers,
    if m.layerIsRecurrent l then (m.convDim * (m.convKernel - 1) + m.recurrentFloats) * 4 else 0

/-- `model_kv_cache_bytes_quant`; both backends have gated delta nets. -/
def modelKvCacheBytesQuant : ℕ :=
  if m.fullSequence then 0
  else if m.isKda then m.modelKdaStateBytes nCtx
  else if m.isMla then (m.kvLora + m.qkRope) * nCtx * m.nLayers * 4
  else
    (if m.isHybridRecurrent && !m.hybridShortconv then m.modelGdnStateBytes else 0) +
      ∑ l ∈ Finset.range (min m.nKvLayers m.nLayers), m.modelKvSlotBytes nCtx quant compacted l

end CacheShape

/-- The bytes a store was asked for. `vk_alloc_buffer` makes a buffer of one byte where it is asked for
none. -/
def VkStore.asked (s : VkStore) : ℕ :=
  if s.chunked then
    ∑ i ∈ Finset.range s.nKvLayers,
      match s.layerBytes with
      | some bytes => bytes i
      | none => s.perLayerSize
  else s.total

/-- The backend and what it depends on: what is behind the arrays of a description, and the limits and
answers of a device. -/
inductive CacheHome
  | cpu (stray : ℕ → ℕ × ℕ)
  | vulkan (caps : VkCaps) (gk gv : VkGrants)

namespace CacheHome

def device : CacheHome → CacheDevice
  | .cpu _ => .cpu
  | .vulkan _ _ _ => .vulkan

/-- The bytes of `kv_alloc`, K and V together. -/
def kvAlloc (home : CacheHome) (m : KvShape) (nCtx : ℕ) (quant : KvQuant) : Option ℕ :=
  match home with
  | .cpu stray => some (2 * (cpuKvAlloc (m.kvcacheInit cpuCaps nCtx quant stray)).kvKBytes)
  | .vulkan caps gk gv =>
    (vkKvAlloc caps gk gv (m.kvcacheInit vulkanCaps nCtx quant fun _ => (0, 0))).map
      fun kv => kv.k.asked + kv.v.asked

/-- The bytes of `kv_alloc_mla`. -/
def kvAllocMla (home : CacheHome) (nLayers nCtx kvLora qkRope : ℕ) : Option ℕ :=
  let layerBytes := (kvLora + qkRope) * nCtx * 4
  match home with
  | .cpu _ => some (layerBytes * nLayers)
  | .vulkan caps gk _ =>
    let n := if 0 < nLayers then nLayers else 1
    (vkKvStoreAlloc caps gk (layerBytes * n) layerBytes n none (fun i => i * (layerBytes / 2))
      fun i => i * layerBytes).map VkStore.asked

end CacheHome

namespace CacheShape

variable (m : CacheShape) (nCtx : ℕ) (quant : KvQuant) (home : CacheHome)

def convStride : ℕ :=
  (if 0 < m.convChannels then m.convChannels else m.convDim) * (m.convKernel - 1)

def recurrentStride : ℕ := if m.hybridShortconv then 0 else m.recurrentFloats

/-- `kvcache_alloc_layer_state_bufs` -/
def kvcacheAllocLayerStateBufs (wants : ℕ → Bool) (latentStride : ℕ) : ℕ :=
  ∑ l ∈ Finset.range m.nLayers,
    if wants l then
      (if m.layerIsRecurrent l then m.convStride + m.recurrentStride else latentStride) * 4
    else 0

/-- The state of the recurrent layers of a model with K/V layers. A state that is not on the device is
in host memory, which is the CPU's. -/
def kvcacheHybridState : ℕ :=
  if !m.isHybridRecurrent then 0
  else if 0 < m.recurrentStride && !m.hybridShortconv then
    m.kvcacheAllocLayerStateBufs m.layerIsRecurrent 0
  else
    match home.device with
    | .cpu =>
      m.nLayers * (m.convStride * 4) +
        if 0 < m.recurrentStride then m.nLayers * (m.recurrentStride * 4) else 0
    | .vulkan => 0

/-- The bytes that `kvcache_init` allocates on the backend; `none` is a failure. -/
def kvcacheInitBytes : Option ℕ :=
  if m.fullSequence then some 0
  else if quant ≠ .f16 ∧ m.isMla then none
  else if m.isMla && !m.isKda then home.kvAllocMla m.nLayers nCtx m.kvLora m.qkRope
  else if m.isHybridRecurrent && m.isKda then
    some (m.kvcacheAllocLayerStateBufs (fun _ => true) (nCtx * m.kvLora))
  else (home.kvAlloc m.toKvShape nCtx quant).map (m.kvcacheHybridState home + ·)

/-- The count covers every allocation on the device that can succeed. -/
def Covered (dev : CacheDevice) : Prop :=
  ∀ home : CacheHome, home.device = dev → ∀ n, m.kvcacheInitBytes nCtx quant home = some n →
    n ≤ m.modelKvCacheBytesQuant nCtx quant dev.caps.kvPosCap

end CacheShape

end Kappai
