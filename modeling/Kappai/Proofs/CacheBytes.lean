import Kappai.Proofs.CpuRegions
import Kappai.Sanity.VkKv
import Kappai.Spec.CacheBytes
import Mathlib.Algebra.BigOperators.Ring.Finset
import Mathlib.Algebra.Order.BigOperators.Group.Finset

/-! When the bytes counted for a KV cache cover those allocated. The count takes every slot at its own
size; a backend that is told the largest sizes only gives every slot as much as the largest. -/

namespace Kappai

theorem layerOff_eq_sum (bytes : ℕ → ℕ) (n : ℕ) :
    layerOff bytes n = ∑ i ∈ Finset.range n, bytes i := by
  induction n with
  | zero => rfl
  | succ n ih => rw [layerOff, ih, Finset.sum_range_succ]

namespace KvShape

variable (m : KvShape) (quant : KvQuant)

/-- The bytes of a position in a slot, K or V. -/
def slotWidth (l : ℕ) : ℕ := m.slotKvHeads l * kvRowBytes quant (m.modelLayerHeadDim l)

/-- The same for the largest head count and the largest head size. -/
def maxWidth : ℕ := m.nKvHeadsMax * kvRowBytes quant m.headDimMax

variable {m quant}

theorem layerHeadDim_le {l : ℕ} (hl : l < m.nLayers) : m.modelLayerHeadDim l ≤ m.headDimMax := by
  unfold headDimMax
  split_ifs with hv
  · exact le_foldl_max.2 l (List.mem_range.2 hl)
  · unfold modelLayerHeadDim
    split_ifs
    · exact (m.layers_headDim (Bool.eq_false_iff.2 hv) l hl).le
    · exact le_rfl

theorem slotKvHeads_le {l : ℕ} (hl : l < m.nLayers) : m.slotKvHeads l ≤ m.nKvHeadsMax := by
  unfold nKvHeadsMax
  cases hv : m.hasVariableLayerDims with
  | true =>
    have hown : m.slotKvHeads l = m.modelLayerKvHeads l := by
      unfold slotKvHeads
      cases m.nKvHeadsPerLayer <;> simp [hv]
    rw [hown, if_pos rfl]
    exact le_foldl_max.2 l (List.mem_range.2 hl)
  | false =>
    have hper := m.perLayer_le hv l hl
    rw [if_neg Bool.false_ne_true]
    unfold slotKvHeads
    cases hp : m.nKvHeadsPerLayer with
    | some f => simpa [hv, hl, hp] using hper
    | none =>
      have hlayer := m.layers_nKvHeads l hl
      simp only [hp, Option.getD_none, lt_irrefl, if_false] at hlayer
      simp only [modelLayerKvHeads]
      split_ifs
      · exact hlayer.le
      · exact le_rfl

theorem slotWidth_le {l : ℕ} (hl : l < m.nLayers) : m.slotWidth quant l ≤ m.maxWidth quant :=
  Nat.mul_le_mul (slotKvHeads_le hl) (kvRowBytes_mono (layerHeadDim_le hl))

variable (m quant)

/-- The bytes of a position in all slots of the model's layers. -/
def widths : ℕ := ∑ l ∈ Finset.range (min m.nKvLayers m.nLayers), m.slotWidth quant l

variable {m quant}

theorem widths_le : m.widths quant ≤ min m.nKvLayers m.nLayers * m.maxWidth quant := by
  calc m.widths quant
      ≤ ∑ _l ∈ Finset.range (min m.nKvLayers m.nLayers), m.maxWidth quant :=
        Finset.sum_le_sum fun l hl =>
          slotWidth_le (lt_of_lt_of_le (Finset.mem_range.1 hl) (min_le_right _ _))
    _ = min m.nKvLayers m.nLayers * m.maxWidth quant := by
        rw [Finset.sum_const_nat fun _ _ => rfl, Finset.card_range]

/-- Slots that need as much as the largest all do. -/
theorem slotWidth_eq (hle : m.nKvLayers ≤ m.nLayers)
    (h : m.nKvLayers * m.maxWidth quant ≤ m.widths quant) :
    ∀ l < m.nKvLayers, m.slotWidth quant l = m.maxWidth quant := by
  have hmin : min m.nKvLayers m.nLayers = m.nKvLayers := min_eq_left hle
  have hslots : ∀ l ∈ Finset.range m.nKvLayers, m.slotWidth quant l ≤ m.maxWidth quant :=
    fun l hl => slotWidth_le (lt_of_lt_of_le (Finset.mem_range.1 hl) hle)
  have hsum : ∑ l ∈ Finset.range m.nKvLayers, m.slotWidth quant l =
      ∑ _l ∈ Finset.range m.nKvLayers, m.maxWidth quant := by
    refine le_antisymm (Finset.sum_le_sum hslots) ?_
    rw [Finset.sum_const_nat fun _ _ => rfl, Finset.card_range]
    rwa [widths, hmin] at h
  intro l hl
  exact (Finset.sum_eq_sum_iff_of_le hslots).1 hsum l (Finset.mem_range.2 hl)

theorem widths_eq (hle : m.nKvLayers ≤ m.nLayers)
    (h : ∀ l < m.nKvLayers, m.slotWidth quant l = m.maxWidth quant) :
    m.widths quant = m.nKvLayers * m.maxWidth quant := by
  rw [widths, min_eq_left hle, Finset.sum_const_nat fun l hl => h l (Finset.mem_range.1 hl),
    Finset.card_range]

/-- What a backend needs for its slots to be counted. The CPU is given an entry for every layer of the
model, and Vulkan makes all slots as large as the largest; where its cache does not fit one buffer it
makes none for V. -/
def SlotsCounted (m : KvShape) (nCtx : ℕ) (quant : KvQuant) : CacheDevice → Prop
  | .cpu => nCtx = 0 ∨ m.nKvLayers ≤ m.nLayers ∧ (m.nKvLayers = 0 → m.maxWidth quant = 0)
  | .vulkan =>
    nCtx * m.maxWidth quant = 0 ∨ 2 ^ 32 ≤ nCtx * m.maxWidth quant ∨
      if m.nKvLayers * (nCtx * m.maxWidth quant) < 2 ^ 32 then
        0 < m.nKvLayers ∧ m.nKvLayers ≤ m.nLayers ∧
          ∀ l < m.nKvLayers, m.slotWidth quant l = m.maxWidth quant
      else m.nKvLayers * m.maxWidth quant ≤ 2 * m.widths quant

/-- The bytes of all slots at the rows each of them has. -/
def slotTotal (m : KvShape) (nCtx : ℕ) (quant : KvQuant) : ℕ :=
  ∑ l ∈ Finset.range (min m.nKvLayers m.nLayers), KvHolder.all.slotBytes m nCtx quant l

section Cpu

variable {nCtx : ℕ} {stray : ℕ → ℕ × ℕ}

theorem described {l : ℕ} (hl : l < min m.nKvLayers m.nLayers) :
    KvHolder.all.allocBytes m nCtx quant stray l = KvHolder.all.slotBytes m nCtx quant l :=
  KvHolder.allocBytes_eq (h := .all) (lt_of_lt_of_le hl (min_le_left _ _))
    (lt_of_lt_of_le hl (min_le_right _ _))

theorem kvKBytes_dims (hd : m.perLayerDims cpuCaps = true) (hn : 0 < m.nKvLayers) :
    (cpuKvAlloc (m.kvcacheInit cpuCaps nCtx quant stray)).kvKBytes =
      ∑ l ∈ Finset.range m.nKvLayers, KvHolder.all.allocBytes m nCtx quant stray l := by
  rw [← layerOff_eq_sum]
  exact (KvHolder.alloc_dims (h := .all) hd hn).2

/-- With dimensions of its own a slot is allocated as it is counted. -/
theorem slotTotal_le_alloc (hd : m.perLayerDims cpuCaps = true) (hn : 0 < m.nKvLayers) :
    m.slotTotal nCtx quant ≤ (cpuKvAlloc (m.kvcacheInit cpuCaps nCtx quant stray)).kvKBytes := by
  have hslots : m.slotTotal nCtx quant = ∑ l ∈ Finset.range (min m.nKvLayers m.nLayers),
      KvHolder.all.allocBytes m nCtx quant stray l :=
    Finset.sum_congr rfl fun l hl => (described (Finset.mem_range.1 hl)).symm
  rw [hslots, kvKBytes_dims hd hn]
  exact Finset.sum_le_sum_of_subset (Finset.range_mono (min_le_left _ _))

theorem alloc_le_slotTotal (hle : m.nKvLayers ≤ m.nLayers) (hn : 0 < m.nKvLayers) :
    (cpuKvAlloc (m.kvcacheInit cpuCaps nCtx quant stray)).kvKBytes ≤ m.slotTotal nCtx quant := by
  rw [slotTotal, min_eq_left hle]
  cases hd : m.perLayerDims cpuCaps with
  | true =>
    rw [kvKBytes_dims hd hn]
    refine Finset.sum_le_sum fun l hl => (described ?_).le
    rw [min_eq_left hle]
    exact Finset.mem_range.1 hl
  | false =>
    have halloc : (cpuKvAlloc (m.kvcacheInit cpuCaps nCtx quant stray)).kvKBytes =
        m.nKvLayers * (KvHolder.all.allocRows m nCtx quant stray *
          (m.nKvHeads * kvRowBytes quant m.headDim)) :=
      KvHolder.kvKBytes_uniform (h := .all) hd hn
    calc (cpuKvAlloc (m.kvcacheInit cpuCaps nCtx quant stray)).kvKBytes
        = ∑ _l ∈ Finset.range m.nKvLayers, KvHolder.all.allocRows m nCtx quant stray *
            (m.nKvHeads * kvRowBytes quant m.headDim) := by
          rw [halloc, Finset.sum_const_nat fun _ _ => rfl, Finset.card_range]
      _ ≤ ∑ l ∈ Finset.range m.nKvLayers, KvHolder.all.slotBytes m nCtx quant l := by
          refine Finset.sum_le_sum fun l hl => ?_
          rw [KvHolder.slotBytes_uniform hd]
          exact Nat.mul_le_mul_right _ (KvHolder.allocRows_le (h := .all) (Finset.mem_range.1 hl))

/-- A cache without slots is allocated as for one. -/
theorem alloc_none (hn : m.nKvLayers = 0) :
    (cpuKvAlloc (m.kvcacheInit cpuCaps nCtx quant stray)).kvKBytes = nCtx * m.maxWidth quant := by
  have hdesc : (m.kvcacheInit cpuCaps nCtx quant stray).nKvLayers = 0 := hn
  have hrows : kvUniformRows (m.kvcacheInit cpuCaps nCtx quant stray)
      (KvHolder.descCap (m.kvcacheInit cpuCaps nCtx quant stray)) = nCtx := if_pos hdesc
  unfold cpuKvAlloc
  rw [hdesc]
  change m.nKvHeadsMax * kvUniformRows (m.kvcacheInit cpuCaps nCtx quant stray)
    (KvHolder.descCap (m.kvcacheInit cpuCaps nCtx quant stray)) * kvRowBytes quant m.headDimMax * 1 = _
  rw [hrows, maxWidth]
  ring

/-- Slots behind the last layer are sized by whatever is there. -/
theorem alloc_unbounded (hle : m.nLayers < m.nKvLayers) (hctx : 0 < nCtx) (c : ℕ) :
    ∃ stray, c < (cpuKvAlloc (m.kvcacheInit cpuCaps nCtx quant stray)).kvKBytes := by
  have hshared : 0 < m.nLayerKvFromStart := by
    by_contra h0
    rw [nKvLayers, if_neg h0] at hle
    exact lt_irrefl _ hle
  have hd : m.perLayerDims cpuCaps = true := by
    simp [perLayerDims, cpuCaps, m.shared_varies hshared]
  have hrow : 0 < kvRowBytes quant 1 := Nat.pos_of_ne_zero fun h0 => by
    rw [kvRowBytes_eq_zero] at h0
    cases h0
  have hlast : KvHolder.all.allocBytes m nCtx quant (fun _ => (1, c + 1)) m.nLayers =
      (c + 1) * (nCtx * kvRowBytes quant 1) := by
    have hrows : KvHolder.all.rows m nCtx m.nLayers = nCtx := by
      simp [KvHolder.rows, KvHolder.layer, kvLayerPosCap]
    have hcap : KvHolder.descCap (KvHolder.all.desc m cpuCaps nCtx quant fun _ => (1, c + 1))
        m.nLayers = KvHolder.all.rows m nCtx m.nLayers := KvHolder.descCap_eq hle
    simp only [KvHolder.allocBytes, hcap, hrows, KvHolder.dims, lt_irrefl, if_false]
  refine ⟨fun _ => (1, c + 1), ?_⟩
  rw [kvKBytes_dims hd (Nat.zero_lt_of_lt hle)]
  calc c < (c + 1) * (nCtx * kvRowBytes quant 1) :=
        lt_of_lt_of_le (Nat.lt_succ_self c) (Nat.le_mul_of_pos_right _ (Nat.mul_pos hctx hrow))
    _ = KvHolder.all.allocBytes m nCtx quant (fun _ => (1, c + 1)) m.nLayers := hlast.symm
    _ ≤ _ := Finset.single_le_sum (fun _ _ => Nat.zero_le _) (Finset.mem_range.2 hle)

theorem slotTotal_eq_zero (hctx : nCtx = 0) : m.slotTotal nCtx quant = 0 :=
  Finset.sum_eq_zero fun l _ => by
    rw [KvHolder.slotBytes, KvHolder.rows_eq_zero l hctx, Nat.zero_mul, Nat.mul_zero]

theorem alloc_eq_zero (hctx : nCtx = 0) :
    (cpuKvAlloc (m.kvcacheInit cpuCaps nCtx quant stray)).kvKBytes = 0 := by
  rcases Nat.eq_zero_or_pos m.nKvLayers with hn | hn
  · rw [alloc_none hn, hctx, Nat.zero_mul]
  cases hd : m.perLayerDims cpuCaps with
  | true =>
    rw [kvKBytes_dims hd hn]
    refine Finset.sum_eq_zero fun l hl => ?_
    have hcap : KvHolder.descCap (KvHolder.all.desc m cpuCaps nCtx quant stray) l =
        KvHolder.all.rows m nCtx l := KvHolder.descCap_eq (Finset.mem_range.1 hl)
    rw [KvHolder.allocBytes, hcap, KvHolder.rows_eq_zero l hctx, Nat.zero_mul, Nat.mul_zero]
  | false =>
    have hle : m.nKvLayers ≤ m.nLayers := (uniform hd).nKvLayers.le
    exact Nat.eq_zero_of_le_zero ((alloc_le_slotTotal hle hn).trans (slotTotal_eq_zero hctx).le)

theorem cpu_counted_iff :
    (∀ stray, (cpuKvAlloc (m.kvcacheInit cpuCaps nCtx quant stray)).kvKBytes ≤
      m.slotTotal nCtx quant) ↔ m.SlotsCounted nCtx quant .cpu := by
  constructor
  · intro h
    rcases Nat.eq_zero_or_pos nCtx with hctx | hctx
    · exact Or.inl hctx
    refine Or.inr ⟨?_, fun hn => ?_⟩
    · by_contra hle
      obtain ⟨stray, hstray⟩ := alloc_unbounded (Nat.lt_of_not_le hle) hctx (m.slotTotal nCtx quant)
      exact absurd (h stray) hstray.not_ge
    · have hzero := h fun _ => (0, 0)
      rw [alloc_none hn, slotTotal, hn, Nat.zero_min, Finset.range_zero, Finset.sum_empty] at hzero
      exact (Nat.mul_eq_zero.1 (Nat.eq_zero_of_le_zero hzero)).resolve_left hctx.ne'
  · rintro (hctx | ⟨hle, hnone⟩) stray
    · rw [alloc_eq_zero hctx]
      exact Nat.zero_le _
    · rcases Nat.eq_zero_or_pos m.nKvLayers with hn | hn
      · rw [alloc_none hn, hnone hn, Nat.mul_zero]
        exact Nat.zero_le _
      · exact alloc_le_slotTotal hle hn

end Cpu

end KvShape

section Stores

variable {caps : VkCaps} {grants : VkGrants} {total perLayerSize n : ℕ}
  {layerBytes : Option (ℕ → ℕ)} {offElems offBytes : ℕ → ℕ}

theorem vkKvStoreAlloc_single (hfits : total ≤ caps.maxStorageBufferRange)
    (hmem : caps.unifiedMemory = false) (hgrant : grants.single = true) :
    ∃ s, vkKvStoreAlloc caps grants total perLayerSize n layerBytes offElems offBytes = some s ∧
      s.asked = total := by
  have hone : vkNeedsChunking caps total n = false := by
    simp [vkNeedsChunking, hmem, hfits]
  unfold vkKvStoreAlloc
  simp only [hone, hgrant, Bool.not_false, Bool.and_self, if_true]
  exact ⟨_, rfl, rfl⟩

theorem vkKvStoreAlloc_chunks (hlarge : caps.maxStorageBufferRange < total)
    (hlayer : perLayerSize ≤ caps.maxStorageBufferRange) (hgrant : grants.chunks = true) :
    ∃ s, vkKvStoreAlloc caps grants total perLayerSize n none offElems offBytes = some s ∧
      s.asked = n * perLayerSize := by
  have hmany : vkNeedsChunking caps total n = true := by
    simp [vkNeedsChunking, hlarge]
  have hfits : ¬ caps.maxStorageBufferRange < perLayerForChecks perLayerSize n none :=
    hlayer.not_gt
  unfold vkKvStoreAlloc
  simp only [hmany, hgrant, hfits, Bool.not_true, Bool.false_and, Bool.false_eq_true, if_false,
    if_true]
  refine ⟨_, rfl, ?_⟩
  rw [VkStore.asked, if_pos rfl, Finset.sum_const_nat fun _ _ => rfl, Finset.card_range]
  rfl

/-- A store with layers of one size was asked for all of it at once or for each of them. -/
theorem vkKvStoreAlloc_asked {s : VkStore}
    (h : vkKvStoreAlloc caps grants total perLayerSize n none offElems offBytes = some s) :
    (s.asked = total ∧ total < 2 ^ 32) ∨ (s.asked = n * perLayerSize ∧ perLayerSize < 2 ^ 32) := by
  obtain ⟨made, -, -⟩ := vkKvStoreAlloc_made h
  cases hc : s.chunked with
  | false =>
    refine Or.inl ⟨?_, (made.single_fits hc).trans_lt caps.range_lt⟩
    rw [VkStore.asked, hc, if_neg Bool.false_ne_true, made.total_eq]
  | true =>
    refine Or.inr ⟨?_, (made.layer_fits hc).trans_lt caps.range_lt⟩
    rw [VkStore.asked, if_pos hc, made.layers_eq, made.bytes_eq, made.size_eq,
      Finset.sum_const_nat fun _ _ => rfl, Finset.card_range]
    rfl

end Stores

namespace KvShape

section Vulkan

variable {m : KvShape} {nCtx : ℕ} {quant : KvQuant}

/-- The layers of the cache on Vulkan, and the size it gives each of them. -/
def vkSlots (m : KvShape) : ℕ := if 0 < m.nKvLayers then m.nKvLayers else 1

def vkSlotBytes (m : KvShape) (nCtx : ℕ) (quant : KvQuant) : ℕ := nCtx * m.maxWidth quant

/-- `vk_kv_alloc` for sizes of the whole model: what `vk_kv_store_alloc` is given for V has a total but
no size of a layer. -/
theorem vkKvAlloc_uniform (caps : VkCaps) (gk gv : VkGrants) :
    ∃ (offElems offBytes : ℕ → ℕ) (row : ℕ),
      vkKvAlloc caps gk gv (m.kvcacheInit vulkanCaps nCtx quant fun _ => (0, 0)) =
        (vkKvStoreAlloc caps gk (m.vkSlots * m.vkSlotBytes nCtx quant) (m.vkSlotBytes nCtx quant)
          m.vkSlots none offElems offBytes).bind fun k =>
            (vkKvStoreAlloc caps gv (m.vkSlots * m.vkSlotBytes nCtx quant) 0 m.vkSlots none offElems
              offBytes).map fun v => ⟨k, v, quant, row⟩ := by
  have hdims : (m.kvcacheInit vulkanCaps nCtx quant fun _ => (0, 0)).layerDims = none := by
    simp [kvcacheInit, perLayerDims, vulkanCaps]
  have hsize : nCtx * m.nKvHeadsMax * kvRowBytes quant m.headDimMax = m.vkSlotBytes nCtx quant :=
    Nat.mul_assoc _ _ _
  refine ⟨fun i => i * nCtx * m.nKvHeadsMax * m.headDimMax, fun i => i * m.vkSlotBytes nCtx quant,
    if 0 < vkMaxRowBytes (m.kvcacheInit vulkanCaps nCtx quant fun _ => (0, 0)) then
      vkMaxRowBytes (m.kvcacheInit vulkanCaps nCtx quant fun _ => (0, 0)) else m.headDimMax * 2, ?_⟩
  unfold vkKvAlloc
  rw [hdims, Nat.mul_comm m.vkSlots, ← hsize]
  rfl

/-- V is stored in one buffer as large as K's, or in pieces of no bytes. -/
theorem vulkan_asked {caps : VkCaps} {gk gv : VkGrants} {n : ℕ}
    (h : (CacheHome.vulkan caps gk gv).kvAlloc m nCtx quant = some n) :
    m.vkSlotBytes nCtx quant < 2 ^ 32 ∧
      (n = m.vkSlots * m.vkSlotBytes nCtx quant ∨
        n = 2 * (m.vkSlots * m.vkSlotBytes nCtx quant) ∧
          m.vkSlots * m.vkSlotBytes nCtx quant < 2 ^ 32) := by
  have hslots : 0 < m.vkSlots := by
    unfold vkSlots
    split_ifs <;> omega
  obtain ⟨offElems, offBytes, row, heq⟩ := vkKvAlloc_uniform (m := m) caps gk gv
  rw [CacheHome.kvAlloc, heq] at h
  simp only [Option.map_eq_some_iff, Option.bind_eq_some_iff] at h
  obtain ⟨kv, ⟨k, hk, v, hv, rfl⟩, rfl⟩ := h
  have hone : m.vkSlotBytes nCtx quant ≤ m.vkSlots * m.vkSlotBytes nCtx quant :=
    Nat.le_mul_of_pos_left _ hslots
  have hkasked : k.asked = m.vkSlots * m.vkSlotBytes nCtx quant ∧
      m.vkSlotBytes nCtx quant < 2 ^ 32 := by
    rcases vkKvStoreAlloc_asked hk with ⟨hasked, hlt⟩ | ⟨hasked, hlt⟩
    · exact ⟨hasked, hone.trans_lt hlt⟩
    · exact ⟨hasked, hlt⟩
  refine ⟨hkasked.2, ?_⟩
  rcases vkKvStoreAlloc_asked hv with ⟨hasked, hlt⟩ | ⟨hasked, -⟩
  · exact Or.inr ⟨by rw [hkasked.1, hasked, Nat.two_mul], hlt⟩
  · exact Or.inl (by rw [hkasked.1, hasked, Nat.mul_zero, Nat.add_zero])

/-- A device with the largest range there is, that has memory for everything. -/
def wideCaps : VkCaps := ⟨2 ^ 32 - 1, false, by norm_num, by norm_num⟩

def allGranted : VkGrants := ⟨true, true⟩

theorem allGranted_eq : allGranted.single = true ∧ allGranted.chunks = true := ⟨rfl, rfl⟩

theorem vulkan_single (h : m.vkSlots * m.vkSlotBytes nCtx quant < 2 ^ 32) :
    (CacheHome.vulkan wideCaps allGranted allGranted).kvAlloc m nCtx quant =
      some (2 * (m.vkSlots * m.vkSlotBytes nCtx quant)) := by
  obtain ⟨offElems, offBytes, row, heq⟩ :=
    vkKvAlloc_uniform (m := m) wideCaps allGranted allGranted
  have hfits : m.vkSlots * m.vkSlotBytes nCtx quant ≤ wideCaps.maxStorageBufferRange :=
    Nat.le_sub_one_of_lt h
  obtain ⟨k, hk, hkasked⟩ := vkKvStoreAlloc_single hfits rfl allGranted_eq.1
  obtain ⟨v, hv, hvasked⟩ := vkKvStoreAlloc_single hfits rfl allGranted_eq.1
  rw [CacheHome.kvAlloc, heq, hk, Option.bind_some, hv]
  simp only [Option.map_some, hkasked, hvasked, Nat.two_mul]

theorem vulkan_split (hlarge : 2 ^ 32 ≤ m.vkSlots * m.vkSlotBytes nCtx quant)
    (hlayer : m.vkSlotBytes nCtx quant < 2 ^ 32) :
    (CacheHome.vulkan wideCaps allGranted allGranted).kvAlloc m nCtx quant =
      some (m.vkSlots * m.vkSlotBytes nCtx quant) := by
  obtain ⟨offElems, offBytes, row, heq⟩ :=
    vkKvAlloc_uniform (m := m) wideCaps allGranted allGranted
  have htotal : wideCaps.maxStorageBufferRange < m.vkSlots * m.vkSlotBytes nCtx quant := by
    change 2 ^ 32 - 1 < _
    omega
  obtain ⟨k, hk, hkasked⟩ := vkKvStoreAlloc_chunks htotal (Nat.le_sub_one_of_lt hlayer)
    allGranted_eq.2
  obtain ⟨v, hv, hvasked⟩ := vkKvStoreAlloc_chunks htotal (Nat.zero_le _) allGranted_eq.2
  rw [CacheHome.kvAlloc, heq, hk, Option.bind_some, hv]
  simp only [Option.map_some, hkasked, hvasked, Nat.mul_zero, Nat.add_zero]

/-- Where the cache fits one buffer the count is right only if all slots are as large as the largest. -/
theorem slots_of_single (hpos : 0 < m.vkSlotBytes nCtx quant)
    (h : m.vkSlots * m.vkSlotBytes nCtx quant ≤ nCtx * m.widths quant) :
    0 < m.nKvLayers ∧ m.nKvLayers ≤ m.nLayers ∧
      ∀ l < m.nKvLayers, m.slotWidth quant l = m.maxWidth quant := by
  have hctx : 0 < nCtx := Nat.pos_of_mul_pos_right hpos
  have hwidth : 0 < m.maxWidth quant := Nat.pos_of_mul_pos_left hpos
  have hslots : m.vkSlots * m.maxWidth quant ≤ m.widths quant := by
    refine Nat.le_of_mul_le_mul_left ?_ hctx
    rwa [Nat.mul_left_comm]
  have hmin : m.vkSlots ≤ min m.nKvLayers m.nLayers :=
    Nat.le_of_mul_le_mul_right (hslots.trans widths_le) hwidth
  unfold vkSlots at hmin hslots
  split_ifs at hmin hslots with hn
  · have hle : m.nKvLayers ≤ m.nLayers := hmin.trans (min_le_right _ _)
    exact ⟨hn, hle, slotWidth_eq hle hslots⟩
  · have := hmin.trans (min_le_left _ _)
    omega

theorem vulkan_counted_iff :
    (∀ caps gk gv n, (CacheHome.vulkan caps gk gv).kvAlloc m nCtx quant = some n →
      n ≤ 2 * (nCtx * m.widths quant)) ↔ m.SlotsCounted nCtx quant .vulkan := by
  constructor
  · intro h
    rcases Nat.eq_zero_or_pos (nCtx * m.maxWidth quant) with h0 | hpos
    · exact Or.inl h0
    rcases Nat.lt_or_ge (nCtx * m.maxWidth quant) (2 ^ 32) with hlayer | hlayer
    · refine Or.inr (Or.inr ?_)
      split_ifs with htotal
      · have hsingle : m.vkSlots * m.vkSlotBytes nCtx quant < 2 ^ 32 := by
          unfold vkSlots
          split_ifs
          · exact htotal
          · rwa [Nat.one_mul]
        refine slots_of_single hpos ?_
        have := h _ _ _ _ (vulkan_single hsingle)
        omega
      · have hn : 0 < m.nKvLayers := by
          by_contra h0
          rw [Nat.eq_zero_of_not_pos h0, Nat.zero_mul] at htotal
          exact htotal (by norm_num)
        have hslots : m.vkSlots = m.nKvLayers := if_pos hn
        have hlarge : 2 ^ 32 ≤ m.vkSlots * m.vkSlotBytes nCtx quant := by
          rw [hslots]
          exact Nat.le_of_not_lt htotal
        have hall := h _ _ _ _ (vulkan_split hlarge hlayer)
        rw [hslots] at hall
        refine Nat.le_of_mul_le_mul_left ?_ (Nat.pos_of_mul_pos_right hpos)
        calc nCtx * (m.nKvLayers * m.maxWidth quant)
            = m.nKvLayers * m.vkSlotBytes nCtx quant := Nat.mul_left_comm _ _ _
          _ ≤ 2 * (nCtx * m.widths quant) := hall
          _ = nCtx * (2 * m.widths quant) := Nat.mul_left_comm _ _ _
    · exact Or.inr (Or.inl hlayer)
  · intro h caps gk gv n hn
    obtain ⟨hlayer, hasked⟩ := vulkan_asked hn
    rcases h with h0 | hlarge | h
    · have hbytes : m.vkSlotBytes nCtx quant = 0 := h0
      rw [hbytes] at hasked
      omega
    · exact absurd hlayer hlarge.not_gt
    split_ifs at h with htotal
    · obtain ⟨hpos, hle, hsame⟩ := h
      have hslots : m.vkSlots = m.nKvLayers := if_pos hpos
      have hwidths : nCtx * m.widths quant = m.vkSlots * m.vkSlotBytes nCtx quant := by
        rw [widths_eq hle hsame, hslots, vkSlotBytes, Nat.mul_left_comm]
      omega
    · have hpos : 0 < m.nKvLayers := by
        by_contra h0
        rw [Nat.eq_zero_of_not_pos h0, Nat.zero_mul] at htotal
        exact htotal (by norm_num)
      have hslots : m.vkSlots = m.nKvLayers := if_pos hpos
      rcases hasked with rfl | ⟨-, hsmall⟩
      · calc m.vkSlots * m.vkSlotBytes nCtx quant
            = nCtx * (m.nKvLayers * m.maxWidth quant) := by
              rw [hslots, vkSlotBytes, Nat.mul_left_comm]
          _ ≤ nCtx * (2 * m.widths quant) := Nat.mul_le_mul_left _ h
          _ = 2 * (nCtx * m.widths quant) := Nat.mul_left_comm _ _ _
      · rw [hslots] at hsmall
        exact absurd hsmall htotal

end Vulkan

end KvShape

namespace CacheShape

variable (m : CacheShape) (nCtx : ℕ) (quant : KvQuant)

/-- The bytes of an MLA layer. -/
def latentBytes : ℕ := (m.kvLora + m.qkRope) * nCtx * 4

/-- When the count covers what is allocated: always for a KDA model and for one that has no cache; for
another MLA model unless Vulkan holds it and it has no layer, for which Vulkan makes one all the same. Of
the others, the state of short convolutions is not counted, and the slots must be. -/
def Counts (dev : CacheDevice) : Prop :=
  m.fullSequence = true ∨ m.isKda = true ∨
    if m.isMla = true then
      quant ≠ .f16 ∨ dev = .cpu ∨ 0 < m.nLayers ∨ m.latentBytes nCtx = 0 ∨
        2 ^ 32 ≤ m.latentBytes nCtx
    else
      (dev = .cpu → m.isHybridRecurrent = true → m.hybridShortconv = true →
        m.nLayers * m.convStride = 0) ∧ m.SlotsCounted nCtx quant dev

variable {m nCtx quant}

theorem slotBytes_cpu (l : ℕ) : m.modelKvSlotBytes nCtx quant true l =
    2 * KvHolder.all.slotBytes m.toKvShape nCtx quant l := by
  cases quant <;>
    simp only [modelKvSlotBytes, KvHolder.slotBytes, KvHolder.rows, KvHolder.layer, kvRowBytes,
      if_true] <;> ring

theorem slotBytes_vulkan (l : ℕ) : m.modelKvSlotBytes nCtx quant false l =
    2 * (nCtx * m.slotWidth quant l) := by
  cases quant <;>
    simp only [modelKvSlotBytes, KvShape.slotWidth, kvRowBytes, Bool.false_eq_true, if_false] <;> ring

theorem slots_cpu : ∑ l ∈ Finset.range (min m.nKvLayers m.nLayers),
    m.modelKvSlotBytes nCtx quant true l = 2 * m.slotTotal nCtx quant := by
  rw [KvShape.slotTotal, Finset.mul_sum]
  exact Finset.sum_congr rfl fun l _ => slotBytes_cpu l

theorem slots_vulkan : ∑ l ∈ Finset.range (min m.nKvLayers m.nLayers),
    m.modelKvSlotBytes nCtx quant false l = 2 * (nCtx * m.widths quant) := by
  rw [KvShape.widths, Finset.mul_sum, Finset.mul_sum]
  exact Finset.sum_congr rfl fun l _ => slotBytes_vulkan l

theorem kdaState_le (hkda : m.isKda = true) :
    m.kvcacheAllocLayerStateBufs (fun _ => true) (nCtx * m.kvLora) ≤ m.modelKdaStateBytes nCtx := by
  have hconv : m.convStride = m.convChannels * (m.convKernel - 1) := by
    rw [convStride, ← m.kda_conv hkda, ite_self]
  have hstate : m.recurrentStride ≤ m.recurrentFloats := by
    unfold recurrentStride
    split_ifs
    · exact Nat.zero_le _
    · exact le_rfl
  refine Finset.sum_le_sum fun l _ => ?_
  rw [if_pos rfl, hconv]
  refine Nat.mul_le_mul_right _ ?_
  split_ifs
  · exact Nat.add_le_add_left hstate _
  · exact le_rfl

theorem gdnState_eq (hhybrid : m.isHybridRecurrent = true) (hkda : m.isKda = false)
    (hconv : m.hybridShortconv = false) :
    0 < m.recurrentStride ∧
      m.kvcacheAllocLayerStateBufs m.layerIsRecurrent 0 = m.modelGdnStateBytes := by
  have hstate : m.recurrentStride = m.recurrentFloats :=
    if_neg (by rw [hconv]; exact Bool.false_ne_true)
  have hstride : m.convStride = m.convDim * (m.convKernel - 1) := by
    rw [convStride, m.gdn_conv hhybrid hkda hconv, if_neg (lt_irrefl 0)]
  refine ⟨hstate ▸ m.gdn_state hhybrid hkda hconv, Finset.sum_congr rfl fun l _ => ?_⟩
  rw [hstate, hstride]
  split_ifs <;> rfl

/-- The state that is counted is that of gated delta nets; short convolutions keep theirs on the host. -/
theorem hybridState_eq (hkda : m.isKda = false) (home : CacheHome) :
    m.kvcacheHybridState home =
      (if m.isHybridRecurrent && !m.hybridShortconv then m.modelGdnStateBytes else 0) +
        if home.device = .cpu ∧ m.isHybridRecurrent = true ∧ m.hybridShortconv = true then
          m.nLayers * m.convStride * 4
        else 0 := by
  unfold kvcacheHybridState
  cases hhybrid : m.isHybridRecurrent with
  | false => simp
  | true =>
    cases hconv : m.hybridShortconv with
    | false =>
      obtain ⟨hpos, hsum⟩ := gdnState_eq hhybrid hkda hconv
      simp [hpos, hsum]
    | true =>
      have hstride : m.recurrentStride = 0 := by rw [recurrentStride, hconv, if_pos rfl]
      cases hdev : home.device <;> simp [hstride, Nat.mul_assoc]

/-- A model that keeps K and V: its count and its cache. -/
theorem bytes_kv (nCtx : ℕ) (quant : KvQuant) (hseq : m.fullSequence = false) (hmla : m.isMla = false) :
    m.isKda = false ∧
    (∀ compacted, m.modelKvCacheBytesQuant nCtx quant compacted =
      (if m.isHybridRecurrent && !m.hybridShortconv then m.modelGdnStateBytes else 0) +
        ∑ l ∈ Finset.range (min m.nKvLayers m.nLayers), m.modelKvSlotBytes nCtx quant compacted l) ∧
    ∀ home, m.kvcacheInitBytes nCtx quant home =
      (home.kvAlloc m.toKvShape nCtx quant).map (m.kvcacheHybridState home + ·) := by
  have hkda : m.isKda = false := by
    by_contra hk
    have := m.kda_mla (Bool.of_not_eq_false hk)
    rw [hmla] at this
    cases this
  refine ⟨hkda, fun compacted => ?_, fun home => ?_⟩
  · simp [modelKvCacheBytesQuant, hseq, hkda, hmla]
  · simp [kvcacheInitBytes, hseq, hkda, hmla]

/-- The state of short convolutions on the host. -/
def shortconvBytes (m : CacheShape) : ℕ :=
  if m.isHybridRecurrent = true ∧ m.hybridShortconv = true then m.nLayers * m.convStride * 4 else 0

theorem shortconvBytes_eq_zero : m.shortconvBytes = 0 ↔
    (m.isHybridRecurrent = true → m.hybridShortconv = true → m.nLayers * m.convStride = 0) := by
  unfold shortconvBytes
  split_ifs with h
  · simp [h.1, h.2]
  · simp only [true_iff]
    exact fun hhybrid hconv => absurd ⟨hhybrid, hconv⟩ h

/-- A model with short convolutions describes every slot to the CPU, so nothing else is counted twice. -/
theorem slotTotal_le_of_shortconv (nCtx : ℕ) (quant : KvQuant) (hpos : 0 < m.shortconvBytes)
    (stray : ℕ → ℕ × ℕ) :
    m.slotTotal nCtx quant ≤ (cpuKvAlloc (m.kvcacheInit cpuCaps nCtx quant stray)).kvKBytes := by
  unfold shortconvBytes at hpos
  split_ifs at hpos with h
  · have hlayers : 0 < m.nLayers := Nat.pos_of_mul_pos_right (Nat.pos_of_mul_pos_right hpos)
    refine KvShape.slotTotal_le_alloc ?_ ?_
    · simp [KvShape.perLayerDims, cpuCaps, h.1]
    · unfold KvShape.nKvLayers
      split_ifs with hshared
      · exact hshared
      · exact hlayers
  · exact absurd hpos (lt_irrefl 0)

theorem covered_cpu (hseq : m.fullSequence = false) (hmla : m.isMla = false) :
    m.Covered nCtx quant .cpu ↔
      (m.isHybridRecurrent = true → m.hybridShortconv = true → m.nLayers * m.convStride = 0) ∧
        m.SlotsCounted nCtx quant .cpu := by
  obtain ⟨hkda, hcount, hinit⟩ := bytes_kv nCtx quant hseq hmla
  have hiff : m.Covered nCtx quant .cpu ↔ ∀ stray, m.shortconvBytes +
      2 * (cpuKvAlloc (m.kvcacheInit cpuCaps nCtx quant stray)).kvKBytes ≤
        2 * m.slotTotal nCtx quant := by
    have hstate : ∀ stray, m.kvcacheHybridState (.cpu stray) =
        (if m.isHybridRecurrent && !m.hybridShortconv then m.modelGdnStateBytes else 0) +
          m.shortconvBytes := by
      intro stray
      simp [hybridState_eq hkda, shortconvBytes, CacheHome.device]
    have hcpu : m.modelKvCacheBytesQuant nCtx quant CacheDevice.cpu.caps.kvPosCap =
        (if m.isHybridRecurrent && !m.hybridShortconv then m.modelGdnStateBytes else 0) +
          2 * m.slotTotal nCtx quant := by
      rw [hcount, ← slots_cpu]
      rfl
    constructor
    · intro h stray
      have hle : m.kvcacheHybridState (.cpu stray) +
          2 * (cpuKvAlloc (m.kvcacheInit cpuCaps nCtx quant stray)).kvKBytes ≤ _ :=
        h (.cpu stray) rfl _ (by rw [hinit]; rfl)
      rw [hcpu, hstate] at hle
      omega
    · rintro h (stray | _) hdev n hn
      · rw [hinit] at hn
        obtain rfl := Option.some.inj hn
        have := h stray
        change m.kvcacheHybridState (.cpu stray) + _ ≤ _
        rw [hcpu, hstate]
        omega
      · cases hdev
  rw [hiff, ← shortconvBytes_eq_zero, ← KvShape.cpu_counted_iff]
  constructor
  · intro h
    refine ⟨?_, fun stray => ?_⟩
    · by_contra h0
      have hall := h fun _ => (0, 0)
      have htotal := slotTotal_le_of_shortconv nCtx quant (Nat.pos_of_ne_zero h0) fun _ => (0, 0)
      omega
    · have := h stray
      omega
  · rintro ⟨h0, h⟩ stray
    have := h stray
    omega

theorem covered_vulkan (hseq : m.fullSequence = false) (hmla : m.isMla = false) :
    m.Covered nCtx quant .vulkan ↔ m.SlotsCounted nCtx quant .vulkan := by
  obtain ⟨hkda, hcount, hinit⟩ := bytes_kv nCtx quant hseq hmla
  have hstate : ∀ caps gk gv, m.kvcacheHybridState (.vulkan caps gk gv) =
      if m.isHybridRecurrent && !m.hybridShortconv then m.modelGdnStateBytes else 0 := by
    intro caps gk gv
    simp [hybridState_eq hkda, CacheHome.device]
  have hvulkan : m.modelKvCacheBytesQuant nCtx quant CacheDevice.vulkan.caps.kvPosCap =
      (if m.isHybridRecurrent && !m.hybridShortconv then m.modelGdnStateBytes else 0) +
        2 * (nCtx * m.widths quant) := by
    rw [hcount, ← slots_vulkan]
    rfl
  rw [← KvShape.vulkan_counted_iff]
  constructor
  · intro h caps gk gv n hn
    have hle : m.kvcacheHybridState (.vulkan caps gk gv) + n ≤ _ :=
      h (.vulkan caps gk gv) rfl _ (by rw [hinit, hn]; rfl)
    rw [hvulkan, hstate] at hle
    omega
  · rintro h (_ | ⟨caps, gk, gv⟩) hdev n hn
    · cases hdev
    · rw [hinit, Option.map_eq_some_iff] at hn
      obtain ⟨k, hk, rfl⟩ := hn
      rw [hvulkan, hstate]
      have := h caps gk gv k hk
      omega

theorem covered_mla (hseq : m.fullSequence = false) (hmla : m.isMla = true) (hkda : m.isKda = false)
    (dev : CacheDevice) :
    m.Covered nCtx quant dev ↔ quant ≠ .f16 ∨ dev = .cpu ∨ 0 < m.nLayers ∨
      m.latentBytes nCtx = 0 ∨ 2 ^ 32 ≤ m.latentBytes nCtx := by
  have hcount : m.modelKvCacheBytesQuant nCtx quant dev.caps.kvPosCap =
      m.nLayers * m.latentBytes nCtx := by
    simp only [modelKvCacheBytesQuant, hseq, hkda, hmla, latentBytes, Bool.false_eq_true, if_false,
      if_true]
    ring
  have hinit : quant = .f16 → ∀ home, m.kvcacheInitBytes nCtx quant home =
      home.kvAllocMla m.nLayers nCtx m.kvLora m.qkRope := by
    intro hq home
    simp [kvcacheInitBytes, hseq, hkda, hmla, hq]
  have hmade : ∀ caps gk gv n,
      (CacheHome.vulkan caps gk gv).kvAllocMla m.nLayers nCtx m.kvLora m.qkRope = some n →
        n = (if 0 < m.nLayers then m.nLayers else 1) * m.latentBytes nCtx ∧
          (n < 2 ^ 32 ∨ m.latentBytes nCtx < 2 ^ 32) := by
    intro caps gk gv n hn
    simp only [CacheHome.kvAllocMla, Option.map_eq_some_iff] at hn
    obtain ⟨s, hs, rfl⟩ := hn
    rcases vkKvStoreAlloc_asked hs with ⟨hasked, hlt⟩ | ⟨hasked, hlt⟩
    · rw [hasked]
      exact ⟨Nat.mul_comm _ _, Or.inl hlt⟩
    · exact ⟨hasked, Or.inr hlt⟩
  constructor
  · intro h
    by_contra hnot
    push Not at hnot
    obtain ⟨hq, hdev, hlayers, hlatent, hlt⟩ := hnot
    have hzero : m.nLayers = 0 := Nat.eq_zero_of_not_pos (Nat.not_lt.2 hlayers)
    have hvulkan : dev = .vulkan := by
      cases dev with
      | cpu => exact absurd rfl hdev
      | vulkan => rfl
    have hmem : (m.kvLora + m.qkRope) * nCtx * 4 * 1 ≤ KvShape.wideCaps.maxStorageBufferRange := by
      rw [Nat.mul_one]
      exact Nat.le_sub_one_of_lt hlt
    have hsingle : ∃ s, vkKvStoreAlloc KvShape.wideCaps KvShape.allGranted
        ((m.kvLora + m.qkRope) * nCtx * 4 * 1) (m.latentBytes nCtx) 1 none
        (fun i => i * (m.latentBytes nCtx / 2)) (fun i => i * m.latentBytes nCtx) = some s ∧
          s.asked = (m.kvLora + m.qkRope) * nCtx * 4 * 1 :=
      vkKvStoreAlloc_single hmem rfl KvShape.allGranted_eq.1
    obtain ⟨s, hs, hasked⟩ := hsingle
    have hle := h (.vulkan KvShape.wideCaps KvShape.allGranted KvShape.allGranted) hvulkan.symm
      s.asked (by
        rw [hinit hq, CacheHome.kvAllocMla, hzero, if_neg (lt_irrefl 0)]
        exact congrArg (Option.map VkStore.asked) hs)
    rw [hcount, hzero, Nat.zero_mul, hasked, Nat.mul_one] at hle
    exact hlatent (Nat.eq_zero_of_le_zero hle)
  · intro h home hdev n hn
    rw [hcount]
    by_cases hq : quant = .f16
    · rw [hinit hq] at hn
      cases home with
      | cpu stray =>
        obtain rfl := Option.some.inj hn
        exact (Nat.mul_comm _ _).le
      | vulkan caps gk gv =>
        obtain ⟨rfl, hfits⟩ := hmade caps gk gv n hn
        split_ifs with hlayers
        · exact le_rfl
        · rw [if_neg hlayers, Nat.one_mul, or_self] at hfits
          rcases h with hne | hcpu | hpos | h0 | hlarge
          · exact absurd hq hne
          · rw [hcpu] at hdev
            cases hdev
          · exact absurd hpos hlayers
          · rw [h0, Nat.mul_zero, Nat.mul_zero]
          · exact absurd hfits hlarge.not_gt
    · have hnone : m.kvcacheInitBytes nCtx quant home = none := by
        simp [kvcacheInitBytes, hseq, hmla, hq]
      rw [hnone] at hn
      cases hn

theorem covered_kda (hseq : m.fullSequence = false) (hkda : m.isKda = true) (dev : CacheDevice) :
    m.Covered nCtx quant dev := by
  intro home _ n hn
  have hmla : m.isMla = true := m.kda_mla hkda
  have hcount : m.modelKvCacheBytesQuant nCtx quant dev.caps.kvPosCap = m.modelKdaStateBytes nCtx := by
    simp [modelKvCacheBytesQuant, hseq, hkda]
  by_cases hq : quant = .f16
  · have hinit : m.kvcacheInitBytes nCtx quant home =
        some (m.kvcacheAllocLayerStateBufs (fun _ => true) (nCtx * m.kvLora)) := by
      simp [kvcacheInitBytes, hseq, hkda, hmla, hq, m.kda_hybrid hkda]
    rw [hinit] at hn
    rw [hcount, ← Option.some.inj hn]
    exact kdaState_le hkda
  · have hnone : m.kvcacheInitBytes nCtx quant home = none := by
      simp [kvcacheInitBytes, hseq, hmla, hq]
    rw [hnone] at hn
    cases hn

/-- **The count covers the cache** just where it takes every allocation into account. -/
theorem covered_iff (m : CacheShape) (nCtx : ℕ) (quant : KvQuant) (dev : CacheDevice) :
    m.Covered nCtx quant dev ↔ m.Counts nCtx quant dev := by
  unfold Counts
  cases hseq : m.fullSequence with
  | true =>
    refine ⟨fun _ => Or.inl rfl, fun _ home _ n hn => ?_⟩
    have hinit : m.kvcacheInitBytes nCtx quant home = some 0 := if_pos hseq
    rw [hinit] at hn
    rw [← Option.some.inj hn]
    exact Nat.zero_le _
  | false =>
    cases hkda : m.isKda with
    | true => exact ⟨fun _ => Or.inr (Or.inl rfl), fun _ => covered_kda hseq hkda dev⟩
    | false =>
      cases hmla : m.isMla with
      | true => simpa using covered_mla hseq hmla hkda dev
      | false =>
        cases dev with
        | cpu => simpa using covered_cpu hseq hmla
        | vulkan => simpa using covered_vulkan hseq hmla

theorem none_shared : 0 < 0 → false = true := fun h => absurd h (Nat.lt_irrefl 0)

theorem none_perLayer : (none : Option (ℕ → ℕ)) ≠ none → true = true ∨ false = true :=
  fun h => absurd rfl h

/-- A model with a short convolution and a layer of attention. -/
def shortconvModel : CacheShape where
  hasVariableLayerDims := false
  isHybridRecurrent := true
  nLayers := 2
  nKvHeads := 8
  headDim := 64
  layers := fun l => ⟨64, 8, false, l.beq 0⟩
  nKvHeadsPerLayer := some fun l => bif l.beq 0 then 0 else 8
  nLayerKvFromStart := 0
  slidingWindow := 0
  layers_headDim := fun _ _ _ => rfl
  layers_nKvHeads := by decide
  perLayer_varies := fun _ => Or.inr rfl
  perLayer_le := by decide
  shared_varies := none_shared
  fullSequence := false
  isMla := false
  isKda := false
  hybridShortconv := true
  convChannels := 512
  convDim := 1536
  convKernel := 3
  nValueHeads := 1
  stateSize := 1
  valueHeadDim := 512
  kvLora := 0
  qkRope := 0
  kda_mla := fun h => by cases h
  kda_hybrid := fun h => by cases h
  kda_conv := fun h => by cases h
  gdn_conv := fun _ _ h => by cases h
  gdn_state := fun _ _ h => by cases h

/-- A model of two layers whose heads are of two sizes. -/
def twoWidths : CacheShape where
  hasVariableLayerDims := true
  isHybridRecurrent := false
  nLayers := 2
  nKvHeads := 1
  headDim := 64
  layers := fun l => ⟨bif l.beq 0 then 64 else 128, 1, l.beq 0, false⟩
  nKvHeadsPerLayer := none
  nLayerKvFromStart := 0
  slidingWindow := 8
  layers_headDim := fun h => by cases h
  layers_nKvHeads := fun _ _ => rfl
  perLayer_varies := none_perLayer
  perLayer_le := fun h => by cases h
  shared_varies := fun h => absurd h (Nat.lt_irrefl 0)
  fullSequence := false
  isMla := false
  isKda := false
  hybridShortconv := false
  convChannels := 0
  convDim := 0
  convKernel := 0
  nValueHeads := 0
  stateSize := 0
  valueHeadDim := 0
  kvLora := 0
  qkRope := 0
  kda_mla := fun h => by cases h
  kda_hybrid := fun h => by cases h
  kda_conv := fun h => by cases h
  gdn_conv := fun h => by cases h
  gdn_state := fun h => by cases h

/-- The count is too small for the first on the CPU and for the second on Vulkan. -/
theorem bytes_missed :
    ¬ shortconvModel.Covered 64 .f16 .cpu ∧ ¬ twoWidths.Covered 64 .f16 .vulkan := by
  constructor
  · intro h
    have hnone := ((covered_cpu rfl rfl).1 h).1 rfl rfl
    exact absurd hnone (by decide)
  · intro h
    rcases (covered_vulkan rfl rfl).1 h with h0 | hlarge | hslots
    · exact absurd h0 (by decide)
    · exact absurd hlarge (by decide)
    · rw [if_pos (by decide)] at hslots
      exact absurd (hslots.2.2 0 (by decide)) (by decide)

end CacheShape

end Kappai
