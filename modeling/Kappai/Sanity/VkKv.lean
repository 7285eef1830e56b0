import Kappai.Sanity.CpuKv
import Kappai.Spec.VkKv

/-! What `vk_kv_alloc` computes: in both layouts the offsets are sums of the sizes of the layers before,
and the K store holds every layer. -/

namespace Kappai

theorem layerOff_mul (bytes : ℕ → ℕ) (c n : ℕ) :
    layerOff (fun i => bytes i * c) n = layerOff bytes n * c := by
  induction n with
  | zero => exact (Nat.zero_mul c).symm
  | succ n ih => simp only [layerOff, ih, Nat.add_mul]

theorem layerOff_same (c n : ℕ) : layerOff (fun _ => c) n = n * c := by
  induction n with
  | zero => exact (Nat.zero_mul c).symm
  | succ n ih => rw [layerOff, ih, Nat.succ_mul]

theorem layerOff_eq_zero {bytes : ℕ → ℕ} {n : ℕ} (h : ∀ i < n, bytes i = 0) :
    layerOff bytes n = 0 := by
  induction n with
  | zero => rfl
  | succ n ih =>
    rw [layerOff, ih fun i hi => h i (Nat.lt_succ_of_lt hi), h n (Nat.lt_succ_self n)]

theorem le_foldl_max {f : ℕ → ℕ} {l : List ℕ} {r : ℕ} :
    r ≤ l.foldl (fun r i => max r (f i)) r ∧
      ∀ i ∈ l, f i ≤ l.foldl (fun r i => max r (f i)) r := by
  induction l generalizing r with
  | nil => exact ⟨le_rfl, by simp⟩
  | cons i l ih =>
    obtain ⟨hr, hl⟩ := ih (r := max r (f i))
    rw [List.foldl_cons]
    refine ⟨(le_max_left _ _).trans hr, fun j hj => ?_⟩
    rcases List.mem_cons.1 hj with rfl | hj
    · exact (le_max_right _ _).trans hr
    · exact hl j hj

theorem kvRowBytes_mono {q : KvQuant} {a b : ℕ} (h : a ≤ b) : kvRowBytes q a ≤ kvRowBytes q b := by
  cases q with
  | f16 => exact Nat.mul_le_mul_right _ h
  | q8_0 => exact Nat.mul_le_mul_right _ (Nat.div_le_div_right (Nat.add_le_add_right h _))

theorem kvRowBytes_eq_zero {q : KvQuant} {hd : ℕ} : kvRowBytes q hd = 0 ↔ hd = 0 := by
  cases q with
  | f16 => simp [kvRowBytes]
  | q8_0 =>
    simp only [kvRowBytes]
    omega

theorem kvRowBytes_ne_one (q : KvQuant) (hd : ℕ) : kvRowBytes q hd ≠ 1 := by
  cases q <;> simp only [kvRowBytes] <;> omega

/-- What an allocation that succeeds returns. -/
structure VkStore.Made (caps : VkCaps) (grants : VkGrants) (total perLayerSize n : ℕ)
    (layerBytes : Option (ℕ → ℕ)) (s : VkStore) : Prop where
  chunked_eq : s.chunked = (vkNeedsChunking caps total n || !grants.single)
  layers_eq : s.nKvLayers = n
  total_eq : s.total = total
  bytes_eq : s.layerBytes = layerBytes
  size_eq : s.perLayerSize = perLayerForChecks perLayerSize n layerBytes
  single_fits : s.chunked = false → total ≤ caps.maxStorageBufferRange
  layer_fits : s.chunked = true →
    perLayerForChecks perLayerSize n layerBytes ≤ caps.maxStorageBufferRange

theorem vkKvStoreAlloc_made {caps : VkCaps} {grants : VkGrants} {total perLayerSize n : ℕ}
    {layerBytes : Option (ℕ → ℕ)} {offElems offBytes : ℕ → ℕ} {s : VkStore}
    (h : vkKvStoreAlloc caps grants total perLayerSize n layerBytes offElems offBytes = some s) :
    s.Made caps grants total perLayerSize n layerBytes ∧ s.layerOffElems = offElems ∧
      s.layerOffBytes = offBytes := by
  unfold vkKvStoreAlloc at h
  dsimp only at h
  split_ifs at h with hsingle hlast hbig hchunks
  · cases h
    simp only [Bool.and_eq_true, Bool.not_eq_true'] at hsingle
    refine ⟨⟨by simp [hsingle], rfl, rfl, rfl, rfl, fun _ => ?_, nofun⟩, rfl, rfl⟩
    have hfit := hsingle.1
    simp only [vkNeedsChunking, Bool.or_eq_false_iff, decide_eq_false_iff_not] at hfit
    omega
  · cases h
    refine ⟨⟨?_, rfl, rfl, rfl, rfl, nofun, fun _ => by omega⟩, rfl, rfl⟩
    cases hn : vkNeedsChunking caps total n with
    | true => rfl
    | false =>
      cases hg : grants.single with
      | true => exact absurd (by simp [hn, hg]) hsingle
      | false => rfl

/-- The size of a layer, in bytes and in elements. -/
def vkLayerBytes (d : KvDesc) (l : ℕ) : ℕ :=
  match d.layerDims with
  | some dims => (dims l).2 * d.nCtx * kvRowBytes d.kvQuant (dims l).1
  | none => d.nCtx * d.nKvHeads * kvRowBytes d.kvQuant d.headDim

def vkLayerElems (d : KvDesc) (l : ℕ) : ℕ :=
  match d.layerDims with
  | some dims => (dims l).2 * d.nCtx * (dims l).1
  | none => d.nCtx * d.nKvHeads * d.headDim

theorem vkLayers_pos (d : KvDesc) : 0 < vkLayers d := by
  unfold vkLayers
  split_ifs <;> omega

theorem vkTotal_eq (d : KvDesc) : vkTotal d = layerOff (vkLayerBytes d) (vkLayers d) := by
  unfold vkTotal vkLayerBytes
  cases d.layerDims with
  | some dims => rfl
  | none => rw [layerOff_same, Nat.mul_comm]

theorem vkLayerBytes_f16 {d : KvDesc} (h : d.kvQuant = .f16) (l : ℕ) :
    vkLayerBytes d l = vkLayerElems d l * 2 := by
  unfold vkLayerBytes vkLayerElems
  cases d.layerDims <;> simp [h, kvRowBytes, Nat.mul_assoc]

/-- The stores of a cache. -/
structure VkKv.Laid (caps : VkCaps) (gk gv : VkGrants) (d : KvDesc) (kv : VkKv) : Prop where
  quant : kv.kvQuant = d.kvQuant
  rowBytes : kv.kvRowBytes = vkStoredRow d
  k_chunked : kv.k.chunked = vkSplits caps gk d
  v_chunked : kv.v.chunked = vkSplits caps gv d
  layers : ∀ side, (kv.store side).nKvLayers = vkLayers d
  total : ∀ side, (kv.store side).total = vkTotal d
  offBytes : ∀ l, kv.k.layerOffBytes l = layerOff (vkLayerBytes d) l
  offElems : ∀ l, kv.k.layerOffElems l = layerOff (vkLayerElems d) l
  k_layer : kv.k.chunked = true → ∀ l < vkLayers d, kv.k.bufSize l = max 1 (vkLayerBytes d l)
  v_layer : kv.v.chunked = true → ∀ l < vkLayers d,
    kv.v.bufSize l = max 1 (if d.layerDims = none then 0 else vkLayerBytes d l)
  k_single : kv.k.chunked = false → vkTotal d < 2 ^ 32
  k_chunk : kv.k.chunked = true → ∀ l < vkLayers d, vkLayerBytes d l < 2 ^ 32

/-- The stores in terms of the arguments of `vk_kv_store_alloc`. -/
theorem vkKvAlloc_stores {caps : VkCaps} {gk gv : VkGrants} {d : KvDesc} {kv : VkKv}
    (h : vkKvAlloc caps gk gv d = some kv) :
    kv.kvQuant = d.kvQuant ∧ kv.kvRowBytes = vkStoredRow d ∧
      ∃ perLayer, (d.layerDims = none → perLayer = vkLayerBytes d 0) ∧
        vkKvStoreAlloc caps gk (vkTotal d) perLayer (vkLayers d)
          (d.layerDims.map fun _ => vkLayerBytes d) (layerOff (vkLayerElems d))
            (layerOff (vkLayerBytes d)) = some kv.k ∧
        vkKvStoreAlloc caps gv (vkTotal d) 0 (vkLayers d)
          (d.layerDims.map fun _ => vkLayerBytes d) (layerOff (vkLayerElems d))
            (layerOff (vkLayerBytes d)) = some kv.v := by
  unfold vkKvAlloc at h
  cases hd : d.layerDims with
  | none =>
    have hbytes : vkLayerBytes d = fun _ => d.nCtx * d.nKvHeads * kvRowBytes d.kvQuant d.headDim := by
      funext l
      rw [vkLayerBytes, hd]
    have helems : vkLayerElems d = fun _ => d.nCtx * d.nKvHeads * d.headDim := by
      funext l
      rw [vkLayerElems, hd]
    have htotal : vkTotal d =
        d.nCtx * d.nKvHeads * kvRowBytes d.kvQuant d.headDim * vkLayers d := by
      rw [vkTotal, hd]
    have hoffElems : layerOff (vkLayerElems d) =
        fun i => i * d.nCtx * d.nKvHeads * d.headDim := by
      funext l
      rw [helems, layerOff_same]
      ring
    have hoffBytes : layerOff (vkLayerBytes d) =
        fun i => i * (d.nCtx * d.nKvHeads * kvRowBytes d.kvQuant d.headDim) := by
      funext l
      rw [hbytes, layerOff_same]
    simp only [hd, Option.bind_eq_some_iff, Option.map_eq_some_iff] at h
    obtain ⟨k, hk, v, hv, rfl⟩ := h
    rw [hoffElems, hoffBytes, htotal]
    exact ⟨rfl, rfl, _, fun _ => by rw [hbytes], hk, hv⟩
  | some dims =>
    have hbytes : vkLayerBytes d =
        fun i => (dims i).2 * d.nCtx * kvRowBytes d.kvQuant (dims i).1 := by
      funext l
      rw [vkLayerBytes, hd]
    have helems : vkLayerElems d = fun i => (dims i).2 * d.nCtx * (dims i).1 := by
      funext l
      rw [vkLayerElems, hd]
    have hone : some dims ≠ none := Option.some_ne_none dims
    simp only [hd, Option.bind_eq_some_iff, Option.map_eq_some_iff] at h
    obtain ⟨k, hk, v, hv, rfl⟩ := h
    cases hq : d.kvQuant with
    | q8_0 =>
      simp only [hq] at hk hv
      rw [vkTotal_eq, hbytes, helems, hq]
      exact ⟨rfl, rfl, _, fun hnone => absurd hnone hone, hk, hv⟩
    | f16 =>
      have htotal : vkTotal d = layerOff (vkLayerElems d) (vkLayers d) * 2 := by
        rw [vkTotal_eq, ← layerOff_mul]
        exact congrArg (fun f => layerOff f _) (funext fun l => vkLayerBytes_f16 hq l)
      simp only [hq] at hk hv
      rw [htotal, hbytes, helems, hq]
      exact ⟨rfl, rfl, _, fun hnone => absurd hnone hone, hk, hv⟩

theorem vkKvAlloc_laid {caps : VkCaps} {gk gv : VkGrants} {d : KvDesc} {kv : VkKv}
    (h : vkKvAlloc caps gk gv d = some kv) : kv.Laid caps gk gv d := by
  obtain ⟨hquant, hrow, perLayer, hper, hk, hv⟩ := vkKvAlloc_stores h
  obtain ⟨mk, hke, hkb⟩ := vkKvStoreAlloc_made hk
  obtain ⟨mv, -, -⟩ := vkKvStoreAlloc_made hv
  have hchecks : ∀ l < vkLayers d, vkLayerBytes d l ≤
      perLayerForChecks perLayer (vkLayers d) (d.layerDims.map fun _ => vkLayerBytes d) := by
    intro l hl
    cases hd : d.layerDims with
    | none =>
      have hsame : vkLayerBytes d l = vkLayerBytes d 0 := by simp only [vkLayerBytes, hd]
      rw [hsame, ← hper hd]
      exact le_rfl
    | some dims => exact le_foldl_max.2 l (List.mem_range.2 hl)
  refine ⟨hquant, hrow, mk.chunked_eq, mv.chunked_eq, ?_, ?_, fun l => by rw [hkb],
    fun l => by rw [hke], fun hc l hl => ?_, fun hc l hl => ?_, fun hc => ?_, fun hc l hl => ?_⟩
  · rintro (_ | _)
    · exact mk.layers_eq
    · exact mv.layers_eq
  · rintro (_ | _)
    · exact mk.total_eq
    · exact mv.total_eq
  · rw [VkStore.bufSize, if_pos hc, mk.bytes_eq, mk.size_eq]
    cases hd : d.layerDims with
    | none =>
      have hsame : vkLayerBytes d l = vkLayerBytes d 0 := by simp only [vkLayerBytes, hd]
      rw [hsame, ← hper hd]
      rfl
    | some dims => rfl
  · rw [VkStore.bufSize, if_pos hc, mv.bytes_eq, mv.size_eq]
    cases hd : d.layerDims with
    | none => rfl
    | some dims => rfl
  · exact (mk.single_fits hc).trans_lt caps.range_lt
  · exact ((hchecks l hl).trans (mk.layer_fits hc)).trans_lt caps.range_lt

end Kappai
