import Kappai.Sanity.CpuKv
import Kappai.Spec.KvShape

/-! The regions of the slots of a KV cache on the CPU backend. A cache with offsets of its own keeps
them apart; one that is laid out by strides does so only where all slots have the same rows, since its
buffer is sized by the smallest. -/

namespace Kappai

namespace CpuPriv

variable {p : CpuPriv} {a : KvArgs} {s : ℕ}

/-- With recorded offsets every operation starts a layer there. -/
theorem view_of_off {off : ℕ → ℕ} (hoff : p.kvLayerOff = some off)
    (heven : p.kvQuant = .f16 → 2 ∣ off s) (op : KvAccess) :
    p.view a s op = ⟨off s, p.layerRows a s * p.rowBytes a, p.rowBytes a⟩ := by
  cases hq : p.kvQuant with
  | q8_0 =>
    cases op <;>
      simp [view, viewPut, viewBlocks, viewBytes, kvLayerBase, rowBytes, kvRowBytes, hoff, hq]
  | f16 =>
    have hhalf : off s / 2 * 2 = off s := Nat.div_mul_cancel (heven hq)
    cases op <;>
      simp [view, viewPut, viewHalves, viewBytes, View.halves, kvLayerBase, rowBytes, kvRowBytes,
        hoff, hq, hhalf, Nat.mul_assoc]

/-- Without them every operation multiplies by the same stride. -/
theorem view_of_stride (hoff : p.kvLayerOff = none) (op : KvAccess) :
    p.view a s op =
      ⟨s * (a.nKvHeads * (p.layerRows a s * p.rowBytes a)), p.layerRows a s * p.rowBytes a,
        p.rowBytes a⟩ := by
  cases hq : p.kvQuant with
  | q8_0 =>
    cases op <;>
      simp [view, viewPut, viewBlocks, viewBytes, kvLayerBase, rowBytes, kvRowBytes, hoff, hq,
        Nat.mul_assoc]
  | f16 =>
    cases op <;>
      simp [view, viewPut, viewHalves, viewBytes, View.halves, kvLayerBase, rowBytes, kvRowBytes,
        hoff, hq, Nat.mul_assoc]

end CpuPriv

theorem foldl_min_le {cap : ℕ → ℕ} {l : List ℕ} {r : ℕ} :
    l.foldl (fun r i => min r (cap i)) r ≤ r ∧
      ∀ i ∈ l, l.foldl (fun r i => min r (cap i)) r ≤ cap i := by
  induction l generalizing r with
  | nil => exact ⟨le_rfl, by simp⟩
  | cons i l ih =>
    obtain ⟨hr, hl⟩ := ih (r := min r (cap i))
    rw [List.foldl_cons]
    refine ⟨hr.trans (min_le_left _ _), fun j hj => ?_⟩
    rcases List.mem_cons.1 hj with rfl | hj
    · exact hr.trans (min_le_right _ _)
    · exact hl j hj

theorem foldl_min_eq {cap : ℕ → ℕ} {l : List ℕ} {c : ℕ} (h : ∀ i ∈ l, cap i = c) :
    l.foldl (fun r i => min r (cap i)) c = c := by
  induction l with
  | nil => rfl
  | cons i l ih =>
    rw [List.foldl_cons, h i List.mem_cons_self, min_self]
    exact ih fun j hj => h j (List.mem_cons_of_mem i hj)

namespace KvShape

variable {m : KvShape}

/-- A model without dimensions of single layers has the same in all of them. -/
structure Uniform (m : KvShape) : Prop where
  slotKvHeads : ∀ l, m.slotKvHeads l = m.nKvHeads
  layerHeadDim : ∀ l, m.modelLayerHeadDim l = m.headDim
  nKvHeadsMax : m.nKvHeadsMax = m.nKvHeads
  headDimMax : m.headDimMax = m.headDim
  nKvLayers : m.nKvLayers = m.nLayers

theorem uniform (h : m.perLayerDims cpuCaps = false) : m.Uniform := by
  have hflags : m.hasVariableLayerDims = false ∧ m.isHybridRecurrent = false := by
    simpa [perLayerDims, cpuCaps] using h
  have hnone : m.nKvHeadsPerLayer = none := by
    by_contra hsome
    rcases m.perLayer_varies hsome with hv | hh
    · rw [hflags.1] at hv
      cases hv
    · rw [hflags.2] at hh
      cases hh
  refine ⟨fun l => ?_, fun l => ?_, ?_, ?_, ?_⟩
  · simp only [KvShape.slotKvHeads, hnone, modelLayerKvHeads]
    split_ifs with hl
    · simpa [hnone] using m.layers_nKvHeads l hl.1
    · rfl
  · unfold modelLayerHeadDim
    split_ifs with hl
    · exact m.layers_headDim hflags.1 l hl.1
    · rfl
  · simp [KvShape.nKvHeadsMax, hflags.1]
  · simp [KvShape.headDimMax, hflags.1]
  · have hshared : ¬ 0 < m.nLayerKvFromStart := fun h0 => by
      have := m.shared_varies h0
      rw [hflags.1] at this
      cases this
    simp [KvShape.nKvLayers, hshared]

end KvShape

namespace KvHolder

variable {h : KvHolder} {m : KvShape} {nCtx : ℕ} {quant : KvQuant} {stray : ℕ → ℕ × ℕ}

/-- The entry of the description for a slot is that of its layer, where the description has one. -/
def Described (h : KvHolder) (m : KvShape) (s : ℕ) : Prop :=
  match h with
  | .all => s < m.nLayers
  | .device _ => True

theorem rows_eq_zero (s : ℕ) (h0 : nCtx = 0) : h.rows m nCtx s = 0 := by
  subst h0
  simp [rows, KvShape.kvLayerPosCap, modelKvLayerPosCap]

theorem rows_pos {s : ℕ} (h0 : 0 < nCtx) : 0 < h.rows m nCtx s := by
  unfold rows KvShape.kvLayerPosCap modelKvLayerPosCap
  split_ifs <;> omega

/-- The capacity that `cpu_kv_alloc` takes from a description. -/
def descCap (d : KvDesc) (i : ℕ) : ℕ :=
  match d.layerPosCap with
  | some f => if 0 < f i then f i else d.nCtx
  | none => d.nCtx

theorem descCap_eq {s : ℕ} (hs : s < h.slots m) :
    descCap (h.desc m cpuCaps nCtx quant stray) s = h.rows m nCtx s := by
  have hfall : h.rows m nCtx s = 0 → nCtx = h.rows m nCtx s := by
    intro h0
    have hctx : ¬ 0 < nCtx := fun hpos => (rows_pos hpos).ne' h0
    omega
  have hwide : ¬ 0 < m.slidingWindow → nCtx = h.rows m nCtx s := by
    intro hw
    have h0 : m.slidingWindow = 0 := by omega
    simp [rows, KvShape.kvLayerPosCap, modelKvLayerPosCap, h0]
  cases h with
  | all =>
    have hn : 0 < m.nKvLayers := Nat.zero_lt_of_lt hs
    by_cases hw : 0 < m.slidingWindow
    · simpa [descCap, desc, KvShape.kvcacheInit, cpuCaps, hn, hw, rows, layer] using hfall
    · simpa [descCap, desc, KvShape.kvcacheInit, cpuCaps, hn, hw] using hwide hw
  | device holds =>
    by_cases hw : 0 < m.slidingWindow
    · simpa [descCap, desc, KvShape.kvcacheAllocSlots, cpuCaps, hw, rows, layer] using hfall
    · simpa [descCap, desc, KvShape.kvcacheAllocSlots, cpuCaps, hw] using hwide hw

/-- The entry of a description for a slot: head size and head count. -/
def dims (h : KvHolder) (m : KvShape) (stray : ℕ → ℕ × ℕ) (s : ℕ) : ℕ × ℕ :=
  match h with
  | .all => if s < m.nLayers then (m.modelLayerHeadDim s, m.slotKvHeads s) else stray s
  | .device _ => (m.modelLayerHeadDim (h.layer m s), m.slotKvHeads (h.layer m s))

theorem desc_eq (h : KvHolder) (m : KvShape) (nCtx : ℕ) (quant : KvQuant)
    (stray : ℕ → ℕ × ℕ) :
    (h.desc m cpuCaps nCtx quant stray).nKvLayers = h.slots m ∧
      (h.desc m cpuCaps nCtx quant stray).kvQuant = quant ∧
      (h.desc m cpuCaps nCtx quant stray).nKvHeads = m.nKvHeadsMax ∧
      (h.desc m cpuCaps nCtx quant stray).headDim = m.headDimMax ∧
      (h.desc m cpuCaps nCtx quant stray).layerDims =
        if m.perLayerDims cpuCaps then some (h.dims m stray) else none := by
  cases h <;> exact ⟨rfl, rfl, rfl, rfl, rfl⟩

theorem dims_eq {s : ℕ} (hd : h.Described m s) :
    h.dims m stray s = (m.modelLayerHeadDim (h.layer m s), m.slotKvHeads (h.layer m s)) := by
  cases h with
  | all => exact if_pos hd
  | device holds => rfl

/-- The bytes `cpu_kv_alloc` gives to a slot with dimensions of its own. -/
def allocBytes (h : KvHolder) (m : KvShape) (nCtx : ℕ) (quant : KvQuant) (stray : ℕ → ℕ × ℕ)
    (s : ℕ) : ℕ :=
  (h.dims m stray s).2 * (descCap (h.desc m cpuCaps nCtx quant stray) s *
    kvRowBytes quant (h.dims m stray s).1)

theorem allocBytes_eq {s : ℕ} (hs : s < h.slots m) (hd : h.Described m s) :
    h.allocBytes m nCtx quant stray s = h.slotBytes m nCtx quant s := by
  simp only [allocBytes, dims_eq hd, descCap_eq hs, slotBytes]

theorem cpuKvAlloc_common (d : KvDesc) :
    (cpuKvAlloc d).kvQuant = d.kvQuant ∧ (cpuKvAlloc d).kvPosCap = descCap d := by
  unfold cpuKvAlloc
  cases (if 0 < d.nKvLayers then d.layerDims else none) with
  | none => exact ⟨rfl, rfl⟩
  | some dims => exact ⟨rfl, rfl⟩

theorem alloc_dims (hd : m.perLayerDims cpuCaps = true) (hn : 0 < h.slots m) :
    (cpuKvAlloc (h.desc m cpuCaps nCtx quant stray)).kvLayerOff =
        some (layerOff (h.allocBytes m nCtx quant stray)) ∧
      (cpuKvAlloc (h.desc m cpuCaps nCtx quant stray)).kvKBytes =
        layerOff (h.allocBytes m nCtx quant stray) (h.slots m) := by
  obtain ⟨hlayers, hquant, -, -, hdims⟩ := desc_eq h m nCtx quant stray
  rw [if_pos hd] at hdims
  have hsome : (if 0 < (h.desc m cpuCaps nCtx quant stray).nKvLayers then
      (h.desc m cpuCaps nCtx quant stray).layerDims else none) = some (h.dims m stray) := by
    rw [hlayers, if_pos hn, hdims]
  unfold cpuKvAlloc
  rw [hsome, hlayers, hquant]
  exact ⟨rfl, rfl⟩

theorem alloc_strides (hd : m.perLayerDims cpuCaps = false) (hn : 0 < h.slots m) :
    (cpuKvAlloc (h.desc m cpuCaps nCtx quant stray)).kvLayerOff = none ∧
      (cpuKvAlloc (h.desc m cpuCaps nCtx quant stray)).kvKBytes =
        m.nKvHeads * kvUniformRows (h.desc m cpuCaps nCtx quant stray)
          (descCap (h.desc m cpuCaps nCtx quant stray)) * kvRowBytes quant m.headDim *
            h.slots m := by
  obtain ⟨hlayers, hquant, hheads, hdim, hdims⟩ := desc_eq h m nCtx quant stray
  rw [if_neg (by rw [hd]; exact Bool.false_ne_true)] at hdims
  have hnone : (if 0 < (h.desc m cpuCaps nCtx quant stray).nKvLayers then
      (h.desc m cpuCaps nCtx quant stray).layerDims else none) = none := by
    rw [hdims, ite_self]
  unfold cpuKvAlloc
  rw [hnone, hlayers, hquant, hheads, hdim, if_pos hn, (KvShape.uniform hd).nKvHeadsMax,
    (KvShape.uniform hd).headDimMax]
  exact ⟨rfl, rfl⟩

theorem Calls.rows_eq {s : ℕ} {a : KvArgs} (hs : s < h.slots m) (ha : h.Calls m nCtx s a) :
    (cpuKvAlloc (h.desc m cpuCaps nCtx quant stray)).layerRows a s = h.rows m nCtx s := by
  rw [CpuPriv.layerRows, (cpuKvAlloc_common _).2, descCap_eq hs, ha.nCtx]
  split_ifs with hpos
  · rfl
  · have hctx : ¬ 0 < nCtx := fun h0 => hpos (rows_pos h0)
    rw [rows_eq_zero s (by omega)]
    omega

theorem rowBytes_eq (a : KvArgs) :
    (cpuKvAlloc (h.desc m cpuCaps nCtx quant stray)).rowBytes a = kvRowBytes quant a.headDim := by
  rw [CpuPriv.rowBytes, (cpuKvAlloc_common _).1, (desc_eq h m nCtx quant stray).2.1]

/-- The view of a slot with an offset of its own. -/
theorem Calls.view_dims {s : ℕ} {a : KvArgs} (hs : s < h.slots m) (ha : h.Calls m nCtx s a)
    (hd : m.perLayerDims cpuCaps = true) (op : KvAccess) :
    (cpuKvAlloc (h.desc m cpuCaps nCtx quant stray)).view a s op =
      ⟨layerOff (h.allocBytes m nCtx quant stray) s,
        h.rows m nCtx s * kvRowBytes quant a.headDim, kvRowBytes quant a.headDim⟩ := by
  have hoff : (cpuKvAlloc (h.desc m cpuCaps nCtx quant stray)).kvLayerOff =
      some (layerOff (h.allocBytes m nCtx quant stray)) := (alloc_dims hd (Nat.zero_lt_of_lt hs)).1
  rw [CpuPriv.view_of_off hoff ?_ op, ha.rows_eq hs, rowBytes_eq]
  intro hq
  rw [(cpuKvAlloc_common _).1, (desc_eq h m nCtx quant stray).2.1] at hq
  refine dvd_layerOff fun i _ => ?_
  subst hq
  exact Dvd.dvd.mul_left (Dvd.dvd.mul_left (Dvd.intro_left _ rfl) _) _

/-- The view of a slot that is found by a stride. -/
theorem Calls.view_strides {s : ℕ} {a : KvArgs} (hs : s < h.slots m) (ha : h.Calls m nCtx s a)
    (hd : m.perLayerDims cpuCaps = false) (op : KvAccess) :
    (cpuKvAlloc (h.desc m cpuCaps nCtx quant stray)).view a s op =
      ⟨s * h.slotBytes m nCtx quant s, h.rows m nCtx s * kvRowBytes quant a.headDim,
        kvRowBytes quant a.headDim⟩ := by
  have hoff : (cpuKvAlloc (h.desc m cpuCaps nCtx quant stray)).kvLayerOff = none :=
    (alloc_strides hd (Nat.zero_lt_of_lt hs)).1
  have hu := KvShape.uniform hd
  have hheads : a.nKvHeads = m.slotKvHeads (h.layer m s) := by
    rcases ha.heads with he | he
    · exact he
    · rw [he, hu.nKvHeadsMax, hu.slotKvHeads]
  rw [CpuPriv.view_of_stride hoff op, ha.rows_eq hs, rowBytes_eq, hheads, ha.headDim]
  rfl

/-- A call that passes what `kvcache_put` does. -/
def layerArgs (h : KvHolder) (m : KvShape) (nCtx s : ℕ) : KvArgs :=
  ⟨m.slotKvHeads (h.layer m s), m.modelLayerHeadDim (h.layer m s), nCtx,
    m.slotKvHeads (h.layer m s)⟩

theorem layerArgs_calls (s : ℕ) : h.Calls m nCtx s (h.layerArgs m nCtx s) :=
  ⟨rfl, rfl, ite_self _, Or.inl rfl⟩

/-- All slots have rows for the same number of positions. -/
def SameRows (h : KvHolder) (m : KvShape) (nCtx : ℕ) : Prop :=
  ∀ s < h.slots m, ∀ t < h.slots m, h.rows m nCtx s = h.rows m nCtx t

theorem described_of_slots (hle : m.nKvLayers ≤ m.nLayers) : ∀ s < h.slots m, h.Described m s := by
  cases h with
  | all => exact fun s hs => lt_of_lt_of_le hs hle
  | device holds => exact fun _ _ => trivial

/-- A slot that the description has no entry for is as large as the model's own sizes make it. -/
theorem slotBytes_undescribed {s : ℕ} (hd : ¬ h.Described m s) :
    h.slotBytes m nCtx quant s = nCtx * (m.nKvHeads * kvRowBytes quant m.headDim) := by
  cases h with
  | device holds => exact absurd trivial hd
  | all =>
    have hs : ¬ s < m.nLayers := hd
    have hheads : m.slotKvHeads s = m.nKvHeads := by
      unfold KvShape.slotKvHeads KvShape.modelLayerKvHeads
      cases m.nKvHeadsPerLayer <;> simp [hs]
    simp only [slotBytes, rows, layer, hheads, KvShape.kvLayerPosCap, KvShape.modelLayerHeadDim, hs,
      if_false, false_and]
    exact Nat.mul_left_comm _ _ _

theorem regions_dims (hd : m.perLayerDims cpuCaps = true) (hn : 0 < h.slots m)
    (hle : ∀ s < h.slots m, h.slotBytes m nCtx quant s ≤ h.allocBytes m nCtx quant stray s) :
    Regions (h.slots m) (layerOff (h.allocBytes m nCtx quant stray)) (h.slotBytes m nCtx quant)
      (cpuKvAlloc (h.desc m cpuCaps nCtx quant stray)).kvKBytes := by
  rw [(alloc_dims hd hn).2]
  refine Regions.consecutive (fun s hs => ?_) fun s t hst ht => ?_
  · exact (Nat.add_le_add_left (hle s hs) _).trans (layerOff_add_le _ hs)
  · exact (Nat.add_le_add_left (hle s (hst.trans ht)) _).trans (layerOff_add_le _ hst)

/-- The bytes of a slot of a model that is the same in all layers. -/
theorem slotBytes_uniform (hd : m.perLayerDims cpuCaps = false) (s : ℕ) :
    h.slotBytes m nCtx quant s =
      h.rows m nCtx s * (m.nKvHeads * kvRowBytes quant m.headDim) := by
  have hu := KvShape.uniform hd
  rw [slotBytes, hu.slotKvHeads, hu.layerHeadDim]
  exact Nat.mul_left_comm _ _ _

/-- The rows `cpu_kv_alloc` sizes a uniform buffer by. -/
def allocRows (h : KvHolder) (m : KvShape) (nCtx : ℕ) (quant : KvQuant)
    (stray : ℕ → ℕ × ℕ) : ℕ :=
  kvUniformRows (h.desc m cpuCaps nCtx quant stray)
    (descCap (h.desc m cpuCaps nCtx quant stray))

theorem allocRows_le {s : ℕ} (hs : s < h.slots m) :
    h.allocRows m nCtx quant stray ≤ h.rows m nCtx s := by
  have hcap : descCap (h.desc m cpuCaps nCtx quant stray) s = h.rows m nCtx s := descCap_eq hs
  unfold allocRows kvUniformRows
  rw [(desc_eq h m nCtx quant stray).1, if_neg (Nat.zero_lt_of_lt hs).ne', ← hcap]
  exact foldl_min_le.2 s (List.mem_range.2 hs)

theorem allocRows_eq {s : ℕ} (hs : s < h.slots m) (hsame : h.SameRows m nCtx) :
    h.allocRows m nCtx quant stray = h.rows m nCtx s := by
  have hall : ∀ t < h.slots m,
      descCap (h.desc m cpuCaps nCtx quant stray) t = h.rows m nCtx s :=
    fun t ht => (descCap_eq ht).trans (hsame t ht s hs)
  unfold allocRows kvUniformRows
  rw [(desc_eq h m nCtx quant stray).1, if_neg (Nat.zero_lt_of_lt hs).ne',
    hall 0 (Nat.zero_lt_of_lt hs)]
  exact foldl_min_eq fun t ht => hall t (List.mem_range.1 ht)

theorem kvKBytes_uniform (hd : m.perLayerDims cpuCaps = false) (hn : 0 < h.slots m) :
    (cpuKvAlloc (h.desc m cpuCaps nCtx quant stray)).kvKBytes =
      h.slots m * (h.allocRows m nCtx quant stray *
        (m.nKvHeads * kvRowBytes quant m.headDim)) := by
  rw [(alloc_strides hd hn).2]
  change m.nKvHeads * h.allocRows m nCtx quant stray * _ * _ = _
  ring

theorem regions_uniform (hd : m.perLayerDims cpuCaps = false) (hn : 0 < h.slots m)
    (hsame : h.SameRows m nCtx) :
    Regions (h.slots m) (fun s => s * h.slotBytes m nCtx quant s) (h.slotBytes m nCtx quant)
      (cpuKvAlloc (h.desc m cpuCaps nCtx quant stray)).kvKBytes := by
  have hsize : ∀ s < h.slots m, h.slotBytes m nCtx quant s = h.slotBytes m nCtx quant 0 := by
    intro s hs
    rw [slotBytes_uniform hd, slotBytes_uniform hd, hsame s hs 0 hn]
  have htotal : (cpuKvAlloc (h.desc m cpuCaps nCtx quant stray)).kvKBytes =
      h.slots m * h.slotBytes m nCtx quant 0 := by
    rw [kvKBytes_uniform hd hn, allocRows_eq hn hsame, slotBytes_uniform hd]
  have hstep : ∀ s t, s < t →
      s * h.slotBytes m nCtx quant 0 + h.slotBytes m nCtx quant 0 ≤
        t * h.slotBytes m nCtx quant 0 := by
    intro s t hst
    rw [← Nat.succ_mul]
    exact Nat.mul_le_mul_right _ hst
  rw [htotal]
  refine Regions.consecutive (fun s hs => ?_) fun s t hst ht => ?_
  · rw [hsize s hs]
    exact hstep s _ hs
  · rw [hsize s (hst.trans ht), hsize t ht]
    exact hstep s t hst

/-- What the layout needs to be sound: rows of no bytes at all, or an entry for every slot and either
offsets or the same rows everywhere. -/
def SoundLayout (h : KvHolder) (m : KvShape) (nCtx : ℕ) (quant : KvQuant) : Prop :=
  nCtx * (m.nKvHeads * kvRowBytes quant m.headDim) = 0 ∨
    (∀ s < h.slots m, h.Described m s) ∧ (m.perLayerDims cpuCaps = true ∨ h.SameRows m nCtx)

theorem SoundLayout.own (hsound : h.SoundLayout m nCtx quant) : h.OwnRegions m nCtx quant := by
  intro stray
  rcases Nat.eq_zero_or_pos (h.slots m) with hn | hn
  · refine ⟨fun _ => 0, fun s hs => absurd hs (by omega), ?_⟩
    exact Regions.empty (fun s hs => absurd hs (by omega)) fun s hs => absurd hs (by omega)
  cases hd : m.perLayerDims cpuCaps with
  | true =>
    refine ⟨_, fun s hs a ha op => ha.view_dims hs hd op, regions_dims hd hn fun s hs => ?_⟩
    by_cases hdesc : h.Described m s
    · exact (allocBytes_eq hs hdesc).ge
    · rw [slotBytes_undescribed hdesc]
      rcases hsound with h0 | ⟨hall, -⟩
      · exact h0 ▸ Nat.zero_le _
      · exact absurd (hall s hs) hdesc
  | false =>
    refine ⟨_, fun s hs a ha op => ha.view_strides hs hd op, ?_⟩
    rcases hsound with h0 | ⟨-, hdims | hsame⟩
    · have hsize : ∀ s < h.slots m, h.slotBytes m nCtx quant s = 0 := by
        intro s hs
        rw [slotBytes_uniform hd]
        rcases Nat.mul_eq_zero.1 h0 with hctx | hrow
        · rw [rows_eq_zero s hctx, Nat.zero_mul]
        · rw [hrow, Nat.mul_zero]
      exact Regions.empty (fun s hs => by rw [hsize s hs, Nat.mul_zero]) hsize
    · rw [hd] at hdims
      cases hdims
    · exact regions_uniform hd hn hsame

/-- A slot without an entry gets what is found behind the arrays, which may be nothing. -/
theorem described_of_own (hown : h.OwnRegions m nCtx quant)
    (hpos : 0 < nCtx * (m.nKvHeads * kvRowBytes quant m.headDim)) {s : ℕ} (hs : s < h.slots m) :
    h.Described m s := by
  by_contra hdesc
  cases h with
  | device holds => exact hdesc trivial
  | all =>
    have hle : m.nLayers ≤ s := Nat.le_of_not_lt hdesc
    have hshared : 0 < m.nLayerKvFromStart := by
      by_contra h0
      have hslots : s < m.nKvLayers := hs
      rw [KvShape.nKvLayers, if_neg h0] at hslots
      omega
    have hd : m.perLayerDims cpuCaps = true := by
      simp [KvShape.perLayerDims, cpuCaps, m.shared_varies hshared]
    obtain ⟨start, hview, hregions⟩ := hown fun _ => (0, 0)
    have hstart : layerOff (KvHolder.all.allocBytes m nCtx quant fun _ => (0, 0)) s = start s :=
      congrArg CpuPriv.View.base (((layerArgs_calls s).view_dims hs hd .put).symm.trans
        (hview s hs _ (layerArgs_calls s) .put))
    have hzero : ∀ i, s ≤ i → KvHolder.all.allocBytes m nCtx quant (fun _ => (0, 0)) i = 0 := by
      intro i hi
      have hnot : ¬ i < m.nLayers := by omega
      simp [allocBytes, dims, hnot]
    have hinside := hregions.inside s hs
    rw [(alloc_dims hd (Nat.zero_lt_of_lt hs)).2, layerOff_const hs.le hzero, hstart,
      slotBytes_undescribed hdesc] at hinside
    omega

/-- Slots that are found by strides and fit the buffer all have the rows it is sized by. -/
theorem sameRows_of_own (hown : h.OwnRegions m nCtx quant)
    (hpos : 0 < m.nKvHeads * kvRowBytes quant m.headDim)
    (hd : m.perLayerDims cpuCaps = false) : h.SameRows m nCtx := by
  intro s hs t ht
  have hn : 0 < h.slots m := Nat.zero_lt_of_lt hs
  obtain ⟨start, -, hregions⟩ := hown fun _ => (0, 0)
  rw [kvKBytes_uniform hd hn] at hregions
  have hrows : ∀ i < h.slots m,
      h.rows m nCtx i = h.allocRows m nCtx quant fun _ => (0, 0) := by
    intro i hi
    have hsize := hregions.size_eq (fun j hj => by
      rw [slotBytes_uniform hd]
      exact Nat.mul_le_mul_right _ (allocRows_le hj)) i hi
    rw [slotBytes_uniform hd] at hsize
    exact Nat.eq_of_mul_eq_mul_right hpos hsize
  rw [hrows s hs, hrows t ht]

/-- **The regions of a KV cache on the CPU.** The operations find the slots in places of their own
inside the buffer just where the layout is sound. -/
theorem ownRegions_iff (h : KvHolder) (m : KvShape) (nCtx : ℕ) (quant : KvQuant) :
    h.OwnRegions m nCtx quant ↔ h.SoundLayout m nCtx quant := by
  refine ⟨fun hown => ?_, SoundLayout.own⟩
  rcases Nat.eq_zero_or_pos (nCtx * (m.nKvHeads * kvRowBytes quant m.headDim)) with h0 | hpos
  · exact Or.inl h0
  · refine Or.inr ⟨fun s hs => described_of_own hown hpos hs, ?_⟩
    cases hd : m.perLayerDims cpuCaps with
    | true => exact Or.inl rfl
    | false => exact Or.inr (sameRows_of_own hown (Nat.pos_of_mul_pos_left hpos) hd)

/-- A model with layers of their own sizes whose file says that -1 layers share K/V. -/
def overShared : KvShape where
  hasVariableLayerDims := true
  isHybridRecurrent := false
  nLayers := 1
  nKvHeads := 1
  headDim := 64
  layers := fun _ => ⟨64, 1, false, false⟩
  nKvHeadsPerLayer := none
  nLayerKvFromStart := 2
  slidingWindow := 0
  layers_headDim := fun h => by cases h
  layers_nKvHeads := fun _ _ => rfl
  perLayer_varies := fun h => absurd rfl h
  perLayer_le := fun h => by cases h
  shared_varies := fun _ => rfl

/-- A model of two equal layers, the first with a window of 8 positions. -/
def mixedWindow : KvShape where
  hasVariableLayerDims := false
  isHybridRecurrent := false
  nLayers := 2
  nKvHeads := 1
  headDim := 64
  layers := fun l => ⟨64, 1, l == 0, false⟩
  nKvHeadsPerLayer := none
  nLayerKvFromStart := 0
  slidingWindow := 8
  layers_headDim := fun _ _ _ => rfl
  layers_nKvHeads := fun _ _ => rfl
  perLayer_varies := fun h => absurd rfl h
  perLayer_le := fun _ _ _ => Nat.zero_le _
  shared_varies := fun h => absurd h (lt_irrefl 0)

/-- Neither of them keeps its slots in the buffer. -/
theorem regions_outside :
    ¬ KvHolder.all.OwnRegions overShared 64 .f16 ∧ ¬ KvHolder.all.OwnRegions mixedWindow 64 .f16 := by
  constructor
  · intro hown
    have hdesc : KvHolder.all.Described overShared 1 :=
      described_of_own hown (by decide) (by decide)
    exact absurd hdesc (lt_irrefl 1)
  · intro hown
    have hsame : KvHolder.all.SameRows mixedWindow 64 :=
      sameRows_of_own hown (by decide) (by decide)
    exact absurd (hsame 0 (by decide) 1 (by decide)) (by decide)

end KvHolder

end Kappai
