import Kappai.Sanity.VkKv

/-! The rows of a KV cache on the Vulkan backend: when all operations agree on them. The shaders take the
row size of the layer, the copies that of the largest row, and only the offsets of the K store are
ever used. -/

namespace Kappai

theorem vkStoredRow_none {d : KvDesc} (h : d.layerDims = none) :
    vkStoredRow d = kvRowBytes d.kvQuant d.headDim := by
  have hmax : vkMaxRowBytes d = kvRowBytes d.kvQuant d.headDim := by rw [vkMaxRowBytes, h]
  rw [vkStoredRow, hmax]
  split_ifs with hpos
  · rfl
  · have h0 : kvRowBytes d.kvQuant d.headDim = 0 := by omega
    rw [h0, kvRowBytes_eq_zero.1 h0]

namespace VkModel

variable {caps : VkCaps} {gk gv : VkGrants} {M : VkModel} {kv : VkKv}

/-- The bytes of a row of a layer. -/
def width (M : VkModel) (l : ℕ) : ℕ := kvRowBytes M.desc.kvQuant (M.dims l).1

theorem width_le (M : VkModel) {l : ℕ} (hl : l < vkLayers M.desc) :
    M.width l ≤ vkMaxRowBytes M.desc := by
  unfold width vkMaxRowBytes
  cases hd : M.desc.layerDims with
  | none => exact kvRowBytes_mono (M.dims_le hd l).1
  | some dims =>
    rw [M.dims_layer dims hd]
    exact (le_foldl_max (f := fun i => kvRowBytes M.desc.kvQuant (dims i).1)).2 l
      (List.mem_range.2 hl)

theorem maxRow_le_stored (d : KvDesc) : vkMaxRowBytes d ≤ vkStoredRow d := by
  unfold vkStoredRow
  split_ifs with h
  · exact le_rfl
  · omega

/-- What the rows of a cache need: every layer has the largest row, of an even number of f16 elements;
a V store that is split has sizes for its parts; and the stores are split alike, unless one layer
has all rows. -/
structure Fits (M : VkModel) (caps : VkCaps) (gk gv : VkGrants) : Prop where
  rows : ∀ l < vkLayers M.desc, 0 < (M.dims l).2 → 0 < M.desc.nCtx →
    M.width l = vkStoredRow M.desc ∧ (M.desc.kvQuant = .f16 → 2 ∣ (M.dims l).1)
  filled : vkSplits caps gv M.desc = true → M.desc.layerDims ≠ none ∨ ∀ l, ¬ M.Busy l
  alike : vkSplits caps gk M.desc = vkSplits caps gv M.desc ∨
    ∀ l l', M.Busy l → M.Busy l' → l = l'

/-- A layer's rows take no more than its share of a store. -/
theorem layer_le {l : ℕ} (hrow : M.width l = vkStoredRow M.desc) :
    (M.dims l).2 * (M.desc.nCtx * M.width l) ≤ vkLayerBytes M.desc l := by
  unfold vkLayerBytes
  cases hd : M.desc.layerDims with
  | none =>
    have hheads := (M.dims_le hd l).2
    have hsize : M.desc.nCtx * M.desc.nKvHeads * kvRowBytes M.desc.kvQuant M.desc.headDim =
        M.desc.nKvHeads * (M.desc.nCtx * kvRowBytes M.desc.kvQuant M.desc.headDim) := by ring
    dsimp only
    rw [hrow, vkStoredRow_none hd, hsize]
    exact Nat.mul_le_mul_right _ hheads
  | some dims =>
    dsimp only
    rw [width, M.dims_layer dims hd, Nat.mul_assoc]

theorem dims_layer_bytes (hd : M.desc.layerDims ≠ none) (l : ℕ) :
    vkLayerBytes M.desc l = (M.dims l).2 * (M.desc.nCtx * M.width l) := by
  obtain ⟨dims, hdims⟩ := Option.ne_none_iff_exists'.1 hd
  rw [vkLayerBytes, hdims, width, M.dims_layer dims hdims, ← Nat.mul_assoc]

/-- A row and what is before it in the layer, in cells of any size. -/
theorem HasRow.rows_le {l head pos : ℕ} (h : M.HasRow l head pos) (stride : ℕ) :
    head * (M.desc.nCtx * stride) + pos * stride + stride ≤
      (M.dims l).2 * (M.desc.nCtx * stride) := by
  have hpos : pos * stride + stride ≤ M.desc.nCtx * stride :=
    calc pos * stride + stride = (pos + 1) * stride := by ring
      _ ≤ M.desc.nCtx * stride := Nat.mul_le_mul_right _ h.pos
  calc head * (M.desc.nCtx * stride) + pos * stride + stride
      ≤ head * (M.desc.nCtx * stride) + M.desc.nCtx * stride := by omega
    _ = (head + 1) * (M.desc.nCtx * stride) := by ring
    _ ≤ (M.dims l).2 * (M.desc.nCtx * stride) := Nat.mul_le_mul_right _ h.head

theorem HasRow.busy {l head pos b : ℕ} (h : M.HasRow l head pos) (hb : b < M.width l) :
    M.Busy l :=
  ⟨h.layer, Nat.mul_pos (Nat.mul_pos (Nat.zero_lt_of_lt h.head) (Nat.zero_lt_of_lt h.pos))
    (Nat.zero_lt_of_lt hb)⟩

end VkModel

namespace VkKv.Laid

open VkModel

variable {caps : VkCaps} {gk gv : VkGrants} {M : VkModel} {kv : VkKv}
  (hlaid : kv.Laid caps gk gv M.desc)

include hlaid

theorem offBytes_eq {l : ℕ} (hl : l < vkLayers M.desc) :
    kv.k.offBytes l = if kv.k.chunked then 0 else layerOff (vkLayerBytes M.desc) l := by
  have hmin : min l kv.k.nKvLayers = l := by
    have hlayers : kv.k.nKvLayers = vkLayers M.desc := hlaid.layers .k
    omega
  rw [VkStore.offBytes, hmin, hlaid.offBytes]

theorem offElems_eq {l : ℕ} (hl : l < vkLayers M.desc) :
    kv.k.offElems l = if kv.k.chunked then 0 else layerOff (vkLayerElems M.desc) l := by
  have hmin : min l kv.k.nKvLayers = l := by
    have hlayers : kv.k.nKvLayers = vkLayers M.desc := hlaid.layers .k
    omega
  rw [VkStore.offElems, hmin, hlaid.offElems]

/-- Offsets in elements are half of those in bytes. -/
theorem offElems_half {l : ℕ} (hl : l < vkLayers M.desc) (hq : M.desc.kvQuant = .f16) :
    kv.k.offElems l * 2 = kv.k.offBytes l := by
  rw [hlaid.offElems_eq hl, hlaid.offBytes_eq hl]
  split_ifs with hc
  · rfl
  · rw [← layerOff_mul]
    exact congrArg (fun f => layerOff f l) (funext fun i => (vkLayerBytes_f16 hq i).symm)

theorem layerBuf_eq {l : ℕ} (hl : l < vkLayers M.desc) (side : KvSide) :
    (kv.store side).layerBuf l = if (kv.store side).chunked then l else 0 := by
  have hmin : min l ((kv.store side).nKvLayers - 1) = l := by
    rw [hlaid.layers side]
    omega
  rw [VkStore.layerBuf, hmin]

/-- The K store has the layer, below 4 GiB. -/
theorem k_room {l : ℕ} (hl : l < vkLayers M.desc) :
    kv.k.offBytes l + vkLayerBytes M.desc l < 2 ^ 32 := by
  rw [hlaid.offBytes_eq hl]
  split_ifs with hc
  · rw [Nat.zero_add]
    exact hlaid.k_chunk hc l hl
  · refine lt_of_le_of_lt ?_ (hlaid.k_single (Bool.eq_false_iff.2 hc))
    rw [vkTotal_eq]
    exact layerOff_add_le _ hl

theorem k_inside {l : ℕ} (hl : l < vkLayers M.desc) :
    kv.k.offBytes l + vkLayerBytes M.desc l ≤ kv.k.bufSize (kv.k.layerBuf l) := by
  have hbuf : kv.k.layerBuf l = if kv.k.chunked then l else 0 := hlaid.layerBuf_eq hl .k
  rw [hbuf, hlaid.offBytes_eq hl]
  split_ifs with hc
  · rw [Nat.zero_add, hlaid.k_layer hc l hl]
    exact le_max_right _ _
  · have htotal : kv.k.total = vkTotal M.desc := hlaid.total .k
    rw [VkStore.bufSize, if_neg hc, htotal, vkTotal_eq]
    exact (layerOff_add_le _ hl).trans (le_max_right _ _)

/-- The row of a copy, by the stored size. -/
theorem rowStored_eq {l : ℕ} (head pos : ℕ) (hrow : M.width l = vkStoredRow M.desc) :
    kv.rowStored (M.args l) l head pos =
      ⟨Strided.cell (kv.k.offBytes l) M.desc.nCtx (M.width l) head pos 0, M.width l⟩ := by
  have hsize : (if 0 < kv.kvRowBytes then kv.kvRowBytes else (M.dims l).1 * 2) = M.width l := by
    rw [hlaid.rowBytes, ← hrow]
    split_ifs with hpos
    · rfl
    · have h0 : M.width l = 0 := by omega
      have hdim : (M.dims l).1 = 0 := kvRowBytes_eq_zero.1 h0
      rw [h0, hdim]
  simp only [VkKv.rowStored, args, Strided.cell]
  rw [hsize]
  congr 1
  ring

/-- What a shader computes for a Q8_0 row does not wrap. -/
theorem shaderBase_q8 {l head pos : ℕ} (h : M.HasRow l head pos) (hq : M.desc.kvQuant = .q8_0)
    (hrow : M.width l = vkStoredRow M.desc) :
    kv.shaderBase (M.args l) l head pos (M.width l) =
      Strided.cell (kv.k.offBytes l) M.desc.nCtx (M.width l) head pos 0 := by
  have hroom := hlaid.k_room h.layer
  have hlayer := layer_le hrow
  have hrows := h.rows_le (M.width l)
  have hoff : kv.pushedOff l = kv.k.offBytes l := by
    rw [VkKv.pushedOff, hlaid.quant, hq]
    exact Nat.mod_eq_of_lt (by omega)
  simp only [VkKv.shaderBase, hoff, args, Strided.cell]
  exact Nat.mod_eq_of_lt (by omega)

/-- Nor does it for an f16 row, whose first element is even. -/
theorem shaderBase_f16 {l head pos : ℕ} (h : M.HasRow l head pos) (hq : M.desc.kvQuant = .f16)
    (hrow : M.width l = vkStoredRow M.desc) :
    kv.shaderBase (M.args l) l head pos (M.dims l).1 * 2 =
      Strided.cell (kv.k.offBytes l) M.desc.nCtx (M.width l) head pos 0 := by
  have hwidth : M.width l = (M.dims l).1 * 2 := by rw [width, hq, Kappai.kvRowBytes]
  have hroom := hlaid.k_room h.layer
  have hlayer := layer_le hrow
  have hrows := h.rows_le (M.dims l).1
  have hhalf := hlaid.offElems_half h.layer hq
  have hdouble : (M.dims l).2 * (M.desc.nCtx * M.width l) =
      (M.dims l).2 * (M.desc.nCtx * (M.dims l).1) * 2 := by
    rw [hwidth]
    ring
  have hoff : kv.pushedOff l = kv.k.offElems l := by
    rw [VkKv.pushedOff, hlaid.quant, hq]
    exact Nat.mod_eq_of_lt (by omega)
  have hbase : kv.shaderBase (M.args l) l head pos (M.dims l).1 =
      kv.k.offElems l + head * (M.desc.nCtx * (M.dims l).1) + pos * (M.dims l).1 := by
    simp only [VkKv.shaderBase, hoff, args]
    exact Nat.mod_eq_of_lt (by omega)
  rw [hbase, Strided.cell, hwidth, ← hhalf]
  ring

/-- The layers before a layer with rows end at an even element. -/
theorem offElems_even (hfits : M.Fits caps gk gv) {l : ℕ} (hl : l < vkLayers M.desc)
    (hheads : 0 < (M.dims l).2) (hctx : 0 < M.desc.nCtx) (hq : M.desc.kvQuant = .f16) :
    2 ∣ kv.k.offElems l := by
  rw [hlaid.offElems_eq hl]
  split_ifs with hc
  · exact Nat.dvd_zero 2
  refine dvd_layerOff fun i hi => ?_
  unfold vkLayerElems
  cases hd : M.desc.layerDims with
  | none =>
    obtain ⟨hrow, heven⟩ := hfits.rows l hl hheads hctx
    rw [width, vkStoredRow_none hd, hq] at hrow
    have hdim : (M.dims l).1 = M.desc.headDim := Nat.eq_of_mul_eq_mul_right (by decide) hrow
    exact Dvd.dvd.mul_left (hdim ▸ heven hq) _
  | some dims =>
    dsimp only
    rw [← M.dims_layer dims hd]
    rcases Nat.eq_zero_or_pos (M.dims i).2 with h0 | hpos
    · rw [h0, Nat.zero_mul, Nat.zero_mul]
      exact Nat.dvd_zero 2
    · exact Dvd.dvd.mul_left ((hfits.rows i (hi.trans hl) hpos hctx).2 hq) _

/-- **All operations agree on a row.** -/
theorem row_eq (hfits : M.Fits caps gk gv) {l head pos : ℕ} (h : M.HasRow l head pos)
    (op : VkAccess) :
    kv.row (M.args l) l head pos op =
      ⟨Strided.cell (kv.k.offBytes l) M.desc.nCtx (M.width l) head pos 0, M.width l⟩ := by
  have hheads : 0 < (M.dims l).2 := Nat.zero_lt_of_lt h.head
  have hctx : 0 < M.desc.nCtx := Nat.zero_lt_of_lt h.pos
  obtain ⟨hrow, heven⟩ := hfits.rows l h.layer hheads hctx
  have hstored := hlaid.rowStored_eq head pos hrow
  cases hq : M.desc.kvQuant with
  | q8_0 =>
    have hwidth : Kappai.kvRowBytes .q8_0 (M.args l).headDim = M.width l := by
      rw [width, hq]
      rfl
    have hbase := hlaid.shaderBase_q8 h hq hrow
    cases op with
    | copyOut => exact hstored
    | copyIn => exact hstored
    | put => simp only [VkKv.row, VkKv.rowWords, hlaid.quant, hq, hwidth, hbase]
    | attention => simp only [VkKv.row, VkKv.rowWords, hlaid.quant, hq, hwidth, hbase]
    | shift => simp only [VkKv.row, VkKv.rowElems, hlaid.quant, hq, hwidth, hbase]
  | f16 =>
    have hwidth : M.width l = (M.args l).headDim * 2 := by
      rw [width, hq]
      rfl
    have hbase := hlaid.shaderBase_f16 h hq hrow
    obtain ⟨k, hk⟩ := heven hq
    obtain ⟨e, he⟩ := hlaid.offElems_even hfits h.layer hheads hctx hq
    have hdim : (M.args l).headDim = 2 * k := hk
    have hevenBase : kv.shaderBase (M.args l) l head pos (M.dims l).1 / 2 * 4 =
        kv.shaderBase (M.args l) l head pos (M.dims l).1 * 2 := by
      have hcell : Strided.cell (kv.k.offBytes l) M.desc.nCtx (M.width l) head pos 0 =
          4 * (e + head * (M.desc.nCtx * k) + pos * k) := by
        rw [Strided.cell, hwidth, hdim, ← hlaid.offElems_half h.layer hq, he]
        ring
      omega
    have hargs : (M.args l).headDim = (M.dims l).1 := rfl
    have hlen : (M.dims l).1 / 2 * 4 = M.width l ∧ 2 * ((M.dims l).1 / 2) * 2 = M.width l := by
      rw [hwidth, hargs]
      omega
    cases op with
    | copyOut => exact hstored
    | copyIn => exact hstored
    | put =>
      simp only [VkKv.row, VkKv.rowWords, hlaid.quant, hq, hargs, hevenBase, hbase, hlen.1]
    | attention =>
      simp only [VkKv.row, VkKv.rowWords, hlaid.quant, hq, hargs, hevenBase, hbase, hlen.1]
    | shift => simp only [VkKv.row, VkKv.rowElems, hlaid.quant, hq, hargs, hbase, hlen.2]

/-- A layer with rows has room in the buffer of either store, from the offset in the K store. -/
theorem room (hfits : M.Fits caps gk gv) {l : ℕ} (hbusy : M.Busy l) (side : KvSide) :
    kv.k.offBytes l + vkLayerBytes M.desc l ≤
      (kv.store side).bufSize ((kv.store side).layerBuf l) := by
  have hl := hbusy.1
  have htotal : layerOff (vkLayerBytes M.desc) l + vkLayerBytes M.desc l ≤ vkTotal M.desc := by
    rw [vkTotal_eq]
    exact layerOff_add_le _ hl
  cases side with
  | k => exact hlaid.k_inside hl
  | v =>
    have hbuf : kv.v.layerBuf l = if kv.v.chunked then l else 0 := hlaid.layerBuf_eq hl .v
    change _ ≤ kv.v.bufSize (kv.v.layerBuf l)
    rw [hbuf, hlaid.offBytes_eq hl]
    by_cases hv : kv.v.chunked = true
    · have hdims : M.desc.layerDims ≠ none :=
        (hfits.filled (hlaid.v_chunked.symm.trans hv)).resolve_right fun h => h l hbusy
      have hoff : (if kv.k.chunked = true then 0 else layerOff (vkLayerBytes M.desc) l) = 0 := by
        split_ifs with hk
        · rfl
        -- the K store is whole: no other layer has rows
        have halone := hfits.alike.resolve_left fun he => hk (by
          rw [hlaid.k_chunked, he, ← hlaid.v_chunked, hv])
        refine layerOff_eq_zero fun i hi => ?_
        rw [dims_layer_bytes hdims]
        by_contra hne
        have hi' : M.Busy i := by
          refine ⟨hi.trans hl, ?_⟩
          rw [Nat.mul_assoc]
          exact Nat.pos_of_ne_zero hne
        have := halone i l hi' hbusy
        omega
      rw [if_pos hv, hlaid.v_layer hv l hl, if_neg hdims, hoff, Nat.zero_add]
      exact le_max_right _ _
    · have hv' : kv.v.total = vkTotal M.desc := hlaid.total .v
      rw [if_neg hv, VkStore.bufSize, if_neg hv, hv']
      refine le_trans ?_ (le_max_right _ _)
      split_ifs with hk
      · omega
      · exact htotal

/-- Layers with rows that share a buffer follow one another in it. -/
theorem layers_apart (hfits : M.Fits caps gk gv) {l l' : ℕ} (hbusy : M.Busy l)
    (hbusy' : M.Busy l') (side : KvSide)
    (hbuf : (kv.store side).layerBuf l = (kv.store side).layerBuf l') (hlt : l < l') :
    kv.k.offBytes l + vkLayerBytes M.desc l ≤ kv.k.offBytes l' := by
  have halike := hfits.alike.resolve_right fun h => hlt.ne (h l l' hbusy hbusy')
  have hside : (kv.store side).chunked = kv.k.chunked := by
    cases side with
    | k => rfl
    | v => exact hlaid.v_chunked.trans (halike.symm.trans hlaid.k_chunked.symm)
  rw [hlaid.layerBuf_eq hbusy.1, hlaid.layerBuf_eq hbusy'.1, hside] at hbuf
  rw [hlaid.offBytes_eq hbusy.1, hlaid.offBytes_eq hbusy'.1]
  by_cases hk : kv.k.chunked = true
  · rw [if_pos hk, if_pos hk] at hbuf
    omega
  · rw [if_neg hk, if_neg hk]
    exact layerOff_add_le _ hlt

end VkKv.Laid

/-- Writing back what is there changes nothing. -/
theorem writeBlock_self {β : Type} (bytes : ℕ → β) (off n : ℕ) :
    Strided.writeBlock bytes off n (fun x => bytes (off + x)) = bytes := by
  funext a
  unfold Strided.writeBlock
  split_ifs with h
  · exact congrArg bytes (Nat.add_sub_cancel' h.1)
  · rfl

namespace VkModel

variable {caps : VkCaps} {gk gv : VkGrants} {M : VkModel} {kv : VkKv}

theorem import_export {β : Type} (mem : VkMem β) (l posStart n : ℕ) :
    kv.kvImport mem (M.args l) l posStart n (kv.kvExport mem (M.args l) l posStart) = mem := by
  funext side i
  unfold VkKv.kvImport
  split_ifs with hi
  · subst hi
    have hone : ∀ head, Strided.writeBlock (mem side ((kv.store side).layerBuf l))
        (kv.row (M.args l) l head posStart .copyIn).start
        (n * (kv.row (M.args l) l head posStart .copyIn).len)
        (kv.kvExport mem (M.args l) l posStart side head) =
          mem side ((kv.store side).layerBuf l) := fun head => writeBlock_self _ _ _
    have hall : ∀ heads : List ℕ, heads.foldl (fun bytes head =>
        Strided.writeBlock bytes (kv.row (M.args l) l head posStart .copyIn).start
          (n * (kv.row (M.args l) l head posStart .copyIn).len)
          (kv.kvExport mem (M.args l) l posStart side head))
        (mem side ((kv.store side).layerBuf l)) = mem side ((kv.store side).layerBuf l) := by
      intro heads
      induction heads with
      | nil => rfl
      | cons head heads ih =>
        rw [List.foldl_cons, hone, ih]
    exact hall _
  · rfl

theorem Fits.put_export (hlaid : kv.Laid caps gk gv M.desc) (hfits : M.Fits caps gk gv) {β : Type}
    (mem : VkMem β) (side : KvSide) {l head posStart n t : ℕ} (rows : KvSide → ℕ → ℕ → ℕ → β)
    (h : M.HasRow l head (posStart + t)) (ht : t < n) (hn : posStart + n ≤ M.desc.nCtx) {b : ℕ}
    (hb : b < M.width l) :
    kv.kvExport (kv.kvPut mem (M.args l) l posStart n rows) (M.args l) l posStart side head
      (t * M.width l + b) = rows side t head b := by
  have hactive : (M.args l).nActive = (M.dims l).2 := ite_self _
  have hheads : 0 < (M.dims l).2 := Nat.zero_lt_of_lt h.head
  have hput : ∀ bytes : ℕ → β, (List.range (n * (M.dims l).2)).foldl (fun bytes j =>
      Strided.writeBlock bytes
        (kv.row (M.args l) l (j % (M.dims l).2) (posStart + j / (M.dims l).2) .put).start
        (kv.row (M.args l) l (j % (M.dims l).2) (posStart + j / (M.dims l).2) .put).len
        (rows side (j / (M.dims l).2) (j % (M.dims l).2))) bytes =
      Strided.writeRows bytes (kv.k.offBytes l) M.desc.nCtx (M.width l) (M.dims l).2 posStart n
        (rows side) := by
    intro bytes
    refine List.foldl_ext _ _ _ fun bytes j hj => ?_
    rw [List.mem_range] at hj
    have hrow : j / (M.dims l).2 < n := Nat.div_lt_of_lt_mul (by rwa [Nat.mul_comm])
    rw [hlaid.row_eq hfits ⟨h.layer, Nat.mod_lt j hheads, by omega⟩]
  have hfirst : M.HasRow l head posStart := ⟨h.layer, h.head, by omega⟩
  have hcell : (kv.row (M.args l) l head posStart .copyOut).start + (t * M.width l + b) =
      Strided.cell (kv.k.offBytes l) M.desc.nCtx (M.width l) head (posStart + t) b := by
    rw [hlaid.row_eq hfits hfirst]
    unfold Strided.cell
    ring
  rw [VkKv.kvExport, hcell]
  simp only [VkKv.kvPut, if_true, hactive]
  rw [hput, Strided.writeRows_cell hn h.head h.pos hb,
    if_pos ⟨Nat.le_add_right _ _, by omega⟩, Nat.add_sub_cancel_left]

theorem Fits.sound (hlaid : kv.Laid caps gk gv M.desc) (hfits : M.Fits caps gk gv) :
    M.Sound kv where
  same l head pos h op := by rw [hlaid.row_eq hfits h, hlaid.row_eq hfits h]
  inside side l head pos h b hb := by
    rw [hlaid.row_eq hfits h] at hb ⊢
    have hbusy := h.busy hb
    have hroom := hlaid.room hfits hbusy side
    have hlayer := layer_le (hfits.rows l h.layer (Nat.zero_lt_of_lt h.head)
      (Nat.zero_lt_of_lt h.pos)).1
    have hrows := h.rows_le (M.width l)
    dsimp only [Strided.cell] at hb ⊢
    omega
  apart side l head pos l' head' pos' h h' hbuf b hb b' hb' he := by
    rw [hlaid.row_eq hfits h] at hb he
    rw [hlaid.row_eq hfits h'] at hb' he
    have hbusy := h.busy hb
    have hbusy' := h'.busy hb'
    have hlayer := layer_le (hfits.rows l h.layer (Nat.zero_lt_of_lt h.head)
      (Nat.zero_lt_of_lt h.pos)).1
    have hlayer' := layer_le (hfits.rows l' h'.layer (Nat.zero_lt_of_lt h'.head)
      (Nat.zero_lt_of_lt h'.pos)).1
    have hrows := h.rows_le (M.width l)
    have hrows' := h'.rows_le (M.width l')
    dsimp only [Strided.cell] at hb hb' he
    rcases Nat.lt_trichotomy l l' with hlt | rfl | hlt
    · have := hlaid.layers_apart hfits hbusy hbusy' side hbuf hlt
      omega
    · have hcell : Strided.cell (kv.k.offBytes l) M.desc.nCtx (M.width l) head pos b =
          Strided.cell (kv.k.offBytes l) M.desc.nCtx (M.width l) head' pos' b' := by
        unfold Strided.cell
        omega
      obtain ⟨hhead, hpos, -⟩ := Strided.cell_inj h.pos h'.pos hb hb' hcell
      exact ⟨rfl, hhead, hpos⟩
    · have := hlaid.layers_apart hfits hbusy' hbusy side hbuf.symm hlt
      omega
  put_export β mem side l head posStart n t rows h ht hn b hb := by
    have hfirst : M.HasRow l head posStart := ⟨h.layer, h.head, by have := h.pos; omega⟩
    rw [hlaid.row_eq hfits h] at hb
    rw [hlaid.row_eq hfits hfirst]
    exact hfits.put_export hlaid mem side rows h ht hn hb
  import_export β mem l posStart n := VkModel.import_export mem l posStart n

/-- Where the copies agree with the puts, every layer with rows has the largest row. -/
theorem Sound.rows (hlaid : kv.Laid caps gk gv M.desc) (hsound : M.Sound kv) {l : ℕ}
    (hl : l < vkLayers M.desc) (hheads : 0 < (M.dims l).2) (hctx : 0 < M.desc.nCtx) :
    M.width l = vkStoredRow M.desc ∧ (M.desc.kvQuant = .f16 → 2 ∣ (M.dims l).1) := by
  have hle : M.width l ≤ vkStoredRow M.desc := (M.width_le hl).trans (maxRow_le_stored _)
  have hlen := congrArg VkRow.len (hsound.same l 0 0 ⟨hl, hheads, hctx⟩ .copyOut)
  have hcopy : (kv.row (M.args l) l 0 0 .copyOut).len =
      if 0 < vkStoredRow M.desc then vkStoredRow M.desc else (M.dims l).1 * 2 := by
    rw [← hlaid.rowBytes]
    rfl
  rw [hcopy] at hlen
  rcases Nat.eq_zero_or_pos (vkStoredRow M.desc) with h0 | hpos
  · have hzero : M.width l = 0 := by omega
    have hdim : (M.dims l).1 = 0 := kvRowBytes_eq_zero.1 hzero
    exact ⟨hzero.trans h0.symm, fun _ => hdim ▸ Nat.dvd_zero 2⟩
  · rw [if_pos hpos] at hlen
    cases hq : M.desc.kvQuant with
    | q8_0 =>
      simp only [VkKv.row, VkKv.rowWords, hlaid.quant, hq] at hlen
      rw [width, hq]
      exact ⟨hlen.symm, nofun⟩
    | f16 =>
      simp only [VkKv.row, VkKv.rowWords, hlaid.quant, hq] at hlen
      have hwidth : M.width l = (M.dims l).1 * 2 := by rw [width, hq, kvRowBytes]
      have hargs : (M.args l).headDim = (M.dims l).1 := rfl
      rw [hargs] at hlen
      exact ⟨by omega, fun _ => by omega⟩

/-- The last byte of a layer with rows, as the copies address it. -/
theorem Sound.last_inside (hlaid : kv.Laid caps gk gv M.desc) (hsound : M.Sound kv) {l : ℕ}
    (hbusy : M.Busy l) (side : KvSide) :
    kv.k.offBytes l + (M.dims l).2 * (M.desc.nCtx * M.width l) ≤
      (kv.store side).bufSize ((kv.store side).layerBuf l) := by
  have hl := hbusy.1
  have hsize : 0 < (M.dims l).2 * M.desc.nCtx * M.width l := hbusy.2
  have hwidth : 0 < M.width l := Nat.pos_of_mul_pos_left hsize
  have hheads : 0 < (M.dims l).2 := Nat.pos_of_mul_pos_right (Nat.pos_of_mul_pos_right hsize)
  have hctx : 0 < M.desc.nCtx := Nat.pos_of_mul_pos_left (Nat.pos_of_mul_pos_right hsize)
  have hrow := (hsound.rows hlaid hl hheads hctx).1
  have h : M.HasRow l ((M.dims l).2 - 1) (M.desc.nCtx - 1) := ⟨hl, by omega, by omega⟩
  have hin := hsound.inside side l _ _ h (M.width l - 1)
  rw [← hsound.same l _ _ h .copyOut] at hin
  have hcopy : kv.row (M.args l) l ((M.dims l).2 - 1) (M.desc.nCtx - 1) .copyOut =
      ⟨Strided.cell (kv.k.offBytes l) M.desc.nCtx (M.width l) ((M.dims l).2 - 1)
        (M.desc.nCtx - 1) 0, M.width l⟩ := hlaid.rowStored_eq _ _ hrow
  rw [hcopy] at hin
  have hlt := hin (by dsimp only; omega)
  have hcells : Strided.cell (kv.k.offBytes l) M.desc.nCtx (M.width l) ((M.dims l).2 - 1)
      (M.desc.nCtx - 1) 0 + M.width l =
        kv.k.offBytes l + (M.dims l).2 * (M.desc.nCtx * M.width l) := by
    obtain ⟨heads, hh⟩ : ∃ n, (M.dims l).2 = n + 1 := Nat.exists_eq_succ_of_ne_zero hheads.ne'
    obtain ⟨ctx, hc⟩ : ∃ n, M.desc.nCtx = n + 1 := Nat.exists_eq_succ_of_ne_zero hctx.ne'
    rw [hh, hc, Strided.cell, Nat.add_sub_cancel, Nat.add_sub_cancel]
    ring
  dsimp only at hlt
  omega

/-- A split V store without sizes of layers holds no rows. -/
theorem Sound.filled (hlaid : kv.Laid caps gk gv M.desc) (hsound : M.Sound kv)
    (hv : vkSplits caps gv M.desc = true) (hd : M.desc.layerDims = none) (l : ℕ) :
    ¬ M.Busy l := by
  intro hbusy
  have hv' : kv.v.chunked = true := hlaid.v_chunked.trans hv
  have hin := hsound.last_inside hlaid hbusy .v
  have hbuf : kv.v.layerBuf l = if kv.v.chunked then l else 0 := hlaid.layerBuf_eq hbusy.1 .v
  have hone : kv.v.bufSize l = 1 := by rw [hlaid.v_layer hv' l hbusy.1, if_pos hd]; rfl
  change _ ≤ kv.v.bufSize (kv.v.layerBuf l) at hin
  rw [hbuf, if_pos hv', hone] at hin
  have hsize : 0 < (M.dims l).2 * M.desc.nCtx * M.width l := hbusy.2
  rw [Nat.mul_assoc] at hsize
  have hwidth : M.width l = 1 := by
    have h1 : (M.dims l).2 * (M.desc.nCtx * M.width l) = 1 := by omega
    exact Nat.eq_one_of_mul_eq_one_left (Nat.eq_one_of_mul_eq_one_left h1)
  exact kvRowBytes_ne_one _ _ hwidth

/-- Of a whole K store and a split V store only the layer at the start is found in both. -/
theorem Sound.first_layer (hlaid : kv.Laid caps gk gv M.desc) (hsound : M.Sound kv)
    (hv : vkSplits caps gv M.desc = true) {l : ℕ} (hbusy : M.Busy l) : kv.k.offBytes l = 0 := by
  have hv' : kv.v.chunked = true := hlaid.v_chunked.trans hv
  have hd : M.desc.layerDims ≠ none := fun hd => hsound.filled hlaid hv hd l hbusy
  have hin := hsound.last_inside hlaid hbusy .v
  have hbuf : kv.v.layerBuf l = if kv.v.chunked then l else 0 := hlaid.layerBuf_eq hbusy.1 .v
  change _ ≤ kv.v.bufSize (kv.v.layerBuf l) at hin
  rw [hbuf, if_pos hv', hlaid.v_layer hv' l hbusy.1, if_neg hd, dims_layer_bytes hd] at hin
  have hsize : 0 < (M.dims l).2 * M.desc.nCtx * M.width l := hbusy.2
  rw [Nat.mul_assoc] at hsize
  omega

theorem Sound.alike (hlaid : kv.Laid caps gk gv M.desc) (hsound : M.Sound kv) :
    vkSplits caps gk M.desc = vkSplits caps gv M.desc ∨
      ∀ l l', M.Busy l → M.Busy l' → l = l' := by
  cases hv : vkSplits caps gv M.desc with
  | true =>
    cases hk : vkSplits caps gk M.desc with
    | true => exact Or.inl rfl
    | false =>
      -- the K store is whole: the later of two layers would not be at its start
      right
      have hoff : ∀ l, M.Busy l → layerOff (vkLayerBytes M.desc) l = 0 := by
        intro l hbusy
        have hk' : ¬ kv.k.chunked = true := by
          rw [hlaid.k_chunked, hk]
          exact Bool.false_ne_true
        have h0 := hsound.first_layer hlaid hv hbusy
        rwa [hlaid.offBytes_eq hbusy.1, if_neg hk'] at h0
      have hlt : ∀ l l', M.Busy l → M.Busy l' → ¬ l < l' := by
        intro l l' hbusy hbusy' hlt
        have hd : M.desc.layerDims ≠ none := fun hd => hsound.filled hlaid hv hd l hbusy
        have hle := layerOff_add_le (vkLayerBytes M.desc) hlt
        have hsize : 0 < (M.dims l).2 * M.desc.nCtx * M.width l := hbusy.2
        rw [hoff l' hbusy', dims_layer_bytes hd, ← Nat.mul_assoc] at hle
        omega
      intro l l' hbusy hbusy'
      have h1 := hlt l l' hbusy hbusy'
      have h2 := hlt l' l hbusy' hbusy
      omega
  | false =>
    cases hk : vkSplits caps gk M.desc with
    | false => exact Or.inl rfl
    | true =>
      -- the K store is split: in the whole V store all layers would start at 0
      right
      intro l l' hbusy hbusy'
      have hk' : kv.k.chunked = true := hlaid.k_chunked.trans hk
      have hv' : ¬ kv.v.chunked = true := by
        rw [hlaid.v_chunked, hv]
        exact Bool.false_ne_true
      have hzero : ∀ i, i < vkLayers M.desc → kv.v.layerBuf i = 0 := fun i hi => by
        have hbuf : kv.v.layerBuf i = if kv.v.chunked then i else 0 := hlaid.layerBuf_eq hi .v
        rw [hbuf, if_neg hv']
      have hfirst : ∀ i, M.Busy i → M.HasRow i 0 0 ∧
          kv.row (M.args i) i 0 0 .put = ⟨0, M.width i⟩ ∧ 0 < M.width i := by
        intro i hi
        have hsize : 0 < (M.dims i).2 * M.desc.nCtx * M.width i := hi.2
        have hheads : 0 < (M.dims i).2 := Nat.pos_of_mul_pos_right (Nat.pos_of_mul_pos_right hsize)
        have hctx : 0 < M.desc.nCtx := Nat.pos_of_mul_pos_left (Nat.pos_of_mul_pos_right hsize)
        have hrow := (hsound.rows hlaid hi.1 hheads hctx).1
        have h : M.HasRow i 0 0 := ⟨hi.1, hheads, hctx⟩
        refine ⟨h, ?_, Nat.pos_of_mul_pos_left hsize⟩
        rw [← hsound.same i 0 0 h .copyOut]
        refine (hlaid.rowStored_eq 0 0 hrow).trans ?_
        rw [hlaid.offBytes_eq hi.1, if_pos hk']
        simp [Strided.cell]
      obtain ⟨h, hput, hw⟩ := hfirst l hbusy
      obtain ⟨h', hput', hw'⟩ := hfirst l' hbusy'
      have hbufs : (kv.store .v).layerBuf l = (kv.store .v).layerBuf l' :=
        (hzero l hbusy.1).trans (hzero l' hbusy'.1).symm
      exact (hsound.apart .v l 0 0 l' 0 0 h h' hbufs 0 (by rw [hput]; exact hw) 0
        (by rw [hput']; exact hw') (by rw [hput, hput'])).1

theorem Sound.fits (hlaid : kv.Laid caps gk gv M.desc) (hsound : M.Sound kv) :
    M.Fits caps gk gv where
  rows l hl hheads hctx := hsound.rows hlaid hl hheads hctx
  filled hv := by
    by_cases hd : M.desc.layerDims = none
    · exact Or.inr (hsound.filled hlaid hv hd)
    · exact Or.inl hd
  alike := hsound.alike hlaid

/-- **The rows of a KV cache on Vulkan.** They are what the operations take them for just where the
rows fit. -/
theorem sound_iff_fits (caps : VkCaps) (gk gv : VkGrants) (M : VkModel) (kv : VkKv)
    (h : vkKvAlloc caps gk gv M.desc = some kv) : M.Sound kv ↔ M.Fits caps gk gv :=
  ⟨fun hsound => hsound.fits (vkKvAlloc_laid h), fun hfits => hfits.sound (vkKvAlloc_laid h)⟩

/-- A device that shares its memory with the host, and one with memory of its own. -/
def sharedMemory : VkCaps := ⟨4294967295, true, by decide, by decide⟩

def ownMemory : VkCaps := ⟨4294967295, false, by decide, by decide⟩

/-- Two layers of the same sizes. -/
def twoAlike : VkModel where
  desc := ⟨2, 8, 128, 65536, .f16, none, none⟩
  dims := fun _ => (128, 8)
  dims_layer := nofun
  dims_le := fun _ _ => ⟨le_rfl, le_rfl⟩

/-- Two layers of different head sizes, described by the larger. -/
def twoSizes : VkModel where
  desc := ⟨2, 8, 128, 65536, .f16, none, none⟩
  dims := fun l => (if l = 0 then 64 else 128, 8)
  dims_layer := nofun
  dims_le := fun _ l => ⟨by dsimp only; split_ifs <;> omega, le_rfl⟩

theorem sound_iff_fits_ownMemory :
    ∃ kv, vkKvAlloc ownMemory ⟨true, true⟩ ⟨true, true⟩ twoAlike.desc = some kv ∧
      twoAlike.Sound kv := by
  obtain ⟨kv, hkv⟩ : ∃ kv, vkKvAlloc ownMemory ⟨true, true⟩ ⟨true, true⟩ twoAlike.desc = some kv :=
    ⟨_, rfl⟩
  refine ⟨kv, hkv, (sound_iff_fits _ _ _ _ _ hkv).2 ⟨fun l _ _ _ => ⟨rfl, fun _ => ⟨64, rfl⟩⟩, ?_,
    Or.inl rfl⟩⟩
  intro hsplit
  exact absurd hsplit (by decide)

/-- Shared memory splits the stores of a large cache, the V store into parts of one byte; and a copy
takes more than the row of a layer with smaller heads. -/
theorem rows_lost :
    (∃ kv, vkKvAlloc sharedMemory ⟨true, true⟩ ⟨true, true⟩ twoAlike.desc = some kv ∧
      ¬ twoAlike.Sound kv) ∧
    ∃ kv, vkKvAlloc ownMemory ⟨true, true⟩ ⟨true, true⟩ twoSizes.desc = some kv ∧
      ¬ twoSizes.Sound kv := by
  constructor
  · obtain ⟨kv, hkv⟩ :
        ∃ kv, vkKvAlloc sharedMemory ⟨true, true⟩ ⟨true, true⟩ twoAlike.desc = some kv := ⟨_, rfl⟩
    refine ⟨kv, hkv, fun hsound => ?_⟩
    have hsplit : vkSplits sharedMemory ⟨true, true⟩ twoAlike.desc = true := by decide
    have hbusy : twoAlike.Busy 0 := ⟨by decide, by decide⟩
    exact hsound.filled (vkKvAlloc_laid hkv) hsplit rfl 0 hbusy
  · obtain ⟨kv, hkv⟩ : ∃ kv, vkKvAlloc ownMemory ⟨true, true⟩ ⟨true, true⟩ twoSizes.desc = some kv :=
      ⟨_, rfl⟩
    refine ⟨kv, hkv, fun hsound => ?_⟩
    have hlayer : 0 < vkLayers twoSizes.desc := by decide
    have hrow := (hsound.rows (vkKvAlloc_laid hkv) hlayer (by decide) (by decide)).1
    exact absurd hrow (by decide)

end VkModel

end Kappai
