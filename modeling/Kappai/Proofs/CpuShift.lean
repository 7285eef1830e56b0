import Mathlib.Algebra.Order.Field.Rat
import Mathlib.Data.List.GetD
import Kappai.Lib.Fill
import Kappai.Spec.CpuBackend

/-! What `cpu_kv_shift` leaves in a layer of the cache. All sources are read before the first
put; no put of a row from inside the window moves the layer, so every row ends up in the slot
of its destination. A source above the window is not read, but its destination is put. -/

namespace Kappai

variable {F β : Type*}

namespace RopeTurn

variable (R : RopeTurn F)

/-- The two entries of a head that pair `j` turns. -/
def low (j : ℕ) : ℕ := if R.neox then j else 2 * j

def high (half j : ℕ) : ℕ := if R.neox then j + half else 2 * j + 1

theorem low_lt {headDim j : ℕ} (hj : j < headDim / 2) : R.low j < headDim := by
  unfold low
  split_ifs <;> omega

theorem high_lt {headDim j : ℕ} (hj : j < headDim / 2) : R.high (headDim / 2) j < headDim := by
  unfold high
  split_ifs <;> omega

/-- Different pairs are apart. -/
theorem pair_ne {half j k : ℕ} (hj : j < half) (hk : k < half) (hne : j ≠ k) :
    R.low j ≠ R.low k ∧ R.low j ≠ R.high half k ∧ R.high half j ≠ R.low k ∧
      R.high half j ≠ R.high half k := by
  unfold low high
  split_ifs <;> omega

theorem low_ne_high {half j : ℕ} (hj : j < half) : R.low j ≠ R.high half j := by
  unfold low high
  split_ifs <;> omega

variable [Field F]

/-- After `k` rounds the pairs below `k` are turned and nothing else has changed. -/
theorem rotate_rounds (headDim : ℕ) (cosRow sinRow head : ℕ → F) :
    ∀ k ≤ headDim / 2,
      let out := (List.range k).foldl (fun head j =>
        let i₀ := R.low j
        let i₁ := R.high (headDim / 2) j
        Function.update (Function.update head i₀ (head i₀ * cosRow j - head i₁ * sinRow j)) i₁
          (head i₀ * sinRow j + head i₁ * cosRow j)) head
      (∀ j < k,
        out (R.low j) = head (R.low j) * cosRow j - head (R.high (headDim / 2) j) * sinRow j ∧
        out (R.high (headDim / 2) j) =
          head (R.low j) * sinRow j + head (R.high (headDim / 2) j) * cosRow j) ∧
      ∀ i, (∀ j < k, i ≠ R.low j ∧ i ≠ R.high (headDim / 2) j) → out i = head i := by
  intro k
  induction k with
  | zero => exact fun _ => ⟨fun j hj => absurd hj (Nat.not_lt_zero j), fun _ _ => rfl⟩
  | succ k ih =>
    intro hk out
    obtain ⟨hpairs, hrest⟩ := ih (by omega)
    have hk' : k < headDim / 2 := by omega
    simp only [out, List.range_succ, List.foldl_append, List.foldl_cons, List.foldl_nil]
    set acc := (List.range k).foldl _ head
    -- pair `k` has not been turned yet
    have hlow : acc (R.low k) = head (R.low k) := hrest _ fun j hj =>
      have := R.pair_ne hk' (show j < headDim / 2 by omega) (by omega : k ≠ j)
      ⟨this.1, this.2.1⟩
    have hhigh : acc (R.high (headDim / 2) k) = head (R.high (headDim / 2) k) :=
      hrest _ fun j hj =>
        have := R.pair_ne hk' (show j < headDim / 2 by omega) (by omega : k ≠ j)
        ⟨this.2.2.1, this.2.2.2⟩
    rw [hlow, hhigh]
    refine ⟨fun j hj => ?_, fun i hi => ?_⟩
    · rcases Nat.lt_succ_iff_lt_or_eq.1 hj with hlt | rfl
      · obtain ⟨h1, h2, h3, h4⟩ := R.pair_ne (show j < headDim / 2 by omega) hk' (by omega)
        rw [Function.update_of_ne h2, Function.update_of_ne h1, Function.update_of_ne h4,
          Function.update_of_ne h3]
        exact hpairs j hlt
      · rw [Function.update_of_ne (R.low_ne_high hk'), Function.update_self, Function.update_self]
        exact ⟨rfl, rfl⟩
    · obtain ⟨h1, h2⟩ := hi k (Nat.lt_succ_self k)
      rw [Function.update_of_ne h2, Function.update_of_ne h1]
      exact hrest i fun j hj => hi j (by omega)

variable [LinearOrder F]

/-- `row'` is `row` turned by the angles of a move by `delta`. -/
structure Rotated (headDim : ℕ) (delta : ℤ) (row row' : ℕ → F) : Prop where
  low : ∀ j < headDim / 2, row' (R.low j) =
    row (R.low j) * R.cos (R.angle delta j) -
      row (R.high (headDim / 2) j) * R.sin (R.angle delta j)
  high : ∀ j < headDim / 2, row' (R.high (headDim / 2) j) =
    row (R.low j) * R.sin (R.angle delta j) +
      row (R.high (headDim / 2) j) * R.cos (R.angle delta j)
  rest : ∀ i < headDim, 2 * (headDim / 2) ≤ i → row' i = row i

theorem kvcacheShiftTable_chunk (fn : F → F) {half : ℕ} {chunks : List KvShiftChunk}
    {c : KvShiftChunk} {i j : ℕ} (hc : chunks[i]? = some c) (hj : j < half) :
    R.kvcacheShiftTable fn half chunks (i * half + j) = fn (R.angle ((c.dst : ℤ) - c.src) j) := by
  have hdiv : (i * half + j) / half = i := by
    rw [Nat.mul_comm, Nat.mul_add_div (by omega), Nat.div_eq_of_lt hj, Nat.add_zero]
  have hmod : (i * half + j) % half = j := by
    rw [Nat.mul_comm, Nat.mul_add_mod, Nat.mod_eq_of_lt hj]
  rw [kvcacheShiftTable, hdiv, hmod, hc]
  rfl

/-- With its chunk's part of the tables a head is turned by the chunk's move. -/
theorem rotateHead_rotated (headDim : ℕ) {chunks : List KvShiftChunk} {c : KvShiftChunk} {i : ℕ}
    (hc : chunks[i]? = some c) (head : ℕ → F) :
    R.Rotated headDim ((c.dst : ℤ) - c.src) head
      (cpuKvRotateHead R.neox headDim
        (fun j => R.kvcacheShiftTable R.cos (headDim / 2) chunks (i * (headDim / 2) + j))
        (fun j => R.kvcacheShiftTable R.sin (headDim / 2) chunks (i * (headDim / 2) + j)) head) := by
  obtain ⟨hpairs, hrest⟩ := R.rotate_rounds headDim
    (fun j => R.kvcacheShiftTable R.cos (headDim / 2) chunks (i * (headDim / 2) + j))
    (fun j => R.kvcacheShiftTable R.sin (headDim / 2) chunks (i * (headDim / 2) + j)) head
    (headDim / 2) le_rfl
  refine ⟨fun j hj => ?_, fun j hj => ?_, fun k _ hk => hrest k fun j hj => ?_⟩
  · rw [← R.kvcacheShiftTable_chunk R.cos hc hj, ← R.kvcacheShiftTable_chunk R.sin hc hj]
    exact (hpairs j hj).1
  · rw [← R.kvcacheShiftTable_chunk R.cos hc hj, ← R.kvcacheShiftTable_chunk R.sin hc hj]
    exact (hpairs j hj).2
  · unfold RopeTurn.low RopeTurn.high
    split_ifs <;> omega

theorem Rotated.congr {headDim : ℕ} {delta : ℤ} {row row₁ row₂ : ℕ → F}
    (h : R.Rotated headDim delta row row₁) (heq : ∀ i < headDim, row₂ i = row₁ i) :
    R.Rotated headDim delta row row₂ where
  low j hj := (heq _ (R.low_lt hj)).trans (h.low j hj)
  high j hj := (heq _ (R.high_lt hj)).trans (h.high j hj)
  rest i hi hhalf := (heq i hi).trans (h.rest i hi hhalf)

end RopeTurn

namespace KvShiftLayer

variable (L : KvShiftLayer)

/-- Position `q` has a slot when the first slot is the one of `base`. -/
def Readable (base q : ℕ) : Prop := base ≤ q ∧ q < base + L.rows

instance (base q : ℕ) : Decidable (L.Readable base q) := inferInstanceAs (Decidable (_ ∧ _))

/-- The slots of readable positions need no move. -/
theorem putSlot_readable {q : ℕ} (h : L.Readable L.base q) :
    cpuKvPutSlot (L.priv.kvPosCap L.layer) L.args.nCtx L.base q = (0, q - L.base) := by
  obtain ⟨hlow, hhigh⟩ := h
  have hcomp := L.compacted
  have hbase : L.base = L.priv.kvBasePos L.layer := rfl
  unfold cpuKvPutSlot
  by_cases hfull : L.priv.kvPosCap L.layer = 0 ∨ L.args.nCtx ≤ L.priv.kvPosCap L.layer
  · rw [if_pos hfull, show L.base = 0 by omega, Nat.sub_zero]
  · rw [rows, CpuPriv.layerRows, if_pos (by omega)] at hhigh
    simp only [if_neg hfull, if_neg (show ¬ L.base + L.priv.kvPosCap L.layer ≤ q by omega),
      Nat.add_zero, if_neg (show ¬ q < L.base by omega)]

/-- A put at a readable position writes its slot. -/
theorem put_readable {q : ℕ} (h : L.Readable L.base q) (mem : KvMem β)
    (row : ℕ → ℕ → Option β) :
    cpuKvPut L.priv mem L.args L.layer q row =
      some (L.priv, Strided.writeRows mem (L.priv.layerBase L.args L.layer) L.rows L.width
        L.args.nActive (q - L.base) 1 fun _ => row) := by
  have hslot := L.putSlot_readable h
  unfold base at hslot
  rw [cpuKvPut, cpuKvPutRows, L.known, L.fits, if_neg (by simp), Nat.add_sub_cancel, hslot]
  simp only [if_pos, Nat.add_zero, Function.update_eq_self, Nat.sub_self, Nat.sub_zero]
  rfl

/-- Row `t` of chunk number `i`, as it is gathered. -/
def gathered (turn : KvTurn β) (mem : KvMem β) (c : KvShiftChunk) (i t : ℕ) :
    ℕ × (ℕ → ℕ → Option β) :=
  (c.dst + t, fun head b =>
    if c.src + t < L.base ∨ L.rows ≤ c.src + t - L.base then none
    else turn L.priv.kvQuant i (L.slot mem head (c.src + t - L.base)) b)

theorem mem_shiftRows {turn : KvTurn β} {mem : KvMem β} {chunks : List KvShiftChunk}
    {r : ℕ × (ℕ → ℕ → Option β)} :
    r ∈ cpuKvShiftRows turn L.priv mem L.args L.layer chunks ↔
      ∃ c i t, chunks[i]? = some c ∧ t < c.n ∧ r = L.gathered turn mem c i t := by
  simp only [cpuKvShiftRows, List.mem_flatMap, List.mem_map, List.mem_range, Prod.exists,
    List.mem_zipIdx_iff_getElem?]
  constructor
  · rintro ⟨c, i, hc, t, ht, rfl⟩
    exact ⟨c, i, t, hc, ht, rfl⟩
  · rintro ⟨c, i, t, hc, ht, rfl⟩
    exact ⟨c, i, hc, t, ht, rfl⟩

/-- One round of the second loop at a position below the base or inside the window. -/
def putRow (mem : KvMem β) (r : ℕ × (ℕ → ℕ → Option β)) : KvMem β :=
  if r.1 < L.base then mem
  else
    Strided.writeRows mem (L.priv.layerBase L.args L.layer) L.rows L.width L.args.nActive
      (r.1 - L.base) 1 fun _ => r.2

theorem shiftPut_eq {r : ℕ × (ℕ → ℕ → Option β)} (h : r.1 < L.base + L.rows) (mem : KvMem β) :
    cpuKvShiftPut L.args L.layer (L.priv, mem) r = some (L.priv, L.putRow mem r) := by
  unfold cpuKvShiftPut putRow
  by_cases hlow : r.1 < L.base
  · rw [if_pos hlow]
    exact if_pos hlow
  · rw [if_neg hlow]
    exact (if_neg hlow).trans (L.put_readable ⟨Nat.le_of_not_lt hlow, h⟩ mem r.2)

/-- Such rounds leave the backend's own state alone. -/
theorem shiftPut_run {rs : List (ℕ × (ℕ → ℕ → Option β))}
    (h : ∀ r ∈ rs, r.1 < L.base + L.rows) (mem : KvMem β) :
    rs.foldlM (cpuKvShiftPut L.args L.layer) (L.priv, mem) =
      some (L.priv, rs.foldl L.putRow mem) := by
  induction rs generalizing mem with
  | nil => rfl
  | cons r rs ih =>
    rw [List.foldlM_cons, L.shiftPut_eq (h r (by simp)), Option.bind_eq_bind, Option.bind_some,
      ih fun r' h' => h r' (by simp [h'])]
    rfl

theorem puts_run {rs : List (ℕ × (ℕ → ℕ → Option β))} (h : ∀ r ∈ rs, r.1 < L.base + L.rows)
    (mem : KvMem β) {r : ℕ × (ℕ → ℕ → Option β)}
    (hr : r ∈ cpuKvShiftPuts L.args L.layer (L.priv, mem) rs) : r ∈ rs ∧ L.base ≤ r.1 := by
  induction rs generalizing mem with
  | nil => exact absurd hr List.not_mem_nil
  | cons r₀ rs ih =>
    rw [cpuKvShiftPuts] at hr
    split_ifs at hr with hlow
    · obtain ⟨hmem, hle⟩ := ih (fun r' h' => h r' (by simp [h'])) mem hr
      exact ⟨List.mem_cons_of_mem _ hmem, hle⟩
    · rw [L.shiftPut_eq (h r₀ (by simp)), Option.elim_some] at hr
      rcases List.mem_cons.1 hr with rfl | hr
      · exact ⟨List.mem_cons_self, Nat.le_of_not_lt hlow⟩
      · obtain ⟨hmem, hle⟩ := ih (fun r' h' => h r' (by simp [h'])) _ hr
        exact ⟨List.mem_cons_of_mem _ hmem, hle⟩

/-- The address of byte `b` of head `h` in the slot of position `q`. -/
def cellOf (h q b : ℕ) : ℕ :=
  Strided.cell (L.priv.layerBase L.args L.layer) L.rows L.width h (q - L.base) b

theorem putRow_cell {mem : KvMem β} {r : ℕ × (ℕ → ℕ → Option β)} {h q b : ℕ}
    (hr : r.1 < L.base + L.rows) (hq : L.Readable L.base q) (hh : h < L.args.nActive)
    (hb : b < L.width) :
    L.putRow mem r (L.cellOf h q b) = if r.1 = q then r.2 h b else mem (L.cellOf h q b) := by
  obtain ⟨hlow, hhigh⟩ := hq
  unfold putRow
  by_cases hskip : r.1 < L.base
  · rw [if_pos hskip, if_neg (by omega)]
  · rw [if_neg hskip, cellOf, Strided.writeRows_cell (by omega) hh (by omega) hb]
    exact if_congr (by omega) rfl rfl

/-- A slot of a position holds the one row that goes there. -/
theorem foldl_putRow_mem {rs : List (ℕ × (ℕ → ℕ → Option β))}
    (hrs : ∀ r ∈ rs, r.1 < L.base + L.rows) {r : ℕ × (ℕ → ℕ → Option β)} (hr : r ∈ rs)
    (huniq : ∀ r' ∈ rs, r'.1 = r.1 → r'.2 = r.2) (hq : L.Readable L.base r.1) {h b : ℕ}
    (hh : h < L.args.nActive) (hb : b < L.width) (mem : KvMem β) :
    rs.foldl L.putRow mem (L.cellOf h r.1 b) = r.2 h b := by
  refine foldl_fills (fun r' h' out => ?_) ⟨r, hr, fun out => ?_⟩ mem
  · rw [L.putRow_cell (hrs r' h') hq hh hb]
    split_ifs with heq
    · exact Or.inl (by rw [huniq r' h' heq])
    · exact Or.inr rfl
  · rw [L.putRow_cell (hrs r hr) hq hh hb, if_pos rfl]

theorem foldl_putRow_of_not_mem {rs : List (ℕ × (ℕ → ℕ → Option β))}
    (hrs : ∀ r ∈ rs, r.1 < L.base + L.rows) {q : ℕ} (hne : ∀ r ∈ rs, r.1 ≠ q)
    (hq : L.Readable L.base q) {h b : ℕ} (hh : h < L.args.nActive) (hb : b < L.width)
    (mem : KvMem β) : rs.foldl L.putRow mem (L.cellOf h q b) = mem (L.cellOf h q b) :=
  Strided.foldl_outside _ rs
    (fun mem r hr => by rw [L.putRow_cell (hrs r hr) hq hh hb, if_neg (hne r hr)]) mem

/-- A slot's bytes are those at the addresses of its position. -/
theorem slot_eq (mem : KvMem β) (h q : ℕ) :
    L.slot mem h (q - L.base) = (List.range L.width).map fun b => mem (L.cellOf h q b) := rfl

/-- Puts never abort here, whatever the base has become. -/
theorem shiftPut_some (rs : List (ℕ × (ℕ → ℕ → Option β))) (p : CpuPriv) (mem : KvMem β)
    (hknown : p.layerCheck L.layer = true) (hfits : cpuKvPutFits p L.args L.layer = true) :
    ∃ s, rs.foldlM (cpuKvShiftPut L.args L.layer) (p, mem) = some s := by
  induction rs generalizing p mem with
  | nil => exact ⟨_, rfl⟩
  | cons r rs ih =>
    obtain ⟨p', mem', hput, hknown', hfits'⟩ :
        ∃ p' mem', cpuKvShiftPut L.args L.layer (p, mem) r = some (p', mem') ∧
          p'.layerCheck L.layer = true ∧ cpuKvPutFits p' L.args L.layer = true := by
      unfold cpuKvShiftPut
      by_cases hlow : r.1 < p.kvBasePos L.layer
      · exact ⟨p, mem, if_pos hlow, hknown, hfits⟩
      · simp only [if_neg hlow, cpuKvPut, cpuKvPutRows, hknown, hfits]
        exact ⟨_, _, rfl, hknown, hfits⟩
    rw [List.foldlM_cons, hput]
    exact ih p' mem' hknown' hfits'

/-- Among rows that come from above or inside the window, every one from above is put. -/
theorem puts_unloaded {rs : List (ℕ × (ℕ → ℕ → Option β))}
    (h : ∀ r ∈ rs, r.1 < L.base + L.rows ∨ ∀ h b, r.2 h b = none) (mem : KvMem β)
    {r : ℕ × (ℕ → ℕ → Option β)} (hr : r ∈ rs) (hlow : L.base ≤ r.1)
    (hnone : ∀ h b, r.2 h b = none) :
    ∃ r' ∈ cpuKvShiftPuts L.args L.layer (L.priv, mem) rs, ∀ h b, r'.2 h b = none := by
  induction rs generalizing mem with
  | nil => exact absurd hr List.not_mem_nil
  | cons r₀ rs ih =>
    rw [cpuKvShiftPuts]
    by_cases hskip : r₀.1 < L.priv.kvBasePos L.layer
    · rw [if_pos hskip]
      rcases List.mem_cons.1 hr with rfl | hr
      · exact absurd hskip (Nat.not_lt.2 hlow)
      · exact ih (fun r' h' => h r' (by simp [h'])) mem hr
    · rw [if_neg hskip]
      rcases h r₀ (by simp) with hin | hbad
      · rcases List.mem_cons.1 hr with rfl | hr
        · exact ⟨_, List.mem_cons_self, hnone⟩
        · rw [L.shiftPut_eq hin, Option.elim_some]
          obtain ⟨r', h', hr'⟩ := ih (fun r' h' => h r' (by simp [h'])) (L.putRow mem r₀) hr
          exact ⟨r', List.mem_cons_of_mem _ h', hr'⟩
      · exact ⟨_, List.mem_cons_self, hbad⟩

/-- Converted values are read back. -/
theorem load_stored (x : ExactRows F β) (kh vh : ℕ → F) {i : ℕ} (hi : i < L.args.headDim) :
    let bytes : List (Option (β × β)) := (List.range L.width).map fun b =>
      some (x.store L.priv.kvQuant L.args.headDim kh b, x.store L.priv.kvQuant L.args.headDim vh b)
    x.load L.priv.kvQuant L.args.headDim (bytes.map (Option.map Prod.fst)) i = kh i ∧
      x.load L.priv.kvQuant L.args.headDim (bytes.map (Option.map Prod.snd)) i = vh i := by
  simp only [List.map_map]
  exact ⟨x.load_store _ _ kh i hi, x.load_store _ _ vh i hi⟩

/-- The claim about one call: `s` is the state after it. -/
structure Shifted [Field F] [LinearOrder F] (R : RopeTurn F) (x : ExactRows F β)
    (chunks : List KvShiftChunk) (mem : KvMem (β × β)) (s : CpuPriv × KvMem (β × β)) : Prop where
  /-- V rows come from their sources, -/
  stored : ∀ c ∈ chunks, ∀ t < c.n, L.Readable (s.1.kvBasePos L.layer) (c.dst + t) →
    ∀ h < L.args.nActive, ∀ i < L.args.headDim,
      L.Readable L.base (c.src + t) ∧
        L.vRow x s.2 h (c.dst + t - s.1.kvBasePos L.layer) i =
          L.vRow x mem h (c.src + t - L.base) i
  /-- K rows too, and are turned by the move. -/
  turned : ∀ c ∈ chunks, ∀ t < c.n, L.Readable (s.1.kvBasePos L.layer) (c.dst + t) →
    ∀ h < L.args.nActive,
      R.Rotated L.args.headDim ((c.dst : ℤ) - c.src) (L.kRow x mem h (c.src + t - L.base))
        (L.kRow x s.2 h (c.dst + t - s.1.kvBasePos L.layer))
  kept : ∀ q, (∀ c ∈ chunks, ¬ c.Covers q) → L.Readable L.base q →
    L.Readable (s.1.kvBasePos L.layer) q → ∀ h < L.args.nActive,
      L.slot s.2 h (q - s.1.kvBasePos L.layer) = L.slot mem h (q - L.base)
  loaded : ∀ r ∈ L.shiftPuts R x mem chunks, ∀ h < L.args.nActive, ∀ b < L.width,
    (r.2 h b).isSome

/-- There is something to move and something to turn, and no source of a row that is put lies
above the window; without anything to turn, rows stay where they are. -/
def SourcesKept (chunks : List KvShiftChunk) : Prop :=
  L.args.nActive = 0 ∨ L.args.headDim = 0 ∨
  (L.args.headDim = 1 ∧ ∀ c ∈ chunks, ∀ t < c.n, L.Readable L.base (c.dst + t) → c.src = c.dst) ∨
  (2 ≤ L.args.headDim ∧ ∀ c ∈ chunks, ∀ t < c.n, L.base ≤ c.dst + t → c.src + t < L.base + L.rows)

section

variable [Field F] [LinearOrder F] (R : RopeTurn F) (x : ExactRows F β)

/-- The second loop is reached with heads that have something to turn. -/
theorem shift_eq {chunks : List KvShiftChunk} (hdown : RowMove.Downward chunks)
    (hactive : L.args.nActive ≠ 0) (hdim : 2 ≤ L.args.headDim) (mem : KvMem (β × β)) :
    L.shift R x mem chunks =
      ((cpuKvShiftRows (R.shiftTurn x L.args.headDim chunks) L.priv mem L.args L.layer
        chunks).foldlM (cpuKvShiftPut L.args L.layer) (L.priv, mem)).map fun s => (s, .ok) := by
  have hhalf : L.args.headDim / 2 ≠ 0 := by omega
  unfold shift cpuKvShift
  by_cases hnil : chunks = []
  · subst hnil
    rfl
  · have hnone : (chunks.any fun c => decide (c.src < L.priv.kvBasePos L.layer) &&
        decide (L.priv.kvBasePos L.layer ≤ c.dst)) = false := by
      rw [List.any_eq_false]
      intro c hc
      have := hdown c hc
      simp only [Bool.and_eq_true, decide_eq_true_eq]
      omega
    rw [if_neg (by simp [hnil, hactive, hhalf]), L.known, if_neg (by simp), hnone, if_neg (by simp)]

theorem shift_idle (h : L.args.nActive = 0 ∨ L.args.headDim ≤ 1) (chunks : List KvShiftChunk)
    (mem : KvMem (β × β)) : L.shift R x mem chunks = some ((L.priv, mem), .ok) :=
  if_pos (by omega)

theorem shiftPuts_idle (h : L.args.nActive = 0 ∨ L.args.headDim ≤ 1) (chunks : List KvShiftChunk)
    (mem : KvMem (β × β)) : L.shiftPuts R x mem chunks = [] := if_pos (by omega)

/-- A position is covered by one row of ascending chunks only. -/
theorem chunk_unique {chunks : List KvShiftChunk} (hasc : RowMove.Ascending chunks) {i i' : ℕ}
    {c c' : KvShiftChunk} (hc : chunks[i]? = some c) (hc' : chunks[i']? = some c') {t t' : ℕ}
    (ht : t < c.n) (ht' : t' < c'.n) (heq : c'.dst + t' = c.dst + t) : i' = i := by
  have hpair := List.pairwise_iff_getElem.1 hasc
  obtain ⟨hi, rfl⟩ := List.getElem?_eq_some_iff.1 hc
  obtain ⟨hi', rfl⟩ := List.getElem?_eq_some_iff.1 hc'
  rcases Nat.lt_trichotomy i' i with hlt | rfl | hlt
  · have := (hpair _ _ hi' hi hlt).2
    omega
  · rfl
  · have := (hpair _ _ hi hi' hlt).2
    omega

/-- The bytes of a row that was put are those that were gathered for it. -/
theorem slot_moved {chunks : List KvShiftChunk} (hasc : RowMove.Ascending chunks)
    {turn : KvTurn β} {mem : KvMem β} {rs : List (ℕ × (ℕ → ℕ → Option β))}
    (hrs : rs = cpuKvShiftRows turn L.priv mem L.args L.layer chunks)
    (hin : ∀ r ∈ rs, r.1 < L.base + L.rows) {c : KvShiftChunk} {i t : ℕ}
    (hc : chunks[i]? = some c) (ht : t < c.n) (hdst : L.Readable L.base (c.dst + t))
    (hsrc : L.Readable L.base (c.src + t)) {h : ℕ} (hh : h < L.args.nActive) :
    L.slot (rs.foldl L.putRow mem) h (c.dst + t - L.base) =
      (List.range L.width).map (turn L.priv.kvQuant i (L.slot mem h (c.src + t - L.base))) := by
  obtain ⟨hlow, hhigh⟩ := hsrc
  have hmem : L.gathered turn mem c i t ∈ rs := hrs ▸ L.mem_shiftRows.2 ⟨c, i, t, hc, ht, rfl⟩
  rw [slot_eq]
  refine List.map_congr_left fun b hb => ?_
  have hcell := L.foldl_putRow_mem hin hmem ?_ hdst hh (List.mem_range.1 hb) mem
  · refine hcell.trans (if_neg ?_)
    omega
  · intro r' h' heq
    rw [hrs, L.mem_shiftRows] at h'
    obtain ⟨c', i', t', hc', ht', rfl⟩ := h'
    have hi := chunk_unique hasc hc hc' ht ht' heq
    subst hi
    obtain rfl : c' = c := Option.some.inj (hc'.symm.trans hc)
    obtain rfl : t' = t := by
      simp only [gathered] at heq
      omega
    rfl

/-- With every source inside the window the rows end up where they should. -/
theorem shifted_of_kept {chunks : List KvShiftChunk} (hasc : RowMove.Ascending chunks)
    (hdown : RowMove.Downward chunks) (hactive : L.args.nActive ≠ 0) (hdim : 2 ≤ L.args.headDim)
    (hsrc : ∀ c ∈ chunks, ∀ t < c.n, L.base ≤ c.dst + t → c.src + t < L.base + L.rows)
    {mem : KvMem (β × β)} {s : CpuPriv × KvMem (β × β)}
    (hs : L.shift R x mem chunks = some (s, .ok)) : L.Shifted R x chunks mem s := by
  obtain ⟨rs, hrs⟩ : ∃ rs, rs = cpuKvShiftRows (R.shiftTurn x L.args.headDim chunks) L.priv mem
    L.args L.layer chunks := ⟨_, rfl⟩
  have hin : ∀ r ∈ rs, r.1 < L.base + L.rows := by
    intro r hr
    rw [hrs, L.mem_shiftRows] at hr
    obtain ⟨c, i, t, hc, ht, rfl⟩ := hr
    have hmem := List.mem_of_getElem? hc
    have hle := hdown c hmem
    have := hsrc c hmem t ht
    simp only [gathered]
    omega
  rw [L.shift_eq R x hdown hactive hdim, ← hrs, L.shiftPut_run hin, Option.map_some] at hs
  obtain rfl : (L.priv, rs.foldl L.putRow mem) = s := (Prod.mk.inj (Option.some.inj hs)).1
  -- a destination with a slot has a source with one
  have hboth : ∀ c ∈ chunks, ∀ t < c.n, L.Readable L.base (c.dst + t) →
      L.Readable L.base (c.src + t) := by
    intro c hc t ht hdst
    have := hdown c hc
    exact ⟨hdst.1.trans (by omega), hsrc c hc t ht hdst.1⟩
  refine ⟨fun c hc t ht hdst h hh i hi => ?_, fun c hc t ht hdst h hh => ?_,
    fun q hq hbefore _ h hh => ?_, fun r hr h _ b _ => ?_⟩
  · obtain ⟨k, hk⟩ := List.mem_iff_getElem?.1 hc
    refine ⟨hboth c hc t ht hdst, ?_⟩
    have hslot := L.slot_moved hasc hrs hin hk ht hdst (hboth c hc t ht hdst) hh
    simp only [vRow]
    rw [show L.priv.kvBasePos L.layer = L.base from rfl, hslot]
    exact (L.load_stored x _ _ hi).2
  · obtain ⟨k, hk⟩ := List.mem_iff_getElem?.1 hc
    have hslot := L.slot_moved hasc hrs hin hk ht hdst (hboth c hc t ht hdst) hh
    refine RopeTurn.Rotated.congr R (R.rotateHead_rotated L.args.headDim hk _) fun i hi => ?_
    simp only [kRow]
    rw [show L.priv.kvBasePos L.layer = L.base from rfl, hslot]
    exact (L.load_stored x _ _ hi).1
  · rw [show L.priv.kvBasePos L.layer = L.base from rfl, slot_eq, slot_eq]
    refine List.map_congr_left fun b hb => ?_
    refine L.foldl_putRow_of_not_mem hin (fun r hr heq => ?_) hbefore hh (List.mem_range.1 hb) mem
    rw [hrs, L.mem_shiftRows] at hr
    obtain ⟨c, i, t, hc, ht, rfl⟩ := hr
    exact hq c (List.mem_of_getElem? hc) (heq ▸ ⟨Nat.le_add_right _ _, Nat.add_lt_add_left ht _⟩)
  · rw [shiftPuts, if_neg (by omega), ← hrs] at hr
    obtain ⟨hmem, hlow⟩ := L.puts_run hin mem hr
    rw [hrs, L.mem_shiftRows] at hmem
    obtain ⟨c, i, t, hc, ht, rfl⟩ := hmem
    have hkept := hboth c (List.mem_of_getElem? hc) t ht ⟨hlow, hin _ (hrs ▸
      L.mem_shiftRows.2 ⟨c, i, t, hc, ht, rfl⟩)⟩
    obtain ⟨h1, h2⟩ := hkept
    simp only [gathered]
    rw [if_neg (by omega)]
    rfl

/-- A row from above the window whose destination is not below it is put without having been
loaded. -/
theorem not_shifted {chunks : List KvShiftChunk} (hdown : RowMove.Downward chunks)
    (hactive : L.args.nActive ≠ 0) (hdim : 2 ≤ L.args.headDim) {c : KvShiftChunk}
    (hc : c ∈ chunks) {t : ℕ} (ht : t < c.n) (hdst : L.base ≤ c.dst + t)
    (hsrc : L.base + L.rows ≤ c.src + t) (mem : KvMem (β × β)) :
    ∃ s, L.shift R x mem chunks = some (s, .ok) ∧ ¬ L.Shifted R x chunks mem s := by
  obtain ⟨s, hs⟩ := L.shiftPut_some (cpuKvShiftRows (R.shiftTurn x L.args.headDim chunks) L.priv
    mem L.args L.layer chunks) L.priv mem L.known L.fits
  refine ⟨s, by rw [L.shift_eq R x hdown hactive hdim, hs]; rfl, fun hshifted => ?_⟩
  have hloaded := hshifted.loaded
  obtain ⟨i, hi⟩ := List.mem_iff_getElem?.1 hc
  have hrows : ∀ r ∈ cpuKvShiftRows (R.shiftTurn x L.args.headDim chunks) L.priv mem L.args L.layer
      chunks, r.1 < L.base + L.rows ∨ ∀ h b, r.2 h b = none := by
    intro r hr
    obtain ⟨c', i', t', hc', -, rfl⟩ := L.mem_shiftRows.1 hr
    have hle := hdown c' (List.mem_of_getElem? hc')
    by_cases habove : L.base + L.rows ≤ c'.src + t'
    · exact Or.inr fun h b => if_pos (by omega)
    · refine Or.inl ?_
      simp only [gathered]
      omega
  obtain ⟨r, hr, hnone⟩ := L.puts_unloaded hrows mem (L.mem_shiftRows.2 ⟨c, i, t, hi, ht, rfl⟩)
    hdst fun h b => if_pos (by omega)
  rw [shiftPuts, if_neg (by omega)] at hloaded
  have hwidth : 0 < L.width := by
    unfold width CpuPriv.rowBytes kvRowBytes
    cases L.priv.kvQuant <;> simp only <;> omega
  have := hloaded r hr 0 (by omega) 0 hwidth
  rw [hnone] at this
  exact absurd this (by simp)

/-- Where nothing is moved, a row with two different places is read as it was in both. -/
theorem eq_of_shifted_idle {chunks : List KvShiftChunk} (hactive : L.args.nActive ≠ 0)
    (hdim : L.args.headDim = 1)
    (h : ∀ mem, L.Shifted R x chunks mem (L.priv, mem)) {c : KvShiftChunk} (hc : c ∈ chunks)
    {t : ℕ} (ht : t < c.n) (hdst : L.Readable L.base (c.dst + t)) : c.src = c.dst := by
  by_contra hne
  -- the source row holds `v` and the rest of the cache nothing
  let mem (v : F) : KvMem (β × β) :=
    Strided.writeBlock (fun _ => none) (L.cellOf 0 (c.src + t) 0) L.width fun b =>
      some (x.store L.priv.kvQuant L.args.headDim (fun _ => v) b,
        x.store L.priv.kvQuant L.args.headDim (fun _ => v) b)
  have hread : ∀ v, L.vRow x (mem v) 0 (c.dst + t - L.base) 0 = v := by
    intro v
    obtain ⟨hsrc, hval⟩ := (h (mem v)).stored c hc t ht hdst 0 (by omega) 0 (by omega)
    have hslot : L.slot (mem v) 0 (c.src + t - L.base) = (List.range L.width).map fun b =>
        some (x.store L.priv.kvQuant L.args.headDim (fun _ => v) b,
          x.store L.priv.kvQuant L.args.headDim (fun _ => v) b) := by
      obtain ⟨h1, h2⟩ := hsrc
      rw [slot_eq]
      refine List.map_congr_left fun b hb => ?_
      exact (Strided.writeBlock_cell (by omega) (by omega) (List.mem_range.1 hb)).trans
        (if_pos ⟨rfl, rfl⟩)
    refine hval.trans ?_
    simp only [vRow]
    rw [hslot]
    exact (L.load_stored x (fun _ => v) (fun _ => v) (by omega)).2
  have hsame : L.slot (mem 0) 0 (c.dst + t - L.base) = L.slot (mem 1) 0 (c.dst + t - L.base) := by
    obtain ⟨hsrc, -⟩ := (h (mem 0)).stored c hc t ht hdst 0 (by omega) 0 (by omega)
    obtain ⟨h1, h2⟩ := hsrc
    obtain ⟨h3, h4⟩ := hdst
    rw [slot_eq, slot_eq]
    refine List.map_congr_left fun b hb => ?_
    have hout : ∀ v, mem v (L.cellOf 0 (c.dst + t) b) = none := fun v =>
      (Strided.writeBlock_cell (by omega) (by omega) (List.mem_range.1 hb)).trans
        (if_neg (by omega))
    rw [hout, hout]
  have h01 : (0 : F) = 1 := by
    rw [← hread 0, ← hread 1]
    simp only [vRow]
    rw [hsame]
  exact zero_ne_one h01

/-- On a layer of the CPU backend, with any contents, an accepted call moves the rows as if
all were read first and puts nothing it has not read, exactly when no source of a row that is
put lies above the window (and, with nothing to turn, when no row has to move). -/
theorem cpuKvShift_moves {chunks : List KvShiftChunk} (hasc : RowMove.Ascending chunks)
    (hdown : RowMove.Downward chunks) :
    (∀ mem s, L.shift R x mem chunks = some (s, .ok) → L.Shifted R x chunks mem s) ↔
      L.SourcesKept chunks := by
  by_cases hactive : L.args.nActive = 0
  · refine iff_of_true (fun mem s hs => ?_) (Or.inl hactive)
    rw [L.shift_idle R x (Or.inl hactive)] at hs
    obtain rfl : (L.priv, mem) = s := (Prod.mk.inj (Option.some.inj hs)).1
    have hnone : ∀ {h}, ¬ h < L.args.nActive := by omega
    exact ⟨fun _ _ _ _ _ h hh => absurd hh hnone, fun _ _ _ _ _ h hh => absurd hh hnone,
      fun _ _ _ _ h hh => absurd hh hnone, fun _ _ h hh => absurd hh hnone⟩
  by_cases hdim : 2 ≤ L.args.headDim
  · constructor
    · intro h
      refine Or.inr (Or.inr (Or.inr ⟨hdim, fun c hc t ht hdst => ?_⟩))
      by_contra habove
      obtain ⟨s, hs, hnot⟩ := L.not_shifted R x hdown hactive hdim hc ht hdst
        (Nat.le_of_not_lt habove) fun _ => none
      exact hnot (h _ s hs)
    · rintro (h | h | h | ⟨-, h⟩)
      · exact absurd h hactive
      · omega
      · omega
      · exact fun mem s hs => L.shifted_of_kept R x hasc hdown hactive hdim h hs
  have hidle := fun mem => L.shift_idle R x (Or.inr (by omega)) chunks mem
  have hputs := fun mem => L.shiftPuts_idle R x (Or.inr (by omega)) chunks mem
  by_cases hzero : L.args.headDim = 0
  · refine iff_of_true (fun mem s hs => ?_) (Or.inr (Or.inl hzero))
    rw [hidle] at hs
    obtain rfl : (L.priv, mem) = s := (Prod.mk.inj (Option.some.inj hs)).1
    refine ⟨fun _ _ _ _ _ _ _ i hi => ?_, fun _ _ _ _ _ _ _ => ⟨?_, ?_, ?_⟩,
      fun _ _ _ _ _ _ => rfl, fun r hr => ?_⟩
    · omega
    · intro j hj
      omega
    · intro j hj
      omega
    · intro i hi
      omega
    · rw [hputs] at hr
      exact absurd hr List.not_mem_nil
  have hone : L.args.headDim = 1 := by omega
  constructor
  · intro h
    refine Or.inr (Or.inr (Or.inl ⟨hone, fun c hc t ht hdst => ?_⟩))
    exact L.eq_of_shifted_idle R x hactive hone (fun mem => h mem _ (hidle mem)) hc ht hdst
  · rintro (h | h | ⟨-, h⟩ | ⟨h, -⟩)
    · exact absurd h hactive
    · exact absurd h hzero
    · intro mem s hs
      rw [hidle] at hs
      obtain rfl : (L.priv, mem) = s := (Prod.mk.inj (Option.some.inj hs)).1
      refine ⟨fun c hc t ht hdst _ _ i _ => ?_, fun c hc t ht hdst _ _ => ⟨?_, ?_, fun i _ _ => ?_⟩,
        fun _ _ _ _ _ _ => rfl, fun r hr => ?_⟩
      · have heq := h c hc t ht hdst
        rw [heq]
        exact ⟨hdst, rfl⟩
      · intro j hj
        omega
      · intro j hj
        omega
      · rw [h c hc t ht hdst]
        rfl
      · rw [hputs] at hr
        exact absurd hr List.not_mem_nil
    · omega

end

end KvShiftLayer

/-- Values that are stored as they are, each at the place of its byte. -/
def plainPlace : KvQuant → ℕ → ℕ
  | .f16, i => 2 * i
  | .q8_0, i => i / 32 * 34 + 2 + i % 32

def plainIndex : KvQuant → ℕ → ℕ
  | .f16, b => b / 2
  | .q8_0, b => b / 34 * 32 + (b % 34 - 2)

theorem plainPlace_lt (q : KvQuant) {headDim i : ℕ} (hi : i < headDim) :
    plainPlace q i < kvRowBytes q headDim := by
  cases q with
  | f16 =>
    simp only [plainPlace, kvRowBytes]
    omega
  | q8_0 =>
    simp only [plainPlace, kvRowBytes]
    omega

theorem plainIndex_place (q : KvQuant) (i : ℕ) : plainIndex q (plainPlace q i) = i := by
  cases q with
  | f16 =>
    simp only [plainPlace, plainIndex]
    omega
  | q8_0 =>
    simp only [plainPlace, plainIndex]
    omega

def plainRows (F : Type*) [Zero F] : ExactRows F F where
  load q _ bytes i := (bytes.getD (plainPlace q i) none).getD 0
  store q _ row b := row (plainIndex q b)
  load_store := by
    intro q headDim row i hi
    have hlt := plainPlace_lt q hi
    rw [List.getD_eq_getElem _ _ (by simpa using hlt), List.getElem_map, List.getElem_range,
      Option.getD_some, plainIndex_place]

/-- A layer of one head of two values, capped at four positions and moved up by eight. -/
def cappedLayer : KvShiftLayer where
  priv := ⟨.f16, none, fun _ => 4, fun _ => 8, 1, 32⟩
  args := ⟨1, 2, 32, 1⟩
  layer := 0
  known := rfl
  fits := by decide
  compacted := Or.inr (by decide)

/-- A quarter turn for each position, counted in units of it. -/
def quarterTurn : RopeTurn ℚ where
  neox := true
  thetaScale := 1
  freqs := none
  cos d := if d = 0 then 1 else if d = 2 ∨ d = -2 then -1 else 0
  sin d := if d = 1 ∨ d = -3 then 1 else if d = -1 ∨ d = 3 then -1 else 0

/-- Rows 10 and 11 go to 8 and 9. -/
theorem cpuKvShift_moves_down :
    RowMove.Ascending [⟨10, 8, 2⟩] ∧ RowMove.Downward [⟨10, 8, 2⟩] ∧
      ∀ mem s, cappedLayer.shift quarterTurn (plainRows ℚ) mem [⟨10, 8, 2⟩] = some (s, .ok) →
        cappedLayer.Shifted quarterTurn (plainRows ℚ) [⟨10, 8, 2⟩] mem s := by
  have hasc : RowMove.Ascending [⟨10, 8, 2⟩] := List.pairwise_singleton _ _
  have hdown : RowMove.Downward [⟨10, 8, 2⟩] := by simp [RowMove.Downward]
  refine ⟨hasc, hdown, (KvShiftLayer.cpuKvShift_moves cappedLayer quarterTurn (plainRows ℚ) hasc
    hdown).2 (Or.inr (Or.inr (Or.inr ⟨le_rfl, fun c hc t ht hdst => ?_⟩)))⟩
  rw [List.mem_singleton] at hc
  subst hc
  change 10 + t < 8 + 4
  have ht' : t < 2 := ht
  omega

/-- Row 12 lies above the window, 8 to 11, and 9 gets a row that was never read. -/
theorem cpuKvShift_unread :
    RowMove.Ascending [⟨12, 9, 1⟩] ∧ RowMove.Downward [⟨12, 9, 1⟩] ∧
      ∃ s, cappedLayer.shift quarterTurn (plainRows ℚ) (fun _ => some (0, 0)) [⟨12, 9, 1⟩] =
          some (s, .ok) ∧
        ¬ cappedLayer.Shifted quarterTurn (plainRows ℚ) [⟨12, 9, 1⟩] (fun _ => some (0, 0)) s := by
  have hdown : RowMove.Downward [⟨12, 9, 1⟩] := by simp [RowMove.Downward]
  exact ⟨List.pairwise_singleton _ _, hdown, KvShiftLayer.not_shifted cappedLayer quarterTurn
    (plainRows ℚ) hdown (by decide) le_rfl List.mem_cons_self Nat.zero_lt_one (by decide) le_rfl _⟩

end Kappai
