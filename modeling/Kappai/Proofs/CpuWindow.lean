import Kappai.Lib.Loop
import Kappai.Sanity.CpuKv

/-! Sliding-window layers on the CPU backend. A layer keeps the rows of its last positions in
slots counted from a base position, which only goes up. As long as every pass starts with its
window above the base, attention reads the rows put last, each from the slot of its position. -/

namespace Kappai

variable {β : Type*} {S : SwaModel}

namespace SwaCache

/-- Attention at position `p` of a sliding layer reads the rows put last at the positions of
its window, in their slots. -/
structure ReadsWindow (S : SwaModel) (c : SwaCache β) (l p : ℕ) : Prop where
  base_le : c.priv.kvBasePos l ≤ p + 1 - S.window
  slots : cpuKvWindowToSlots (c.priv.kvBasePos l) (attnWindow (S.layerWindow l) p).1
      (attnWindow (S.layerWindow l) p).2 =
    (p + 1 - S.window - c.priv.kvBasePos l, min S.window (p + 1))
  rows : ∃ row : ℕ → ℕ → ℕ → β,
    (∀ q, p + 1 - S.window ≤ q → q ≤ p → c.lastPut l q = some (row q)) ∧
    ∀ head < S.nKvHeads l, cpuAttnRows c.priv c.mem (S.args l) l (S.layerWindow l) p head =
      (List.range (min S.window (p + 1))).map fun t =>
        (List.range (S.width l)).map fun b => some (row (p + 1 - S.window + t) head b)

/-- The positions in the order of the layers' puts: layer `l` has been put below `N l`. -/
structure Filled (S : SwaModel) (c : SwaCache β) (N : ℕ → ℕ) : Prop where
  laid : 0 < S.nLayers → S.Laid c.priv
  holds : ∀ l < S.nLayers, 0 < S.nKvHeads l →
    S.Holds l (c.priv.kvBasePos l) c.mem (c.lastPut l) (N l)

/-- No layer has been compacted beyond the window of the next position. -/
def Kept (S : SwaModel) (c : SwaCache β) : Prop :=
  ∀ l < S.nLayers, S.sliding l → c.priv.kvBasePos l ≤ c.nPos + 1 - S.window

instance (c : SwaCache β) : Decidable (c.Kept S) :=
  inferInstanceAs (Decidable (∀ l < S.nLayers, _ → _))

/-- A pass that is let through starts with its window above the bases. -/
def windowsKept (S : SwaModel) (c : SwaCache β) : SwaOp β → Prop
  | .batch m _ _ => c.accepts S m = true → c.Kept S
  | _ => True

instance (c : SwaCache β) (op : SwaOp β) : Decidable (c.windowsKept S op) :=
  match op with
  | .batch m _ _ => inferInstanceAs (Decidable (c.accepts S m = true → c.Kept S))
  | .rewind _ => isTrue trivial
  | .reset => isTrue trivial

theorem init_filled : (init S : SwaCache β).Filled S fun _ => 0 := by
  refine ⟨SwaModel.alloc_laid, fun l hl _ => ?_⟩
  have hbase : (init S : SwaCache β).priv.kvBasePos l = 0 := by
    unfold init cpuKvAlloc
    dsimp only
    split <;> rfl
  refine ⟨Or.inl hbase, ?_, fun _ _ => rfl, fun q hq => absurd hq (Nat.not_lt_zero q)⟩
  rintro q row - ⟨⟩

theorem Filled.readsWindow {c : SwaCache β} {N : ℕ → ℕ} (h : c.Filled S N) {l p : ℕ}
    (hl : l < S.nLayers) (hs : S.sliding l = true) (hheads : 0 < S.nKvHeads l)
    (hctx : 0 < S.nCtx) (hwin : 0 < S.window) (hp : p < N l)
    (hbase : c.priv.kvBasePos l ≤ p + 1 - S.window) : c.ReadsWindow S l p := by
  have hh := h.holds l hl hheads
  have hlaid := h.laid (by omega)
  have hattn : attnWindow (S.layerWindow l) p = (p + 1 - S.window, min S.window (p + 1)) := by
    rw [SwaModel.layerWindow, if_pos hs, attnWindow]
    split_ifs
    · rw [Nat.min_eq_left (by omega)]
    · rw [Nat.min_eq_right (by omega), Nat.sub_eq_zero_of_le (by omega)]
  have hslots : cpuKvWindowToSlots (c.priv.kvBasePos l) (p + 1 - S.window)
      (min S.window (p + 1)) =
        (p + 1 - S.window - c.priv.kvBasePos l, min S.window (p + 1)) := by
    unfold cpuKvWindowToSlots
    split_ifs with h0
    · rw [h0, Nat.sub_zero]
    · exact absurd hbase (by omega)
    · rfl
  refine ⟨hbase, by rw [hattn, hslots], ?_⟩
  have : Nonempty (ℕ → ℕ → β) := ⟨(Option.isSome_iff_exists.1 (hh.put p hp)).choose⟩
  choose! row hrow using fun q hq => Option.isSome_iff_exists.1 (hh.put q hq)
  refine ⟨row, fun q _ hq => hrow q (by omega), fun head hhead => ?_⟩
  rw [cpuAttnRows, hattn, hslots, hlaid.rowBytes_eq, hlaid.layerBase_eq, hlaid.layerRows_eq hctx]
  refine List.map_congr_left fun t ht => List.map_congr_left fun b hb => ?_
  rw [List.mem_range] at ht hb
  rw [← hh.slots _ _ (by omega) (hrow (p + 1 - S.window + t) (by omega)) head hhead b hb]
  congr 2
  omega

/-- One layer's put, in the middle of a pass. -/
theorem putLayer_spec {c : SwaCache β} {N : ℕ → ℕ} {l m : ℕ} (h : c.Filled S N)
    (hl : l < S.nLayers) (hN : N l = c.nPos) (hacc : c.accepts S m = true) (hkept : c.Kept S)
    (rows : ℕ → ℕ → ℕ → ℕ → β) :
    ∃ c', putLayer S m rows l c = some c' ∧ c'.nPos = c.nPos ∧
      c'.Filled S (Function.update N l (c.nPos + m)) ∧ c'.Kept S ∧
      ∀ a, a < S.off l ∨ S.off l + S.bytes l ≤ a → c'.mem a = c.mem a := by
  simp only [accepts, Bool.and_eq_true, decide_eq_true_eq, Bool.not_eq_true'] at hacc
  obtain ⟨⟨hm, hctx⟩, hguard⟩ := hacc
  rcases Nat.eq_zero_or_pos (S.nKvHeads l) with h0 | hheads
  · have hnone : m * (S.args l).nActive = 0 := by
      have : (S.args l).nActive = 0 := by simp [KvArgs.nActive, SwaModel.args, h0]
      rw [this, Nat.mul_zero]
    refine ⟨_, congrArg (Option.map _) (if_pos hnone), rfl, ⟨h.laid, fun j hj hheads => ?_⟩,
      hkept, fun _ _ => rfl⟩
    have hne : j ≠ l := by
      rintro rfl
      omega
    simp only [Function.update_of_ne hne]
    exact h.holds j hj hheads
  · have hlaid := h.laid (by omega)
    obtain ⟨base, mem', hput, hholds, hbase, hmem⟩ := SwaModel.putBatch_spec hlaid hl hheads
      (hN ▸ h.holds l hl hheads) hm hctx hguard (hkept l hl) (rows l)
    refine ⟨_, congrArg (Option.map _) hput, rfl, ⟨fun _ => ?_, fun j hj hheads => ?_⟩,
      fun j hj hs => ?_, hmem⟩
    · exact ⟨hlaid.quant, hlaid.off, hlaid.cap, hlaid.layers, hlaid.kBytes⟩
    · rcases eq_or_ne j l with rfl | hne
      · simpa only [Function.update_self] using hholds
      · simp only [Function.update_of_ne hne]
        exact (h.holds j hj hheads).frame hne hmem
    · rcases eq_or_ne j l with rfl | hne
      · simpa only [Function.update_self] using hbase hs
      · simpa only [Function.update_of_ne hne] using hkept j hj hs

/-- The first `k` layers' puts. -/
theorem putLayers_spec {c : SwaCache β} {m : ℕ} (h : c.Filled S fun _ => c.nPos)
    (hacc : c.accepts S m = true) (hkept : c.Kept S) (rows : ℕ → ℕ → ℕ → ℕ → β) :
    ∀ k ≤ S.nLayers, ∃ c', c.putLayers S m rows k = some c' ∧ c'.nPos = c.nPos ∧
      c'.Filled S (fun l => if l < k then c.nPos + m else c.nPos) ∧ c'.Kept S := by
  intro k
  induction k with
  | zero => exact fun _ => ⟨c, rfl, rfl, by simpa using h, hkept⟩
  | succ k ih =>
    intro hk
    obtain ⟨c₁, hput, hpos, hfill, hkept₁⟩ := ih (by omega)
    have hacc₁ : c₁.accepts S m = true := by
      rw [accepts, hpos]
      exact hacc
    obtain ⟨c₂, hput₂, hpos₂, hfill₂, hkept₂, -⟩ :=
      putLayer_spec hfill hk (by simp [hpos]) hacc₁ hkept₁ rows
    refine ⟨c₂, by rw [putLayers, hput]; exact hput₂, hpos₂.trans hpos, ?_, hkept₂⟩
    convert hfill₂ using 2 with l
    rcases eq_or_ne l k with rfl | hne
    · simp [hpos]
    · rw [Function.update_of_ne hne]
      exact if_congr (by omega) rfl rfl

/-- One operation of a run; `none` is a run that has aborted. -/
def step (S : SwaModel) (s : Option (SwaCache β)) (op : SwaOp β) : Option (SwaCache β) :=
  s.bind fun c => c.apply S op

def stepKept (S : SwaModel) (s : Option (SwaCache β)) (op : SwaOp β) : Prop :=
  ∀ c ∈ s, c.windowsKept S op

instance (s : Option (SwaCache β)) (op : SwaOp β) : Decidable (stepKept S s op) :=
  match s with
  | none => isTrue (by rintro c ⟨⟩)
  | some c => decidable_of_iff (c.windowsKept S op) (by simp [stepKept])

theorem Filled.mono {c : SwaCache β} {N N' : ℕ → ℕ} (h : c.Filled S N) (hle : ∀ l, N' l ≤ N l)
    {nPos : ℕ} : ({ c with nPos := nPos } : SwaCache β).Filled S N' :=
  ⟨h.laid, fun l hl hheads => (h.holds l hl hheads).mono (hle l)⟩

theorem apply_filled {c : SwaCache β} (h : c.Filled S fun _ => c.nPos) {op : SwaOp β}
    (hkept : c.windowsKept S op) : ∃ c', c.apply S op = some c' ∧ c'.Filled S fun _ => c'.nPos := by
  cases op with
  | rewind pos => exact ⟨_, rfl, h.mono fun _ => Nat.min_le_right _ _⟩
  | reset => exact ⟨_, rfl, h.mono fun _ => Nat.zero_le _⟩
  | batch m rows failed =>
    unfold apply
    dsimp only
    split_ifs with hacc
    · cases failed with
      | none =>
        obtain ⟨c', hput, hpos, hfill, -⟩ := putLayers_spec h hacc (hkept hacc) rows _ le_rfl
        refine ⟨_, congrArg (Option.map _) hput, hfill.laid, fun l hl hheads => ?_⟩
        have := hfill.holds l hl hheads
        rw [if_pos hl, ← hpos] at this
        exact this
      | some k =>
        obtain ⟨c', hput, hpos, hfill, -⟩ :=
          putLayers_spec h hacc (hkept hacc) rows _ (Nat.min_le_right k _)
        refine ⟨c', hput, hfill.mono fun l => ?_⟩
        split_ifs <;> omega
    · exact ⟨c, rfl, h⟩

/-- In every run whose passes start with their windows above the bases, nothing aborts, the
puts of each layer change its own area only, and attention after them reads its window. -/
theorem attention_reads_window (hwin : 0 < S.window) (ops : List (SwaOp β)) (m : ℕ)
    (rows : ℕ → ℕ → ℕ → ℕ → β) (failed : Option ℕ)
    (hrun : SafeRun (step S) (stepKept S) (some (init S)) (ops ++ [.batch m rows failed])) :
    ∃ c, ops.foldl (step S) (some (init S)) = some c ∧ (c.accepts S m = true →
      ∀ l < S.nLayers, ∃ c₁ c₂, c.putLayers S m rows l = some c₁ ∧
        putLayer S m rows l c₁ = some c₂ ∧
        (∀ a, a < S.off l ∨ S.off l + S.bytes l ≤ a → c₂.mem a = c₁.mem a) ∧
        (S.sliding l = true → 0 < S.nKvHeads l → ∀ r < m, c₂.ReadsWindow S l (c.nPos + r))) := by
  obtain ⟨hsafe, hlast, -⟩ := safeRun_append.1 hrun
  have hinv := SafeRun.inv (I := fun s : Option (SwaCache β) =>
    ∃ c, s = some c ∧ c.Filled S fun _ => c.nPos) (fun s op hs hok => by
      obtain ⟨c, rfl, hfill⟩ := hs
      exact apply_filled hfill (hok c rfl)) ⟨_, rfl, init_filled⟩ hsafe
  obtain ⟨c, hc, hfill⟩ := hinv
  rw [hc] at hlast
  refine ⟨c, hc, fun hacc l hl => ?_⟩
  obtain ⟨c₁, hput, hpos, hfill₁, hkept₁⟩ :=
    putLayers_spec hfill hacc (hlast c rfl hacc) rows l hl.le
  have hacc₁ : c₁.accepts S m = true := by
    rw [accepts, hpos]
    exact hacc
  obtain ⟨c₂, hput₂, hpos₂, hfill₂, hkept₂, hmem⟩ :=
    putLayer_spec hfill₁ hl (by simp [hpos]) hacc₁ hkept₁ rows
  refine ⟨c₁, c₂, hput, hput₂, hmem, fun hs hheads r hr => ?_⟩
  have hctx : 0 < S.nCtx := by
    simp only [accepts, Bool.and_eq_true, decide_eq_true_eq] at hacc
    omega
  refine hfill₂.readsWindow hl hs hheads hctx hwin ?_ ?_
  · rw [Function.update_self, hpos]
    omega
  · have := hkept₂ l hl hs
    omega

/-- One sliding layer with a window of two positions. -/
def smallWindow : SwaModel := ⟨1, 32, 2, fun _ => true, .f16, fun _ => 1, fun _ => 1⟩

/-- Two full passes, which compact the layer. -/
def twoPasses : List (SwaOp ℕ) :=
  [.batch 9 (fun _ i _ b => 2 * i + b) none, .batch 9 (fun _ i _ b => 2 * i + b) none]

theorem attention_reads_window_rewound :
    SafeRun (step smallWindow) (stepKept smallWindow) (some (init smallWindow))
      ((twoPasses ++ [SwaOp.rewind 15]) ++ [SwaOp.batch 3 (fun _ i _ b => 2 * i + b) none]) ∧
    ∃ c c₁ c₂, (twoPasses ++ [SwaOp.rewind 15]).foldl (step smallWindow) (some (init smallWindow)) =
        some c ∧ c.putLayers smallWindow 3 (fun _ i _ b => 2 * i + b) 0 = some c₁ ∧
      putLayer smallWindow 3 (fun _ i _ b => 2 * i + b) 0 c₁ = some c₂ ∧
      ∀ r < 3, c₂.ReadsWindow smallWindow 0 (c.nPos + r) := by
  have hrun : SafeRun (step smallWindow) (stepKept smallWindow) (some (init smallWindow))
      ((twoPasses ++ [SwaOp.rewind 15]) ++ [SwaOp.batch 3 (fun _ i _ b => 2 * i + b) none]) := by
    decide +kernel
  obtain ⟨c, hc, hreads⟩ :=
    attention_reads_window (by decide) (twoPasses ++ [SwaOp.rewind 15]) 3 _ none hrun
  have hpos : (twoPasses ++ [SwaOp.rewind 15]).foldl (step smallWindow) (some (init smallWindow))
      |>.any fun c : SwaCache ℕ => c.accepts smallWindow 3 := by decide +kernel
  rw [hc] at hpos
  obtain ⟨c₁, c₂, hput, hput₂, -, hwindow⟩ := hreads hpos 0 (by decide)
  exact ⟨hrun, c, c₁, c₂, hc, hput, hput₂, hwindow rfl (by decide)⟩

/-- After a rewind below the base, attention at position 4 reads no row at all. -/
theorem attention_after_rewind :
    ∃ c c₂ : SwaCache ℕ,
      (twoPasses ++ [SwaOp.rewind 4]).foldl (step smallWindow) (some (init smallWindow)) = some c ∧
      c.putLayers smallWindow 1 (fun _ i _ b => 2 * i + b) 1 = some c₂ ∧
      c.accepts smallWindow 1 = true ∧ c.nPos = 4 ∧
      cpuAttnRows c₂.priv c₂.mem (smallWindow.args 0) 0 2 4 0 = [] ∧
      ¬ c₂.ReadsWindow smallWindow 0 4 := by
  have hrun : ((twoPasses ++ [SwaOp.rewind 4]).foldl (step smallWindow)
      (some (init smallWindow))).any fun c : SwaCache ℕ => (c.putLayers smallWindow 1
        (fun _ i _ b => 2 * i + b) 1).any fun c₂ : SwaCache ℕ =>
          c.accepts smallWindow 1 && c.nPos = 4 && c₂.priv.kvBasePos 0 = 8 &&
            cpuAttnRows c₂.priv c₂.mem (smallWindow.args 0) 0 2 4 0 = [] := by
    decide +kernel
  obtain ⟨c, hc, hput⟩ := (Option.any_eq_true _ _).1 hrun
  obtain ⟨c₂, hc₂, hread⟩ := (Option.any_eq_true _ _).1 hput
  simp only [Bool.and_eq_true, decide_eq_true_eq] at hread
  obtain ⟨⟨⟨hacc, hpos⟩, hbase⟩, hrows⟩ := hread
  refine ⟨c, c₂, hc, hc₂, hacc, hpos, hrows, fun h => ?_⟩
  have := h.base_le
  rw [hbase] at this
  exact absurd this (by decide)

end SwaCache

end Kappai
