import Kappai.Spec.CpuKv

/-! What one put does to a layer of a cache on the CPU backend: the arithmetic of its slots, the
layout of the model's layers, and the rows a layer holds before and after. -/

namespace Kappai

/-- What a put of `m` rows from `n` on does to the slots of a layer: the base goes up by the
shift, the rows go to the slots of their positions and fit, and the window of the first row
stays above the base. -/
structure PutSlots (cap base n m : ℕ) (r : ℕ × ℕ) : Prop where
  start : r.2 - (m - 1) = n - (base + r.1)
  low : base + r.1 ≤ n
  fit : n + m ≤ base + r.1 + cap

theorem cpuKvPutSlot_spec {window nCtx base n m : ℕ} {sliding : Bool}
    (hm : 0 < m) (hctx : n + m ≤ nCtx)
    (hbase : base = 0 ∨ modelKvLayerPosCap window nCtx sliding < nCtx)
    (hguard : batchOutrunsWindow window n m = false)
    (hhigh : n ≤ base + modelKvLayerPosCap window nCtx sliding)
    (hkept : sliding → base ≤ n + 1 - window) :
    let cap := modelKvLayerPosCap window nCtx sliding
    let r := cpuKvPutSlot cap nCtx base (n + m - 1)
    PutSlots cap base n m r ∧ (sliding → base + r.1 ≤ n + 1 - window) ∧
      (r.1 = 0 ∨ cap < nCtx) := by
  intro cap r
  by_cases hfull : nCtx ≤ cap
  · have hr : r = (0, n + m - 1) := if_pos (Or.inr hfull)
    have h0 : base = 0 := hbase.resolve_right (by omega)
    rw [hr]
    exact ⟨⟨by omega, by omega, by simp only; omega⟩, by simpa using hkept, Or.inl rfl⟩
  · have hcap : 0 < window ∧ sliding ∧ cap = window + slack window := by
      change ¬ nCtx ≤ modelKvLayerPosCap window nCtx sliding at hfull
      change 0 < window ∧ sliding ∧ modelKvLayerPosCap window nCtx sliding = _
      unfold modelKvLayerPosCap at hfull ⊢
      split_ifs at hfull ⊢ with h1 h2
      · exact absurd le_rfl hfull
      · exact absurd le_rfl hfull
      · simp only [not_or, Bool.not_eq_true', Bool.not_eq_false] at h1
        exact ⟨by omega, h1.2, rfl⟩
    obtain ⟨hw, hs, hcap⟩ := hcap
    have hlow := hkept hs
    have hslack : n + m ≤ window + slack window ∨ m ≤ slack window + 1 := by
      simp only [batchOutrunsWindow, Bool.and_eq_false_iff, decide_eq_false_iff_not] at hguard
      omega
    change n ≤ base + cap at hhigh
    obtain ⟨d, hd, hr⟩ : ∃ d, (base + cap ≤ n + m - 1 ∧ d = min (n + m - 1 - base - cap + 1) cap ∨
        n + m - 1 < base + cap ∧ d = 0) ∧ r = (d, n + m - 1 - (base + d)) := by
      refine ⟨_, ?_, (if_neg (by omega)).trans (congrArg (Prod.mk _) (if_neg ?_))⟩ <;>
        split_ifs <;> omega
    rw [hr]
    refine ⟨⟨?_, ?_, ?_⟩, fun _ => ?_, ?_⟩ <;> dsimp only <;> omega

theorem layerOff_add_le (bytes : ℕ → ℕ) {i j : ℕ} (h : i < j) :
    layerOff bytes i + bytes i ≤ layerOff bytes j := by
  induction j with
  | zero => exact absurd h (Nat.not_lt_zero _)
  | succ j ih =>
    rcases Nat.lt_succ_iff_lt_or_eq.1 h with hlt | rfl
    · exact (ih hlt).trans (Nat.le_add_right _ _)
    · exact le_rfl

theorem dvd_layerOff {d n : ℕ} {bytes : ℕ → ℕ} (h : ∀ i < n, d ∣ bytes i) :
    d ∣ layerOff bytes n := by
  induction n with
  | zero => exact Nat.dvd_zero d
  | succ n ih =>
    exact Nat.dvd_add (ih fun i hi => h i (Nat.lt_succ_of_lt hi)) (h n (Nat.lt_succ_self n))

theorem layerOff_const {bytes : ℕ → ℕ} {k n : ℕ} (hk : k ≤ n) (h : ∀ i, k ≤ i → bytes i = 0) :
    layerOff bytes n = layerOff bytes k := by
  induction n, hk using Nat.le_induction with
  | base => rfl
  | succ n hn ih => rw [layerOff, h n hn, ih, Nat.add_zero]

namespace SwaModel

variable (S : SwaModel)

/-- Bytes of a row, of a layer, and the first byte of a layer. -/
def width (l : ℕ) : ℕ := kvRowBytes S.kvQuant (S.headDim l)

def bytes (l : ℕ) : ℕ := S.nKvHeads l * (S.posCap l * S.width l)

def off (l : ℕ) : ℕ := layerOff S.bytes l

/-- The layout `cpu_kv_alloc` has computed for the model. -/
structure Laid (p : CpuPriv) : Prop where
  quant : p.kvQuant = S.kvQuant
  off : p.kvLayerOff = some (layerOff S.bytes)
  cap : p.kvPosCap = S.posCap
  layers : p.kvNLayers = S.nLayers
  kBytes : p.kvKBytes = layerOff S.bytes S.nLayers

variable {S}

theorem posCap_pos (h : 0 < S.nCtx) (l : ℕ) : 0 < S.posCap l := by
  unfold posCap modelKvLayerPosCap
  split_ifs <;> omega

theorem alloc_laid (hlayers : 0 < S.nLayers) : S.Laid (cpuKvAlloc S.desc) := by
  have hcap : ∀ i, (if 0 < S.posCap i then S.posCap i else S.nCtx) = S.posCap i := by
    intro i
    unfold posCap modelKvLayerPosCap
    split_ifs <;> omega
  have hoff : (cpuKvAlloc S.desc).kvLayerOff = some (layerOff S.bytes) ∧
      (cpuKvAlloc S.desc).kvKBytes = layerOff S.bytes S.nLayers := by
    simp only [cpuKvAlloc, desc, hlayers, if_true, hcap]
    exact ⟨rfl, rfl⟩
  have hrest : (cpuKvAlloc S.desc).kvPosCap = S.posCap ∧
      (cpuKvAlloc S.desc).kvNLayers = S.nLayers ∧ (cpuKvAlloc S.desc).kvQuant = S.kvQuant := by
    simp only [cpuKvAlloc, desc, hlayers, if_true, hcap]
    exact ⟨trivial, trivial, trivial⟩
  exact ⟨hrest.2.2, hoff.1, hrest.1, hrest.2.1, hoff.2⟩

namespace Laid

variable {p : CpuPriv} (h : S.Laid p)

include h

theorem layerRows_eq (hctx : 0 < S.nCtx) (l : ℕ) : p.layerRows (S.args l) l = S.posCap l := by
  rw [CpuPriv.layerRows, h.cap, if_pos (posCap_pos hctx l)]

theorem rowBytes_eq (l : ℕ) : p.rowBytes (S.args l) = S.width l := by
  rw [CpuPriv.rowBytes, h.quant]
  rfl

theorem layerBase_eq (l : ℕ) : p.layerBase (S.args l) l = S.off l := by
  simp only [CpuPriv.layerBase, h.off]
  rfl

/-- A layer of the model passes the checks that would abort. -/
theorem checks (hctx : 0 < S.nCtx) {l : ℕ} (hl : l < S.nLayers) (hheads : 0 < S.nKvHeads l) :
    p.layerCheck l = true ∧ cpuKvPutFits p (S.args l) l = true := by
  constructor
  · simp [CpuPriv.layerCheck, h.layers, hl]
  · have hactive : (S.args l).nActive = S.nKvHeads l := if_pos hheads
    have hle : S.off l + S.nKvHeads l * (S.posCap l * S.width l) ≤
        layerOff S.bytes S.nLayers := layerOff_add_le S.bytes hl
    simp only [cpuKvPutFits, h.layerBase_eq, h.layerRows_eq hctx, h.rowBytes_eq, h.kBytes, hactive]
    simp only [Bool.or_eq_true, decide_eq_true_eq]
    exact Or.inr hle

end Laid

variable {β : Type*} (S)

/-- The area of layer `l` holds the rows put last at the positions from `base` on that fit, and
every position below `n` has been put. -/
structure Holds (l base : ℕ) (mem : KvMem β) (last : ℕ → Option (ℕ → ℕ → β)) (n : ℕ) :
    Prop where
  compacted : base = 0 ∨ S.posCap l < S.nCtx
  slots : ∀ q row, base ≤ q → last q = some row → ∀ head < S.nKvHeads l, ∀ b < S.width l,
    mem (Strided.cell (S.off l) (S.posCap l) (S.width l) head (q - base) b) = some (row head b)
  above : ∀ q, base + S.posCap l ≤ q → last q = none
  put : ∀ q < n, (last q).isSome

variable {S}

namespace Holds

variable {l base n : ℕ} {mem : KvMem β} {last : ℕ → Option (ℕ → ℕ → β)}

theorem lt_cap (h : S.Holds l base mem last n) {q : ℕ} {row : ℕ → ℕ → β}
    (hq : last q = some row) : q < base + S.posCap l := by
  by_contra hge
  rw [h.above q (by omega)] at hq
  cases hq

theorem le_cap (h : S.Holds l base mem last n) : n ≤ base + S.posCap l := by
  by_contra hgt
  obtain ⟨row, hrow⟩ := Option.isSome_iff_exists.1 (h.put (n - 1) (by omega))
  have := h.lt_cap hrow
  omega

theorem mono (h : S.Holds l base mem last n) {k : ℕ} (hk : k ≤ n) :
    S.Holds l base mem last k :=
  ⟨h.compacted, h.slots, h.above, fun q hq => h.put q (hq.trans_le hk)⟩

/-- What lies outside the layer's area is of no consequence to it. -/
theorem congr (h : S.Holds l base mem last n) {mem' : KvMem β}
    (hmem : ∀ a, S.off l ≤ a → a < S.off l + S.bytes l → mem' a = mem a) :
    S.Holds l base mem' last n := by
  refine ⟨h.compacted, fun q row hq hrow head hhead b hb => ?_, h.above, h.put⟩
  have hlt := h.lt_cap hrow
  have hcell : S.off l ≤ Strided.cell (S.off l) (S.posCap l) (S.width l) head (q - base) b ∧
      Strided.cell (S.off l) (S.posCap l) (S.width l) head (q - base) b < S.off l + S.bytes l :=
    Strided.cell_lt hhead (by omega) hb
  rw [hmem _ hcell.1 hcell.2]
  exact h.slots q row hq hrow head hhead b hb

/-- Moving the rows down by `d` raises the base by `d`. -/
theorem move (h : S.Holds l base mem last n) {d : ℕ} (hd : d = 0 ∨ S.posCap l < S.nCtx) :
    S.Holds l (base + d)
      (Strided.moveRows mem (S.off l) (S.posCap l) (S.width l) (S.nKvHeads l) d) last n := by
  refine ⟨?_, fun q row hq hrow head hhead b hb => ?_, fun q hq => h.above q (by omega), h.put⟩
  · rcases hd with rfl | hd
    · exact h.compacted
    · exact Or.inr hd
  · have hlt := h.lt_cap hrow
    rw [Strided.moveRows_cell hhead (by omega) hb, if_pos (by omega),
      show q - (base + d) + d = q - base by omega]
    exact h.slots q row (by omega) hrow head hhead b hb

/-- Writing the rows of the positions from `n` on to their slots. -/
theorem write (h : S.Holds l base mem last n) {m : ℕ} (rows : ℕ → ℕ → ℕ → β) (hlow : base ≤ n)
    (hfit : n + m ≤ base + S.posCap l) :
    S.Holds l base
      (Strided.writeRows mem (S.off l) (S.posCap l) (S.width l) (S.nKvHeads l) (n - base) m
        fun i head b => some (rows i head b))
      (fun q => if n ≤ q ∧ q < n + m then some (rows (q - n)) else last q) (n + m) := by
  refine ⟨h.compacted, fun q row hq hrow head hhead b hb => ?_, fun q hq => ?_, fun q hq => ?_⟩
  · by_cases hnew : n ≤ q ∧ q < n + m
    · rw [if_pos hnew] at hrow
      rw [Strided.writeRows_cell (by omega) hhead (by omega) hb, if_pos (by omega),
        show q - base - (n - base) = q - n by omega, Option.some.inj hrow]
    · rw [if_neg hnew] at hrow
      have hlt := h.lt_cap hrow
      rw [Strided.writeRows_cell (by omega) hhead (by omega) hb, if_neg (by omega)]
      exact h.slots q row hq hrow head hhead b hb
  · rw [if_neg (by omega)]
    exact h.above q hq
  · split_ifs with hnew
    · rfl
    · exact h.put q (by omega)

end Holds

/-- The put of a batch that the guard lets through and whose first window starts above the
base. -/
theorem putBatch_spec {p : CpuPriv} {mem : KvMem β} {last : ℕ → Option (ℕ → ℕ → β)} {l n m : ℕ}
    (hp : S.Laid p) (hl : l < S.nLayers) (hheads : 0 < S.nKvHeads l)
    (h : S.Holds l (p.kvBasePos l) mem last n) (hm : 0 < m) (hctx : n + m ≤ S.nCtx)
    (hguard : batchOutrunsWindow S.window n m = false)
    (hkept : S.sliding l → p.kvBasePos l ≤ n + 1 - S.window) (rows : ℕ → ℕ → ℕ → β) :
    ∃ base mem', cpuKvPutBatch p mem (S.args l) l n m (fun i head b => some (rows i head b)) =
        some ({ p with kvBasePos := Function.update p.kvBasePos l base }, mem') ∧
      S.Holds l base mem'
        (fun q => if n ≤ q ∧ q < n + m then some (rows (q - n)) else last q) (n + m) ∧
      (S.sliding l → base ≤ n + 1 - S.window) ∧
      ∀ a, a < S.off l ∨ S.off l + S.bytes l ≤ a → mem' a = mem a := by
  obtain ⟨hcheck, hfits⟩ := hp.checks (by omega) hl hheads
  have hactive : (S.args l).nActive = S.nKvHeads l := if_pos hheads
  obtain ⟨r, hr⟩ : ∃ r, r = cpuKvPutSlot (S.posCap l) S.nCtx (p.kvBasePos l) (n + m - 1) := ⟨_, rfl⟩
  obtain ⟨hslots, hlow, hshift⟩ : PutSlots (S.posCap l) (p.kvBasePos l) n m r ∧
      (S.sliding l → p.kvBasePos l + r.1 ≤ n + 1 - S.window) ∧
      (r.1 = 0 ∨ S.posCap l < S.nCtx) := by
    rw [hr]
    exact cpuKvPutSlot_spec hm hctx h.compacted hguard h.le_cap hkept
  set moved := if r.1 = 0 then mem else
    Strided.moveRows mem (S.off l) (S.posCap l) (S.width l) (S.nKvHeads l) r.1 with hmoved
  have hmove : S.Holds l (p.kvBasePos l + r.1) moved last n := by
    rw [hmoved]
    split_ifs with h0
    · rw [h0]
      exact h
    · exact h.move hshift
  refine ⟨p.kvBasePos l + r.1, Strided.writeRows moved (S.off l) (S.posCap l) (S.width l)
    (S.nKvHeads l) (n - (p.kvBasePos l + r.1)) m fun i head b => some (rows i head b), ?_,
    hmove.write rows hslots.low hslots.fit, hlow, fun a ha => ?_⟩
  · have hpos : m * (S.args l).nActive ≠ 0 := by
      rw [hactive]
      exact Nat.mul_ne_zero (by omega) (by omega)
    rw [cpuKvPutBatch, if_neg hpos, cpuKvPutRows, hcheck, hfits, hp.cap, hp.layerBase_eq,
      hp.layerRows_eq (by omega), hp.rowBytes_eq, hactive]
    simp only [Bool.not_true, Bool.or_self, Bool.false_eq_true, if_false]
    rw [show (S.args l).nCtx = S.nCtx from rfl, ← hr, hslots.start]
  · rw [Strided.writeRows_outside (by have := hslots.low; have := hslots.fit; omega) ha, hmoved]
    split_ifs
    · rfl
    · exact Strided.moveRows_outside ha

/-- The areas of two layers do not overlap. -/
theorem Holds.frame {l j base n : ℕ} {mem mem' : KvMem β} {last : ℕ → Option (ℕ → ℕ → β)}
    (h : S.Holds j base mem last n) (hne : j ≠ l)
    (hmem : ∀ a, a < S.off l ∨ S.off l + S.bytes l ≤ a → mem' a = mem a) :
    S.Holds j base mem' last n := by
  refine h.congr fun a hlow hhigh => hmem a ?_
  rcases Nat.lt_or_gt_of_ne hne with hlt | hgt
  · have : S.off j + S.bytes j ≤ S.off l := layerOff_add_le S.bytes hlt
    omega
  · have : S.off l + S.bytes l ≤ S.off j := layerOff_add_le S.bytes hgt
    omega

end SwaModel

end Kappai
