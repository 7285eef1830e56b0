import Kappai.Spec.VkQuantCache
import Mathlib.Tactic.SplitIfs

/-! A fused norm leaves blocks that may be taken for its rows until the counter moves. A scratch buffer
that is made again before the counter moves is the one way in which a call spoils them. -/

namespace Kappai

namespace VkQuantCache

variable {F ω : Type} {caps : Caps} {κ : Kernels F ω} {p q : Priv F ω}

@[simp] theorem fillXq_mem (p : Priv F ω) (f : Fin 2) (n : ℕ) (v : ℕ → ω) : (p.fillXq f n v).mem = p.mem := rfl

@[simp] theorem fillXq_fused (p : Priv F ω) (f : Fin 2) (n : ℕ) (v : ℕ → ω) :
    (p.fillXq f n v).fused = p.fused := rfl

@[simp] theorem fillXq_streamSeq (p : Priv F ω) (f : Fin 2) (n : ℕ) (v : ℕ → ω) :
    (p.fillXq f n v).streamSeq = p.streamSeq := rfl

/-- The blocks that are written are found again. -/
theorem fillXq_blocks {f : Fin 2} (h : (p.xq f).buf.isSome = true) (n : ℕ) (v : ℕ → ω) :
    ∃ blocks, ((p.fillXq f n v).xq f).buf = some blocks ∧ ∀ i < n, blocks i = some (v i) := by
  obtain ⟨old, hold⟩ := Option.isSome_iff_exists.1 h
  refine ⟨fun i => if i < n then some (v i) else old i, ?_, fun i hi => by simp only [if_pos hi]⟩
  simp [Priv.fillXq, Scratch.fill, hold]

theorem write_of_ne {mem : Mem F} {s : Slice} {a : ℕ} (h : a ≠ s.buf) (n : ℕ) (v : ℕ → F) :
    write mem s n v a = mem a := Function.update_of_ne h _ _

theorem read_write {mem : Mem F} {s : Slice} {n i : ℕ} (h : i < n) (v : ℕ → F) :
    read (write mem s n v) s i = v i := by
  have hi : s.off ≤ s.off + i ∧ s.off + i < s.off + n := by omega
  simp [read, write, hi]

theorem freeXq_frame (p : Priv F ω) (f : Fin 2) :
    ∃ s, p.freeXq f = { p with xq := Function.update p.xq f s } := by
  unfold Priv.freeXq
  split_ifs
  · exact ⟨_, rfl⟩
  · exact ⟨p.xq f, by rw [Function.update_eq_self]⟩

/-- `ensureScratch` changes nothing but the scratch buffer of its family. -/
theorem ensureScratch_frame (p : Priv F ω) (f : Fin 2) (need : ℕ) (grown : Bool) :
    ∃ s, (ensureScratch p f need grown).1 = { p with xq := Function.update p.xq f s } := by
  obtain ⟨s, hs⟩ := freeXq_frame p f
  by_cases hneed : need ≤ (p.xq f).cap
  · exact ⟨p.xq f, by simp only [ensureScratch, if_pos hneed, Function.update_eq_self]⟩
  simp only [ensureScratch, if_neg hneed, hs]
  cases grown with
  | false => exact ⟨s, rfl⟩
  | true => exact ⟨_, by simp only [Function.update_idem]; rfl⟩

theorem ensureScratch_of_le {f : Fin 2} {need : ℕ} (h : need ≤ (p.xq f).cap) (grown : Bool) :
    ensureScratch p f need grown = (p, .ok) := if_pos h

theorem ensureScratch_grown (p : Priv F ω) (f : Fin 2) (need : ℕ) : (ensureScratch p f need true).2 = .ok := by
  by_cases hneed : need ≤ (p.xq f).cap
  · rw [ensureScratch_of_le hneed]
  · simp only [ensureScratch, if_neg hneed, if_true]

theorem startFails_congr (h : q.deviceLost = p.deviceLost) (gx gy : ℕ) :
    startFails caps q gx gy = startFails caps p gx gy := by
  simp only [startFails, h]

/-- The three ends of a dispatch. -/
theorem dispatchEx_cases (caps : Caps) (p : Priv F ω) (bound : Bool) (gx gy : ℕ) (recorded : Bool)
    (kernel : Priv F ω → Priv F ω) :
    (∃ s, s ≠ .ok ∧ startFails caps p gx gy = some s ∧
      dispatchEx caps p bound gx gy recorded kernel = (p, s)) ∨
    (startFails caps p gx gy = none ∧
      dispatchEx caps p bound gx gy recorded kernel = ({ p with streamSeq := p.streamSeq + 1 }, .failed)) ∨
    (startFails caps p gx gy = none ∧ recorded = true ∧ bound = true ∧
      dispatchEx caps p bound gx gy recorded kernel = (kernel { p with streamSeq := p.streamSeq + 1 }, .ok)) := by
  unfold dispatchEx
  cases hs : startFails caps p gx gy with
  | some s =>
    have hne : s ≠ .ok := by
      unfold startFails at hs
      split_ifs at hs <;> cases hs <;> exact nofun
    exact .inl ⟨s, hne, rfl, rfl⟩
  | none =>
    cases hr : recorded && bound with
    | false => exact .inr (.inl ⟨rfl, rfl⟩)
    | true =>
      rw [Bool.and_eq_true] at hr
      exact .inr (.inr ⟨rfl, hr.1, hr.2, rfl⟩)

/-- The counter is never behind `xq_fused`, and where they agree the blocks are those of the rows. -/
structure Inv (κ : Kernels F ω) (p : Priv F ω) : Prop where
  seq_le : p.fused.seq ≤ p.streamSeq
  holds : ∀ a, p.fused.buf = some a → p.fused.seq = p.streamSeq →
    HoldsBlocks κ p ⟨a, p.fused.off⟩ p.fused.k p.fused.m

theorem Inv.init (mem : Mem F) : Inv κ (Priv.init mem : Priv F ω) := ⟨Nat.le_refl 0, fun _ h => nomatch h⟩

/-- `xq_fused` may be taken. -/
def Live (p : Priv F ω) : Prop := p.fused.buf.isSome = true ∧ p.fused.seq = p.streamSeq

theorem Inv.of_not_live (hle : p.fused.seq ≤ p.streamSeq) (h : ¬ Live p) : Inv κ p :=
  ⟨hle, fun a ha hseq => absurd ⟨by rw [ha]; rfl, hseq⟩ h⟩

theorem Inv.of_moved (hle : p.fused.seq ≤ p.streamSeq) (hf : q.fused = p.fused)
    (hs : q.streamSeq = p.streamSeq + 1) : Inv κ q := by
  refine Inv.of_not_live (by rw [hf]; omega) fun hlive => ?_
  have := hlive.2
  rw [hf] at this
  omega

theorem HoldsBlocks.congr {x : Slice} {k m : ℕ} (h : HoldsBlocks κ p x k m) (hx : (q.xq 0).buf = (p.xq 0).buf)
    (hm : q.mem x.buf = p.mem x.buf) : HoldsBlocks κ q x k m := by
  obtain ⟨blocks, hb, hblocks⟩ := h
  refine ⟨blocks, hx.trans hb, fun i hi => (hblocks i hi).trans ?_⟩
  simp only [blockOf, rowsOf, read, hm]

/-- Nothing that matters to `xq_fused` has changed. -/
theorem Inv.congr (h : Inv κ p) (hf : q.fused = p.fused) (hs : q.streamSeq = p.streamSeq)
    (hx : (q.xq 0).buf = (p.xq 0).buf) (hm : ∀ a, p.fused.buf = some a → q.mem a = p.mem a) : Inv κ q := by
  refine ⟨by rw [hf, hs]; exact h.seq_le, fun a ha hseq => ?_⟩
  rw [hf] at ha hseq ⊢
  exact (h.holds a ha (hseq.trans hs)).congr hx (hm a ha)

/-- A dispatch either leaves `xq_fused` good or moves the counter past it. -/
theorem Inv.dispatch (hle : p.fused.seq ≤ p.streamSeq) {bound recorded : Bool} {gx gy : ℕ}
    {kernel : Priv F ω → Priv F ω} (h : Inv κ p ∨ startFails caps p gx gy = none)
    (hk : ∀ q, (kernel q).fused = q.fused ∧ (kernel q).streamSeq = q.streamSeq) :
    Inv κ (dispatchEx caps p bound gx gy recorded kernel).1 := by
  obtain ⟨s, -, hs, heq⟩ | ⟨-, heq⟩ | ⟨-, -, -, heq⟩ := dispatchEx_cases caps p bound gx gy recorded kernel
  · rw [heq]
    exact h.resolve_right (by rw [hs]; exact nofun)
  · rw [heq]
    exact Inv.of_moved (p := p) hle rfl rfl
  · rw [heq]
    exact Inv.of_moved (p := p) hle (hk _).1 (hk _).2

/-- After a scratch buffer is made ready, either `xq_fused` is good or the dispatch will move the counter. -/
theorem Inv.ensure (h : Inv κ p) {need gx gy : ℕ} {o : Outcome} (hg : Live p → GrowthStarts caps p need gx gy o) :
    ((ensureScratch p 0 need o.grown).2 ≠ .ok → Inv κ (ensureScratch p 0 need o.grown).1) ∧
    (Inv κ (ensureScratch p 0 need o.grown).1 ∨
      startFails caps (ensureScratch p 0 need o.grown).1 gx gy = none) := by
  by_cases hneed : need ≤ (p.xq 0).cap
  · rw [ensureScratch_of_le hneed]
    exact ⟨fun _ => h, .inl h⟩
  obtain ⟨s, hs⟩ := ensureScratch_frame p 0 need o.grown
  by_cases hlive : Live p
  · obtain ⟨hgrown, hstart⟩ := hg hlive (by omega)
    refine ⟨fun hbad => absurd (by rw [hgrown]; exact ensureScratch_grown p 0 need) hbad, .inr ?_⟩
    rw [hs]
    exact (startFails_congr rfl gx gy).trans hstart
  · have hinv : Inv κ (ensureScratch p 0 need o.grown).1 := by
      rw [hs]
      exact Inv.of_not_live h.seq_le hlive
    exact ⟨fun _ => hinv, .inl hinv⟩

theorem ensureScratch_seq_le (h : Inv κ p) (f : Fin 2) (need : ℕ) (grown : Bool) :
    (ensureScratch p f need grown).1.fused.seq ≤ (ensureScratch p f need grown).1.streamSeq := by
  obtain ⟨s, hs⟩ := ensureScratch_frame p f need grown
  rw [hs]
  exact h.seq_le

/-- The blocks of rows that are stored are those of the rows that are read back. -/
theorem storeRows_holds {y : Slice} {n m : ℕ} {row : ℕ → ℕ → F} (h : (p.xq 0).buf.isSome = true) :
    HoldsBlocks κ (storeRows κ p y n m row) y n m := by
  obtain ⟨blocks, hb, hblocks⟩ := fillXq_blocks
    (p := { p with mem := write p.mem y (m * n) fun i => row (i / n) (i % n) }) h (m * (n / 32))
    (blockOf κ 0 (n / 32) row)
  refine ⟨blocks, hb, fun i hi => (hblocks i hi).trans ?_⟩
  have hkb : 0 < n / 32 := Nat.pos_of_mul_pos_left (Nat.zero_lt_of_lt hi)
  have hrow : i / (n / 32) < m := (Nat.div_lt_iff_lt_mul hkb).2 hi
  have hblk : i % (n / 32) < n / 32 := Nat.mod_lt _ hkb
  have hwhole : n / 32 * 32 ≤ n := Nat.div_mul_le_self n 32
  refine congrArg some (congrArg (κ.block 0) (List.map_congr_left fun j hj => ?_))
  have hj : j < 32 := List.mem_range.1 hj
  have hcol : i % (n / 32) * 32 + j < n := by
    have : (i % (n / 32) + 1) * 32 ≤ n / 32 * 32 := Nat.mul_le_mul_right 32 hblk
    omega
  have hidx : i / (n / 32) * n + (i % (n / 32) * 32 + j) < m * n := by
    have : (i / (n / 32) + 1) * n ≤ m * n := Nat.mul_le_mul_right n hrow
    rw [Nat.add_mul, Nat.one_mul] at this
    omega
  have hdiv : (i / (n / 32) * n + (i % (n / 32) * 32 + j)) / n = i / (n / 32) := by
    rw [Nat.add_comm, Nat.add_mul_div_right _ _ (by omega), Nat.div_eq_of_lt hcol, Nat.zero_add]
  have hmod : (i / (n / 32) * n + (i % (n / 32) * 32 + j)) % n = i % (n / 32) * 32 + j := by
    rw [Nat.add_comm, Nat.add_mul_mod_self_right, Nat.mod_eq_of_lt hcol]
  calc row (i / (n / 32)) (i % (n / 32) * 32 + j)
      = row ((i / (n / 32) * n + (i % (n / 32) * 32 + j)) / n)
          ((i / (n / 32) * n + (i % (n / 32) * 32 + j)) % n) := by rw [hdiv, hmod]
    _ = read (write p.mem y (m * n) fun i => row (i / n) (i % n)) y
          (i / (n / 32) * n + (i % (n / 32) * 32 + j)) := (read_write hidx fun i => row (i / n) (i % n)).symm

theorem storeRows_frame (p : Priv F ω) (y : Slice) (n m : ℕ) (row : ℕ → ℕ → F) :
    (storeRows κ p y n m row).fused = p.fused ∧ (storeRows κ p y n m row).streamSeq = p.streamSeq := ⟨rfl, rfl⟩

/-- A fused norm from its dispatch on. -/
theorem Inv.setFused (hle : p.fused.seq ≤ p.streamSeq) {o : Outcome} {gx gy : ℕ}
    (h : Inv κ p ∨ startFails caps p gx gy = none) {y : Slice} {n m : ℕ} {kernel : Priv F ω → Priv F ω}
    (hk : ∀ q, (kernel q).fused = q.fused ∧ (kernel q).streamSeq = q.streamSeq)
    (hblocks : ∀ q : Priv F ω, (q.xq 0).buf.isSome = true → HoldsBlocks κ (kernel q) y n m) :
    Inv κ (setFused (dispatchEx caps p (p.xq 0).buf.isSome gx gy o.recorded kernel) y n m).1 := by
  have hd : Inv κ (dispatchEx caps p (p.xq 0).buf.isSome gx gy o.recorded kernel).1 := Inv.dispatch hle h hk
  obtain ⟨s, hs, -, heq⟩ | ⟨-, heq⟩ | ⟨-, -, hbound, heq⟩ :=
    dispatchEx_cases caps p (p.xq 0).buf.isSome gx gy o.recorded kernel
  · rw [heq] at hd ⊢
    simpa only [VkQuantCache.setFused, if_pos hs] using hd
  · rw [heq] at hd ⊢
    simpa only [VkQuantCache.setFused, if_pos (show Status.failed ≠ .ok from nofun)] using hd
  · rw [heq]
    simp only [VkQuantCache.setFused, ne_eq, not_true_eq_false, if_false]
    refine ⟨Nat.le_refl _, fun a ha _ => ?_⟩
    obtain rfl := Option.some.inj ha
    exact (hblocks { p with streamSeq := p.streamSeq + 1 } hbound).congr rfl rfl

theorem rmsnormQuantBatch_spec (h : Inv κ p) {x w y : Slice} {n : ℕ} {eps : F} {m : ℕ} {o : Outcome}
    (hg : Live p → GrowthStarts caps p (m * (n / 32) * 12 * 4) 1 m o) :
    Inv κ (rmsnormQuantBatch caps κ p x w y n eps m o).1 := by
  obtain ⟨hbad, hgood⟩ := h.ensure hg
  unfold rmsnormQuantBatch
  by_cases hs : (ensureScratch p 0 (m * (n / 32) * 12 * 4) o.grown).2 ≠ .ok
  · simpa only [if_pos hs] using hbad hs
  · simp only [if_neg hs]
    exact Inv.setFused (ensureScratch_seq_le h 0 _ _) hgood (fun q => storeRows_frame q y n m _)
      fun q hq => storeRows_holds hq

theorem rmsnormAddNormBatch_spec (h : Inv κ p) {x wAdd residual yAdd wNorm yNorm : Slice} {n : ℕ}
    {eps outScale : F} {m : ℕ} {o : Outcome}
    (hg : (!caps.addNormReady || n % 32 ≠ 0 || n > 4096) = false → Live p →
      GrowthStarts caps p (m * (n / 32) * 12 * 4) 1 m o) :
    Inv κ (rmsnormAddNormBatch caps κ p x wAdd residual yAdd wNorm yNorm n eps outScale m o).1 := by
  unfold rmsnormAddNormBatch
  cases hready : (!caps.addNormReady || n % 32 ≠ 0 || n > 4096) with
  | true => simpa only [if_true] using h
  | false =>
    obtain ⟨hbad, hgood⟩ := h.ensure (hg hready)
    simp only [Bool.false_eq_true, if_false]
    by_cases hs : (ensureScratch p 0 (m * (n / 32) * 12 * 4) o.grown).2 ≠ .ok
    · simpa only [if_pos hs] using hbad hs
    · simp only [if_neg hs]
      exact Inv.setFused (ensureScratch_seq_le h 0 _ _) hgood (fun q => storeRows_frame _ yNorm n m _)
        fun q hq => storeRows_holds hq

/-- A family of its own scratch buffer does not touch that of `xq_fused`. -/
theorem Inv.ensure_other (h : Inv κ p) {f : Fin 2} (hf : f ≠ 0) (need : ℕ) (grown : Bool) :
    Inv κ (ensureScratch p f need grown).1 := by
  obtain ⟨s, hs⟩ := ensureScratch_frame p f need grown
  rw [hs]
  refine h.congr rfl rfl ?_ fun _ _ => rfl
  simp only [Function.update_of_ne (Ne.symm hf)]

theorem quantizeAnew_spec (h : Inv κ p) {f : Fin 2} {x : Slice} {up : Option Slice} {act : ℤ} {k m : ℕ}
    {o : Outcome}
    (hg : f = 0 → Live p → GrowthStarts caps p (quantizeNeed 0 k m) ((k / 32 + 8 - 1) / 8) m o) :
    Inv κ (quantizeAnew caps κ p f x up act k m o).1 := by
  have hready : ((ensureScratch p f (quantizeNeed f k m) o.grown).2 ≠ .ok →
        Inv κ (ensureScratch p f (quantizeNeed f k m) o.grown).1) ∧
      (Inv κ (ensureScratch p f (quantizeNeed f k m) o.grown).1 ∨
        startFails caps (ensureScratch p f (quantizeNeed f k m) o.grown).1
          ((k / blockFloats f + blocksPerGroup f - 1) / blocksPerGroup f) m = none) := by
    by_cases hf : f = 0
    · subst hf
      exact h.ensure (hg rfl)
    · exact ⟨fun _ => h.ensure_other hf _ _, .inl (h.ensure_other hf _ _)⟩
  obtain ⟨hbad, hgood⟩ := hready
  unfold quantizeAnew
  by_cases hs : (ensureScratch p f (quantizeNeed f k m) o.grown).2 ≠ .ok
  · simpa only [if_pos hs] using hbad hs
  · simp only [if_neg hs]
    exact Inv.dispatch (ensureScratch_seq_le h f _ _) hgood fun q => ⟨rfl, rfl⟩

theorem qcoreQuantize_spec (h : Inv κ p) {f : Fin 2} {x : Slice} {up : Option Slice} {act : ℤ} {k m : ℕ}
    {o : Outcome} (hg : Live p → QuantizeSafe caps p f x up k m o) :
    Inv κ (qcoreQuantize caps κ p f x up act k m o).1 := by
  unfold qcoreQuantize
  cases hskip : skips p f x up k m with
  | true => simpa only [if_true] using h
  | false =>
    simp only [Bool.false_eq_true, if_false]
    exact quantizeAnew_spec h fun hf hlive => hg hlive hf hskip

/-- A product takes `xq_fused` along when it writes to another buffer. -/
theorem qcoreMatmul_spec (h : Inv κ p) {t : Vq} {w x y : Slice} {res : Option Slice} {n k m : ℕ} {o : Outcome} :
    Inv κ (qcoreMatmul caps κ p t w x y res n k m o).1 := by
  simp only [qcoreMatmul]
  split_ifs with hgroups hkeep
  · exact h
  · obtain ⟨hok, hkeep⟩ := hkeep
    obtain ⟨hseq, hbuf⟩ := of_decide_eq_true hkeep
    obtain ⟨s, hs, -, heq⟩ | ⟨-, heq⟩ | ⟨-, -, -, heq⟩ :=
      dispatchEx_cases caps p (inputBound p t) (matmulGroups n m).1 (matmulGroups n m).2 o.recorded
        fun p => { p with mem := write p.mem y (m * n) (product κ p t w x res n k m) }
    · rw [heq] at hok
      exact absurd hok hs
    · rw [heq] at hok
      cases hok
    · simp only [heq]
      refine ⟨Nat.le_refl _, fun a ha _ => (h.holds a ha hseq).congr rfl (write_of_ne ?_ _ _)⟩
      exact fun hay => hbuf (hay ▸ ha.symm)
  · exact Inv.dispatch h.seq_le (.inl h) fun q => ⟨rfl, rfl⟩

theorem qcoreRun_spec (h : Inv κ p) {t : Vq} {w x : Slice} {up : Option Slice} {act : ℤ} {y : Slice}
    {res : Option Slice} {n k m : ℕ} {o o' : Outcome}
    (hg : Live p → ∀ f ∈ qfamily t, QuantizeSafe caps p f x up k m o) :
    Inv κ (qcoreRun caps κ p t w x up act y res n k m o o').1 := by
  unfold qcoreRun
  cases hf : qfamily t with
  | none =>
    dsimp only
    split_ifs
    · exact h
    · exact qcoreMatmul_spec h
  | some f =>
    have hq : Inv κ (qcoreQuantize caps κ p f x up act k m o).1 := qcoreQuantize_spec h fun hlive => hg hlive f hf
    dsimp only
    split_ifs
    · exact hq
    · exact qcoreMatmul_spec hq

theorem step_spec (h : Inv κ p) {op : Op F} (hsafe : Safe caps p op) : Inv κ (step caps κ p op).1 := by
  have hlive : ∀ {P : Prop}, (p.fused.buf.isSome = true → p.fused.seq = p.streamSeq → P) → Live p → P :=
    fun hP hl => hP hl.1 hl.2
  cases op with
  | rmsnormQuant x w y n eps m o => exact rmsnormQuantBatch_spec h (hlive hsafe)
  | rmsnormAddNorm x wAdd residual yAdd wNorm yNorm n eps outScale m o =>
    exact rmsnormAddNormBatch_spec h fun hready hl => hlive hsafe hl hready
  | quantize f x up act k m o => exact qcoreQuantize_spec h (hlive hsafe)
  | matmul t w x y res n k m o => exact qcoreMatmul_spec h
  | run t w x up act y res n k m o o' => exact qcoreRun_spec h (hlive hsafe)
  | dispatch bound gx gy kernel o => exact Inv.dispatch h.seq_le (.inl h) fun q => ⟨rfl, rfl⟩
  | upload b data done =>
    simp only [step, bufferUpload]
    cases done with
    | false => exact Inv.of_moved (p := p) h.seq_le rfl rfl
    | true => exact Inv.of_moved (p := p) h.seq_le rfl rfl
  | zero z a begun done =>
    simp only [step, zeroBuffer]
    cases begun with
    | false => exact h
    | true =>
      cases done with
      | false => exact Inv.of_moved (p := p) h.seq_le rfl rfl
      | true => exact Inv.of_moved (p := p) h.seq_le rfl rfl
  | alloc a data =>
    by_cases hl : Live p
    · have hne : p.fused.buf ≠ some a := hlive hsafe hl
      refine h.congr rfl rfl rfl fun b hb => Function.update_of_ne ?_ _ _
      exact fun hba => hne (hba ▸ hb)
    · exact Inv.of_not_live h.seq_le hl
  | loseDevice => exact h.congr rfl rfl rfl fun _ _ => rfl

/-- What a product returns and writes depends on its inputs and on the state of the device. -/
theorem qcoreMatmul_congr (caps : Caps) (y : Slice) (o : Outcome) {t : Vq} {w x : Slice} {res : Option Slice} {n k m : ℕ}
    (hmem : q.mem = p.mem) (hlost : q.deviceLost = p.deviceLost) (hbound : inputBound q t = inputBound p t)
    (hprod : product κ q t w x res n k m = product κ p t w x res n k m) :
    (qcoreMatmul caps κ q t w x y res n k m o).2 = (qcoreMatmul caps κ p t w x y res n k m o).2 ∧
    (qcoreMatmul caps κ q t w x y res n k m o).1.mem = (qcoreMatmul caps κ p t w x y res n k m o).1.mem := by
  have hprod' : product κ { q with streamSeq := q.streamSeq + 1 } t w x res n k m =
      product κ { p with streamSeq := p.streamSeq + 1 } t w x res n k m := hprod
  simp only [qcoreMatmul, dispatchEx, startFails, hlost, hbound]
  split_ifs <;> simp_all

/-- A good pass over the rows of `x` leaves their blocks and no other change that a product sees. -/
theorem quantizeAnew_ok {x : Slice} {act : ℤ} {k m : ℕ} {o : Outcome}
    (hok : (quantizeAnew caps κ p 0 x none act k m o).2 = .ok) :
    (quantizeAnew caps κ p 0 x none act k m o).1.mem = p.mem ∧
    (quantizeAnew caps κ p 0 x none act k m o).1.deviceLost = p.deviceLost ∧
    HoldsBlocks κ (quantizeAnew caps κ p 0 x none act k m o).1 x k m := by
  obtain ⟨s, hs⟩ := ensureScratch_frame p 0 (quantizeNeed 0 k m) o.grown
  unfold quantizeAnew at hok ⊢
  simp only [hs] at hok ⊢
  split_ifs at hok ⊢
  · contradiction
  · obtain ⟨e, he, -, heq⟩ | ⟨-, heq⟩ | ⟨-, -, hbound, heq⟩ := dispatchEx_cases caps
      { p with xq := Function.update p.xq 0 s } (Function.update p.xq 0 s 0).buf.isSome
      ((k / blockFloats 0 + blocksPerGroup 0 - 1) / blocksPerGroup 0) m o.recorded
      fun p => p.fillXq 0 (m * (k / blockFloats 0))
        (blockOf κ 0 (k / blockFloats 0) (rowsOf κ p.mem x none act k))
    · rw [heq] at hok
      exact absurd hok he
    · rw [heq] at hok
      cases hok
    · rw [heq]
      exact ⟨rfl, rfl, fillXq_blocks (p := { p with xq := Function.update p.xq 0 s, streamSeq := p.streamSeq + 1 })
        hbound (m * (k / 32)) (blockOf κ 0 (k / 32) (rowsOf κ p.mem x none act k))⟩

theorem HoldsBlocks.product_eq {x : Slice} {k m : ℕ} (h : HoldsBlocks κ p x k m) (h' : HoldsBlocks κ q x k m)
    (hmem : q.mem = p.mem) {t : Vq} (ht : qfamily t = some 0) (w : Slice) (res : Option Slice) (n : ℕ) :
    product κ q t w x res n k m = product κ p t w x res n k m ∧ inputBound q t = inputBound p t := by
  obtain ⟨b, hb, hblocks⟩ := h
  obtain ⟨b', hb', hblocks'⟩ := h'
  have hlist : (List.range (m * (k / 32))).map b' = (List.range (m * (k / 32))).map b := by
    refine List.map_congr_left fun i hi => ?_
    rw [hblocks i (List.mem_range.1 hi), hblocks' i (List.mem_range.1 hi), hmem]
  constructor
  · simp only [product, ht, hb, hb', hmem, blockFloats, if_true, Option.getD_some, hlist]
  · simp only [inputBound, ht, hb, hb', Option.isSome_some]

theorem Inv.skipSound (h : Inv κ p) : SkipSound caps κ p := by
  intro x k m hskip
  obtain ⟨-, -, hbuf, hoff, rfl, rfl, hseq⟩ := of_decide_eq_true hskip
  have hholds : HoldsBlocks κ p x p.fused.k p.fused.m := by
    have := h.holds x.buf hbuf hseq
    rwa [hoff] at this
  refine ⟨hholds, fun t w y res n act o o' ht hok => ?_⟩
  obtain ⟨hmem, hlost, hanew⟩ := quantizeAnew_ok hok
  obtain ⟨hprod, hbound⟩ := hholds.product_eq hanew hmem ht w res n
  obtain ⟨hstatus, hresult⟩ := qcoreMatmul_congr caps y o' hmem hlost hbound hprod
  exact ⟨hstatus.symm, hresult.symm⟩

theorem Inv.run (h : Inv κ p) {ops : List (Op F)} (hsafe : SafeRun caps κ p ops) : SkipSoundRun caps κ p ops := by
  induction ops generalizing p with
  | nil => exact h.skipSound
  | cons op ops ih => exact ⟨h.skipSound, ih (step_spec h hsafe.1) hsafe.2⟩

/-- In every state of a run whose calls all meet `Safe`, rows that are not made into blocks again have theirs in
`xq_buf[0]`, and a product does what it would do after making them again. -/
theorem quantCacheRun_spec (caps : Caps) (κ : Kernels F ω) (mem : Mem F) (ops : List (Op F))
    (hsafe : SafeRun caps κ (Priv.init mem) ops) : SkipSoundRun caps κ (Priv.init mem) ops :=
  (Inv.init mem).run hsafe

section Examples

/-- Shaders on numbers. A block is the sum of its floats. -/
def plainKernels : Kernels ℕ ℕ :=
  ⟨fun _ x _ _ j => x j, fun _ x _ r _ _ j => x j + r j, fun _ xs => xs.sum, fun _ g u => g * u,
    fun _ _ _ _ _ xq _ _ => (xq.map fun b => b.getD 0).sum, fun _ _ _ _ _ xs _ _ => xs.sum⟩

def plainCaps : Caps := ⟨64, 64, true⟩

def good : Outcome := ⟨true, true⟩

def plainStart : Priv ℕ ℕ := Priv.init fun a i => a + i

/-- A fused norm of one row, a product of it, an upload over it and a product of what is there then. -/
def plainOps : List (Op ℕ) :=
  [.rmsnormQuant ⟨1, 0⟩ ⟨2, 0⟩ ⟨3, 0⟩ 32 0 1 good,
    .run .q4_0 ⟨4, 0⟩ ⟨3, 0⟩ none 0 ⟨5, 0⟩ none 1 32 1 good good,
    .upload ⟨3, 0⟩ [9] true, .run .q4_0 ⟨4, 0⟩ ⟨3, 0⟩ none 0 ⟨5, 0⟩ none 1 32 1 good good]

theorem quantCacheRun_spec_of_plain : SkipSoundRun plainCaps plainKernels plainStart plainOps := by
  refine quantCacheRun_spec plainCaps plainKernels (fun a i => a + i) plainOps ⟨?_, ?_, ?_, ?_, trivial⟩
  · exact fun h => nomatch h
  · intro _ _ f hf _ hskip
    obtain rfl := Option.some.inj hf
    exact absurd hskip (by decide +kernel)
  · exact fun _ _ => trivial
  · exact fun _ h => absurd h (by decide +kernel)

/-- A fused norm of one row, and a row of 32768 blocks for which no scratch buffer can be had. -/
def lostOps : List (Op ℕ) :=
  [.rmsnormQuant ⟨1, 0⟩ ⟨2, 0⟩ ⟨3, 0⟩ 32 0 1 good,
    .quantize ⟨0, Nat.two_pos⟩ ⟨6, 0⟩ none 0 1048576 1 ⟨false, true⟩]

def final (p : Priv ℕ ℕ) (ops : List (Op ℕ)) : Priv ℕ ℕ :=
  ops.foldl (fun p op => (step plainCaps plainKernels p op).1) p

/-- The row of the fused norm is not made into blocks again, and there is no buffer that could have them. -/
theorem quantize_of_lost :
    skips (final plainStart lostOps) 0 ⟨3, 0⟩ none 32 1 = true ∧
    ((final plainStart lostOps).xq 0).buf.isNone = true ∧
    (step plainCaps plainKernels (final plainStart lostOps)
      (.run .q4_0 ⟨4, 0⟩ ⟨3, 0⟩ none 0 ⟨5, 0⟩ none 1 32 1 good good)).2 = .failed ∧
    ¬ SkipSoundRun plainCaps plainKernels plainStart lostOps := by
  have hskip : skips (final plainStart lostOps) 0 ⟨3, 0⟩ none 32 1 = true := by decide +kernel
  have hnone : ((final plainStart lostOps).xq 0).buf.isNone = true := by decide +kernel
  refine ⟨hskip, hnone, by decide +kernel, fun h => ?_⟩
  obtain ⟨blocks, hb, -⟩ := (h.2.2 ⟨3, 0⟩ 32 1 hskip).1
  exact absurd (show (some blocks).isNone = true from hb ▸ hnone) (by simp)

end Examples

end VkQuantCache

end Kappai
