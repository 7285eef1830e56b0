import Mathlib.Algebra.Field.Rat
import Mathlib.Data.Rat.Cast.Lemmas
import Mathlib.Tactic.NormNum
import Kappai.Proofs.SlotSharing
import Kappai.Sanity.LiveGraph
import Kappai.Spec.RmsnormAdd

/-! The executors of `OP_RMSNORM_ADD` leave the same memory, if the op does not write the buffer of
its residual; the plan of a graph keeps the two apart. -/

namespace Kappai

variable {B K : Type*} [Field K] [DecidableEq B]

/-! ### Rows -/

section

variable (rsqrt : K → K) (w w2 : ℕ → K) (x r y y2 : B) (n : ℕ) (eps outScale : ℚ)

theorem rowLocal_rmsnorm : RowLocal n (rmsnormRow rsqrt w x y n eps) :=
  .of_sweep y (fun row i col => col x * rsqrt (rmsnormSumSq (row x) n / n + eps) * w i)
    fun row row' h => by rw [rmsnormSumSq_congr n (h x)]

theorem rowLocal_add : RowLocal n (addRow (K := K) x y n) :=
  .of_sweep x (fun _ _ col => col x + col y) fun _ _ _ => rfl

theorem rowLocal_scale : RowLocal n (scaleInplace (K := K) x outScale n) :=
  .of_sweep x (fun _ _ (col : B → K) => col x * outScale) fun _ _ _ => rfl

theorem rowLocal_rmsnormAdd : RowLocal n (rmsnormAddRow rsqrt w x r y n eps outScale) :=
  .of_sweep y (fun row i col => (col x * rsqrt (rmsnormSumSq (row x) n / n + eps) * w i + col r) *
    outScale) fun row row' h => by rw [rmsnormSumSq_congr n (h x)]

theorem rmsnormRow_apply (base : ℕ) (m : B → ℕ → K) (b : B) {i : ℕ} (hi : i < n) :
    rmsnormRow rsqrt w x y n eps base m b (base + i) =
      if b = y then normElem rsqrt eps n w (fun i => m x (base + i)) i else m b (base + i) := by
  unfold rmsnormRow normElem
  rw [sweep_apply, Nat.add_sub_cancel_left]
  exact if_congr (by simp [hi]) rfl rfl

theorem rmsnormAddRow_apply (base : ℕ) (m : B → ℕ → K) (b : B) {i : ℕ} (hi : i < n) :
    rmsnormAddRow rsqrt w x r y n eps outScale base m b (base + i) =
      if b = y then (normElem rsqrt eps n w (fun i => m x (base + i)) i + m r (base + i)) * outScale
      else m b (base + i) := by
  unfold rmsnormAddRow normElem
  rw [sweep_apply, Nat.add_sub_cancel_left]
  exact if_congr (by simp [hi]) rfl rfl

/-- The fused row is a row of the add and then a row of the norm. -/
theorem rmsnormAddNormRow_eq (base : ℕ) (m : B → ℕ → K) :
    rmsnormAddNormRow rsqrt w x r y w2 y2 n eps outScale base m =
      rmsnormRow rsqrt w2 y y2 n eps base (rmsnormAddRow rsqrt w x r y n eps outScale base m) := by
  have hy : ∀ i < n, rmsnormAddRow rsqrt w x r y n eps outScale base m y (base + i) =
      (m x (base + i) * rsqrt (rmsnormSumSq (fun i => m x (base + i)) n / n + eps) * w i +
        m r (base + i)) * outScale := by
    intro i hi
    rw [rmsnormAddRow_apply rsqrt w x r y n eps outScale base m y hi, if_pos rfl]
    rfl
  unfold rmsnormAddNormRow
  simp only
  have hkept : sweep y base n (fun i _ => (m x (base + i) *
      rsqrt (rmsnormSumSq (fun i => m x (base + i)) n / n + eps) * w i + m r (base + i)) * outScale)
      m = rmsnormAddRow rsqrt w x r y n eps outScale base m := by
    funext b a
    unfold rmsnormAddRow
    rw [sweep_apply, sweep_apply]
    by_cases ha : b = y ∧ base ≤ a ∧ a < base + n
    · obtain ⟨i, rfl⟩ := Nat.exists_eq_add_of_le ha.2.1
      rw [if_pos ha, if_pos ha, Nat.add_sub_cancel_left]
    · rw [if_neg ha, if_neg ha]
  rw [hkept, ← rmsnormSumSq_congr n hy]
  funext b a
  unfold rmsnormRow
  rw [sweep_apply, sweep_apply]
  by_cases ha : b = y2 ∧ base ≤ a ∧ a < base + n
  · obtain ⟨i, rfl⟩ := Nat.exists_eq_add_of_le ha.2.1
    rw [if_pos ha, if_pos ha, Nat.add_sub_cancel_left, ← hy i (by omega)]
  · rw [if_neg ha, if_neg ha]

/-- The norm, the sum and the scaling of a row one after the other, if the sum is not of a row
with itself. -/
theorem composedRow_eq (h : y ≠ r) (base : ℕ) (m : B → ℕ → K) :
    scaleInplace y outScale n base (addRow y r n base (rmsnormRow rsqrt w x y n eps base m)) =
      rmsnormAddRow rsqrt w x r y n eps outScale base m := by
  funext b a
  by_cases ha : base ≤ a ∧ a < base + n
  · obtain ⟨i, rfl⟩ := Nat.exists_eq_add_of_le ha.1
    have hi : i < n := by omega
    have hrow := fun b => rmsnormRow_apply rsqrt w x y n eps base m b hi
    rw [rmsnormAddRow_apply rsqrt w x r y n eps outScale base m b hi]
    unfold scaleInplace addRow
    simp only [sweep_apply, hrow, ha, and_self, and_true, if_true]
    rw [if_neg h.symm]
    by_cases hb : b = y
    · rw [if_pos hb, if_pos hb]
    · rw [if_neg hb, if_neg hb, if_neg hb, if_neg hb]
  · rw [(rowLocal_rmsnormAdd rsqrt w x r y n eps outScale).outside _ _ _ _ (by omega),
      (rowLocal_scale y n outScale).outside _ _ _ _ (by omega),
      (rowLocal_add y r n).outside _ _ _ _ (by omega),
      (rowLocal_rmsnorm rsqrt w x y n eps).outside _ _ _ _ (by omega)]

theorem scaleInplace_one (base : ℕ) (m : B → ℕ → K) : scaleInplace y 1 n base m = m := by
  funext b a
  unfold scaleInplace
  rw [sweep_apply]
  split_ifs with h
  · rw [Rat.cast_one, mul_one, h.1]
  · rfl

/-- Scaling on the host is scaling in place. -/
theorem scaleInplaceFallback_eq (m : B → ℕ → K) :
    scaleInplaceFallback y outScale n m = scaleInplace y outScale n 0 m := by
  funext b a
  unfold scaleInplaceFallback scaleInplace
  rw [sweep_apply, sweep_apply]
  rfl

end

/-! ### Executors -/

namespace NormCtx

variable (ctx : NormCtx B K) (op add norm : RecipeOp) (m : B → ℕ → K)

/-- What an `OP_RMSNORM` leaves: its normed input in its output, all else as it was. -/
def normed : B → ℕ → K := fun b a =>
  if b = ctx.slot op.out ∧ a < ctx.nRows * ctx.dim then
    normElem ctx.backend.rsqrt op.u.eps ctx.dim (ctx.weight op.wIdx)
      (fun i => m (ctx.slot op.in0) (a / ctx.dim * ctx.dim + i)) (a % ctx.dim)
  else m b a

/-- What an `OP_RMSNORM_ADD` leaves: `(rmsnorm(in[0]) + in[1]) * out_scale` in its output, all
else as it was. -/
def normedAdd : B → ℕ → K := fun b a =>
  if b = ctx.slot op.out ∧ a < ctx.nRows * ctx.dim then
    (normElem ctx.backend.rsqrt op.u.eps ctx.dim (ctx.weight op.wIdx)
      (fun i => m (ctx.slot op.in0) (a / ctx.dim * ctx.dim + i)) (a % ctx.dim) +
        m (ctx.slot op.in1) a) * op.u.outScale
  else m b a

theorem opRmsnorm_eq : ctx.opRmsnorm op m = ctx.normed op m :=
  (rowLocal_rmsnorm ..).eachRow_eq
    (fun _ _ _ _ hi => rmsnormRow_apply _ _ _ _ _ _ _ _ _ hi) m

theorem rmsnormAddRows_eq : ctx.rmsnormAddRows op m = ctx.normedAdd op m := by
  unfold rmsnormAddRows
  rw [(rowLocal_rmsnormAdd ..).eachRow_eq
    fun _ _ _ _ hi => rmsnormAddRow_apply _ _ _ _ _ _ _ _ _ _ _ hi]
  funext b a
  unfold normedAdd
  rw [Nat.div_add_mod']

theorem rmsnormAddRowHost_eq (w : ℕ → K) {x r y : B} (h : y ≠ r) (n : ℕ) (eps outScale : ℚ) :
    rmsnormAddRowHost ctx.backend.rsqrt w x r y n eps outScale =
      rmsnormAddRow ctx.backend.rsqrt w x r y n eps outScale := by
  funext base m
  rw [← composedRow_eq _ _ _ _ _ _ _ _ h]
  unfold rmsnormAddRowHost
  split_ifs with h1
  · rw [h1, scaleInplace_one]
  · rfl

theorem rmsnormAddFused_eq (kernel : AddBatchKernel)
    (h : kernel = .hostWeight → ctx.slot op.out ≠ ctx.slot op.in1) :
    ctx.rmsnormAddFused op m kernel = ctx.normedAdd op m := by
  rw [← rmsnormAddRows_eq]
  unfold rmsnormAddFused rmsnormAddRows
  cases kernel with
  | rows => rfl
  | hostWeight =>
    simp only
    rw [rmsnormAddRowHost_eq ctx _ (h rfl)]

theorem rmsnormAddComposed_eq (h : ctx.slot op.out ≠ ctx.slot op.in1) :
    ctx.rmsnormAddComposed op m = ctx.normedAdd op m := by
  -- the three loops over the rows are one loop over the steps of a row
  have hscaled : eachRow ctx.dim ctx.nRows (scaleInplace (ctx.slot op.out) op.u.outScale ctx.dim)
      (eachRow ctx.dim ctx.nRows (addRow (ctx.slot op.out) (ctx.slot op.in1) ctx.dim)
        (ctx.opRmsnorm op m)) = ctx.normedAdd op m := by
    rw [← rmsnormAddRows_eq]
    unfold opRmsnorm rmsnormAddRows
    rw [(rowLocal_rmsnorm ..).eachRow_comp (rowLocal_add ..),
      ((rowLocal_rmsnorm ..).comp (rowLocal_add ..)).eachRow_comp (rowLocal_scale ..)]
    congr 1
    funext base m
    exact composedRow_eq _ _ _ _ _ _ _ _ h base m
  have hwhole : ∀ m : B → ℕ → K,
      eachRow ctx.dim ctx.nRows (scaleInplace (ctx.slot op.out) op.u.outScale ctx.dim) m =
      scaleInplace (ctx.slot op.out) op.u.outScale (ctx.dim * ctx.nRows) 0 m :=
    fun m => eachRow_sweep _ _ m
  rw [hwhole] at hscaled
  unfold rmsnormAddComposed
  simp only [scaleInplaceFallback_eq, ite_self]
  split_ifs with h1
  · rw [← hscaled, h1, scaleInplace_one]
  · exact hscaled

/-- Every executor leaves the same. -/
theorem runExecutor_eq (e : NormExecutor) (h : ctx.slot op.out ≠ ctx.slot op.in1) :
    ctx.runExecutor op m e = ctx.normedAdd op m := by
  unfold runExecutor
  cases e with
  | fused =>
    cases ctx.backend.rmsnormAddBatch with
    | none => exact ctx.rmsnormAddComposed_eq op m h
    | some kernel => exact ctx.rmsnormAddFused_eq op m _ fun _ => h
  | rows => exact ctx.rmsnormAddRows_eq op m
  | composed => exact ctx.rmsnormAddComposed_eq op m h

/-- The fused pair is taken only where the next op norms what the first one adds up, and leaves
what the two leave one after the other. -/
theorem execRmsnormAddNorm_eq {m' : B → ℕ → K} (h : ctx.execRmsnormAddNorm m add norm = some m') :
    norm.kind = .rmsnorm ∧ norm.in0 = add.out ∧ m' = ctx.normed norm (ctx.normedAdd add m) := by
  unfold execRmsnormAddNorm at h
  cases hb : ctx.backend.rmsnormAddNormBatch with
  | none => rw [hb] at h; cases h
  | some ok =>
    rw [hb] at h
    simp only at h
    split_ifs at h with hne hok
    simp only [not_or, not_not] at hne
    obtain ⟨hkind, hin, heps⟩ := hne
    refine ⟨hkind, hin, ?_⟩
    rw [← Option.some.inj h, ← opRmsnorm_eq, ← rmsnormAddRows_eq]
    unfold opRmsnorm rmsnormAddRows
    rw [(rowLocal_rmsnormAdd ..).eachRow_comp (rowLocal_rmsnorm ..), hin, heps]
    congr 1
    funext base m
    exact rmsnormAddNormRow_eq _ _ _ _ _ _ _ _ _ _ base m

/-- A step leaves what the op leaves, and takes the `OP_RMSNORM` along if the two are fused. -/
theorem layerRunStep_eq (h : ctx.slot op.out ≠ ctx.slot op.in1) (next : Option RecipeOp) :
    ctx.layerRunStep op m next = (ctx.normedAdd op m, 1) ∨
      ∃ norm, next = some norm ∧ norm.kind = .rmsnorm ∧ norm.in0 = op.out ∧
        ctx.layerRunStep op m next = (ctx.normed norm (ctx.normedAdd op m), 2) := by
  unfold layerRunStep
  split
  · rename_i m' hnext
    obtain ⟨norm, rfl, hfused⟩ := Option.bind_eq_some_iff.mp hnext
    split_ifs at hfused with hf
    obtain ⟨hkind, hin, rfl⟩ := ctx.execRmsnormAddNorm_eq op norm m hfused
    exact Or.inr ⟨norm, rfl, hkind, hin, rfl⟩
  · rw [ctx.runExecutor_eq op m _ h]
    exact Or.inl rfl

end NormCtx

open NormCtx in
/-- Unless the op writes the buffer of its residual, the three executors leave the sum of its
residual and its normed input, scaled, and what a step and the `OP_RMSNORM` behind it leave does
not depend on whether they are fused or on what the fused kernel reports. The kernels that read a
row before they write it do not need the residual apart. -/
theorem rmsnormAdd_executors (ctx : NormCtx B K) (op : RecipeOp) (m : B → ℕ → K) :
    ctx.rmsnormAddFused op m .rows = ctx.normedAdd op m ∧
    ctx.rmsnormAddRows op m = ctx.normedAdd op m ∧
    (ctx.slot op.out ≠ ctx.slot op.in1 →
      (∀ e, ctx.runExecutor op m e = ctx.normedAdd op m) ∧
      (∀ next, ctx.layerRunStep op m next = (ctx.normedAdd op m, 1) ∨
        ∃ norm, next = some norm ∧ norm.kind = .rmsnorm ∧ norm.in0 = op.out ∧
          ctx.layerRunStep op m next = (ctx.normed norm (ctx.normedAdd op m), 2)) ∧
      ∀ norm, ctx.layerRunPair op m norm = ctx.normed norm (ctx.normedAdd op m)) := by
  refine ⟨ctx.rmsnormAddFused_eq op m .rows (by simp), ctx.rmsnormAddRows_eq op m, fun h =>
    ⟨fun e => ctx.runExecutor_eq op m e h, ctx.layerRunStep_eq op m h, fun norm => ?_⟩⟩
  unfold layerRunPair
  rcases ctx.layerRunStep_eq op m h (some norm) with heq | ⟨n, hn, -, -, heq⟩
  · simp only [heq, opRmsnorm_eq]
    rfl
  · cases hn
    simp only [heq]
    rfl

/-- A backend with the plain kernels only; its reciprocal root is that of one. -/
def plainBackend : NormBackend Slot ℚ := ⟨fun q => q⁻¹, none, false, false, false, none⟩

/-- One row of one element: two in every buffer, with weights of one. -/
def oneElem (slot : Option Slot → Slot) : NormCtx Slot ℚ := ⟨slot, fun _ _ => 1, 1, 1, plainBackend⟩

theorem rmsnormAdd_executors_inPlace :
    let ctx := oneElem fun s => s.getD .x
    let op := RecipeOp.mkRmsnormAdd .attnOut .x .attnOut 14 0
    let m : Slot → ℕ → ℚ := fun b _ => if b = .attnOut then 1 else 5
    ctx.runExecutor op m .composed = ctx.normedAdd op m ∧
      ctx.normedAdd op m .attnOut 0 = 6 :=
  ⟨((rmsnormAdd_executors _ _ _).2.2 (by decide)).1 .composed, by decide +kernel⟩

/-- An op that writes its residual gives twice the normed input when it is composed. -/
theorem rmsnormAdd_composed_ne :
    let ctx := oneElem fun s => s.getD .x
    let op := RecipeOp.mkRmsnormAdd .attnOut .x .x 14 0
    let m : Slot → ℕ → ℚ := fun b _ => if b = .attnOut then 1 else 5
    ctx.pickRmsnormAdd = .composed ∧ ctx.runExecutor op m .composed .x 0 = 2 ∧
      ctx.normedAdd op m .x 0 = 6 := by
  decide +kernel

/-- What an op reads and what it writes are in different buffers of the plan. -/
theorem memPlan_apart {r : ModelRecipe} (hview : (graphBuild r).NoViewRead) (d : MemDims)
    (isHybrid : Bool) {sec : CgSection} {k : ℕ} {op : RecipeOp} (hop : (r.opsOf sec)[k]? = some op)
    (hk : op.kind ≠ .none) {a b : Slot} (ha : a ∈ op.touchReads) (hb : b ∈ op.touchWrites)
    (hab : a ≠ b) :
    let p := MemPlan.build (some [graphBuild r]) d isHybrid
    p.rep a ≠ p.rep b := by
  intro p hrep
  have h := graphBuild_built r
  obtain ⟨t, n, hn, hl⟩ := h.node_of_op hop hk
  obtain ⟨ra, hsa, hla, hha⟩ := h.storedRange_read hview hn hl ha
  obtain ⟨rb, hsb, hlb, hhb⟩ := h.storedRange_write hn hl hb
  exact (MemPlan.rep_apart hab hrep List.mem_cons_self).1 ra rb hsa hsb ⟨by omega, by omega⟩

end Kappai
