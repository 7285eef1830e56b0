import Mathlib.Algebra.Field.Defs
import Mathlib.Data.Rat.Cast.Defs
import Kappai.Lib.Lanes
import Kappai.Spec.Recipe

/-! The executors of `OP_RMSNORM_ADD` and of the `OP_RMSNORM` that may follow it, over the buffers
their slots are in. Arithmetic is exact, over a field; the reciprocal square root is given. -/

namespace Kappai

variable {B K : Type*} [Field K]

/-- `rmsnorm_sum_sq` -/
def rmsnormSumSq (row : ℕ → K) (n : ℕ) : K :=
  (List.range n).foldl (fun ss i => ss + row i * row i) 0

theorem rmsnormSumSq_congr (n : ℕ) {row row' : ℕ → K} (h : ∀ i < n, row i = row' i) :
    rmsnormSumSq row n = rmsnormSumSq row' n := by
  unfold rmsnormSumSq
  refine List.foldl_ext _ _ _ fun ss i hi => ?_
  rw [h i (List.mem_range.mp hi)]

/-- Element `i` of a row that is normed: `x[i] * scale * w[i]`. -/
def normElem (rsqrt : K → K) (eps : ℚ) (n : ℕ) (w row : ℕ → K) (i : ℕ) : K :=
  row i * rsqrt (rmsnormSumSq row n / n + eps) * w i

/-! ### Kernels, on the row that starts at an offset -/

section

variable [DecidableEq B] (rsqrt : K → K)

/-- `vk_rmsnorm`, a row of `cpu_rmsnorm_batch` -/
def rmsnormRow (w : ℕ → K) (x y : B) (n : ℕ) (eps : ℚ) (base : ℕ) (m : B → ℕ → K) : B → ℕ → K :=
  let scale := rsqrt (rmsnormSumSq (fun i => m x (base + i)) n / n + eps)
  sweep y base n (fun i col => col x * scale * w i) m

/-- `vk_add_inplace`, a row of `cpu_add_batch_chunk` -/
def addRow (x y : B) (n base : ℕ) (m : B → ℕ → K) : B → ℕ → K :=
  sweep x base n (fun _ col => col x + col y) m

/-- `scale_inplace` -/
def scaleInplace (x : B) (s : ℚ) (n base : ℕ) (m : B → ℕ → K) : B → ℕ → K :=
  sweep x base n (fun _ col => col x * s) m

/-- `scale_inplace_fallback`: the buffer is read, scaled on the host and written. -/
def scaleInplaceFallback (x : B) (s : ℚ) (n : ℕ) (m : B → ℕ → K) : B → ℕ → K :=
  let xf : ℕ → K := fun i => m x i * s
  sweep x 0 n (fun i _ => xf i) m

/-- `rmsnorm_add`, a row of `cpu_rmsnorm_add_batch_chunk` -/
def rmsnormAddRow (w : ℕ → K) (x r y : B) (n : ℕ) (eps outScale : ℚ) (base : ℕ)
    (m : B → ℕ → K) : B → ℕ → K :=
  let scale := rsqrt (rmsnormSumSq (fun i => m x (base + i)) n / n + eps)
  sweep y base n (fun i col => (col x * scale * w i + col r) * outScale) m

/-- A row of `rmsnorm_add_norm_batch`. The second norm is of the values kept aside in `s_y` and is
written once all of `y` is. -/
def rmsnormAddNormRow (w : ℕ → K) (x r y : B) (w2 : ℕ → K) (y2 : B) (n : ℕ) (eps outScale : ℚ)
    (base : ℕ) (m : B → ℕ → K) : B → ℕ → K :=
  let scale := rsqrt (rmsnormSumSq (fun i => m x (base + i)) n / n + eps)
  let s_y : ℕ → K := fun i => (m x (base + i) * scale * w i + m r (base + i)) * outScale
  let scale2 := rsqrt (rmsnormSumSq s_y n / n + eps)
  sweep y2 base n (fun i _ => s_y i * scale2 * w2 i) (sweep y base n (fun i _ => s_y i) m)

/-- A row of `vk_rmsnorm_add_batch` when its weight is only on the host. -/
def rmsnormAddRowHost (w : ℕ → K) (x r y : B) (n : ℕ) (eps outScale : ℚ) (base : ℕ)
    (m : B → ℕ → K) : B → ℕ → K :=
  let m := addRow y r n base (rmsnormRow rsqrt w x y n eps base m)
  if outScale = 1 then m else scaleInplace y outScale n base m

end

/-! ### Executors -/

/-- How a backend runs `rmsnorm_add_batch`. -/
inductive AddBatchKernel
  | rows
  | hostWeight
deriving DecidableEq

/-- The members of `backend` that the executors ask for. A call of `rmsnorm_add_norm_batch` may
report an error, and has then written nothing. -/
structure NormBackend (B K : Type*) where
  rsqrt : K → K
  rmsnormAddBatch : Option (RecipeOp → AddBatchKernel)
  rmsnormAdd : Bool
  capRmsnormAdd : Bool
  scaleInplace : Bool
  rmsnormAddNormBatch : Option (RecipeOp → (B → ℕ → K) → Bool)

/-- What the executors take from `exec_ctx`: `exec_slot`, `exec_weight`, the dimension, the rows
and the backend of the layer. -/
structure NormCtx (B K : Type*) where
  slot : Option Slot → B
  weight : ℕ → ℕ → K
  dim : ℕ
  nRows : ℕ
  backend : NormBackend B K

inductive NormExecutor
  | fused | rows | composed
deriving DecidableEq

namespace NormCtx

variable [DecidableEq B] (ctx : NormCtx B K) (op : RecipeOp) (m : B → ℕ → K)

/-- `op_rmsnorm` -/
def opRmsnorm : B → ℕ → K :=
  eachRow ctx.dim ctx.nRows (rmsnormRow ctx.backend.rsqrt (ctx.weight op.wIdx) (ctx.slot op.in0)
    (ctx.slot op.out) ctx.dim op.u.eps) m

def rmsnormAddFused (kernel : AddBatchKernel) : B → ℕ → K :=
  let row := match kernel with
    | .rows => rmsnormAddRow ctx.backend.rsqrt
    | .hostWeight => rmsnormAddRowHost ctx.backend.rsqrt
  eachRow ctx.dim ctx.nRows (row (ctx.weight op.wIdx) (ctx.slot op.in0) (ctx.slot op.in1)
    (ctx.slot op.out) ctx.dim op.u.eps op.u.outScale) m

def rmsnormAddRows : B → ℕ → K :=
  eachRow ctx.dim ctx.nRows (rmsnormAddRow ctx.backend.rsqrt (ctx.weight op.wIdx)
    (ctx.slot op.in0) (ctx.slot op.in1) (ctx.slot op.out) ctx.dim op.u.eps op.u.outScale) m

def rmsnormAddComposed : B → ℕ → K :=
  let outb := ctx.slot op.out
  let m := ctx.opRmsnorm op m
  let m := eachRow ctx.dim ctx.nRows (addRow outb (ctx.slot op.in1) ctx.dim) m
  if op.u.outScale = 1 then m
  else if ctx.backend.scaleInplace then
    Kappai.scaleInplace outb op.u.outScale (ctx.dim * ctx.nRows) 0 m
  else scaleInplaceFallback outb op.u.outScale (ctx.dim * ctx.nRows) m

/-- `exec_rmsnorm_add_norm`; `none` if the two ops have to run on their own. -/
def execRmsnormAddNorm (add norm : RecipeOp) : Option (B → ℕ → K) :=
  match ctx.backend.rmsnormAddNormBatch with
  | none => none
  | some ok =>
    if norm.kind ≠ .rmsnorm ∨ norm.in0 ≠ add.out ∨ norm.u.eps ≠ add.u.eps then none
    else if ok add m then
      some (eachRow ctx.dim ctx.nRows (rmsnormAddNormRow ctx.backend.rsqrt (ctx.weight add.wIdx)
        (ctx.slot add.in0) (ctx.slot add.in1) (ctx.slot add.out) (ctx.weight norm.wIdx)
        (ctx.slot norm.out) ctx.dim add.u.eps add.u.outScale) m)
    else none

/-- An executor by name; a backend without `rmsnorm_add_batch` has no fused one. -/
def runExecutor (e : NormExecutor) : B → ℕ → K :=
  match e, ctx.backend.rmsnormAddBatch with
  | .fused, some kernel => ctx.rmsnormAddFused op m (kernel op)
  | .fused, none => ctx.rmsnormAddComposed op m
  | .rows, _ => ctx.rmsnormAddRows op m
  | .composed, _ => ctx.rmsnormAddComposed op m

/-- `rmsnorm_add_dynamic` -/
def rmsnormAddDynamic : NormExecutor :=
  if ctx.backend.rmsnormAddBatch.isSome then .fused
  else if ctx.backend.rmsnormAdd ∧ ctx.backend.capRmsnormAdd ∧ ctx.nRows < 4 then .rows
  else .composed

/-- `exec_pick_variant` for the op, then the executor of the step. -/
def pickRmsnormAdd : NormExecutor :=
  if ctx.backend.rmsnormAddBatch.isSome then .fused
  else if ¬ (ctx.backend.rmsnormAdd ∧ ctx.backend.capRmsnormAdd) then .composed
  else ctx.rmsnormAddDynamic

/-- `layer_run_step` at an `OP_RMSNORM_ADD`: the memory, and how many ops the step took. -/
def layerRunStep (next : Option RecipeOp) : (B → ℕ → K) × ℕ :=
  match next.bind fun norm => if op.fuseNext then ctx.execRmsnormAddNorm m op norm else none with
  | some m' => (m', 2)
  | none => (ctx.runExecutor op m ctx.pickRmsnormAdd, 1)

/-- `layer_run_schedule` over the op and the `OP_RMSNORM` behind it. -/
def layerRunPair (norm : RecipeOp) : B → ℕ → K :=
  let step := ctx.layerRunStep op m (some norm)
  if step.2 = 2 then step.1 else ctx.opRmsnorm norm step.1

end NormCtx

end Kappai
