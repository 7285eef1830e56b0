import Mathlib

/-! The blocks that a fused norm leaves for the matmuls after it: `xq_fused`, `vk_qcore_quantize`,
`vk_qcore_matmul` and the runs of calls that share them. -/

namespace Kappai

namespace VkQuantCache

/-- The floats of each `vk_buf`, by its address. -/
abbrev Mem (F : Type) := ℕ → ℕ → F

/-- A `buffer`. The offset counts floats. -/
structure Slice where
  buf : ℕ
  off : ℕ
deriving DecidableEq

/-- The types of weights, in the order of the source. -/
inductive Vq
  | q4_0 | q4_1 | q5_0 | q5_1 | q8_0 | iq4_nl | q4_k | q5_k | q6_k | f32 | f16 | bf16
deriving DecidableEq

/-- `vk_qfamily`. A dense type has no blocks. -/
def qfamily : Vq → Option (Fin 2)
  | .q4_0 | .q4_1 | .q5_0 | .q5_1 | .q8_0 | .iq4_nl => some 0
  | .q4_k | .q5_k | .q6_k => some 1
  | .f32 | .f16 | .bf16 => none

/-- `QB` -/
def blockFloats (family : Fin 2) : ℕ := if family = 0 then 32 else 256

/-- `WORDS` -/
def blockWords (family : Fin 2) : ℕ := if family = 0 then 12 else 76

/-- `PER_WG` -/
def blocksPerGroup (family : Fin 2) : ℕ := if family = 0 then 8 else 1

/-- What the shaders compute. A row of a norm has its entries by their index, a block is made of the
floats it covers, and a product has one float for each row and column. -/
structure Kernels (F ω : Type) where
  rmsnorm (n : ℕ) (x w : ℕ → F) (eps : F) : ℕ → F
  rmsnormAdd (n : ℕ) (x w residual : ℕ → F) (eps outScale : F) : ℕ → F
  block (family : Fin 2) (xs : List F) : ω
  activate (act : ℤ) (gate up : F) : F
  matmul (t : Vq) (n k m : ℕ) (w : ℕ → F) (xq : List (Option ω)) (res : Option (ℕ → F)) : ℕ → F
  dense (t : Vq) (n k m : ℕ) (w : ℕ → F) (xs : List F) (res : Option (ℕ → F)) : ℕ → F

/-- Limits of the device, and whether the pipelines of `vk_rmsnorm_add_norm_batch` are there. -/
structure Caps where
  maxGroupsX : ℕ
  maxGroupsY : ℕ
  addNormReady : Bool

/-- `xq_buf` and `xq_cap` of a family. A block that nothing has written is `none`. -/
structure Scratch (ω : Type) where
  buf : Option (ℕ → Option ω)
  cap : ℕ

/-- `xq_fused` -/
structure XqFused where
  buf : Option ℕ
  off : ℕ
  k : ℕ
  m : ℕ
  seq : ℕ
deriving DecidableEq

/-- Of `vk_priv`, with the memory of the device. -/
structure Priv (F ω : Type) where
  mem : Mem F
  xq : Fin 2 → Scratch ω
  fused : XqFused
  streamSeq : ℕ
  deviceLost : Bool

inductive Status
  | ok | internal | invalidArg | unsupported | failed
deriving DecidableEq

/-- How the parts of a call that depend on the device end: the allocation of a scratch buffer, and
recording a dispatch after the counter has gone up. -/
structure Outcome where
  grown : Bool
  recorded : Bool

variable {F ω : Type}

def Priv.init (mem : Mem F) : Priv F ω := ⟨mem, fun _ => ⟨none, 0⟩, ⟨none, 0, 0, 0, 0⟩, 0, false⟩

/-- The memory after the first `count` floats of a slice are written. -/
def write (mem : Mem F) (s : Slice) (count : ℕ) (v : ℕ → F) : Mem F :=
  Function.update mem s.buf fun i => if s.off ≤ i ∧ i < s.off + count then v (i - s.off) else mem s.buf i

def read (mem : Mem F) (s : Slice) : ℕ → F := fun i => mem s.buf (s.off + i)

/-- The first blocks of a scratch buffer written. -/
def Scratch.fill (s : Scratch ω) (count : ℕ) (v : ℕ → ω) : Scratch ω :=
  { s with buf := s.buf.map fun old i => if i < count then some (v i) else old i }

def Priv.freeXq (p : Priv F ω) (family : Fin 2) : Priv F ω :=
  if (p.xq family).buf.isSome then { p with xq := Function.update p.xq family ⟨none, 0⟩ } else p

/-- `vk_ensure_scratch` for `xq_buf[family]` -/
def ensureScratch (p : Priv F ω) (family : Fin 2) (need : ℕ) (grown : Bool) : Priv F ω × Status :=
  if need ≤ (p.xq family).cap then (p, .ok)
  else
    let p := p.freeXq family
    if grown then
      let c := if need < 2 ^ 20 then 2 ^ 20 else need
      ({ p with xq := Function.update p.xq family ⟨some fun _ => none, c⟩ }, .ok)
    else (p, .failed)

/-- The first blocks of `xq_buf[family]` written. -/
def Priv.fillXq (p : Priv F ω) (family : Fin 2) (count : ℕ) (v : ℕ → ω) : Priv F ω :=
  { p with xq := Function.update p.xq family ((p.xq family).fill count v) }

variable (caps : Caps)

/-- The checks of `vk_dispatch_ex` before the counter goes up. -/
def startFails (p : Priv F ω) (gx gy : ℕ) : Option Status :=
  if p.deviceLost then some .internal
  else if max gx 1 > caps.maxGroupsX ∨ max gy 1 > caps.maxGroupsY then some .invalidArg
  else none

/-- `vk_dispatch_ex`. `bound` says that none of its buffers is missing. -/
def dispatchEx (p : Priv F ω) (bound : Bool) (gx gy : ℕ) (recorded : Bool) (kernel : Priv F ω → Priv F ω) :
    Priv F ω × Status :=
  match startFails caps p gx gy with
  | some s => (p, s)
  | none =>
    let p := { p with streamSeq := p.streamSeq + 1 }
    if recorded && bound then (kernel p, .ok) else (p, .failed)

variable (κ : Kernels F ω)

/-- The floats that a block covers, for rows of `kb` blocks. -/
def blockOf (family : Fin 2) (kb : ℕ) (row : ℕ → ℕ → F) (i : ℕ) : ω :=
  κ.block family ((List.range (blockFloats family)).map fun j => row (i / kb) (i % kb * blockFloats family + j))

/-- Rows of `n` floats written to `y`, and their blocks to `xq_buf[0]`. -/
def storeRows (p : Priv F ω) (y : Slice) (n m : ℕ) (row : ℕ → ℕ → F) : Priv F ω :=
  ({ p with mem := write p.mem y (m * n) fun i => row (i / n) (i % n) } : Priv F ω).fillXq 0 (m * (n / 32))
    (blockOf κ 0 (n / 32) row)

/-- What both fused norms do after a good dispatch. -/
def setFused (d : Priv F ω × Status) (y : Slice) (n m : ℕ) : Priv F ω × Status :=
  if d.2 ≠ .ok then d else ({ d.1 with fused := ⟨some y.buf, y.off, n, m, d.1.streamSeq⟩ }, .ok)

/-- `vk_rmsnorm_quant_batch` -/
def rmsnormQuantBatch (p : Priv F ω) (x w y : Slice) (n : ℕ) (eps : F) (m : ℕ) (o : Outcome) : Priv F ω × Status :=
  let s := ensureScratch p 0 (m * (n / 32) * 12 * 4) o.grown
  if s.2 ≠ .ok then s
  else
    let kernel := fun p : Priv F ω =>
      storeRows κ p y n m fun r => κ.rmsnorm n (fun i => read p.mem x (r * n + i)) (read p.mem w) eps
    setFused (dispatchEx caps s.1 (s.1.xq 0).buf.isSome 1 m o.recorded kernel) y n m

/-- `vk_rmsnorm_add_norm_batch` -/
def rmsnormAddNormBatch (p : Priv F ω) (x wAdd residual yAdd wNorm yNorm : Slice) (n : ℕ) (eps outScale : F)
    (m : ℕ) (o : Outcome) : Priv F ω × Status :=
  if !caps.addNormReady || n % 32 ≠ 0 || n > 4096 then (p, .unsupported)
  else
    let s := ensureScratch p 0 (m * (n / 32) * 12 * 4) o.grown
    if s.2 ≠ .ok then s
    else
      let kernel := fun p : Priv F ω =>
        let sum := fun r => κ.rmsnormAdd n (fun i => read p.mem x (r * n + i)) (read p.mem wAdd)
          (fun i => read p.mem residual (r * n + i)) eps outScale
        storeRows κ { p with mem := write p.mem yAdd (m * n) fun i => sum (i / n) (i % n) } yNorm n m
          fun r => κ.rmsnorm n (sum r) (read p.mem wNorm) eps
      setFused (dispatchEx caps s.1 (s.1.xq 0).buf.isSome 1 m o.recorded kernel) yNorm n m

/-- `vk_qcore_quantize` returns at once. -/
def skips (p : Priv F ω) (family : Fin 2) (x : Slice) (up : Option Slice) (k m : ℕ) : Bool :=
  decide (family = 0 ∧ up = none ∧ p.fused.buf = some x.buf ∧ p.fused.off = x.off ∧ p.fused.k = k ∧
    p.fused.m = m ∧ p.fused.seq = p.streamSeq)

/-- The rows that are made into blocks: those of `x`, or an activation of them times those of `up`. -/
def rowsOf (mem : Mem F) (x : Slice) (up : Option Slice) (act : ℤ) (k : ℕ) (r j : ℕ) : F :=
  match up with
  | none => read mem x (r * k + j)
  | some u => κ.activate act (read mem x (r * k + j)) (read mem u (r * k + j))

def quantizeNeed (family : Fin 2) (k m : ℕ) : ℕ := m * (k / blockFloats family) * blockWords family * 4

/-- `vk_qcore_quantize` from the scratch buffer on. -/
def quantizeAnew (p : Priv F ω) (family : Fin 2) (x : Slice) (up : Option Slice) (act : ℤ) (k m : ℕ)
    (o : Outcome) : Priv F ω × Status :=
  let kb := k / blockFloats family
  let s := ensureScratch p family (quantizeNeed family k m) o.grown
  if s.2 ≠ .ok then s
  else
    dispatchEx caps s.1 (s.1.xq family).buf.isSome ((kb + blocksPerGroup family - 1) / blocksPerGroup family) m
      o.recorded fun p => p.fillXq family (m * kb) (blockOf κ family kb (rowsOf κ p.mem x up act k))

/-- `vk_qcore_quantize` -/
def qcoreQuantize (p : Priv F ω) (family : Fin 2) (x : Slice) (up : Option Slice) (act : ℤ) (k m : ℕ)
    (o : Outcome) : Priv F ω × Status :=
  if skips p family x up k m then (p, .ok) else quantizeAnew caps κ p family x up act k m o

/-- The groups of a product. -/
def matmulGroups (n m : ℕ) : ℕ × ℕ :=
  if m ≥ 16 then ((m + 64 - 1) / 64, (n + 64 - 1) / 64)
  else if m = 1 then ((n + 4 - 1) / 4, (m + 1 - 1) / 1)
  else ((n + 2 - 1) / 2, (m + 4 - 1) / 4)

/-- What a product writes to `y`. -/
def product (p : Priv F ω) (t : Vq) (w x : Slice) (res : Option Slice) (n k m : ℕ) : ℕ → F :=
  match qfamily t with
  | none => κ.dense t n k m (read p.mem w) ((List.range (m * k)).map (read p.mem x)) (res.map (read p.mem))
  | some f =>
    κ.matmul t n k m (read p.mem w)
      ((List.range (m * (k / blockFloats f))).map ((p.xq f).buf.getD fun _ => none)) (res.map (read p.mem))

/-- `as_vkbuf(xs)` of `vk_qcore_matmul` is not NULL. -/
def inputBound (p : Priv F ω) (t : Vq) : Bool :=
  match qfamily t with
  | none => true
  | some f => (p.xq f).buf.isSome

/-- `vk_qcore_matmul` -/
def qcoreMatmul (p : Priv F ω) (t : Vq) (w x y : Slice) (res : Option Slice) (n k m : ℕ) (o : Outcome) :
    Priv F ω × Status :=
  let g := matmulGroups n m
  if g.1 > caps.maxGroupsX ∨ g.2 > caps.maxGroupsY then (p, .unsupported)
  else
    let keepsFused := decide (p.fused.seq = p.streamSeq ∧ some y.buf ≠ p.fused.buf)
    let d := dispatchEx caps p (inputBound p t) g.1 g.2 o.recorded fun p =>
      { p with mem := write p.mem y (m * n) (product κ p t w x res n k m) }
    if d.2 = .ok ∧ keepsFused then ({ d.1 with fused := { d.1.fused with seq := d.1.streamSeq } }, .ok) else d

/-- `vk_qcore_run`, with the outcomes of its two calls. -/
def qcoreRun (p : Priv F ω) (t : Vq) (w x : Slice) (up : Option Slice) (act : ℤ) (y : Slice) (res : Option Slice)
    (n k m : ℕ) (o o' : Outcome) : Priv F ω × Status :=
  match qfamily t with
  | none => if up.isSome then (p, .unsupported) else qcoreMatmul caps κ p t w x y res n k m o'
  | some f =>
    let s := qcoreQuantize caps κ p f x up act k m o
    if s.2 ≠ .ok then s else qcoreMatmul caps κ s.1 t w x y res n k m o'

/-- `vk_buffer_upload` -/
def bufferUpload (p : Priv F ω) (b : Slice) (data : List F) (done : Bool) : Priv F ω × Status :=
  let p := { p with streamSeq := p.streamSeq + 1 }
  if done then ({ p with mem := write p.mem b data.length fun i => data.getD i (p.mem b.buf (b.off + i)) }, .ok)
  else (p, .failed)

/-- `vk_zero_buffer`, which fails before or after the counter goes up. -/
def zeroBuffer (zero : F) (p : Priv F ω) (a : ℕ) (begun done : Bool) : Priv F ω × Status :=
  if !begun then (p, .failed)
  else
    let p := { p with streamSeq := p.streamSeq + 1 }
    if done then ({ p with mem := Function.update p.mem a fun _ => zero }, .ok) else (p, .failed)

/-- A call of the backend. `dispatch` is any other pipeline, which may write any memory, and `alloc` makes a
`vk_buf` at an address that is free, from data of the host or with what its memory held. -/
inductive Op (F : Type)
  | rmsnormQuant (x w y : Slice) (n : ℕ) (eps : F) (m : ℕ) (o : Outcome)
  | rmsnormAddNorm (x wAdd residual yAdd wNorm yNorm : Slice) (n : ℕ) (eps outScale : F) (m : ℕ) (o : Outcome)
  | quantize (family : Fin 2) (x : Slice) (up : Option Slice) (act : ℤ) (k m : ℕ) (o : Outcome)
  | matmul (t : Vq) (w x y : Slice) (res : Option Slice) (n k m : ℕ) (o : Outcome)
  | run (t : Vq) (w x : Slice) (up : Option Slice) (act : ℤ) (y : Slice) (res : Option Slice) (n k m : ℕ)
      (o o' : Outcome)
  | dispatch (bound : Bool) (gx gy : ℕ) (kernel : Mem F → Mem F) (o : Outcome)
  | upload (b : Slice) (data : List F) (done : Bool)
  | zero (zero : F) (a : ℕ) (begun done : Bool)
  | alloc (a : ℕ) (data : ℕ → F)
  | loseDevice

def step (p : Priv F ω) : Op F → Priv F ω × Status
  | .rmsnormQuant x w y n eps m o => rmsnormQuantBatch caps κ p x w y n eps m o
  | .rmsnormAddNorm x wAdd residual yAdd wNorm yNorm n eps outScale m o =>
    rmsnormAddNormBatch caps κ p x wAdd residual yAdd wNorm yNorm n eps outScale m o
  | .quantize family x up act k m o => qcoreQuantize caps κ p family x up act k m o
  | .matmul t w x y res n k m o => qcoreMatmul caps κ p t w x y res n k m o
  | .run t w x up act y res n k m o o' => qcoreRun caps κ p t w x up act y res n k m o o'
  | .dispatch bound gx gy kernel o =>
    dispatchEx caps p bound gx gy o.recorded fun p => { p with mem := kernel p.mem }
  | .upload b data done => bufferUpload p b data done
  | .zero z a begun done => zeroBuffer z p a begun done
  | .alloc a data => ({ p with mem := Function.update p.mem a data }, .ok)
  | .loseDevice => ({ p with deviceLost := true }, .ok)

/-- `xq_buf[0]` has the blocks of the first `m` rows of `x`. -/
def HoldsBlocks (p : Priv F ω) (x : Slice) (k m : ℕ) : Prop :=
  ∃ blocks, (p.xq 0).buf = some blocks ∧
    ∀ i < m * (k / 32), blocks i = some (blockOf κ 0 (k / 32) (rowsOf κ p.mem x none 0 k) i)

/-- Where the rows of `x` are not made into blocks again, the blocks are there, and a product is the same as
after making them again. -/
def SkipSound (p : Priv F ω) : Prop :=
  ∀ (x : Slice) (k m : ℕ), skips p 0 x none k m = true →
    HoldsBlocks κ p x k m ∧
    ∀ (t : Vq) (w y : Slice) (res : Option Slice) (n : ℕ) (act : ℤ) (o o' : Outcome), qfamily t = some 0 →
      let redone := quantizeAnew caps κ p 0 x none act k m o
      redone.2 = .ok →
        (qcoreMatmul caps κ p t w x y res n k m o').2 =
            (qcoreMatmul caps κ redone.1 t w x y res n k m o').2 ∧
        (qcoreMatmul caps κ p t w x y res n k m o').1.mem =
            (qcoreMatmul caps κ redone.1 t w x y res n k m o').1.mem

/-- Every state of a run has the property. -/
def SkipSoundRun (p : Priv F ω) : List (Op F) → Prop
  | [] => SkipSound caps κ p
  | op :: ops => SkipSound caps κ p ∧ SkipSoundRun (step caps κ p op).1 ops

/-- A call that makes `xq_buf[0]` anew goes on until its dispatch has moved the counter. -/
def GrowthStarts (p : Priv F ω) (need gx gy : ℕ) (o : Outcome) : Prop :=
  (p.xq 0).cap < need → o.grown = true ∧ startFails caps p gx gy = none

def QuantizeSafe (p : Priv F ω) (family : Fin 2) (x : Slice) (up : Option Slice) (k m : ℕ) (o : Outcome) : Prop :=
  family = 0 → skips p family x up k m = false →
    GrowthStarts caps p (quantizeNeed 0 k m) ((k / 32 + 8 - 1) / 8) m o

/-- What is asked of a call while the blocks of a fused norm are valid. -/
def Safe (p : Priv F ω) (op : Op F) : Prop :=
  p.fused.buf.isSome = true → p.fused.seq = p.streamSeq →
    match op with
    | .rmsnormQuant _ _ _ n _ m o => GrowthStarts caps p (m * (n / 32) * 12 * 4) 1 m o
    | .rmsnormAddNorm _ _ _ _ _ _ n _ _ m o =>
      (!caps.addNormReady || n % 32 ≠ 0 || n > 4096) = false → GrowthStarts caps p (m * (n / 32) * 12 * 4) 1 m o
    | .quantize family x up _ k m o => QuantizeSafe caps p family x up k m o
    | .run t _ x up _ _ _ _ k m o _ => ∀ f ∈ qfamily t, QuantizeSafe caps p f x up k m o
    | .alloc a _ => p.fused.buf ≠ some a
    | _ => True

def SafeRun (p : Priv F ω) : List (Op F) → Prop
  | [] => True
  | op :: ops => Safe caps p op ∧ SafeRun (step caps κ p op).1 ops

end VkQuantCache

end Kappai
