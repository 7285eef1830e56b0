import Kappai.Spec.Conv

/-! Per-layer embeddings: `ple_build_run` on the device or on the host, and `ple_proj_inject_batch` for the
layers of a pass, in exact arithmetic. -/

namespace Kappai

namespace Ple

open ConvLayer (matmulBatch)

variable {R : Type*} [CommRing R]

/-- Of the model, with `gelu` and the norm of a row. -/
structure Model (R : Type*) where
  nLayers : ℕ
  /-- `n_embd_per_layer` -/
  d : ℕ
  dim : ℕ
  /-- the rows of `per_layer_tok_embd`, by token -/
  embd : ℕ → ℕ → R
  /-- `per_layer_model_proj` -/
  proj : ℕ → R
  projNormW : ℕ → R
  nEmbdSqrt : R
  invSqrtPle : R
  combineScale : R
  eps : R
  gateW : ℕ → ℕ → R
  projW : ℕ → ℕ → R
  postNormW : ℕ → ℕ → R
  outScale : ℕ → R
  gelu : R → R
  rmsnorm (x : List R) (w : ℕ → R) (eps : R) : ℕ → R

def Model.total (M : Model R) : ℕ := M.d * M.nLayers

/-- The functions of a backend that a path depends on. -/
structure Backend where
  id : ℕ
  isHost : Bool
  copyBuffer : Bool
  rmsnormBatch : Bool
  ffnDownBatch : Bool
  rmsnormAddBatch : Bool
deriving DecidableEq

/-- A buffer on a backend. -/
structure DevBuf (R : Type*) where
  owner : ℕ
  data : ℕ → R

/-- Of `batch_scratch` -/
structure Scratch (R : Type*) where
  pleAll : Option (DevBuf R)
  pleBuf : ℕ → R
  pleProj : ℕ → R
  pleProjDev : ℕ → R
  pleInp : ℕ → R
  pleInpDev : ℕ → R
  pleSlice : ℕ → R
  pleSliceDev : ℕ → R

variable (M : Model R)

/-- `scale_inplace` -/
def scaleInplace (x : ℕ → R) (f : R) (n : ℕ) : ℕ → R := putRange x 0 n fun i => x i * f

def rowAt (x : ℕ → R) (base n : ℕ) : List R := (List.range n).map fun j => x (base + j)

/-- `rmsnorm_batch` in place, on `rows` rows of `n` floats from `base` on. -/
def rmsnormRows (x w : ℕ → R) (base n rows : ℕ) : ℕ → R :=
  putRange x base (base + rows * n) fun c =>
    M.rmsnorm (rowAt x (base + (c - base) / n * n) n) w M.eps ((c - base) % n)

/-- `ple_combine` -/
def combine (ple proj : ℕ → R) (n : ℕ) : ℕ → R := putRange ple 0 n fun i => (ple i + proj i) * M.combineScale

/-- `ple_norm_layers` on the row that begins at `base`. -/
def normLayers (rmsnormBatch : Bool) (x : ℕ → R) (base : ℕ) : ℕ → R :=
  if rmsnormBatch && decide (M.nLayers > 1) then rmsnormRows M x M.projNormW base M.d M.nLayers
  else (List.range M.nLayers).foldl (fun x l => rmsnormRows M x M.projNormW (base + l * M.d) M.d 1) x

def tokenAt (tokens : Option (ℕ → ℕ)) (row : ℕ) : ℕ := (tokens.map fun t => t row).getD 0

/-- `buffer_ensure_scratch`, which makes a buffer anew (with what its memory holds) or leaves it. -/
def ensureAll (b : Option (DevBuf R)) (a : Backend) (fresh : Option (ℕ → R)) : Option (DevBuf R) :=
  match b, fresh with
  | some b, none => some ⟨a.id, b.data⟩
  | none, none => some ⟨a.id, fun _ => 0⟩
  | _, some data => some ⟨a.id, data⟩

/-- `ple_build_run` once `dev_path_ok` is known. `hostBatch` is for the host backend. -/
def buildRun (a : Backend) (hostBatch dev : Bool) (tokens : Option (ℕ → ℕ)) (x : ℕ → R) (nRows : ℕ)
    (fresh : Option (ℕ → R)) (projHost : ℕ → R) (s : Scratch R) : Scratch R :=
  let n := nRows * M.total
  let all := ((ensureAll s.pleAll a fresh).map DevBuf.data).getD fun _ => 0
  if dev then
    let ple := (List.range nRows).foldl (fun ple row =>
      putRange ple (row * M.total) (row * M.total + M.total) fun i =>
        M.embd (tokenAt tokens row) (i - row * M.total)) all
    let ple := scaleInplace ple M.nEmbdSqrt n
    let proj := matmulBatch M.proj x (if a.isHost then s.pleProj else s.pleProjDev) 0 M.total M.dim nRows
    let proj := scaleInplace proj M.invSqrtPle n
    let proj := (List.range nRows).foldl (fun proj row => normLayers M a.rmsnormBatch proj (row * M.total)) proj
    let s := if a.isHost then { s with pleProj := proj } else { s with pleProjDev := proj }
    { s with pleAll := some ⟨a.id, combine M ple proj n⟩ }
  else
    let ple := (List.range nRows).foldl (fun ple row =>
      putRange ple (row * M.total) (row * M.total + M.total) fun i =>
        M.embd (tokenAt tokens row) (i - row * M.total) * M.nEmbdSqrt) s.pleBuf
    let proj := (List.range nRows).foldl (fun proj row =>
      matmulBatch M.proj (fun i => x (row * M.dim + i)) proj (row * M.total) M.total M.dim 1) projHost
    let proj := scaleInplace proj M.invSqrtPle n
    let proj := (List.range nRows).foldl (fun proj row => normLayers M hostBatch proj (row * M.total)) proj
    let ple := combine M ple proj n
    let all := if a.copyBuffer then putRange all 0 n ple else all
    { s with pleBuf := ple, pleAll := some ⟨a.id, all⟩ }

/-- `ple_slice_b`, when it is not a view of `ple_all`. `src` is the scratch of the build. -/
def copySlice (li nRows : ℕ) (src : Scratch R) (slice : ℕ → R) : ℕ → R :=
  match src.pleAll with
  | some all => (List.range nRows).foldl (fun slice row =>
      putRange slice (row * M.d) (row * M.d + M.d) fun i => all.data (row * M.total + li * M.d + (i - row * M.d))) slice
  | none => (List.range nRows).foldl (fun slice row =>
      putRange slice (row * M.d) (row * M.d + M.d) fun i => src.pleBuf (row * M.total + li * M.d + (i - row * M.d))) slice

/-- `slice_in_place` -/
def sliceInPlace (a : Backend) (nRows : ℕ) (src : Scratch R) : Bool :=
  !a.isHost && nRows == 1 && (src.pleAll.map DevBuf.owner == some a.id)

/-- `ple_slice_b` of `ple_proj_inject_batch`, from its offset on. -/
def injectSlice (a : Backend) (li nRows : ℕ) (src bs : Scratch R) : ℕ → R :=
  if sliceInPlace a nRows src then fun i => ((src.pleAll.map DevBuf.data).getD fun _ => 0) (li * M.d + i)
  else copySlice M li nRows src (if a.isHost then bs.pleSlice else bs.pleSliceDev)

/-- `ple_proj_inject_batch` on the slots `x` and `aob`: the scratch of the layer, and `x` after it. -/
def inject [DecidableEq R] (a : Backend) (li nRows : ℕ) (src bs : Scratch R) (x aob : ℕ → R) :
    Scratch R × (ℕ → R) :=
  let slice := injectSlice M a li nRows src bs
  let inp := matmulBatch (M.gateW li) x (if a.isHost then bs.pleInp else bs.pleInpDev) 0 M.d M.dim nRows
  let act := putRange inp 0 (nRows * M.d) fun i => M.gelu (inp i) * slice i
  let aob := matmulBatch (M.projW li) (if a.ffnDownBatch then fun i => M.gelu (inp i) * slice i else act) aob 0 M.dim
    M.d nRows
  let inp := if a.ffnDownBatch then inp else act
  let bs := if a.isHost then { bs with pleInp := inp } else { bs with pleInpDev := inp }
  let bs := if sliceInPlace a nRows src then bs
    else if a.isHost then { bs with pleSlice := slice } else { bs with pleSliceDev := slice }
  if a.rmsnormAddBatch then
    (bs, putRange x 0 (nRows * M.dim) fun c =>
      (M.rmsnorm (rowAt aob (c / M.dim * M.dim) M.dim) (M.postNormW li) M.eps (c % M.dim) + x c) * M.outScale li)
  else
    let aob := rmsnormRows M aob (M.postNormW li) 0 M.dim nRows
    let x := putRange x 0 (nRows * M.dim) fun c => x c + aob c
    (bs, if M.outScale li ≠ 1 then scaleInplace x (M.outScale li) (nRows * M.dim) else x)

/-! ### What they are for -/

/-- Entry `e` of the embeddings of a row. -/
def pleOf (tokens : Option (ℕ → ℕ)) (x : ℕ → R) (row e : ℕ) : R :=
  (M.embd (tokenAt tokens row) e * M.nEmbdSqrt +
    M.rmsnorm ((List.range M.d).map fun j =>
      (∑ i ∈ Finset.range M.dim, M.proj ((e / M.d * M.d + j) * M.dim + i) * x (row * M.dim + i)) * M.invSqrtPle)
      M.projNormW M.eps (e % M.d)) * M.combineScale

/-- What an entry of `x` is after the step of a layer, for the slice `sl` of the row. -/
def injectOf (li : ℕ) (sl : ℕ → R) (x : ℕ → R) (c : ℕ) : R :=
  x c + M.rmsnorm ((List.range M.dim).map fun o => ∑ j ∈ Finset.range M.d, M.projW li (o * M.d + j) *
    (M.gelu (∑ i ∈ Finset.range M.dim, M.gateW li (j * M.dim + i) * x (c / M.dim * M.dim + i)) * sl j)) (M.postNormW li)
    M.eps (c % M.dim)

/-- A step of a layer on the scratch of its device, with its slots. -/
structure Step (R : Type*) where
  a : Backend
  li : ℕ
  device : ℕ
  x : ℕ → R
  aob : ℕ → R

/-- The scratch of the devices. That of the build is the one of device `0`. -/
abbrev Scratches (R : Type*) := ℕ → Scratch R

def runStep [DecidableEq R] (nRows : ℕ) (s : Scratches R) (st : Step R) : Scratches R :=
  Function.update s st.device (inject M st.a st.li nRows (s 0) (s st.device) st.x st.aob).1

/-- A step uses the slice of its layer of every row, and its result is that of the composition. -/
def StepRight [DecidableEq R] (nRows : ℕ) (ple : ℕ → ℕ → R) (s : Scratches R) (st : Step R) : Prop :=
  (∀ row < nRows, ∀ e < M.d,
    injectSlice M st.a st.li nRows (s 0) (s st.device) (row * M.d + e) = ple row (st.li * M.d + e)) ∧
  ∀ c, (inject M st.a st.li nRows (s 0) (s st.device) st.x st.aob).2 c =
    if c < nRows * M.dim then
      injectOf M st.li (fun e => ple (c / M.dim) (st.li * M.d + e)) st.x c * M.outScale st.li
    else st.x c

def RunRight [DecidableEq R] (nRows : ℕ) (ple : ℕ → ℕ → R) (s : Scratches R) : List (Step R) → Prop
  | [] => True
  | st :: steps => StepRight M nRows ple s st ∧ RunRight nRows ple (runStep M nRows s st) steps

/-- After a build, every pass of steps over layers of the model is right, whatever was in the scratch before. -/
def BuildRight [DecidableEq R] (a : Backend) (hostBatch dev : Bool) (tokens : Option (ℕ → ℕ)) (x : ℕ → R)
    (nRows : ℕ) : Prop :=
  ∀ (fresh : Option (ℕ → R)) (projHost : ℕ → R) (s : Scratches R) (steps : List (Step R)),
    (∀ st ∈ steps, st.li < M.nLayers) →
    RunRight M nRows (pleOf M tokens x)
      (Function.update s 0 (buildRun M a hostBatch dev tokens x nRows fresh projHost (s 0))) steps

end Ple

end Kappai
