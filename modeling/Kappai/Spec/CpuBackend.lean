import Kappai.Spec.CpuKv
import Kappai.Spec.Feed
import Mathlib.Algebra.Field.Rat
import Mathlib.Algebra.Order.Ring.Rat
import Mathlib.Algebra.Field.Basic
import Mathlib.Algebra.Order.Ring.Nat
import Mathlib.Data.Int.Cast.Lemmas

/-! The KV caches of one CPU backend, as the slots of the server allocate them: each has its
own buffers, all share the backend's private state. -/

namespace Kappai

section Caches

variable {ι β : Type*}

/-- What `cpu_kv_shift` does to the bytes of a head in a row of a chunk: dequantise, rotate by
the chunk's angles, convert again. -/
abbrev KvTurn (β : Type*) := KvQuant → ℕ → List (Option β) → ℕ → Option β

/-- The bytes of one head in a slot. -/
def cpuKvLoadHead (p : CpuPriv) (mem : KvMem β) (a : KvArgs) (layer head slot : ℕ) :
    List (Option β) :=
  (List.range (p.rowBytes a)).map fun b =>
    mem (Strided.cell (p.layerBase a layer) (p.layerRows a layer) (p.rowBytes a) head slot b)

/-- The rows `cpu_kv_shift` gathers, with the positions they go to. A row the cache does not
hold is left as it was allocated. -/
def cpuKvShiftRows (turn : KvTurn β) (p : CpuPriv) (mem : KvMem β) (a : KvArgs) (layer : ℕ)
    (chunks : List KvShiftChunk) : List (ℕ × (ℕ → ℕ → Option β)) :=
  chunks.zipIdx.flatMap fun c => (List.range c.1.n).map fun t =>
    let src := c.1.src + t
    (c.1.dst + t, fun head b =>
      if src < p.kvBasePos layer ∨ p.layerRows a layer ≤ src - p.kvBasePos layer then none
      else
        turn p.kvQuant c.2 (cpuKvLoadHead p mem a layer head (src - p.kvBasePos layer)) b)

/-- The second loop of `cpu_kv_shift`. -/
def cpuKvShiftPut (a : KvArgs) (layer : ℕ) (s : CpuPriv × KvMem β)
    (r : ℕ × (ℕ → ℕ → Option β)) : Option (CpuPriv × KvMem β) :=
  if r.1 < s.1.kvBasePos layer then some s else cpuKvPut s.1 s.2 a layer r.1 r.2

/-- What a call returns: its status or, for attention, the rows each query reads. -/
inductive KvOut (β : Type*)
  | ok
  | unsupported
  | rows (rows : List (List (Option β)))
deriving DecidableEq

def cpuKvShift (turn : KvTurn β) (p : CpuPriv) (mem : KvMem β) (a : KvArgs) (layer : ℕ)
    (chunks : List KvShiftChunk) : Option ((CpuPriv × KvMem β) × KvOut β) :=
  if chunks = [] ∨ a.nActive = 0 ∨ a.headDim / 2 = 0 then some ((p, mem), .ok)
  else if !p.layerCheck layer then none
  else if chunks.any fun c => c.src < p.kvBasePos layer && p.kvBasePos layer ≤ c.dst then
    some ((p, mem), .unsupported)
  else
    ((cpuKvShiftRows turn p mem a layer chunks).foldlM (cpuKvShiftPut a layer) (p, mem)).map
      fun s => (s, .ok)

/-- A call on a cache. -/
inductive KvCall (β : Type*)
  | alloc (d : KvDesc)
  | put (a : KvArgs) (layer pos : ℕ) (row : ℕ → ℕ → Option β)
  | putBatch (a : KvArgs) (layer posStart m : ℕ) (rows : ℕ → ℕ → ℕ → Option β)
  | shift (turn : KvTurn β) (a : KvArgs) (layer : ℕ) (chunks : List KvShiftChunk)
  | attention (a : KvArgs) (layer window pos head : ℕ)

/-- A call, given the backend's private state and the cache's buffer; `none` is an abort. -/
def KvCall.exec (p : CpuPriv) (mem : KvMem β) : KvCall β → Option ((CpuPriv × KvMem β) × KvOut β)
  | .alloc d => some ((cpuKvAlloc d, fun _ => none), .ok)
  | .put a layer pos row => (cpuKvPut p mem a layer pos row).map fun s => (s, .ok)
  | .putBatch a layer posStart m rows =>
    (cpuKvPutBatch p mem a layer posStart m rows).map fun s => (s, .ok)
  | .shift turn a layer chunks => cpuKvShift turn p mem a layer chunks
  | .attention a layer window pos head =>
    if !p.layerCheck layer then none
    else some ((p, mem), .rows (cpuAttnRows p mem a layer window pos head))

structure CpuBackend (ι β : Type*) where
  priv : CpuPriv
  cache : ι → KvMem β

namespace CpuBackend

def init : CpuBackend ι β := ⟨CpuPriv.init, fun _ _ => none⟩

variable [DecidableEq ι]

def exec (s : CpuBackend ι β) (op : ι × KvCall β) : Option (CpuBackend ι β × KvOut β) :=
  (op.2.exec s.priv (s.cache op.1)).map fun r =>
    (⟨r.1.1, Function.update s.cache op.1 r.1.2⟩, r.2)

/-- A step of a run; `none` is a process that has aborted. -/
def step (s : Option (CpuBackend ι β)) (op : ι × KvCall β) : Option (CpuBackend ι β) :=
  s.bind fun s => (s.exec op).map Prod.fst

end CpuBackend

end Caches

/-! The K/V shift of the CPU backend in exact arithmetic: a stored row is read back as the
values it was made of, and K rows are turned by the angle between the two positions. -/

/-- The two conversions of a row: `cpu_kv_load_head`, and the one of a put. Here they lose
nothing. -/
structure ExactRows (F β : Type*) where
  load : KvQuant → ℕ → List (Option β) → ℕ → F
  store : KvQuant → ℕ → (ℕ → F) → ℕ → β
  load_store : ∀ q headDim row, ∀ i < headDim,
    load q headDim ((List.range (kvRowBytes q headDim)).map fun b =>
      some (store q headDim row b)) i = row i

/-- What the tables of a layer are made from: `uses_neox_rope`, `theta_scale`, `rope_freqs`
of a global layer, and the two functions of the C library. -/
structure RopeTurn (F : Type*) where
  neox : Bool
  thetaScale : F
  freqs : Option (ℕ → F)
  cos : F → F
  sin : F → F

variable {F β : Type*} [Field F] [LinearOrder F]

/-- `cpu_kv_rotate_head` -/
def cpuKvRotateHead (neox : Bool) (headDim : ℕ) (cosRow sinRow : ℕ → F) (head : ℕ → F) : ℕ → F :=
  (List.range (headDim / 2)).foldl (fun head j =>
    let i₀ := if neox then j else 2 * j
    let i₁ := if neox then j + headDim / 2 else 2 * j + 1
    let a := head i₀
    let b := head i₁
    Function.update (Function.update head i₀ (a * cosRow j - b * sinRow j)) i₁
      (a * sinRow j + b * cosRow j)) head

namespace RopeTurn

variable (R : RopeTurn F)

local instance tenAtLeastTwo : Nat.AtLeastTwo 10 := inferInstance

def factor (j : ℕ) : F :=
  match R.freqs with
  | none => 1
  | some ff => if 10 ^ 10 ≤ ff j ∨ ff j = 0 then 0 else ff j

/-- The angle of pair `j` for a chunk moved by `delta`. -/
def angle (delta : ℤ) (j : ℕ) : F := delta * R.thetaScale ^ j * R.factor j

/-- One table of `kvcache_shift_tables`; entry `i * half + j` is for pair `j` of chunk `i`. -/
def kvcacheShiftTable (fn : F → F) (half : ℕ) (chunks : List KvShiftChunk) (k : ℕ) : F :=
  (chunks[k / half]?).elim 0 fun c => fn (R.angle ((c.dst : ℤ) - c.src) (k % half))

/-- What `cpu_kv_shift` does to a byte of K and of V in row `i` of the chunks. -/
def shiftTurn (x : ExactRows F β) (headDim : ℕ) (chunks : List KvShiftChunk) : KvTurn (β × β) :=
  fun q i bytes b =>
    let half := headDim / 2
    let kh := x.load q headDim (bytes.map (Option.map Prod.fst))
    let vh := x.load q headDim (bytes.map (Option.map Prod.snd))
    some
      (x.store q headDim
        (cpuKvRotateHead R.neox headDim
          (fun j => R.kvcacheShiftTable R.cos half chunks (i * half + j))
          (fun j => R.kvcacheShiftTable R.sin half chunks (i * half + j)) kh) b,
        x.store q headDim vh b)

end RopeTurn

/-- The rows the second loop of `cpu_kv_shift` gives to `kv_put`. -/
def cpuKvShiftPuts (a : KvArgs) (layer : ℕ) :
    CpuPriv × KvMem β → List (ℕ × (ℕ → ℕ → Option β)) → List (ℕ × (ℕ → ℕ → Option β))
  | _, [] => []
  | s, r :: rs =>
    if r.1 < s.1.kvBasePos layer then cpuKvShiftPuts a layer s rs
    else r :: (cpuKvShiftPut a layer s r).elim [] fun s' => cpuKvShiftPuts a layer s' rs

/-- A layer of a cache that the backend knows of and has room for; only a capped layer is
ever compacted. -/
structure KvShiftLayer where
  priv : CpuPriv
  args : KvArgs
  layer : ℕ
  known : priv.layerCheck layer = true
  fits : cpuKvPutFits priv args layer = true
  compacted : priv.kvBasePos layer = 0 ∨
    (0 < priv.kvPosCap layer ∧ priv.kvPosCap layer < args.nCtx)

namespace KvShiftLayer

variable (L : KvShiftLayer)

def base : ℕ := L.priv.kvBasePos L.layer

def rows : ℕ := L.priv.layerRows L.args L.layer

def width : ℕ := L.priv.rowBytes L.args

/-- The bytes of one head in a slot. -/
def slot (mem : KvMem β) (head slot : ℕ) : List (Option β) :=
  cpuKvLoadHead L.priv mem L.args L.layer head slot

def kRow (x : ExactRows F β) (mem : KvMem (β × β)) (head slot : ℕ) : ℕ → F :=
  x.load L.priv.kvQuant L.args.headDim ((L.slot mem head slot).map (Option.map Prod.fst))

def vRow (x : ExactRows F β) (mem : KvMem (β × β)) (head slot : ℕ) : ℕ → F :=
  x.load L.priv.kvQuant L.args.headDim ((L.slot mem head slot).map (Option.map Prod.snd))

def shift (R : RopeTurn F) (x : ExactRows F β) (mem : KvMem (β × β))
    (chunks : List KvShiftChunk) : Option ((CpuPriv × KvMem (β × β)) × KvOut (β × β)) :=
  cpuKvShift (R.shiftTurn x L.args.headDim chunks) L.priv mem L.args L.layer chunks

/-- The rows it puts, if it gets that far. -/
def shiftPuts (R : RopeTurn F) (x : ExactRows F β) (mem : KvMem (β × β))
    (chunks : List KvShiftChunk) : List (ℕ × (ℕ → ℕ → Option (β × β))) :=
  if L.args.nActive = 0 ∨ L.args.headDim / 2 = 0 then []
  else
    cpuKvShiftPuts L.args L.layer (L.priv, mem)
      (cpuKvShiftRows (R.shiftTurn x L.args.headDim chunks) L.priv mem L.args L.layer chunks)

end KvShiftLayer

end Kappai
