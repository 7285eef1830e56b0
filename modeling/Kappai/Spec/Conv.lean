import Kappai.Lib.Convolution
import Kappai.Lib.Fill

/-! The convolutions of the image decoder: `conv_load` and `conv_forward` on the CPU backend, in exact
arithmetic. -/

namespace Kappai

namespace ConvLayer

open Checked

variable {R E : Type*} [CommRing R]

inductive WeightType
  | f32 | f16 | bf16
deriving DecidableEq

/-- Of `gguf_tensor`. The data are elements of `ggml_row_size(type, 1)` bytes. -/
structure GgufTensor (E : Type*) where
  type : WeightType
  dims : List ℕ
  data : ℕ → E

/-- `conv_layer` -/
structure Layer (R E : Type*) where
  type : WeightType
  w : ℕ → E
  bias : ℕ → R
  ic : ℕ
  oc : ℕ
  k : ℕ

/-- `reorder_conv3x3` -/
def reorderConv3x3 (src : ℕ → E) (ic oc : ℕ) (dst : ℕ → E) : ℕ → E :=
  (List.range oc).foldl (fun dst o =>
    (List.range ic).foldl (fun dst c =>
      (List.range 9).foldl (fun dst p =>
        Function.update dst ((o * 9 + p) * ic + c) (src ((o * ic + c) * 9 + p))) dst) dst) dst

/-- `c->oc` -/
def ocOf (t : GgufTensor E) (rows : ℕ) : ℕ := if rows ≠ 0 then rows else t.dims.getD (t.dims.length - 1) 0

/-- `conv_load`. The memory for the reordered weights holds `fresh`. -/
def convLoad (t : GgufTensor E) (bias : ℕ → R) (rowBegin rows : ℕ) (fresh : ℕ → E) : Layer R E :=
  let ic := t.dims.getD (t.dims.length - 2) 0
  let oc := ocOf t rows
  let k := if t.dims.length = 4 ∧ t.dims.getD 0 0 = 3 then 3 else 1
  let bias := fun i => bias (rowBegin + i)
  if k = 1 then ⟨t.type, fun j => t.data (rowBegin * ic + j), bias, ic, oc, k⟩
  else ⟨t.type, reorderConv3x3 t.data ic oc fresh, bias, ic, oc, k⟩

/-- Of `im2col_desc` -/
structure Im2colDesc where
  firstPixel : ℕ
  nPixels : ℕ
  width : ℕ
  inHeight : ℕ
  inWidth : ℕ
  channels : ℕ
  shift : ℕ

/-- `memcpy` from the input, which ends the program outside of it. -/
def copyIn (inp : List R) (col : ℕ → R) (dst : ℕ) (src : ℤ) (n : ℕ) : Option (ℕ → R) :=
  if 0 ≤ src ∧ src + n ≤ inp.length then
    some (putRange col dst (dst + n) fun i => inp.getD (src.toNat + (i - dst)) 0)
  else none

/-- The turn of `im2col_rows` for a row and a place of the kernel. -/
def im2colPlace (d : Im2colDesc) (inp : List R) (r ky kx : ℕ) (col : ℕ → R) : Option (ℕ → R) :=
  let pixel := d.firstPixel + r
  let y := pixel / d.width
  let x := pixel % d.width
  let dst := (r * 9 + (ky * 3 + kx)) * d.channels
  let sy : ℤ := y + ky - 1
  let sx : ℤ := x + kx - 1
  let iy := sy >>> d.shift
  let ix := sx >>> d.shift
  if sy < 0 ∨ sx < 0 ∨ iy ≥ d.inHeight ∨ ix ≥ d.inWidth then
    some (putRange col dst (dst + d.channels) fun _ => 0)
  else copyIn inp col dst ((iy * d.inWidth + ix) * d.channels) d.channels

/-- `cpu_im2col3x3` -/
def im2col3x3 (d : Im2colDesc) (inp : List R) (col : ℕ → R) : Option (ℕ → R) :=
  forUp d.nPixels (fun r => forUp 3 fun ky => forUp 3 fun kx => im2colPlace d inp r ky kx) col

/-- `matmul_batch` to the rows of `y` from `base` on. -/
def matmulBatch (w x : ℕ → R) (y : ℕ → R) (base n k m : ℕ) : ℕ → R :=
  putRange y base (base + m * n) fun c =>
    ∑ j ∈ Finset.range k, w ((c - base) % n * k + j) * x ((c - base) / n * k + j)

/-- `cpu_add_bias` -/
def addBias (y bias : ℕ → R) (base rows dim : ℕ) : ℕ → R :=
  putRange y base (base + rows * dim) fun c => y c + bias ((c - base) % dim)

/-- `CONV_COL_PIXELS` -/
def colPixels : ℕ := 16384

variable (decode : WeightType → E → R)

/-- A turn of the loop of `conv_forward`, from the pixel `c * CONV_COL_PIXELS` on. -/
def convChunk (l : Layer R E) (inp : List R) (height width shift c : ℕ) (s : (ℕ → R) × (ℕ → R)) :
    Option ((ℕ → R) × (ℕ → R)) :=
  let r := c * colPixels
  let n := min colPixels (height * width - r)
  let d : Im2colDesc := ⟨r, n, width, height / 2 ^ shift, width / 2 ^ shift, l.ic, shift⟩
  (im2col3x3 d inp s.1).bind fun col =>
    let out := matmulBatch (fun j => decode l.type (l.w j)) col s.2 (r * l.oc) l.oc (9 * l.ic) n
    (int32 ((r + colPixels : ℕ) : ℤ)).map fun _ => (col, addBias out l.bias (r * l.oc) n l.oc)

/-- `conv_forward`. A product of sizes that is no `int`, or a pixel that is read outside of the input, ends the
program. -/
def convForward (l : Layer R E) (inp : List R) (col out : ℕ → R) (height width shift : ℕ) : Option (ℕ → R) :=
  (int32 ((height * width : ℕ) : ℤ)).bind fun _ =>
    if l.k = 1 then
      if height * width * l.ic ≤ inp.length then
        let x := fun i => inp.getD i 0
        let out := matmulBatch (fun j => decode l.type (l.w j)) x out 0 l.oc l.ic (height * width)
        some (addBias out l.bias 0 (height * width) l.oc)
      else none
    else
      (int32 ((9 * l.ic : ℕ) : ℤ)).bind fun _ =>
        (forUp ((height * width + (colPixels - 1)) / colPixels) (convChunk decode l inp height width shift)
          (col, out)).map Prod.snd

/-- The dimensions of a convolution with `k` rows and columns. -/
def ConvDims (dims : List ℕ) (k ic oc : ℕ) : Prop :=
  k = 3 ∧ dims = [3, 3, ic, oc] ∨ k = 1 ∧ (dims = [1, 1, ic, oc] ∨ dims = [ic, oc])

/-- The weight of an output channel for an input channel and a place of the kernel. -/
def weightOf (t : GgufTensor E) (k ic o c ky kx : ℕ) : R :=
  decode t.type (t.data (((o * ic + c) * k + ky) * k + kx))

def imageOf (inp : List R) (width ic : ℕ) : DirectConv.Image R := fun y x c => inp.getD ((y * width + x) * ic + c) 0

/-- Every image within the range of an `int` is convolved with the weights and the bias of the channels from
`rowBegin` on, after it has been enlarged, and nothing after the output is written. -/
def Convolves (t : GgufTensor E) (bias : ℕ → R) (k ic rowBegin rows shift : ℕ) : Prop :=
  ∀ (h w : ℕ) (inp : List R) (fresh : ℕ → E) (col out : ℕ → R),
    inp.length = h * w * ic → k * k * ic < 2 ^ 31 → h * 2 ^ shift * (w * 2 ^ shift) + colPixels < 2 ^ 31 →
    ∃ out', convForward decode (convLoad t bias rowBegin rows fresh) inp col out (h * 2 ^ shift) (w * 2 ^ shift)
        shift = some out' ∧
      (∀ y < h * 2 ^ shift, ∀ x < w * 2 ^ shift, ∀ o < ocOf t rows,
        out' ((y * (w * 2 ^ shift) + x) * ocOf t rows + o) =
          DirectConv.conv k ic (h * 2 ^ shift) (w * 2 ^ shift) (weightOf decode t k ic (rowBegin + o))
            (DirectConv.enlarge shift (imageOf inp w ic)) y x + bias (rowBegin + o)) ∧
      ∀ i, h * 2 ^ shift * (w * 2 ^ shift) * ocOf t rows ≤ i → out' i = out i

/-- The output channels from `rowBegin` on have the weights of the first ones. -/
def SameRows (t : GgufTensor E) (ic rowBegin rows : ℕ) : Prop :=
  ∀ o < ocOf t rows, ∀ c < ic, ∀ ky < 3, ∀ kx < 3,
    weightOf decode t 3 ic o c ky kx = weightOf decode t 3 ic (rowBegin + o) c ky kx

end ConvLayer

end Kappai
