import Kappai.Spec.Quants
import Mathlib.Order.Defs.LinearOrder

/-! The input quantised in blocks, and the scalar kernels over the rows of a matrix: tiles of eight rows,
rows one by one, and the IQ types that are dequantised first. -/

namespace Kappai.Quants

open Checked

variable {F : Type} [Field F] (C : Floats F)

/-! ### Quantising the input -/

section Quantize

variable [LinearOrder F]

/-- `fabsf` -/
def fabsf (x : F) : F := if x < 0 then -x else x

/-- A value rounded and kept between -127 and 127. -/
def quantizeValue (x : F) : ℤ :=
  let v := C.roundf x
  let v := if 127 < v then 127 else v
  if v < -127 then -127 else v

/-- `quantize_q8_32block` without the outputs that are `NULL` in `quantize_q8_0`. -/
def quantizeQ8_32block (x : ℕ → F) : Option Q8_0Block := do
  let amax := (List.range 32).foldl (fun amax j => if amax < fabsf (x j) then fabsf (x j) else amax) 0
  let d := amax / (127 : ℤ)
  let id := if 0 < d then 1 / d else 0
  let _ ← forUp 32 (fun j sum => int32 (sum + quantizeValue C (x j * id))) 0
  some ⟨C.f32ToF16 d, fun j => Int8.ofInt (quantizeValue C (x j * id))⟩

/-- `quantize_q8_0` -/
def quantizeQ8_0 (x : ℕ → F) (n : ℕ) (dst : ℕ → Q8_0Block) : Option (ℕ → Q8_0Block) :=
  forUp (n / 32) (fun i dst => do
    let b ← quantizeQ8_32block C fun j => x (i * 32 + j)
    some (Function.update dst i b)) dst

/-- The loops over `bsums` of `quantize_q8_k`. -/
def quantSums (qs : ℕ → Int8) : Option (ℕ → Int16) :=
  forUp 16 (fun j bsums => do
    let sum ← forUp 16 (fun ii sum => int32 (sum + (qs (j * 16 + ii)).toInt)) 0
    some (Function.update bsums j (Int16.ofInt sum))) fun _ => 0

/-- One block of `quantize_q8_k`. -/
def quantizeQ8KBlock (x : ℕ → F) : Option (Q8KBlock F) :=
  let m := (List.range 256).foldl (fun (m : F × F) j =>
    if m.2 < fabsf (x j) then (x j, fabsf (x j)) else m) (0, 0)
  if m.2 = 0 then some ⟨0, fun _ => 0, fun _ => 0⟩
  else do
    let iscale := ((-127 : ℤ) : F) / m.1
    let qs (j : ℕ) : Int8 := Int8.ofInt (quantizeValue C (iscale * x j))
    let bsums ← quantSums qs
    some ⟨1 / iscale, qs, bsums⟩

/-- `quantize_q8_k` -/
def quantizeQ8K (x : ℕ → F) (n : ℕ) (y : ℕ → Q8KBlock F) : Option (ℕ → Q8KBlock F) :=
  forUp (n / 256) (fun i y => do
    let b ← quantizeQ8KBlock C fun j => x (i * 256 + j)
    some (Function.update y i b)) y

end Quantize

/-! ### Rows -/

/-- The dot product of a block of a row, added to what there is: row, block, `acc`. -/
abbrev BlockDot (F : Type) := ℕ → ℕ → F → Option F

section Rows

variable (dot : BlockDot F) (bpr : ℕ)

/-- The rows from `i` on, one after the other. -/
def singleRows (i n : ℕ) (y : ℕ → F) (out : ℕ) : Option (ℕ → F) :=
  forFrom i n (fun i y => do
    let sumf ← forUp bpr (dot i) 0
    some (Function.update y (out + i) sumf)) y

/-- One block of each of the eight rows of a tile. -/
def tileStep (i bi : ℕ) (sumf : ℕ → F) : Option (ℕ → F) :=
  forUp 8 (fun r sumf => do
    let s ← dot (i + r) bi (sumf r)
    some (Function.update sumf r s)) sumf

/-- The sums of a tile. -/
def tileSums (i : ℕ) : Option (ℕ → F) := forUp bpr (tileStep dot i) fun _ => 0

/-- The sums of a tile, `MATMUL_K_BLOCK` blocks at a time. -/
def tileSumsBlocked (i : ℕ) : Option (ℕ → F) :=
  forUp ((bpr + 63) / 64) (fun c =>
    forFrom (c * 64) (if c * 64 + 64 < bpr then c * 64 + 64 else bpr) (tileStep dot i)) fun _ => 0

/-- Tiles of `MATMUL_MR` rows, and the rows that are left. -/
def tiledRows (tile : ℕ → Option (ℕ → F)) (n : ℕ) (y : ℕ → F) (out : ℕ) : Option (ℕ → F) := do
  let y ← forUp (n / 8) (fun t y => do
    let sumf ← tile (t * 8)
    some ((List.range 8).foldl (fun y r => Function.update y (out + (t * 8 + r)) (sumf r)) y)) y
  singleRows dot bpr (n / 8 * 8) n y out

end Rows

/-! ### The kernels -/

section Q8_0

variable (w : Bytes) (xq : ℕ → Q8_0Block) (n k : ℕ) (y : ℕ → F) (out : ℕ)

/-- The dot products of the rows of a matrix whose blocks have `size` bytes. -/
def dotQ8_0 (size : ℕ) (dot : Bytes → (ℕ → Int8) → F → F → Option F) : BlockDot F :=
  fun i bi acc =>
    dot ((w.after (i * (k / 32 * size))).after (bi * size)) (xq bi).qs (C.f16ToF32 (xq bi).d) acc

/-- A row function of a type with blocks of 32. -/
def q8QonlyRow (size : ℕ) (dot : Bytes → (ℕ → Int8) → F → F → Option F) : Option (ℕ → F) :=
  tiledRows (dotQ8_0 C w xq k size dot) (k / 32) (tileSumsBlocked (dotQ8_0 C w xq k size dot) (k / 32)) n y out

/-- `matmul_q4_q8_qonly_f32_row` -/
def matmulQ4Q8QonlyF32Row : Option (ℕ → F) := q8QonlyRow C w xq n k y out 18 fun p => q4_0Dot C (.read p)

/-- `matmul_q5_0_q8_qonly_f32_row` -/
def matmulQ5_0Q8QonlyF32Row : Option (ℕ → F) := q8QonlyRow C w xq n k y out 22 fun p => q5_0Dot C (.read p)

/-- `matmul_q8_0_q8_qonly_f32_row` -/
def matmulQ8_0Q8QonlyF32Row : Option (ℕ → F) := q8QonlyRow C w xq n k y out 34 fun p => q8_0Dot C (.read p)

/-- `matmul_iq4_nl_q8_qonly_f32_row` -/
def matmulIq4NlQ8QonlyF32Row : Option (ℕ → F) := q8QonlyRow C w xq n k y out 18 fun p => iq4NlDot C (.read p)

end Q8_0

section Q8K

variable (w : Bytes) (xq : ℕ → Q8KBlock F) (n k : ℕ) (y : ℕ → F) (out : ℕ)

/-- The dot products of the rows of a matrix whose blocks have `size` bytes. -/
def dotQ8K (size : ℕ) (dot : Bytes → Q8KBlock F → F → Option F) : BlockDot F :=
  fun i bi acc => dot ((w.after (i * (k / 256 * size))).after (bi * size)) (xq bi) acc

/-- A row function of a type with blocks of 256. -/
def q8KQonlyRow (size : ℕ) (dot : Bytes → Q8KBlock F → F → Option F) : Option (ℕ → F) :=
  tiledRows (dotQ8K w xq k size dot) (k / 256) (tileSums (dotQ8K w xq k size dot) (k / 256)) n y out

/-- `matmul_q4_k_q8_k_qonly_f32_row` -/
def matmulQ4KQ8KQonlyF32Row : Option (ℕ → F) := q8KQonlyRow w xq n k y out 144 fun p => q4KDot C (.read p)

/-- `matmul_q5_k_q8_k_qonly_f32_row` -/
def matmulQ5KQ8KQonlyF32Row : Option (ℕ → F) := q8KQonlyRow w xq n k y out 176 fun p => q5KDot C (.read p)

/-- `matmul_q6_k_q8_qonly_f32_row` -/
def matmulQ6KQ8QonlyF32Row (qUnpack : ℕ → Int8) : Option (ℕ → F) :=
  q8KQonlyRow w xq n k y out 210 fun p xb => q6KDot C (.read p) xb.qs xb.d qUnpack

/-- `matmul_iq3_s_q8_k_qonly_f32_row` -/
def matmulIq3SQ8KQonlyF32Row (a : ℕ → Int8) : Option (ℕ → F) :=
  singleRows (dotQ8K w xq k 110 fun p yb => iq3SDot C (.read p) yb a) (k / 256) 0 n y out

end Q8K

/-! ### The IQ types that are dequantised first -/

section Iq

variable (T : IqTables) (blocks : Bytes) (nBlocks : ℕ) (dst : ℕ → F)

/-- `(signs & kmask_iq2xs[j]) ? -1.0f : 1.0f` -/
def iqSign (signs j : ℕ) : F := if signs &&& kmaskIq2xs j ≠ 0 then -1 else 1

/-- `0.5f` -/
def half : F := 1 / (1 + 1)

/-- `dequant_iq2_xxs_row` -/
def dequantIq2XxsRow : ℕ → F :=
  (List.range nBlocks).foldl (fun dst bi =>
    let b := blocks.after (bi * 66)
    (List.range 8).foldl (fun dst ib32 =>
      let aux8 := b.after (2 + 8 * ib32)
      let aux1 := aux8.u32 4
      let db := C.f16ToF32 (b.u16 0) * (half + (aux1 >>> 28 : ℕ)) * (half * half)
      (List.range 4).foldl (fun dst l =>
        let signs := T.ksignsIq2xs ((aux1 >>> (7 * l)) &&& 127)
        (List.range 8).foldl (fun dst j =>
          Function.update dst (bi * 256 + ib32 * 32 + l * 8 + j)
            (db * (T.iq2xxsGrid (aux8 l).toNat j : F) * iqSign signs j)) dst) dst) dst) dst

/-- `dequant_iq3_xxs_row` -/
def dequantIq3XxsRow : ℕ → F :=
  (List.range nBlocks).foldl (fun dst bi =>
    let b := blocks.after (bi * 98)
    (List.range 8).foldl (fun dst ib32 =>
      let qs := b.after (2 + 8 * ib32)
      let aux32 := b.u32 (2 + 64 + 4 * ib32)
      let db := C.f16ToF32 (b.u16 0) * (half + (aux32 >>> 28 : ℕ)) * half
      (List.range 4).foldl (fun dst l =>
        let signs := T.ksignsIq2xs ((aux32 >>> (7 * l)) &&& 127)
        (List.range 4).foldl (fun dst j =>
          Function.update
            (Function.update dst (bi * 256 + ib32 * 32 + l * 8 + j)
              (db * (T.iq3xxsGrid (qs (2 * l)).toNat j : F) * iqSign signs j))
            (bi * 256 + ib32 * 32 + l * 8 + j + 4)
              (db * (T.iq3xxsGrid (qs (2 * l + 1)).toNat j : F) * iqSign signs (j + 4))) dst) dst) dst) dst

/-- `dequant_iq2_s_row` -/
def dequantIq2SRow : ℕ → F :=
  (List.range nBlocks).foldl (fun dst bi =>
    let b := blocks.after (bi * 82)
    (List.range 8).foldl (fun dst ib32 =>
      let qs := b.after (2 + 4 * ib32)
      let signs := b.after (2 + 32 + 4 * ib32)
      let qh := (b (66 + ib32)).toNat
      let scale := b (74 + ib32)
      let db (half' : ℕ) : F := C.f16ToF32 (b.u16 0) * (half + (half' : F)) * (half * half)
      (List.range 4).foldl (fun dst l =>
        let dl := if l / 2 = 0 then db (low scale) else db (high scale)
        let grid := T.iq2sGrid ((qs l).toNat ||| ((qh <<< (8 - 2 * l)) &&& 768))
        (List.range 8).foldl (fun dst j =>
          Function.update dst (bi * 256 + ib32 * 32 + l * 8 + j)
            (dl * (grid j : F) * iqSign (signs l).toNat j)) dst) dst) dst) dst

/-- `dequant_iq4_xs_row` -/
def dequantIq4XsRow : ℕ → F :=
  (List.range nBlocks).foldl (fun dst bi =>
    let b := blocks.after (bi * 136)
    (List.range 8).foldl (fun dst ib =>
      let sl := ((b (4 + ib / 2)).toNat >>> (4 * (ib % 2))) &&& 15
      let sh := ((b.u16 2).toNat >>> (2 * ib)) &&& 3
      let dl := C.f16ToF32 (b.u16 0) * (((sl ||| (sh <<< 4) : ℕ) - 32 : ℤ) : F)
      let qs := b.after (8 + 16 * ib)
      (List.range 16).foldl (fun dst j =>
        Function.update
          (Function.update dst (bi * 256 + ib * 32 + j) (dl * (kvaluesIq4nl (low (qs j)) : F)))
          (bi * 256 + ib * 32 + j + 16) (dl * (kvaluesIq4nl (high (qs j)) : F))) dst) dst) dst

end Iq

/-- `iq_qonly_via_dequant`, for a type with rows of `wb` bytes that `dq` dequantises. The buffers begin
with anything; `xs` and `ys` are the distances of two inputs and of two outputs, and the first output is
at `y + out`. -/
def iqQonlyViaDequant (dq : Bytes → ℕ → (ℕ → F) → ℕ → F) (wb : ℕ) (w : Bytes) (xq : ℕ → Q8KBlock F)
    (xs : ℕ) (y : ℕ → F) (out ys n k m : ℕ) (xf wf : ℕ → F) : ℕ → F :=
  ((List.range m).foldl (fun (s : (ℕ → F) × (ℕ → F) × (ℕ → F)) t =>
    let xf := (List.range (k / 256)).foldl (fun xf bi => (List.range 256).foldl (fun xf j =>
      Function.update xf (bi * 256 + j) ((xq (t * xs + bi)).d * (((xq (t * xs + bi)).qs j).toInt : F))) xf) s.2.1
    (List.range n).foldl (fun s i =>
      let wf := dq (w.after (i * wb)) (k / 256) s.2.2
      let acc := (List.range k).foldl (fun acc j => acc + wf j * xf j) 0
      (Function.update s.1 (out + (t * ys + i)) acc, xf, wf)) (s.1, xf, s.2.2)) (y, xf, wf)).1

/-! ### Types of weights -/

/-- The types whose input is quantised by `quantize_q8_0`. -/
inductive Q8_0Weight
  | q4_0 | q5_0 | q8_0 | iq4Nl
deriving DecidableEq, Repr

namespace Q8_0Weight

/-- The size of a block. -/
def size : Q8_0Weight → ℕ
  | q4_0 | iq4Nl => 18
  | q5_0 => 22
  | q8_0 => 34

def dequantRow : Q8_0Weight → Bytes → ℕ → (ℕ → F) → ℕ → F
  | q4_0 => dequantQ4_0Row C
  | q5_0 => dequantQ5_0Row C
  | q8_0 => dequantQ8_0Row C
  | iq4Nl => dequantIq4NlRow C

/-- The kernel for one input. -/
def kernel : Q8_0Weight → Bytes → (ℕ → Q8_0Block) → ℕ → ℕ → (ℕ → F) → ℕ → Option (ℕ → F)
  | q4_0 => matmulQ4Q8QonlyF32Row C
  | q5_0 => matmulQ5_0Q8QonlyF32Row C
  | q8_0 => matmulQ8_0Q8QonlyF32Row C
  | iq4Nl => matmulIq4NlQ8QonlyF32Row C

end Q8_0Weight

/-- The types whose input is quantised by `quantize_q8_k`. -/
inductive Q8KWeight
  | q4K | q5K | q6K | iq3S | iq2Xxs | iq2S | iq3Xxs | iq4Xs
deriving DecidableEq, Repr

/-- The buffers of the kernels, before they are written. -/
structure Scratch (F : Type) where
  unpacked : ℕ → Int8
  xf : ℕ → F
  wf : ℕ → F

namespace Q8KWeight

/-- The size of a block. -/
def size : Q8KWeight → ℕ
  | q4K => 144
  | q5K => 176
  | q6K => 210
  | iq3S => 110
  | iq2Xxs => 66
  | iq2S => 82
  | iq3Xxs => 98
  | iq4Xs => 136

def dequantRow (T : IqTables) : Q8KWeight → Bytes → ℕ → (ℕ → F) → ℕ → F
  | q4K => dequantQ4KRow C
  | q5K => dequantQ5KRow C
  | q6K => dequantQ6KRow C
  | iq3S => dequantIq3SRow C
  | iq2Xxs => dequantIq2XxsRow C T
  | iq2S => dequantIq2SRow C T
  | iq3Xxs => dequantIq3XxsRow C T
  | iq4Xs => dequantIq4XsRow C

/-- The kernel for one input. -/
def kernel (T : IqTables) (S : Scratch F) (t : Q8KWeight) (w : Bytes) (xq : ℕ → Q8KBlock F) (n k : ℕ)
    (y : ℕ → F) (out : ℕ) : Option (ℕ → F) :=
  match t with
  | q4K => matmulQ4KQ8KQonlyF32Row C w xq n k y out
  | q5K => matmulQ5KQ8KQonlyF32Row C w xq n k y out
  | q6K => matmulQ6KQ8QonlyF32Row C w xq n k y out S.unpacked
  | iq3S => matmulIq3SQ8KQonlyF32Row C w xq n k y out S.unpacked
  | t => some (iqQonlyViaDequant (t.dequantRow C T) ((k + 255) / 256 * t.size) w xq (k / 256) y out n n k 1
      S.xf S.wf)

end Q8KWeight

end Kappai.Quants
