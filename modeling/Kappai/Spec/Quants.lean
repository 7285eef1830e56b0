import Kappai.Lib.Loop
import Mathlib.Algebra.Field.Defs
import Mathlib.Data.Int.Cast.Defs
import Mathlib.Algebra.Order.Group.Unbundled.Abs

/-! Blocks of quantised weights and of quantised input, how a row of weights is dequantised, and the
scalar kernels for the dot product of the two. Floats are exact numbers, and an integer that leaves 32
bits ends the program. -/

namespace Kappai.Quants

open Checked

/-- What a pointer to bytes leads to. -/
abbrev Bytes := ℕ → UInt8

namespace Bytes

variable (p : Bytes) (n : ℕ)

/-- `p + n` -/
def after : Bytes := fun i => p (n + i)

/-- The `uint16_t` at `p + n`. -/
def u16 : UInt16 := (p n).toUInt16 ||| ((p (n + 1)).toUInt16 <<< 8)

/-- The `uint32_t` at `p + n`. -/
def u32 : ℕ := (p n).toNat + 256 * (p (n + 1)).toNat + 65536 * (p (n + 2)).toNat + 16777216 * (p (n + 3)).toNat

/-- The `int8_t` cells from `p + n` on. -/
def i8 : ℕ → Int8 := fun i => (p (n + i)).toInt8

end Bytes

/-- `b & 0xF` -/
def low (b : UInt8) : ℕ := b.toNat &&& 15

/-- `b >> 4` -/
def high (b : UInt8) : ℕ := b.toNat >>> 4

/-- `(int8_t)x` -/
def int8 (x : ℤ) : ℤ := (Int8.ofInt x).toInt

/-! ### Blocks -/

/-- `q4_0_block` and `iq4_nl_block`, 18 bytes. -/
structure Q4_0Block where
  d : UInt16
  qs : Bytes

def Q4_0Block.read (p : Bytes) : Q4_0Block := ⟨p.u16 0, p.after 2⟩

/-- `q5_0_block`, 22 bytes; `qh` as the kernels copy it. -/
structure Q5_0Block where
  d : UInt16
  qh : ℕ
  qs : Bytes

def Q5_0Block.read (p : Bytes) : Q5_0Block := ⟨p.u16 0, p.u32 2, p.after 6⟩

/-- `q8_0_block`, 34 bytes. -/
structure Q8_0Block where
  d : UInt16
  qs : ℕ → Int8

def Q8_0Block.read (p : Bytes) : Q8_0Block := ⟨p.u16 0, p.i8 2⟩

/-- `q4_k_block`, 144 bytes. -/
structure Q4KBlock where
  d : UInt16
  dmin : UInt16
  scales : Bytes
  qs : Bytes

def Q4KBlock.read (p : Bytes) : Q4KBlock := ⟨p.u16 0, p.u16 2, p.after 4, p.after 16⟩

/-- `q5_k_block`, 176 bytes. -/
structure Q5KBlock where
  d : UInt16
  dmin : UInt16
  scales : Bytes
  qh : Bytes
  qs : Bytes

def Q5KBlock.read (p : Bytes) : Q5KBlock := ⟨p.u16 0, p.u16 2, p.after 4, p.after 16, p.after 48⟩

/-- `q6_k_block`, 210 bytes. -/
structure Q6KBlock where
  ql : Bytes
  qh : Bytes
  scales : ℕ → Int8
  d : UInt16

def Q6KBlock.read (p : Bytes) : Q6KBlock := ⟨p, p.after 128, p.i8 192, p.u16 208⟩

/-- `iq3_s_block`, 110 bytes. -/
structure Iq3SBlock where
  d : UInt16
  qs : Bytes
  qh : Bytes
  signs : Bytes
  scales : Bytes

def Iq3SBlock.read (p : Bytes) : Iq3SBlock := ⟨p.u16 0, p.after 2, p.after 66, p.after 74, p.after 106⟩

/-- `q8_k_block` -/
structure Q8KBlock (F : Type) where
  d : F
  qs : ℕ → Int8
  bsums : ℕ → Int16

/-! ### Tables -/

def kvaluesIq4nl (i : ℕ) : ℤ :=
  [-127, -104, -83, -65, -49, -35, -22, -10, 1, 13, 25, 38, 53, 69, 89, 113].getD i 0

def kmaskIq2xs (j : ℕ) : ℕ := [1, 2, 4, 8, 16, 32, 64, 128].getD j 0

/-- `ggml_iq3s_grid` -/
def ggmlIq3sGrid : List ℕ := [
  0x01010101, 0x01010103, 0x01010105, 0x0101010b, 0x0101010f, 0x01010301, 0x01010303, 0x01010305,
  0x01010309, 0x0101030d, 0x01010501, 0x01010503, 0x0101050b, 0x01010707, 0x01010901, 0x01010905,
  0x0101090b, 0x0101090f, 0x01010b03, 0x01010b07, 0x01010d01, 0x01010d05, 0x01010f03, 0x01010f09,
  0x01010f0f, 0x01030101, 0x01030103, 0x01030105, 0x01030109, 0x01030301, 0x01030303, 0x0103030b,
  0x01030501, 0x01030507, 0x0103050f, 0x01030703, 0x0103070b, 0x01030909, 0x01030d03, 0x01030d0b,
  0x01030f05, 0x01050101, 0x01050103, 0x0105010b, 0x0105010f, 0x01050301, 0x01050307, 0x0105030d,
  0x01050503, 0x0105050b, 0x01050701, 0x01050709, 0x01050905, 0x0105090b, 0x0105090f, 0x01050b03,
  0x01050b07, 0x01050f01, 0x01050f07, 0x01070107, 0x01070303, 0x0107030b, 0x01070501, 0x01070505,
  0x01070703, 0x01070707, 0x0107070d, 0x01070909, 0x01070b01, 0x01070b05, 0x01070d0f, 0x01070f03,
  0x01070f0b, 0x01090101, 0x01090307, 0x0109030f, 0x01090503, 0x01090509, 0x01090705, 0x01090901,
  0x01090907, 0x01090b03, 0x01090f01, 0x010b0105, 0x010b0109, 0x010b0501, 0x010b0505, 0x010b050d,
  0x010b0707, 0x010b0903, 0x010b090b, 0x010b090f, 0x010b0d0d, 0x010b0f07, 0x010d010d, 0x010d0303,
  0x010d0307, 0x010d0703, 0x010d0b05, 0x010d0f03, 0x010f0101, 0x010f0105, 0x010f0109, 0x010f0501,
  0x010f0505, 0x010f050d, 0x010f0707, 0x010f0b01, 0x010f0b09, 0x03010101, 0x03010103, 0x03010105,
  0x03010109, 0x03010301, 0x03010303, 0x03010307, 0x0301030b, 0x0301030f, 0x03010501, 0x03010505,
  0x03010703, 0x03010709, 0x0301070d, 0x03010b09, 0x03010b0d, 0x03010d03, 0x03010f05, 0x03030101,
  0x03030103, 0x03030107, 0x0303010d, 0x03030301, 0x03030309, 0x03030503, 0x03030701, 0x03030707,
  0x03030903, 0x03030b01, 0x03030b05, 0x03030f01, 0x03030f0d, 0x03050101, 0x03050305, 0x0305030b,
  0x0305030f, 0x03050501, 0x03050509, 0x03050705, 0x03050901, 0x03050907, 0x03050b0b, 0x03050d01,
  0x03050f05, 0x03070103, 0x03070109, 0x0307010f, 0x03070301, 0x03070307, 0x03070503, 0x0307050f,
  0x03070701, 0x03070709, 0x03070903, 0x03070d05, 0x03070f01, 0x03090107, 0x0309010b, 0x03090305,
  0x03090309, 0x03090703, 0x03090707, 0x03090905, 0x0309090d, 0x03090b01, 0x03090b09, 0x030b0103,
  0x030b0301, 0x030b0307, 0x030b0503, 0x030b0701, 0x030b0705, 0x030b0b03, 0x030d0501, 0x030d0509,
  0x030d050f, 0x030d0909, 0x030d090d, 0x030f0103, 0x030f0107, 0x030f0301, 0x030f0305, 0x030f0503,
  0x030f070b, 0x030f0903, 0x030f0d05, 0x030f0f01, 0x05010101, 0x05010103, 0x05010107, 0x0501010b,
  0x0501010f, 0x05010301, 0x05010305, 0x05010309, 0x0501030d, 0x05010503, 0x05010507, 0x0501050f,
  0x05010701, 0x05010705, 0x05010903, 0x05010907, 0x0501090b, 0x05010b01, 0x05010b05, 0x05010d0f,
  0x05010f01, 0x05010f07, 0x05010f0b, 0x05030101, 0x05030105, 0x05030301, 0x05030307, 0x0503030f,
  0x05030505, 0x0503050b, 0x05030703, 0x05030709, 0x05030905, 0x05030b03, 0x05050103, 0x05050109,
  0x0505010f, 0x05050503, 0x05050507, 0x05050701, 0x0505070f, 0x05050903, 0x05050b07, 0x05050b0f,
  0x05050f03, 0x05050f09, 0x05070101, 0x05070105, 0x0507010b, 0x05070303, 0x05070505, 0x05070509,
  0x05070703, 0x05070707, 0x05070905, 0x05070b01, 0x05070d0d, 0x05090103, 0x0509010f, 0x05090501,
  0x05090507, 0x05090705, 0x0509070b, 0x05090903, 0x05090f05, 0x05090f0b, 0x050b0109, 0x050b0303,
  0x050b0505, 0x050b070f, 0x050b0901, 0x050b0b07, 0x050b0f01, 0x050d0101, 0x050d0105, 0x050d010f,
  0x050d0503, 0x050d0b0b, 0x050d0d03, 0x050f010b, 0x050f0303, 0x050f050d, 0x050f0701, 0x050f0907,
  0x050f0b01, 0x07010105, 0x07010303, 0x07010307, 0x0701030b, 0x0701030f, 0x07010505, 0x07010703,
  0x07010707, 0x0701070b, 0x07010905, 0x07010909, 0x0701090f, 0x07010b03, 0x07010d07, 0x07010f03,
  0x07030103, 0x07030107, 0x0703010b, 0x07030309, 0x07030503, 0x07030507, 0x07030901, 0x07030d01,
  0x07030f05, 0x07030f0d, 0x07050101, 0x07050305, 0x07050501, 0x07050705, 0x07050709, 0x07050b01,
  0x07070103, 0x07070301, 0x07070309, 0x07070503, 0x07070507, 0x0707050f, 0x07070701, 0x07070903,
  0x07070907, 0x0707090f, 0x07070b0b, 0x07070f07, 0x07090107, 0x07090303, 0x0709030d, 0x07090505,
  0x07090703, 0x07090b05, 0x07090d01, 0x07090d09, 0x070b0103, 0x070b0301, 0x070b0305, 0x070b050b,
  0x070b0705, 0x070b0909, 0x070b0b0d, 0x070b0f07, 0x070d030d, 0x070d0903, 0x070f0103, 0x070f0107,
  0x070f0501, 0x070f0505, 0x070f070b, 0x09010101, 0x09010109, 0x09010305, 0x09010501, 0x09010509,
  0x0901050f, 0x09010705, 0x09010903, 0x09010b01, 0x09010f01, 0x09030105, 0x0903010f, 0x09030303,
  0x09030307, 0x09030505, 0x09030701, 0x0903070b, 0x09030907, 0x09030b03, 0x09030b0b, 0x09050103,
  0x09050107, 0x09050301, 0x0905030b, 0x09050503, 0x09050707, 0x09050901, 0x09050b0f, 0x09050d05,
  0x09050f01, 0x09070109, 0x09070303, 0x09070307, 0x09070501, 0x09070505, 0x09070703, 0x0907070b,
  0x09090101, 0x09090105, 0x09090509, 0x0909070f, 0x09090901, 0x09090f03, 0x090b010b, 0x090b010f,
  0x090b0503, 0x090b0d05, 0x090d0307, 0x090d0709, 0x090d0d01, 0x090f0301, 0x090f030b, 0x090f0701,
  0x090f0907, 0x090f0b03, 0x0b010105, 0x0b010301, 0x0b010309, 0x0b010505, 0x0b010901, 0x0b010909,
  0x0b01090f, 0x0b010b05, 0x0b010d0d, 0x0b010f09, 0x0b030103, 0x0b030107, 0x0b03010b, 0x0b030305,
  0x0b030503, 0x0b030705, 0x0b030f05, 0x0b050101, 0x0b050303, 0x0b050507, 0x0b050701, 0x0b05070d,
  0x0b050b07, 0x0b070105, 0x0b07010f, 0x0b070301, 0x0b07050f, 0x0b070909, 0x0b070b03, 0x0b070d0b,
  0x0b070f07, 0x0b090103, 0x0b090109, 0x0b090501, 0x0b090705, 0x0b09090d, 0x0b0b0305, 0x0b0b050d,
  0x0b0b0b03, 0x0b0b0b07, 0x0b0d0905, 0x0b0f0105, 0x0b0f0109, 0x0b0f0505, 0x0d010303, 0x0d010307,
  0x0d01030b, 0x0d010703, 0x0d010707, 0x0d010d01, 0x0d030101, 0x0d030501, 0x0d03050f, 0x0d030d09,
  0x0d050305, 0x0d050709, 0x0d050905, 0x0d050b0b, 0x0d050d05, 0x0d050f01, 0x0d070101, 0x0d070309,
  0x0d070503, 0x0d070901, 0x0d09050b, 0x0d090907, 0x0d090d05, 0x0d0b0101, 0x0d0b0107, 0x0d0b0709,
  0x0d0b0d01, 0x0d0d010b, 0x0d0d0901, 0x0d0f0303, 0x0d0f0307, 0x0f010101, 0x0f010109, 0x0f01010f,
  0x0f010501, 0x0f010505, 0x0f01070d, 0x0f010901, 0x0f010b09, 0x0f010d05, 0x0f030105, 0x0f030303,
  0x0f030509, 0x0f030907, 0x0f03090b, 0x0f050103, 0x0f050109, 0x0f050301, 0x0f05030d, 0x0f050503,
  0x0f050701, 0x0f050b03, 0x0f070105, 0x0f070705, 0x0f07070b, 0x0f070b07, 0x0f090103, 0x0f09010b,
  0x0f090307, 0x0f090501, 0x0f090b01, 0x0f0b0505, 0x0f0b0905, 0x0f0d0105, 0x0f0d0703, 0x0f0f0101]

/-- Byte `j` of entry `i` of `ggml_iq3s_grid`. -/
def iq3sGrid (i j : ℕ) : ℕ := (ggmlIq3sGrid.getD i 0 >>> (8 * j)) % 256

/-- The grids and signs of the other IQ types, their entries taken apart into bytes. -/
structure IqTables where
  iq2xxsGrid : ℕ → ℕ → ℕ
  iq2sGrid : ℕ → ℕ → ℕ
  iq3xxsGrid : ℕ → ℕ → ℕ
  ksignsIq2xs : ℕ → ℕ

/-- `get_scale_min_k4`: `d` and `m`. -/
def getScaleMinK4 (j : ℕ) (q : Bytes) : ℕ × ℕ :=
  if j < 4 then ((q j).toNat &&& 63, (q (j + 4)).toNat &&& 63)
  else (low (q (j + 4)) ||| ((q (j - 4)).toNat >>> 6) <<< 4, high (q (j + 4)) ||| ((q j).toNat >>> 6) <<< 4)

/-- What the kernels use of the floats. -/
structure Floats (F : Type) where
  f16ToF32 : UInt16 → F
  f32ToF16 : F → UInt16
  /-- `(int)roundf(x)` -/
  roundf : F → ℤ

section Kernels

variable {F : Type} [Field F] (C : Floats F)

/-! ### Dot products of one block -/

/-- Two sums of 16 products: the low halves and the high halves of the bytes. -/
def halvesDot (lo hi : ℕ → ℤ) (d : UInt16) (xq8 : ℕ → Int8) (dXq acc : F) : Option F := do
  let sumi ← forUp 16 (fun j s => do
    let sumi0 ← mac s.1 (lo j) (xq8 j).toInt
    let sumi1 ← mac s.2 (hi j) (xq8 (j + 16)).toInt
    some (sumi0, sumi1)) (0, 0)
  let sum ← int32 (sumi.1 + sumi.2)
  some (C.f16ToF32 d * dXq * (sum : F) + acc)

/-- `q4_0_dot` -/
def q4_0Dot (blk : Q4_0Block) : (ℕ → Int8) → F → F → Option F :=
  halvesDot C (fun j => (low (blk.qs j) : ℤ) - 8) (fun j => (high (blk.qs j) : ℤ) - 8) blk.d

/-- `iq4_nl_dot` -/
def iq4NlDot (blk : Q4_0Block) : (ℕ → Int8) → F → F → Option F :=
  halvesDot C (fun j => kvaluesIq4nl (low (blk.qs j))) (fun j => kvaluesIq4nl (high (blk.qs j))) blk.d

/-- `lo` of `q5_0_dot` and of `dequant_q5_0_row`. -/
def Q5_0Block.lo (blk : Q5_0Block) (j : ℕ) : ℕ := low (blk.qs j) ||| ((blk.qh >>> j) &&& 1) <<< 4

/-- `hi` of `q5_0_dot` and of `dequant_q5_0_row`. -/
def Q5_0Block.hi (blk : Q5_0Block) (j : ℕ) : ℕ := high (blk.qs j) ||| ((blk.qh >>> (j + 16)) &&& 1) <<< 4

/-- `q5_0_dot` -/
def q5_0Dot (blk : Q5_0Block) : (ℕ → Int8) → F → F → Option F :=
  halvesDot C (fun j => (blk.lo j : ℤ) - 16) (fun j => (blk.hi j : ℤ) - 16) blk.d

/-- `q8_0_dot` -/
def q8_0Dot (blk : Q8_0Block) (xq8 : ℕ → Int8) (dXq acc : F) : Option F := do
  let sumi ← forUp 32 (fun j s => mac s (blk.qs j).toInt (xq8 j).toInt) 0
  some (C.f16ToF32 blk.d * dXq * (sumi : F) + acc)

/-- The sums of `q4_k_dot` and `q5_k_dot`, `sumi` and `summ`. -/
def kSums (lo hi : ℕ → ℕ → ℕ) (scales : Bytes) (xq8 : ℕ → Int8) (bs : ℕ → Int16) : Option (ℤ × ℤ) :=
  forUp 4 (fun g s => do
    let dot ← forUp 32 (fun l dot => do
      let dot0 ← mac dot.1 (lo g l) (xq8 (g * 64 + l)).toInt
      let dot1 ← mac dot.2 (hi g l) (xq8 (g * 64 + 32 + l)).toInt
      some (dot0, dot1)) (0, 0)
    let p0 ← int32 ((getScaleMinK4 (2 * g) scales).1 * dot.1)
    let p1 ← int32 ((getScaleMinK4 (2 * g + 1) scales).1 * dot.2)
    let p ← int32 (p0 + p1)
    let sumi ← int32 (s.1 + p)
    let summ0 ← mac s.2 (getScaleMinK4 (2 * g) scales).2 ((bs (4 * g)).toInt + (bs (4 * g + 1)).toInt)
    let summ1 ← mac summ0 (getScaleMinK4 (2 * g + 1) scales).2
      ((bs (4 * g + 2)).toInt + (bs (4 * g + 3)).toInt)
    some (sumi, summ1)) (0, 0)

/-- The quants of `q4_k_dot`, in the low and in the high half of the bytes. -/
def Q4KBlock.lo (blk : Q4KBlock) (g l : ℕ) : ℕ := low (blk.qs (g * 32 + l))

def Q4KBlock.hi (blk : Q4KBlock) (g l : ℕ) : ℕ := high (blk.qs (g * 32 + l))

/-- `q4_k_dot` -/
def q4KDot (blk : Q4KBlock) (xb : Q8KBlock F) (acc : F) : Option F := do
  let s ← kSums blk.lo blk.hi blk.scales xb.qs xb.bsums
  some (xb.d * (C.f16ToF32 blk.d * (s.1 : F) - C.f16ToF32 blk.dmin * (s.2 : F)) + acc)

/-- The quants of `q5_k_dot`; `u1` and `u2` are `uint8_t`. -/
def Q5KBlock.lo (blk : Q5KBlock) (g l : ℕ) : ℕ :=
  low (blk.qs (g * 32 + l)) + if (blk.qh l).toNat &&& ((1 <<< (2 * g)) % 256) ≠ 0 then 16 else 0

def Q5KBlock.hi (blk : Q5KBlock) (g l : ℕ) : ℕ :=
  high (blk.qs (g * 32 + l)) + if (blk.qh l).toNat &&& ((2 <<< (2 * g)) % 256) ≠ 0 then 16 else 0

/-- `q5_k_dot` -/
def q5KDot (blk : Q5KBlock) (xb : Q8KBlock F) (acc : F) : Option F := do
  let s ← kSums blk.lo blk.hi blk.scales xb.qs xb.bsums
  some (xb.d * (C.f16ToF32 blk.d * (s.1 : F) - C.f16ToF32 blk.dmin * (s.2 : F)) + acc)

/-- The value of a quant of `q6_k_dot`. -/
def q6Quant (lo two : ℕ) : ℤ := int8 (lo ||| (two <<< 4) : ℕ) - 32

/-- The loops over the quants of a `Q6_K` block: turn `l` of half `it` has four of them. -/
def quarterLoops {α : Type} (base : ℕ → ℕ) (v₀ v₁ v₂ v₃ : ℕ → ℕ → α) (a : ℕ → α) : ℕ → α :=
  (List.range 2).foldl (fun a it => (List.range 32).foldl (fun a l =>
    let a := Function.update a (base it + l) (v₀ it l)
    let a := Function.update a (base it + l + 32) (v₁ it l)
    let a := Function.update a (base it + l + 64) (v₂ it l)
    Function.update a (base it + l + 96) (v₃ it l)) a) a

/-- Two high bits of a quant, `(qh[l] >> shift) & 3`. -/
def highBits (qh : Bytes) (shift it l : ℕ) : ℕ := ((qh (it * 32 + l)).toNat >>> shift) &&& 3

/-- The unpacking loops of `q6_k_dot`. -/
def q6KUnpack (ql qh : Bytes) (qUnpack : ℕ → Int8) : ℕ → Int8 :=
  quarterLoops (fun it => it * 128)
    (fun it l => Int8.ofInt (q6Quant (low (ql (it * 64 + l))) (highBits qh 0 it l)))
    (fun it l => Int8.ofInt (q6Quant (low (ql (it * 64 + l + 32))) (highBits qh 2 it l)))
    (fun it l => Int8.ofInt (q6Quant (high (ql (it * 64 + l))) (highBits qh 4 it l)))
    (fun it l => Int8.ofInt (q6Quant (high (ql (it * 64 + l + 32))) (highBits qh 6 it l))) qUnpack

/-- `q6_k_dot` -/
def q6KDot (blk : Q6KBlock) (xq8 : ℕ → Int8) (dXq : F) (qUnpack : ℕ → Int8) (acc : F) : Option F := do
  let a := q6KUnpack blk.ql blk.qh qUnpack
  let accs ← forUp 16 (fun j s => do
    let l ← forUp 8 (fun l s => do
      let l0 ← mac s.1 (xq8 (j * 16 + l)).toInt (a (j * 16 + l)).toInt
      let l1 ← mac s.2 (xq8 (j * 16 + l + 8)).toInt (a (j * 16 + l + 8)).toInt
      some (l0, l1)) (0, 0)
    let acc0 ← mac s.1 (blk.scales j).toInt l.1
    let acc1 ← mac s.2 (blk.scales j).toInt l.2
    some (acc0, acc1)) (0, 0)
  let sum ← int32 (accs.1 + accs.2)
  some (C.f16ToF32 blk.d * dXq * (sum : F) + acc)

/-- Cell `j` of the first grid of a group of eight. -/
def iq3sGrid1 (qs : Bytes) (qh : UInt8) (l j : ℕ) : ℕ :=
  iq3sGrid ((qs (2 * l)).toNat ||| ((qh.toNat <<< (8 - 2 * l)) &&& 256)) j

/-- Cell `j` of the second grid of a group of eight. -/
def iq3sGrid2 (qs : Bytes) (qh : UInt8) (l j : ℕ) : ℕ :=
  iq3sGrid ((qs (2 * l + 1)).toNat ||| ((qh.toNat <<< (7 - 2 * l)) &&& 256)) j

/-- One of the two loops over `l` of `iq3s_unpack_i8_generic`. -/
def iq3sUnpackHalf (qs signs : Bytes) (qh : UInt8) (ap : ℕ) (a : ℕ → Int8) : ℕ → Int8 :=
  (List.range 4).foldl (fun a l => (List.range 4).foldl (fun a j =>
    let signed (j grid : ℕ) : Int8 :=
      Int8.ofInt (if (signs l).toNat &&& kmaskIq2xs j ≠ 0 then -int8 grid else int8 grid)
    let a := Function.update a (ap + l * 8 + j) (signed j (iq3sGrid1 qs qh l j))
    Function.update a (ap + l * 8 + j + 4) (signed (j + 4) (iq3sGrid2 qs qh l j))) a) a

/-- `iq3s_unpack_i8_generic` -/
def iq3sUnpackI8Generic (b : Iq3SBlock) (a : ℕ → Int8) : ℕ → Int8 :=
  (List.range 4).foldl (fun a it =>
    iq3sUnpackHalf (b.qs.after (it * 16 + 8)) (b.signs.after (it * 8 + 4)) (b.qh (it * 2 + 1)) (it * 64 + 32)
      (iq3sUnpackHalf (b.qs.after (it * 16)) (b.signs.after (it * 8)) (b.qh (it * 2)) (it * 64) a)) a

/-- The scale of a group of 32. -/
def iq3sScale (scales : Bytes) (g : ℕ) : ℤ :=
  if g &&& 1 ≠ 0 then 1 + 2 * high (scales (g / 2)) else 1 + 2 * low (scales (g / 2))

/-- One block of `matmul_iq3_s_q8_k_qonly_f32_row`. -/
def iq3SDot (b : Iq3SBlock) (yb : Q8KBlock F) (a : ℕ → Int8) (sumf : F) : Option F := do
  let a := iq3sUnpackI8Generic b a
  let total ← forUp 8 (fun g s => do
    let groupSum ← forUp 32 (fun j s => mac s (a (g * 32 + j)).toInt (yb.qs (g * 32 + j)).toInt) 0
    mac s (iq3sScale b.scales g) groupSum) 0
  some (C.f16ToF32 b.d * yb.d * (total : F) + sumf)

/-! ### Dequantising -/

variable (blocks : Bytes) (nBlocks : ℕ) (dst : ℕ → F)

/-- The loops of the types with blocks of 32, two values a byte. -/
def dequantHalves (lo hi : ℕ → ℕ → F) : ℕ → F :=
  (List.range nBlocks).foldl (fun dst bi => (List.range 16).foldl (fun dst j =>
    Function.update (Function.update dst (bi * 32 + j) (lo bi j)) (bi * 32 + j + 16) (hi bi j)) dst) dst

/-- `dequant_q4_0_row` -/
def dequantQ4_0Row : ℕ → F :=
  let b bi := Q4_0Block.read (blocks.after (bi * 18))
  dequantHalves nBlocks dst (fun bi j => ((int8 (low ((b bi).qs j)) - 8 : ℤ) : F) * C.f16ToF32 (b bi).d)
    fun bi j => ((int8 (high ((b bi).qs j)) - 8 : ℤ) : F) * C.f16ToF32 (b bi).d

/-- `dequant_iq4_nl_row` -/
def dequantIq4NlRow : ℕ → F :=
  let b bi := Q4_0Block.read (blocks.after (bi * 18))
  dequantHalves nBlocks dst (fun bi j => C.f16ToF32 (b bi).d * (kvaluesIq4nl (low ((b bi).qs j)) : F))
    fun bi j => C.f16ToF32 (b bi).d * (kvaluesIq4nl (high ((b bi).qs j)) : F)

/-- `dequant_q5_0_row` -/
def dequantQ5_0Row : ℕ → F :=
  let b bi := Q5_0Block.read (blocks.after (bi * 22))
  dequantHalves nBlocks dst (fun bi j => (((b bi).lo j - 16 : ℤ) : F) * C.f16ToF32 (b bi).d)
    fun bi j => (((b bi).hi j - 16 : ℤ) : F) * C.f16ToF32 (b bi).d

/-- `dequant_q8_0_row` -/
def dequantQ8_0Row : ℕ → F :=
  let b bi := Q8_0Block.read (blocks.after (bi * 34))
  (List.range nBlocks).foldl (fun dst bi => (List.range 32).foldl (fun dst j =>
    Function.update dst (bi * 32 + j) (((b bi).qs j).toInt * C.f16ToF32 (b bi).d)) dst) dst

/-- The loops of `dequant_q4_k_row` and `dequant_q5_k_row`. -/
def dequantK (d dmin : ℕ → UInt16) (scales : ℕ → Bytes) (lo hi : ℕ → ℕ → ℕ → ℕ) : ℕ → F :=
  (List.range nBlocks).foldl (fun dst bi => (List.range 4).foldl (fun dst g =>
    let s1 := getScaleMinK4 (2 * g) (scales bi)
    let s2 := getScaleMinK4 (2 * g + 1) (scales bi)
    (List.range 32).foldl (fun dst l =>
      Function.update
        (Function.update dst (bi * 256 + g * 64 + l)
          (C.f16ToF32 (d bi) * s1.1 * lo bi g l - C.f16ToF32 (dmin bi) * s1.2))
        (bi * 256 + g * 64 + l + 32)
          (C.f16ToF32 (d bi) * s2.1 * hi bi g l - C.f16ToF32 (dmin bi) * s2.2)) dst) dst) dst

/-- `dequant_q4_k_row` -/
def dequantQ4KRow : ℕ → F :=
  let b bi := Q4KBlock.read (blocks.after (bi * 144))
  dequantK C nBlocks dst (fun bi => (b bi).d) (fun bi => (b bi).dmin) (fun bi => (b bi).scales)
    (fun bi => (b bi).lo) fun bi => (b bi).hi

/-- `dequant_q5_k_row` -/
def dequantQ5KRow : ℕ → F :=
  let b bi := Q5KBlock.read (blocks.after (bi * 176))
  dequantK C nBlocks dst (fun bi => (b bi).d) (fun bi => (b bi).dmin) (fun bi => (b bi).scales)
    (fun bi => (b bi).lo) fun bi => (b bi).hi

/-- One block of `dequant_q6_k_row`, whose cells begin at `y`. -/
def dequantQ6KBlock (b : Q6KBlock) (y : ℕ) : ℕ → F :=
  let cell (is it l lo two : ℕ) : F :=
    C.f16ToF32 b.d * ((b.scales (it * 8 + (l / 16 + is))).toInt : F) * (int8 (q6Quant lo two) : F)
  quarterLoops (fun it => y + it * 128)
    (fun it l => cell 0 it l (low (b.ql (it * 64 + l))) (highBits b.qh 0 it l))
    (fun it l => cell 2 it l (low (b.ql (it * 64 + l + 32))) (highBits b.qh 2 it l))
    (fun it l => cell 4 it l (high (b.ql (it * 64 + l))) (highBits b.qh 4 it l))
    (fun it l => cell 6 it l (high (b.ql (it * 64 + l + 32))) (highBits b.qh 6 it l)) dst

/-- `dequant_q6_k_row` -/
def dequantQ6KRow : ℕ → F :=
  (List.range nBlocks).foldl (fun dst bi =>
    dequantQ6KBlock C dst (.read (blocks.after (bi * 210))) (bi * 256)) dst

/-- One of the two loops over `l` of `dequant_iq3_s_row`. -/
def dequantIq3SHalf (qs signs : Bytes) (qh : UInt8) (db : F) (y : ℕ) : ℕ → F :=
  (List.range 4).foldl (fun dst l => (List.range 8).foldl (fun dst j =>
    let s := if (signs l).toNat &&& kmaskIq2xs j ≠ 0 then -db else db
    let grid := if j < 4 then iq3sGrid1 qs qh l j else iq3sGrid2 qs qh l (j - 4)
    Function.update dst (y + l * 8 + j) (s * (grid : F))) dst) dst

/-- One block of `dequant_iq3_s_row`, whose cells begin at `y`. -/
def dequantIq3SBlock (b : Iq3SBlock) (y : ℕ) : ℕ → F :=
  let db (scale : ℕ) : F := C.f16ToF32 b.d * (1 + (1 + 1) * scale)
  (List.range 4).foldl (fun dst it =>
    dequantIq3SHalf
      (dequantIq3SHalf dst (b.qs.after (it * 16)) (b.signs.after (it * 8)) (b.qh (it * 2))
        (db (low (b.scales it))) (y + it * 64))
      (b.qs.after (it * 16 + 8)) (b.signs.after (it * 8 + 4)) (b.qh (it * 2 + 1))
      (db (high (b.scales it))) (y + it * 64 + 32)) dst

/-- `dequant_iq3_s_row` -/
def dequantIq3SRow : ℕ → F :=
  (List.range nBlocks).foldl (fun dst bi =>
    dequantIq3SBlock C dst (.read (blocks.after (bi * 110))) (bi * 256)) dst

end Kernels

end Kappai.Quants
