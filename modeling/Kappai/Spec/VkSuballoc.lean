import Mathlib
import Kappai.Lib.FreeRanges

/-! Small device-local buffers in blocks of device memory: `vk_suballoc_place`, `vk_suballoc_release` and
what `vk_alloc_buffer` and `vk_free_buffer` do with them. -/

namespace Kappai

namespace VkSuballoc

open FreeRanges

/-- `VkMemoryRequirements` of a buffer, with the number of the alignment's bit. -/
structure MemReq where
  size : ℕ
  alignLog : ℕ
  memoryTypeBits : List ℕ
  size_pos : 0 < size

def MemReq.alignment (req : MemReq) : ℕ := 2 ^ req.alignLog

/-- `vk_suballoc_block` -/
structure Block where
  size : ℕ
  memoryType : ℕ
  ranges : List ByteRange
deriving DecidableEq

/-- What `vk_buf` keeps of a buffer in a block, by the number of the block, with the alignment that was
asked for. -/
structure Placed where
  block : ℕ
  range : ByteRange
  alignment : ℕ
deriving DecidableEq

/-- The blocks in the order they were made, which is the order of `sub_blocks` from its end, and the
buffers that are live. -/
structure Pool where
  blocks : List Block
  live : List Placed

def Pool.empty : Pool := ⟨[], []⟩

/-- `VK_SUBALLOC_BLOCK_SIZE` -/
def blockSize : ℕ := 64 * 2 ^ 20

/-- `VK_SUBALLOC_MAX_BLOCKS` -/
def maxBlocks : ℕ := 8

/-- `find_memory_type` for device-local memory: `deviceLocal` lists whether a type is. -/
def findMemoryType (deviceLocal : List Bool) (req : MemReq) : Option ℕ :=
  (List.range deviceLocal.length).find? fun i => req.memoryTypeBits.contains i && deviceLocal.getD i false

/-- The first block of `sub_blocks` of a memory type that will do. -/
def findBlock (blocks : List Block) (req : MemReq) : Option ℕ :=
  (List.range blocks.length).reverse.find? fun b =>
    (blocks[b]?).any fun blk => req.memoryTypeBits.contains blk.memoryType

/-- What the device answers: whether `vkAllocateMemory` and `vkBindBufferMemory` succeed. -/
structure Answers where
  allocated : Bool
  bound : Bool

/-- The block that a request goes to, made if there is none. -/
def ensureBlock (deviceLocal : List Bool) (ans : Answers) (req : MemReq) (blocks : List Block) :
    List Block × Option ℕ :=
  match findBlock blocks req with
  | some b => (blocks, some b)
  | none =>
    if blocks.length < maxBlocks then
      match findMemoryType deviceLocal req with
      | none => (blocks, none)
      | some mt =>
        if ans.allocated then
          let size := max blockSize req.size
          (blocks ++ [⟨size, mt, [⟨0, size⟩]⟩], some blocks.length)
        else (blocks, none)
    else (blocks, none)

/-- `vk_suballoc_place` -/
def place (deviceLocal : List Bool) (ans : Answers) (req : MemReq) (s : Pool) : Pool × Option Placed :=
  let t := ensureBlock deviceLocal ans req s.blocks
  match t.2.bind fun b => (t.1[b]?).bind fun blk =>
      (take req.alignment req.size blk.ranges).map fun p => (b, blk, p) with
  | none => ({ s with blocks := t.1 }, none)
  | some (b, blk, off, ranges) =>
    -- the ranges are changed before the bind
    let s := { s with blocks := t.1.set b { blk with ranges := ranges } }
    if ans.bound then (s, some ⟨b, ⟨off, req.size⟩, req.alignment⟩) else (s, none)

/-- `vk_suballoc_release` -/
def release (s : Pool) (a : Placed) : Pool :=
  { s with blocks := s.blocks.modify a.block fun blk => { blk with ranges := give blk.ranges a.range } }

inductive Op
  | alloc (req : MemReq) (ans : Answers)
  | free (i : ℕ)

/-- `vk_alloc_buffer` of a small device-local buffer, and `vk_free_buffer` of the `i`-th live one. Where a
buffer is not placed it gets memory of its own. -/
def step (deviceLocal : List Bool) (s : Pool) : Op → Pool
  | .alloc req ans =>
    let r := place deviceLocal ans req s
    { r.1 with live := r.1.live ++ r.2.toList }
  | .free i =>
    match s.live[i]? with
    | none => s
    | some a => { release s a with live := s.live.eraseIdx i }

def run (deviceLocal : List Bool) (s : Pool) (ops : List Op) : Pool := ops.foldl (step deviceLocal) s

/-- The live buffers of a block. -/
def Pool.liveIn (s : Pool) (b : ℕ) : List Placed := s.live.filter fun a => a.block == b

/-- The free ranges of a block rise, are not empty and do not adjoin; its live buffers are aligned, inside,
and apart from each other and from the free ranges. -/
structure Tidy (blk : Block) (live : List Placed) : Prop where
  spaced : Spaced blk.ranges
  inside : ∀ r ∈ blk.ranges, r.stop ≤ blk.size
  aligned : ∀ a ∈ live, a.alignment ∣ a.range.off
  live_inside : ∀ a ∈ live, 0 < a.range.size ∧ a.range.stop ≤ blk.size
  live_apart : live.Pairwise fun a c => a.range.Apart c.range
  free_apart : ∀ a ∈ live, ∀ r ∈ blk.ranges, a.range.Apart r

/-- Every byte of a block is free or of a live buffer. -/
def Full (blk : Block) (live : List Placed) : Prop :=
  total blk.ranges + (live.map (·.range.size)).sum = blk.size

/-- An allocation skips no byte and is not left unbound in a block: the range that it is put in begins at
its alignment, and the bind succeeds. -/
def Lossless (deviceLocal : List Bool) (s : Pool) : Op → Prop
  | .alloc req ans =>
    let t := ensureBlock deviceLocal ans req s.blocks
    ∀ b ∈ t.2, ∀ blk ∈ t.1[b]?, ∀ r ∈ firstFit req.alignment req.size blk.ranges,
      req.alignment ∣ r.off ∧ ans.bound = true
  | .free _ => True

instance (deviceLocal : List Bool) (s : Pool) (op : Op) : Decidable (Lossless deviceLocal s op) :=
  match op with
  | .alloc req ans => inferInstanceAs (Decidable (∀ b ∈ (ensureBlock deviceLocal ans req s.blocks).2,
      ∀ blk ∈ (ensureBlock deviceLocal ans req s.blocks).1[b]?,
        ∀ r ∈ firstFit req.alignment req.size blk.ranges, req.alignment ∣ r.off ∧ ans.bound = true))
  | .free _ => inferInstanceAs (Decidable True)

/-- All steps of a run are lossless. -/
def LosslessRun (deviceLocal : List Bool) : Pool → List Op → Prop
  | _, [] => True
  | s, op :: ops => Lossless deviceLocal s op ∧ LosslessRun deviceLocal (step deviceLocal s op) ops

end VkSuballoc

end Kappai
