import Mathlib.Data.Nat.Log
import Kappai.Lib.Fill
import Kappai.Lib.Softmax
import Kappai.Spec.CpuKv

/-! The scalar attention of the CPU backend, one query row or a batch of them, in exact arithmetic.
`e` stands for `expf`, of which only `expf(-INFINITY)` is taken to be zero. The K and V rows are those
of one layer, by KV head and slot. -/

namespace Kappai

variable {R : Type*} [Field R]

/-- `q8_0_block`, with its scale read -/
structure Q8Block (R : Type*) where
  d : R
  qs : ℕ → ℤ

/-- The rows of a cache of either kind. -/
inductive KvStore (R : Type*)
  | f16 (k v : ℕ → ℕ → ℕ → R)
  | q8_0 (k v : ℕ → ℕ → ℕ → Q8Block R)

/-- `a0` to `a3` after `k` turns of the main loop of `dot8_f16`. -/
def dot8F16Main (a b : ℕ → R) (k : ℕ) : R × R × R × R :=
  (List.range k).foldl (fun (s : R × R × R × R) i =>
    let d := 8 * i
    (s.1 + (a d * b d + a (d + 4) * b (d + 4)),
      s.2.1 + (a (d + 1) * b (d + 1) + a (d + 5) * b (d + 5)),
      s.2.2.1 + (a (d + 2) * b (d + 2) + a (d + 6) * b (d + 6)),
      s.2.2.2 + (a (d + 3) * b (d + 3) + a (d + 7) * b (d + 7)))) (0, 0, 0, 0)

/-- `dot8_f16` -/
def dot8F16 (a b : ℕ → R) (headDim : ℕ) : R :=
  let main := dot8F16Main a b (headDim / 8)
  let hdMain := 8 * (headDim / 8)
  let a0 := (List.range (headDim % 8)).foldl (fun a0 j => a0 + a (hdMain + j) * b (hdMain + j)) main.1
  (a0 + main.2.1) + (main.2.2.1 + main.2.2.2)

/-- The blocks of a row, each with its length: all are of 32 columns but the last. -/
def q8Blocks (headDim : ℕ) : List (ℕ × ℕ) :=
  (List.range ((headDim + 31) / 32)).map fun b => (b, min (headDim - b * 32) 32)

/-- `dot8_q8_0` -/
def dot8Q8_0 (a : ℕ → R) (blocks : ℕ → Q8Block R) (headDim : ℕ) : R :=
  (q8Blocks headDim).foldl (fun sum b =>
    let part := (List.range b.2).foldl (fun part j =>
      part + a (b.1 * 32 + j) * ((blocks b.1).qs j : R)) 0
    sum + part * (blocks b.1).d) 0

/-- `accum_v_q8_0` -/
def accumVQ8_0 (out : ℕ → R) (blocks : ℕ → Q8Block R) (weight : R) (headDim : ℕ) : ℕ → R :=
  (q8Blocks headDim).foldl (fun out b =>
    let d := (blocks b.1).d * weight
    (List.range b.2).foldl (fun out j =>
      Function.update out (b.1 * 32 + j) (((blocks b.1).qs j : R) * d + out (b.1 * 32 + j))) out) out

/-- A loop over the columns of a row. -/
def eachCol (headDim : ℕ) (f : ℕ → R) (out : ℕ → R) : ℕ → R :=
  fun d => if d < headDim then f d else out d

variable [LinearOrder R] (e : R → R)

/-- `mx` of `softmax_masked` -/
def scoreMax (scores : List R) : R :=
  scores.tail.foldl (fun mx s => if mx < s then s else mx) (scores.headD 0)

/-- `softmax_masked` -/
def softmaxMasked (scores : List R) : List R :=
  let mx := scoreMax scores
  let exps := scores.map fun s => e (s - mx)
  let inv := 1 / exps.foldl (· + ·) 0
  exps.map (· * inv)

/-- One position of the loop with a running maximum, over `M`, `S` and `VKQ`; `accum` adds the V row
with a weight. -/
def flashStep (headDim : ℕ) (accum : (ℕ → R) → R → ℕ → R) (st : OnlineSum R) (ss : R) :
    OnlineSum R :=
  match st.top with
  | none =>
    ⟨some ss, st.weight * 0 + 1, accum (eachCol headDim (fun d => st.sums d * 0) st.sums) 1⟩
  | some top =>
    if top < ss then
      let ms := e (top - ss)
      ⟨some ss, st.weight * ms + 1, accum (eachCol headDim (fun d => st.sums d * ms) st.sums) 1⟩
    else
      let vs := e (ss - top)
      ⟨some top, st.weight * 1 + vs, accum st.sums vs⟩

/-- The end of the loop with a running maximum. -/
def flashOut (headDim : ℕ) (st : OnlineSum R) (out : ℕ → R) : ℕ → R :=
  let inv := if st.weight = 0 then 0 else 1 / st.weight
  eachCol headDim (fun d => st.sums d * inv) out

/-- `cpu_attention_inner`; `k` and `v` are the rows from the first slot of the window on. -/
def cpuAttentionInner (k v : ℕ → ℕ → R) (qh : ℕ → R) (headDim nPos : ℕ) (scale : R)
    (flashAttn : Bool) (out : ℕ → R) : ℕ → R :=
  let score := fun t => dot8F16 qh (k t) headDim * scale
  if flashAttn then
    let st := (List.range nPos).foldl (fun st t =>
      flashStep e headDim (fun vkq w => eachCol headDim (fun d => v t d * w + vkq d) vkq) st
        (score t)) .empty
    flashOut headDim st out
  else
    match softmaxMasked e ((List.range nPos).map score) with
    | [] => out
    | s0 :: scores =>
      (scores.zipIdx 1).foldl (fun out s => eachCol headDim (fun d => out d + s.1 * v s.2 d) out)
        (eachCol headDim (fun d => s0 * v 0 d) out)

/-- `cpu_attention_inner_q8_0` -/
def cpuAttentionInnerQ8_0 (k v : ℕ → ℕ → Q8Block R) (qh : ℕ → R) (headDim nPos : ℕ) (scale : R)
    (flashAttn : Bool) (out : ℕ → R) : ℕ → R :=
  let score := fun t => dot8Q8_0 qh (k t) headDim * scale
  if flashAttn then
    let st := (List.range nPos).foldl (fun st t =>
      flashStep e headDim (fun vkq w => accumVQ8_0 vkq (v t) w headDim) st (score t))
        .empty
    flashOut headDim st out
  else
    ((softmaxMasked e ((List.range nPos).map score)).zipIdx).foldl
      (fun out s => accumVQ8_0 out (v s.2) s.1 headDim) (eachCol headDim (fun _ => 0) out)

/-- What one call is given, with `kv_base_pos` of its layer. -/
structure AttnCall (R : Type*) where
  store : KvStore R
  kvBase : ℕ
  nHeads : ℕ
  nKvHeads : ℕ
  nKvHeadsActive : ℕ
  headDim : ℕ
  flashAttn : Bool
  scale : R
  slidingWindow : ℕ

namespace AttnCall

variable (c : AttnCall R)

def nActive : ℕ := if 0 < c.nKvHeadsActive then c.nKvHeadsActive else c.nKvHeads

def nGroups : ℕ := (c.nHeads + c.nActive - 1) / c.nActive

/-- The first slot and the number of slots for the query at `pos`. -/
def slots (pos : ℕ) : ℕ × ℕ :=
  let w := attnWindow c.slidingWindow pos
  cpuKvWindowToSlots c.kvBase w.1 w.2

/-- One head of one query row; its query and its output begin at `start`. -/
def head (q : ℕ → R) (pos start kvh : ℕ) (out : ℕ → R) : ℕ → R :=
  let s := c.slots pos
  let qh := fun d => q (start + d)
  let outH := fun d => out (start + d)
  let new :=
    match c.store with
    | .f16 k v =>
      cpuAttentionInner e (fun t => k kvh (s.1 + t)) (fun t => v kvh (s.1 + t)) qh c.headDim s.2
        c.scale c.flashAttn outH
    | .q8_0 k v =>
      cpuAttentionInnerQ8_0 e (fun t => k kvh (s.1 + t)) (fun t => v kvh (s.1 + t)) qh c.headDim
        s.2 c.scale c.flashAttn outH
  fun a => if start ≤ a ∧ a < start + c.headDim then new (a - start) else out a

/-- The body of `cpu_attn_head_chunk`, and of the loop without a pool. -/
def attnHead (q : ℕ → R) (pos : ℕ) (out : ℕ → R) (h : ℕ) : ℕ → R :=
  c.head e q pos (h * c.headDim) (h / c.nGroups) out

/-- The body of `cpu_attn_kvh_chunk` -/
def attnKvh (q : ℕ → R) (pos : ℕ) (out : ℕ → R) (kvh : ℕ) : ℕ → R :=
  let hStart := kvh * c.nGroups
  let hEnd := min (hStart + c.nGroups) c.nHeads
  (List.range' hStart (hEnd - hStart)).foldl
    (fun out h => c.head e q pos (h * c.headDim) kvh out) out

/-- The body of `cpu_attn_batch_chunk`; `perm` is `bitrev_perm` if it is set. -/
def attnBatch (q : ℕ → R) (posStart m : ℕ) (perm : Option (ℕ → ℕ)) (out : ℕ → R) (idx : ℕ) :
    ℕ → R :=
  let dispatchRow := idx / c.nHeads
  let h := idx % c.nHeads
  let row := (perm.map (· dispatchRow)).getD dispatchRow
  if m ≤ row then out
  else c.head e q (posStart + row) ((row * c.nHeads + h) * c.headDim) (h / c.nGroups) out

end AttnCall

/-- `cpu_attention_impl`; with a pool, `items` is the order in which its threads come to the items
of `tpool_parallel_for`. -/
def cpuAttentionImpl (c : AttnCall R) (q : ℕ → R) (pos : ℕ) (items : Option (List ℕ))
    (out : ℕ → R) : ℕ → R :=
  match items with
  | some items =>
    if 1 < c.nGroups then items.foldl (c.attnKvh e q pos) out
    else items.foldl (c.attnHead e q pos) out
  | none => (List.range c.nHeads).foldl (c.attnHead e q pos) out

/-- The number of items `cpu_attention_impl` gives to the pool. -/
def AttnCall.items (c : AttnCall R) : ℕ := if 1 < c.nGroups then c.nActive else c.nHeads

/-- `use_bitrev`; 8 is `ATTN_BITREV_MIN_M`. -/
def useBitrev (m : ℕ) : Bool := 8 ≤ m

/-- `cpu_bitrev_perm_get`, with `m_pow2` the power of two above `m`. -/
def cpuBitrevPerm (m r : ℕ) : ℕ := bitReverse (Nat.clog 2 m) 0 r

/-- The number of items `cpu_attention_batch_impl` gives to the pool. -/
def AttnCall.batchItems (c : AttnCall R) (m : ℕ) : ℕ :=
  if useBitrev m then c.nHeads * 2 ^ Nat.clog 2 m else c.nHeads * m

/-- `cpu_attention_batch_impl` for the rows of `m` queries from `posStart` on. -/
def cpuAttentionBatchImpl (c : AttnCall R) (q : ℕ → R) (posStart m : ℕ) (items : Option (List ℕ))
    (out : ℕ → R) : ℕ → R :=
  let perm := if useBitrev m then some (cpuBitrevPerm m) else none
  (items.getD (List.range (c.batchItems m))).foldl (c.attnBatch e q posStart m perm) out

end Kappai
