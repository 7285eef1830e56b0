import Kappai.Lib.IndexHeap
import Kappai.Lib.Queues
import Kappai.Lib.Loop
import Kappai.Lib.PairMerge
import Kappai.Spec.Slots
import Mathlib.Data.Prod.Lex
import Mathlib.Data.Int.Order.Basic
import Kappai.Lib.OpenTable
import Mathlib.Algebra.Ring.Nat

/-! The merges of `bpe_encode_uncached`: pieces in a linked list, and a heap of their pairs whose
entries are dropped or ranked anew when they come up and are out of date. -/

namespace Kappai

/-- `piece`; `p` with its `n` bytes. -/
structure BpePiece where
  p : Text
  h : UInt64
  /-- an `int32_t` -/
  id : ℤ
  locked : Bool
deriving DecidableEq, Repr

/-- What the merges read of a `tokenizer`: `merge_hash_lookup_h` and `hash_lookup_pair_h` in its
tables, from the hash of the pair and its texts. -/
structure BpeTables where
  hasMerges : Bool
  mergeHashLookupH : UInt64 → Text → Text → ℤ
  hashLookupPairH : UInt64 → Text → Text → ℤ
  mergeTokenIds : ℤ → ℤ
  unkId : ℤ

/-- An entry of the heap: `hrank`, `hnode` and `hver` at one position. -/
structure BpeEntry where
  rank : ℤ
  node : ℕ
  ver : UInt32
deriving DecidableEq, Repr

/-- By rank, entries of one rank by node. -/
def BpeEntry.key (e : BpeEntry) : ℤ ×ₗ ℕ := toLex (e.rank, e.node)

/-- `bpe_state`; `none` is -1 in `prev` and `next`. -/
structure BpeState where
  pcs : ℕ → BpePiece
  npcs : ℕ
  prev : ℕ → Option ℕ
  next : ℕ → Option ℕ
  alive : ℕ → Bool
  ver : ℕ → UInt32
  heap : EntryHeap BpeEntry

namespace BpeTables

variable (t : BpeTables)

/-- The rank of two pieces. -/
def pieceRank (a b : BpePiece) : ℤ :=
  if a.locked || b.locked then -1
  else
    let h := fnv1aUpdateStr a.h b.p
    if t.hasMerges then t.mergeHashLookupH h a.p b.p else t.hashLookupPairH h a.p b.p

/-- `bpe_pair_rank`, of a node that has a next one. -/
def bpePairRank (bs : BpeState) (i : ℕ) : ℤ :=
  match bs.next i with
  | some j => t.pieceRank (bs.pcs i) (bs.pcs j)
  | none => -1

/-- The `id` of a piece from a merge of rank `cur`. -/
def mergedId (cur : ℤ) : ℤ :=
  let newId := if t.hasMerges then t.mergeTokenIds cur else cur
  if newId ≥ 0 then newId else if t.unkId ≥ 0 then t.unkId else 0

/-- What `pcs[nd]` becomes. -/
def mergePieces (cur : ℤ) (a b : BpePiece) : BpePiece :=
  { a with p := a.p ++ b.p, h := fnv1aUpdateStr a.h b.p, id := t.mergedId cur }

/-- The pair of a node, if it has a rank, goes on the heap. -/
def pushPair (bs : BpeState) (i : ℕ) : BpeState :=
  if t.bpePairRank bs i ≥ 0 then
    { bs with heap := bs.heap.push BpeEntry.key ⟨t.bpePairRank bs i, i, bs.ver i⟩ }
  else bs

/-- The merge of `nd` with the node after it, `nx`. -/
def mergeNode (bs : BpeState) (cur : ℤ) (nd nx : ℕ) : BpeState :=
  let ver := Function.update bs.ver nx (bs.ver nx + 1)
  { bs with
    pcs := Function.update bs.pcs nd (t.mergePieces cur (bs.pcs nd) (bs.pcs nx))
    alive := Function.update bs.alive nx false
    ver := Function.update ver nd (ver nd + 1)
    next := Function.update bs.next nd (bs.next nx)
    prev := match bs.next nx with
      | some b => Function.update bs.prev b (some nd)
      | none => bs.prev }

/-- The pushes after a merge: the pair of the node before, and that of the node. -/
def pushBefore (bs : BpeState) (nd : ℕ) : BpeState :=
  match bs.prev nd with
  | some p => t.pushPair bs p
  | none => bs

def pushAfter (bs : BpeState) (nd : ℕ) : BpeState :=
  match bs.next nd with
  | some _ => t.pushPair bs nd
  | none => bs

/-- A turn of the loop, of a heap that is not empty. -/
def takeTop (bs : BpeState) : BpeState :=
  let top := bs.heap.entry 1
  let bs := { bs with heap := bs.heap.pop BpeEntry.key }
  match bs.next top.node with
  | none => bs
  | some nx =>
    if bs.alive top.node = false ∨ bs.ver top.node ≠ top.ver then bs
    else
      let cur := t.bpePairRank bs top.node
      if cur ≠ top.rank then t.pushPair bs top.node
      else t.pushAfter (t.pushBefore (t.mergeNode bs cur top.node nx) top.node) top.node

def turn (bs : BpeState) : LoopStep BpeState BpeState :=
  if bs.heap.hn > 0 then .next (t.takeTop bs) else .done bs

/-- The nodes, before any pair is on the heap; `work` is what the arrays of the heap hold. -/
def startNodes (work : ℕ → BpeEntry) (pcs : List BpePiece) : BpeState where
  pcs i := pcs.getD i ⟨[], 0, 0, false⟩
  npcs := pcs.length
  prev i := if i = 0 then none else some (i - 1)
  next i := if i + 1 < pcs.length then some (i + 1) else none
  alive i := decide (i < pcs.length)
  ver _ := 0
  heap := ⟨work, 0⟩

def start (work : ℕ → BpeEntry) (pcs : List BpePiece) : BpeState :=
  (List.range (pcs.length - 1)).foldl t.pushPair (startNodes work pcs)

end BpeTables

/-- `heap_cap` -/
def heapCap (npcs : ℕ) : ℕ := 3 * npcs + 8

namespace BpeState

variable (bs : BpeState)

/-- The nodes from `head` on. -/
def live : List ℕ := walk bs.next bs.npcs (some 0)

def pieces : List BpePiece := bs.live.map bs.pcs

/-- The tokens, unless there are more than `maxOut`. -/
def outIds (maxOut : ℕ) : Option (List ℤ) :=
  if bs.live.length ≤ maxOut then some (bs.pieces.map (·.id)) else none

end BpeState

/-! The table of merge rules of the tokenizer: an open hash table of the strings `left right`, in the
order of the vocabulary file. -/

def space : UInt8 := 0x20

/-- `tok_hash_entry` in the table of merges: the key is the whole rule, the length that of its left
part. -/
structure TokHashEntry where
  key : Text
  /-- a `uint32_t` -/
  keyLen : ℕ
  /-- an `int32_t` -/
  id : ℤ
deriving DecidableEq, Repr

/-- A slot is free where its key is NULL. -/
abbrev TokHash := ℕ → Option TokHashEntry

/-- The slots in the order of the loops, as often as there are slots. -/
def probes (cap : ℕ) (h : UInt64) : List ℕ :=
  List.iterate (fun q => (q + 1) &&& (cap - 1)) (h.toNat &&& (cap - 1)) cap

/-- The test by which `merge_hash_insert` takes a rule for one that is there. -/
def sameRule (entry : Text) (leftLen : ℕ) (e : TokHashEntry) : Bool :=
  e.keyLen == leftLen && e.key.take leftLen == entry.take leftLen && e.key[e.keyLen]? == some space &&
    e.key.drop (e.keyLen + 1) == entry.drop (leftLen + 1)

def ruleHash (entry : Text) (leftLen : ℕ) : UInt64 :=
  fnv1aUpdateStr (fnv1a (entry.take leftLen)) (entry.drop (leftLen + 1))

/-- `merge_hash_insert` -/
def mergeHashInsert (ht : TokHash) (cap : ℕ) (entry : Text) (leftLen : ℕ) (id : ℤ) : TokHash :=
  OpenTable.insert ht (sameRule entry leftLen) ⟨entry, leftLen % 2 ^ 32, id⟩
    (probes cap (ruleHash entry leftLen))

/-- The test of `merge_hash_lookup_h`: of the right part as many bytes as are asked for. -/
def ruleHit (a b : Text) (e : TokHashEntry) : Bool :=
  e.keyLen == a.length && e.key.take a.length == a && e.key[a.length]? == some space &&
    b.isPrefixOf (e.key.drop (a.length + 1))

/-- `merge_hash_lookup_h`: `none` where no slot is free and no rule is a hit; the loop does not end
then. -/
def mergeHashLookupH (ht : TokHash) (cap : ℕ) (h : UInt64) (a b : Text) : Option ℤ :=
  match (OpenTable.chain ht (probes cap h)).find? (ruleHit a b) with
  | some e => some e.id
  | none => if (probes cap h).any fun q => (ht q).isNone then some (-1) else none

/-! ### The table of a vocabulary -/

/-- The loop for `mcap`. -/
def mergeCapLoop (want : ℕ) : ℕ → ℕ → ℕ
  | 0, mcap => mcap
  | n + 1, mcap => if mcap < want then mergeCapLoop want n (mcap <<< 1) else mcap

def mergeCap (nMerges : ℕ) : ℕ := mergeCapLoop (nMerges * 2) (nMerges * 2) 1

/-- `(int32_t)i` -/
def mergeId (i : ℕ) : ℤ := (i : ℤ).bmod (2 ^ 32)

/-- The loop of `tokenizer_init` from rule `i` on; a string without a space is left out. -/
def insertMerges (cap : ℕ) : ℕ → List Text → TokHash → TokHash
  | _, [], ht => ht
  | i, entry :: rest, ht =>
    insertMerges cap (i + 1) rest
      (if space ∈ entry then mergeHashInsert ht cap entry (entry.idxOf space) (mergeId i) else ht)

/-- `merge_hash` after `tokenizer_init`. -/
def mergeHash (merges : List Text) : TokHash :=
  insertMerges (mergeCap merges.length) 0 merges fun _ => none

/-- The lookup as `bpe_pair_rank` makes it, with the hash of the left piece taken on over the right
one. -/
def pairLookup (merges : List Text) (a b : Text) : Option ℤ :=
  mergeHashLookupH (mergeHash merges) (mergeCap merges.length) (fnv1aUpdateStr (fnv1a a) b) a b

end Kappai
