import Kappai.Lib.IndexHeap
import Mathlib.Data.Nat.Notation

/-! One layer of the expert cache: the LRU slots with their eviction heap, the slots of the device
tier, the pinned slots and the tables from experts to slots. Every operation but the fetch runs
under the lock of the layer. The scores of the tier policy are floats; what it decides is given
with the operation. -/

namespace Kappai

/-- `heapBuf` and `dev` name the expert whose weights the host and the device buffers hold in
full. -/
structure MoeExpertSlot where
  eid : Option ℕ
  lastUsed : UInt64
  gen : ℕ
  heapBuf : Option ℕ
  dev : Option ℕ
  pinned : Bool
  ioReady : Bool
  inuse : ℕ
deriving DecidableEq

namespace MoeExpertSlot

/-- `slot_zero` -/
def zero : MoeExpertSlot := ⟨none, 0, 0, none, none, false, false, 0⟩

/-- An LRU or a tier slot as the cache comes up. -/
def fresh : MoeExpertSlot := { zero with ioReady := true }

/-- `slot_from_expert_desc` -/
def fromExpertDesc (s : MoeExpertSlot) (eid : ℕ) : MoeExpertSlot :=
  { s with eid := some eid, heapBuf := none, pinned := false }

/-- `tier_movable`, as far as the slot goes. -/
def movable (s : MoeExpertSlot) : Bool := s.eid.isSome && s.ioReady && s.inuse == 0

/-- The weights of the slot's own expert are there. -/
def Loaded (s : MoeExpertSlot) : Prop := s.heapBuf = s.eid ∨ s.dev = s.eid

instance (s : MoeExpertSlot) : Decidable s.Loaded := inferInstanceAs (Decidable (_ ∨ _))

end MoeExpertSlot

/-- `lfru_score` -/
def lfruScore (freq : UInt32) (lastUsed clock : UInt64) : UInt64 :=
  let age := clock - lastUsed
  let recent := if age < 256 then 256 - age else 0
  (freq.toUInt64 <<< 8) ||| recent

structure MoeStreamLayer where
  lruCap : ℕ
  nLru : ℕ
  lruSlots : ℕ → MoeExpertSlot
  lruFreq : ℕ → UInt32
  decayCounter : ℕ
  heap : IndexHeap
  nPinned : ℕ
  pinnedSlots : ℕ → MoeExpertSlot
  tierCap : ℕ
  tierSlots : ℕ → MoeExpertSlot
  eidToLru : ℕ → Option ℕ
  eidToPinned : ℕ → Option ℕ
  eidToTier : ℕ → Option ℕ

inductive SlotRef
  | pinned (i : ℕ)
  | tier (i : ℕ)
  | lru (i : ℕ)
deriving DecidableEq, Repr

/-- What became of the copy or the upload of a pinned expert. -/
inductive PinResult
  | failed
  | host
  | device
deriving DecidableEq, Repr

def lfruDecayInterval : ℕ := 256

/-- The length of `requeue` in `layer_insert_lru`, to which the cache clamps its capacity. -/
def lruCapMax : ℕ := 1024

namespace MoeStreamLayer

/-- The slot of a pinned expert once its copy is through. -/
def pinnedSlot (e : ℕ) : PinResult → MoeExpertSlot
  | .failed => { MoeExpertSlot.zero with pinned := true, ioReady := true }
  | .host =>
    { MoeExpertSlot.zero with eid := some e, heapBuf := some e, pinned := true, ioReady := true }
  | .device =>
    { MoeExpertSlot.zero with eid := some e, dev := some e, pinned := true, ioReady := true }

/-- `moe_stream_cache_init` for one layer, with the experts of the pin list. -/
def init (lruCap tierCap : ℕ) (pins : List (ℕ × PinResult)) : MoeStreamLayer where
  lruCap := if lruCap > lruCapMax then lruCapMax else lruCap
  nLru := 0
  lruSlots := fun _ => .fresh
  lruFreq := fun _ => 0
  decayCounter := 0
  heap := .empty
  nPinned := pins.length
  pinnedSlots := fun i => (pins[i]?.map fun p => pinnedSlot p.1 p.2).getD .zero
  tierCap := tierCap
  tierSlots := fun _ => .fresh
  eidToLru := fun _ => none
  eidToPinned := fun e => pins.findIdx? fun p => p.1 == e
  eidToTier := fun _ => none

variable (L : MoeStreamLayer)

/-- `lfru_score_idx` -/
def key (now : UInt64) (i : ℕ) : UInt64 := lfruScore (L.lruFreq i) (L.lruSlots i).lastUsed now

def setLru (i : ℕ) (s : MoeExpertSlot) : MoeStreamLayer :=
  { L with lruSlots := Function.update L.lruSlots i s }

def setTier (i : ℕ) (s : MoeExpertSlot) : MoeStreamLayer :=
  { L with tierSlots := Function.update L.tierSlots i s }

def setPinned (i : ℕ) (s : MoeExpertSlot) : MoeStreamLayer :=
  { L with pinnedSlots := Function.update L.pinnedSlots i s }

def mapLru (e : ℕ) (i : Option ℕ) : MoeStreamLayer :=
  { L with eidToLru := Function.update L.eidToLru e i }

def mapTier (e : ℕ) (i : Option ℕ) : MoeStreamLayer :=
  { L with eidToTier := Function.update L.eidToTier e i }

def setFreq (i : ℕ) (f : UInt32) : MoeStreamLayer :=
  { L with lruFreq := Function.update L.lruFreq i f }

/-- `heap_touch` -/
def heapTouch (i : ℕ) (now : UInt64) : MoeStreamLayer :=
  { L with heap := L.heap.touch (L.key now) i }

/-- `if (eid >= 0 && eid_to_lru[eid] == idx) eid_to_lru[eid] = -1` -/
def unmapped (i : ℕ) : ℕ → Option ℕ :=
  match (L.lruSlots i).eid with
  | some e => if L.eidToLru e = some i then Function.update L.eidToLru e none else L.eidToLru
  | none => L.eidToLru

def unmapLru (i : ℕ) : MoeStreamLayer := { L with eidToLru := L.unmapped i }

def slot : SlotRef → MoeExpertSlot
  | .pinned i => L.pinnedSlots i
  | .tier i => L.tierSlots i
  | .lru i => L.lruSlots i

def setSlot (s : MoeExpertSlot) : SlotRef → MoeStreamLayer
  | .pinned i => L.setPinned i s
  | .tier i => L.setTier i s
  | .lru i => L.setLru i s

/-- `live_slot_find`: the pinned slot, else the tier's, else the LRU's, each if its table entry
names a slot that holds the expert. -/
def liveSlotFind (e : ℕ) : Option SlotRef :=
  match L.eidToPinned e with
  | some i => if i < L.nPinned ∧ (L.pinnedSlots i).eid = some e then some (.pinned i) else other
  | none => other
where
  other : Option SlotRef :=
    match L.eidToTier e with
    | some i => if i < L.tierCap ∧ (L.tierSlots i).eid = some e then some (.tier i) else lru
    | none => lru
  lru : Option SlotRef :=
    match L.eidToLru e with
    | some i => if i < L.nLru ∧ (L.lruSlots i).eid = some e then some (.lru i) else none
    | none => none

/-- `layer_find`: the same slot, noted as used now; an LRU slot moves in the heap. -/
def layerFind (e : ℕ) (now : UInt64) : MoeStreamLayer × Option SlotRef :=
  match L.liveSlotFind e with
  | some r =>
    let L' := L.setSlot { L.slot r with lastUsed := now } r
    match r with
    | .lru i =>
      let f := L'.lruFreq i
      ((L'.setFreq i (if f < 0xffffffff then f + 1 else f)).heapTouch i now, some r)
    | _ => (L', some r)
  | none => (L, none)

/-- `layer_find` and `layer_take_ready_stats`. -/
def takeReady (e : ℕ) (now : UInt64) : MoeStreamLayer :=
  match L.layerFind e now with
  | (L', some r) =>
    if (L'.slot r).ioReady then L'.setSlot { L'.slot r with inuse := (L'.slot r).inuse + 1 } r
    else L'
  | (L', none) => L'

/-- `moe_stream_release_slot` -/
def release (e : ℕ) : MoeStreamLayer :=
  match L.liveSlotFind e with
  | some r => L.setSlot { L.slot r with inuse := (L.slot r).inuse - 1 } r
  | none => L

/-- The loop of `layer_insert_lru` that takes the slots in use off the heap, and the slot not in
use it stops at. -/
def popInUse {κ : Type*} [LT κ] [DecidableLT κ] (key : ℕ → κ) (inuse : ℕ → Bool)
    (requeueCap : ℕ) (h : IndexHeap) (requeue : List ℕ) : IndexHeap × List ℕ × Option ℕ :=
  if _hn : 0 < h.n then
    if inuse (h.idx 0) then
      popInUse key inuse requeueCap ((h.dropAt 0).siftDown key 0)
        (if requeue.length < requeueCap then requeue ++ [h.idx 0] else requeue)
    else (h, requeue, some (h.idx 0))
  else (h, requeue, none)
termination_by h.n
decreasing_by
  rw [IndexHeap.siftDown_n, IndexHeap.dropAt_n]
  omega

/-- The slot that goes is emptied in the middle of `layer_insert_lru`. -/
def dropVictim (i : ℕ) : MoeStreamLayer :=
  let s := L.lruSlots i
  (L.unmapLru i).setLru i { s with gen := s.gen + 1, dev := none, heapBuf := none }

/-- Every frequency is halved, and the heap put in order. -/
def decay (now : UInt64) : MoeStreamLayer :=
  let L' := { L with
    decayCounter := 0
    lruFreq := fun i => if i < L.nLru then L.lruFreq i >>> 1 else L.lruFreq i }
  (List.range L.nLru).foldl (fun L i => L.heapTouch i now) L'

/-- The end of `layer_insert_lru`: slot `i` is the expert's, not yet ready. -/
def fillSlot (i e : ℕ) (now : UInt64) : MoeStreamLayer :=
  let s := L.lruSlots i
  let L' := (((L.setLru i { s with
    eid := some e, lastUsed := now, pinned := false, heapBuf := none, ioReady := false }).mapLru e
      (some i)).setFreq i 1).heapTouch i now
  let L' := { L' with decayCounter := L'.decayCounter + 1 }
  if lfruDecayInterval ≤ L'.decayCounter then L'.decay now else L'

/-- The length of `requeue` that `layer_insert_lru` uses. -/
def requeueCap : ℕ := if L.lruCap < lruCapMax then L.lruCap else lruCapMax

/-- `layer_insert_lru`, with the index of the slot it returns. -/
def layerInsertLru (e : ℕ) (now : UInt64) : MoeStreamLayer × Option ℕ :=
  if L.nLru < L.lruCap then
    let L' := { L with nLru := L.nLru + 1, heap := L.heap.push (L.key now) L.nLru }
    (L'.fillSlot L.nLru e now, some L.nLru)
  else
    let (h, requeue, worst) := popInUse (L.key now) (fun i => 0 < (L.lruSlots i).inuse)
      L.requeueCap L.heap []
    let h := requeue.foldl (fun h i => h.push (L.key now) i) h
    match worst with
    | none => ({ L with heap := h }, none)
    | some i =>
      let h := h.dropAt ((h.pos i).getD 0)
      let h := h.siftDown (L.key now) ((h.pos (h.idx 0)).getD 0)
      let L' := { L with heap := h }.dropVictim i
      let L' := { L' with heap := L'.heap.push (L'.key now) i }
      (L'.fillSlot i e now, some i)

/-- `lru_slot_clear` -/
def lruSlotClear (i : ℕ) (clock : UInt64) : MoeStreamLayer :=
  let s := L.lruSlots i
  (((L.unmapLru i).setLru i { s with
    gen := s.gen + 1, dev := none, heapBuf := none, eid := none, lastUsed := 0 }).setFreq i
      0).heapTouch i clock

/-- `lru_slot_refill`; `copied` says whether the weights of `e` could be read. -/
def lruSlotRefill (i e : ℕ) (copied : Bool) (clock : UInt64) : MoeStreamLayer :=
  let tmp := (L.lruSlots i).fromExpertDesc e
  let L' := L.lruSlotClear i clock
  if copied then
    (((L'.setLru i { tmp with heapBuf := some e, lastUsed := clock, ioReady := true }).mapLru e
      (some i)).setFreq i 1).heapTouch i clock
  else L'

/-- `tier_upload` of what the host slot holds. -/
def tierUpload (host : MoeExpertSlot) (e : ℕ) : MoeExpertSlot :=
  { MoeExpertSlot.zero.fromExpertDesc e with dev := host.heapBuf, ioReady := true }

/-- `tier_release` -/
def tierRelease (t : ℕ) : MoeStreamLayer :=
  L.setTier t { L.tierSlots t with dev := none, eid := none, lastUsed := 0 }

/-- `tier_free_index` -/
def tierFreeIndex : Option ℕ := (List.range L.tierCap).find? fun t => (L.tierSlots t).eid.isNone

/-- The expert of LRU slot `i` takes tier slot `dst`. -/
def placeTier (dst e : ℕ) (placed : MoeExpertSlot) : MoeStreamLayer :=
  (L.setTier dst placed).mapTier e (some dst)

/-- `tier_promote` of LRU slot `i`. `victim` is the weakest tier slot, if the expert beats it. -/
def tierPromote (i : ℕ) (victim : Option ℕ) (uploaded copied : Bool) (clock : UInt64) :
    MoeStreamLayer :=
  match (L.lruSlots i).eid with
  | none => L
  | some e =>
    let placed := tierUpload (L.lruSlots i) e
    match L.tierFreeIndex, victim with
    | some dst, _ =>
      if uploaded then (L.lruSlotClear i clock).placeTier dst e placed else L
    | none, some v =>
      match (L.tierSlots v).eid with
      | none => L
      | some ve =>
        if uploaded then
          let L' := L.lruSlotRefill i ve copied clock
          if copied then ((L'.mapTier ve none).tierRelease v).placeTier v e placed else L'
        else L
    | none, none => L

/-- `tier_demote` of tier slot `t` -/
def tierDemote (t : ℕ) (copied : Bool) (clock : UInt64) : MoeStreamLayer :=
  match (L.tierSlots t).eid with
  | none => L
  | some e =>
    match L.layerInsertLru e clock with
    | (L', none) => L'
    | (L', some i) =>
      let tmp := (L'.lruSlots i).fromExpertDesc e
      if copied then
        ((L'.setLru i { tmp with heapBuf := some e, ioReady := true }).mapTier e none).tierRelease t
      else
        let L' := L'.lruSlotClear i clock
        L'.setLru i { L'.lruSlots i with ioReady := true }

end MoeStreamLayer

/-- `moe_miss_entry`: the slot the fetch is for, its generation and a copy of it. -/
structure MoeMissEntry where
  eid : ℕ
  slot : Option ℕ
  gen : ℕ
  tmp : MoeExpertSlot
deriving DecidableEq

/-- `miss_commit`; `fetched` says that all of the weights could be read. -/
def MoeStreamLayer.missCommit (L : MoeStreamLayer) (me : MoeMissEntry) (fetched : Bool) :
    MoeStreamLayer :=
  match me.slot with
  | none => L
  | some i =>
    let s := L.lruSlots i
    if s.gen = me.gen then
      if fetched then
        if s.inuse = 0 then
          L.setLru i { me.tmp with
            heapBuf := me.tmp.eid, ioReady := true, inuse := me.tmp.inuse + 1 }
        else L
      else
        let L' :=
          if s.inuse = 0 then
            let L' := if s.pinned then L else if i < L.nLru then L.unmapLru i else L
            L'.setLru i { s with eid := if s.pinned then s.eid else none, heapBuf := none }
          else L
        L'.setLru i { L'.lruSlots i with ioReady := true }
    else L

/-- A layer with the misses whose fetch is under way. -/
structure MoeStream where
  layer : MoeStreamLayer
  misses : List MoeMissEntry

/-- The operations on a layer. The tier's take the slots its policy has chosen, `uploaded`,
`copied` and `fetched` say which of their transfers succeed. -/
inductive MoeOp
  | lookup (e : ℕ) (now : UInt64)
  | miss (e : ℕ) (now : UInt64)
  | commit (k : ℕ) (fetched : Bool)
  | release (e : ℕ)
  | evict (i : ℕ) (clock : UInt64)
  | promote (i : ℕ) (victim : Option ℕ) (uploaded copied : Bool) (clock : UInt64)
  | demote (t : ℕ) (copied : Bool) (clock : UInt64)
deriving DecidableEq

namespace MoeStream

def init (lruCap tierCap : ℕ) (pins : List (ℕ × PinResult)) : MoeStream :=
  ⟨.init lruCap tierCap pins, []⟩

/-- A miss of `resolve_collect_misses`: the expert was not found under the same lock. -/
def miss (s : MoeStream) (e : ℕ) (now : UInt64) : MoeStream :=
  match s.layer.layerInsertLru e now with
  | (L, none) => ⟨L, s.misses ++ [⟨e, none, 0, MoeExpertSlot.zero.fromExpertDesc e⟩]⟩
  | (L, some i) =>
    let slot := (L.lruSlots i).fromExpertDesc e
    ⟨L.setLru i slot, s.misses ++ [⟨e, some i, slot.gen, slot⟩]⟩

/-- Operations that do not apply change nothing. -/
def apply (s : MoeStream) : MoeOp → MoeStream
  | .lookup e now => { s with layer := s.layer.takeReady e now }
  | .miss e now => if s.layer.liveSlotFind e = none then s.miss e now else s
  | .commit k fetched =>
    match s.misses[k]? with
    | some me => ⟨s.layer.missCommit me fetched, s.misses.eraseIdx k⟩
    | none => s
  | .release e => { s with layer := s.layer.release e }
  | .evict i clock =>
    if i < s.layer.nLru ∧ (s.layer.lruSlots i).movable then
      { s with layer := s.layer.lruSlotClear i clock }
    else s
  | .promote i victim uploaded copied clock =>
    if i < s.layer.nLru ∧ (s.layer.lruSlots i).movable ∧
        (∀ v ∈ victim, v < s.layer.tierCap ∧ (s.layer.tierSlots v).movable) then
      { s with layer := s.layer.tierPromote i victim uploaded copied clock }
    else s
  | .demote t copied clock =>
    if t < s.layer.tierCap ∧ (s.layer.tierSlots t).movable then
      { s with layer := s.layer.tierDemote t copied clock }
    else s

end MoeStream

end Kappai
