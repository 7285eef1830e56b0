import Kappai.Lib.OwnedHeap
import Kappai.Sanity.MemPlan

/-! The buffers of the slots of a batch scratch: views of its arena, and buffers of their own. -/

namespace Kappai

namespace BatchScratch

open OwnedHeap

/-- A place in an allocation. -/
structure Ptr where
  alloc : ℕ
  off : ℕ
deriving DecidableEq

/-- `buffer`, without the pointer for the host. -/
structure Buffer (β : Type) where
  handle : Option Ptr
  size : ℕ
  offset : ℕ
  owner : Option β
deriving DecidableEq

/-- `float_buf`, its capacity in floats. -/
structure FloatBuf where
  p : Option ℕ
  cap : ℕ
deriving DecidableEq

/-- An allocation of the host, or of the device of a backend. -/
structure Alloc (β : Type) where
  owner : Option β
  size : ℕ
deriving DecidableEq

/-- `bs_pair` -/
structure Pair (β : Type) where
  b : Buffer β
  fb : FloatBuf

variable {β : Type}

def Buffer.zero : Buffer β := ⟨none, 0, 0, none⟩

def FloatBuf.zero : FloatBuf := ⟨none, 0⟩

/-- What `batch_scratch` has for the slots, with the memory that it is allocated in. -/
structure Scratch (β : Type) where
  pair : Slot → Pair β
  own : Slot → Bool
  arena : Buffer β
  arenaHost : FloatBuf
  arenaBytes : ℕ
  layout : Option MemLayout
  heap : Heap (Alloc β)

def Scratch.init : Scratch β :=
  ⟨fun _ => ⟨Buffer.zero, FloatBuf.zero⟩, fun _ => false, Buffer.zero, FloatBuf.zero, 0, none, Heap.empty⟩

/-- `buffer_release`, in the memory. -/
def release (h : Heap (Alloc β)) (b : Buffer β) : Heap (Alloc β) :=
  match b.owner, b.handle with
  | some _, some q => h.free q.alloc
  | _, _ => h

/-- `free` of the floats -/
def freeFloats (h : Heap (Alloc β)) (fb : FloatBuf) : Heap (Alloc β) :=
  match fb.p with
  | some i => h.free i
  | none => h

/-- `float_buf_ensure_nocopy`; the memory of the host does not run out. -/
def floatBufEnsure (h : Heap (Alloc β)) (fb : FloatBuf) (need : ℕ) : Heap (Alloc β) × FloatBuf :=
  if need > fb.cap then
    let h := freeFloats h fb
    (h.alloc ⟨none, 4 * need⟩, ⟨some h.next, need⟩)
  else (h, fb)

section Slots

variable [DecidableEq β] (isHost : β → Bool)

/-- A buffer of the device of some backend. -/
def Buffer.onDevice (b : Buffer β) : Bool := b.owner.any fun o => !isHost o

/-- `bs_ensure_detached`, with whether the buffer is fresh. -/
def ensureDetached (bs : Scratch β) (owner : β) (slot : Slot) (nElems : ℕ) (ok : Bool) : Scratch β × Bool :=
  let p := bs.pair slot
  let bytes := sizeT (nElems * 4)
  let bs := { bs with own := Function.update bs.own slot true }
  if isHost owner then
    let foreign := p.b.handle.isSome && p.b.owner.any (fun o => decide (o ≠ owner) && !isHost o)
    let heap := if foreign then release bs.heap p.b else bs.heap
    let b := if foreign then Buffer.zero else p.b
    let f := floatBufEnsure heap p.fb nElems
    ({ bs with
        pair := Function.update bs.pair slot ⟨⟨f.2.p.map (⟨·, 0⟩), bytes, 0, some owner⟩, f.2⟩
        heap := f.1 },
      b.handle.isNone || decide (f.2.cap > p.fb.cap))
  else if p.b.owner = some owner ∧ p.b.handle.isSome ∧ bytes ≤ p.b.size then (bs, false)
  else
    let heap := if p.b.handle.isSome && p.b.onDevice isHost then release bs.heap p.b else bs.heap
    if ok then
      ({ bs with
          pair := Function.update bs.pair slot ⟨⟨some ⟨heap.next, 0⟩, bytes, 0, some owner⟩, p.fb⟩
          heap := heap.alloc ⟨some owner, bytes⟩ }, true)
    else ({ bs with pair := Function.update bs.pair slot ⟨Buffer.zero, p.fb⟩, heap := heap }, true)

def Scratch.cap (bs : Scratch β) (slot : Slot) : ℕ := bs.layout.elim 0 fun l => l.cap slot

/-- The slot is taken where the plan has it. -/
def Scratch.InPlan (bs : Scratch β) (slot : Slot) (nElems : ℕ) : Prop :=
  bs.cap slot ≠ 0 ∧ bs.own slot = false ∧ sizeT (nElems * 4) ≤ bs.cap slot

instance (bs : Scratch β) (slot : Slot) (nElems : ℕ) : Decidable (bs.InPlan slot nElems) :=
  inferInstanceAs (Decidable (_ ∧ _))

/-- `bs_ensure_slot` -/
def ensureSlot (bs : Scratch β) (owner : β) (slot : Slot) (nElems : ℕ) (ok : Bool) : Scratch β × Bool :=
  if bs.cap slot ≠ 0 ∧ bs.own slot = false then
    if sizeT (nElems * 4) ≤ bs.cap slot then (bs, false)
    else
      let bs := { bs with pair := Function.update bs.pair slot ⟨Buffer.zero, (bs.pair slot).fb⟩ }
      ensureDetached isHost bs owner slot nElems ok
  else ensureDetached isHost bs owner slot nElems ok

/-- `bs_release_slot` -/
def releaseSlot (bs : Scratch β) (slot : Slot) : Scratch β :=
  let p := bs.pair slot
  let heap := if bs.own slot && p.b.onDevice isHost then release bs.heap p.b else bs.heap
  { bs with
    pair := Function.update bs.pair slot ⟨Buffer.zero, FloatBuf.zero⟩
    own := Function.update bs.own slot false
    heap := freeFloats heap p.fb }

/-- `bs_arena_ensure` -/
def arenaEnsure (bs : Scratch β) (owner : β) (bytes : ℕ) (ok : Bool) : Scratch β :=
  if bs.arenaBytes ≥ bytes then bs
  else if isHost owner then
    let f := floatBufEnsure bs.heap bs.arenaHost (bytes / 4)
    { bs with arenaHost := f.2, arenaBytes := bytes, heap := f.1 }
  else
    let heap := release bs.heap bs.arena
    if ok then
      { bs with
        arena := ⟨some ⟨heap.next, 0⟩, bytes, 0, some owner⟩
        arenaBytes := bytes
        heap := heap.alloc ⟨some owner, bytes⟩ }
    else { bs with arena := Buffer.zero, arenaBytes := 0, heap := heap }

/-- `bs_arena_view` -/
def arenaView (bs : Scratch β) (owner : β) (offset bytes : ℕ) : Buffer β :=
  if isHost owner then ⟨bs.arenaHost.p.map (⟨·, offset⟩), bytes, 0, some owner⟩
  else { bs.arena with offset := bs.arena.offset + offset, size := bytes }

/-- A slot of `bs_bind_views` -/
def bindSlot (owner : β) (l : MemLayout) (bs : Scratch β) (slot : Slot) : Scratch β :=
  if l.cap slot = 0 then bs
  else
    let bs := if bs.own slot then releaseSlot isHost bs slot else bs
    let b := arenaView isHost bs owner (l.offset slot) (l.cap slot)
    { bs with pair := Function.update bs.pair slot ⟨b, (bs.pair slot).fb⟩ }

/-- `batch_scratch_bind`, with the layout that `mem_layout_get` computes. -/
def bind (bs : Scratch β) (p : MemPlan) (owner : β) (nRows : ℤ) (ok : Bool) : Scratch β :=
  let l := MemLayout.compute p nRows
  let bs := arenaEnsure isHost { bs with layout := some l } owner l.total ok
  Slot.all.foldl (bindSlot isHost owner l) bs

/-- A pass begins, or an op takes a slot for a backend; each with whether the device has the memory. -/
inductive Op (β : Type)
  | prepare (nRows : ℤ) (ok : Bool)
  | ensure (owner : β) (slot : Slot) (nElems : ℕ) (ok : Bool)

/-- A step of a scratch that belongs to the backend `a`. -/
def step (p : MemPlan) (a : β) (bs : Scratch β) : Op β → Scratch β
  | .prepare nRows ok => bind isHost bs p a nRows ok
  | .ensure owner slot nElems ok => (ensureSlot isHost bs owner slot nElems ok).1

/-- A buffer is live, is the backend's, and has the bytes. -/
def Usable (h : Heap (Alloc β)) (b : Buffer β) (owner : β) (bytes : ℕ) : Prop :=
  b.owner = some owner ∧ bytes ≤ b.size ∧ ∃ q ∈ b.handle, ∃ r, h.live q.alloc = some r ∧
    r.owner = (if isHost owner then none else some owner) ∧ q.off + b.offset + b.size ≤ r.size

/-- Two buffers do not overlap. -/
def Apart (b c : Buffer β) : Prop :=
  ∀ q ∈ b.handle, ∀ r ∈ c.handle, q.alloc = r.alloc →
    q.off + b.offset + b.size ≤ r.off + c.offset ∨ r.off + c.offset + c.size ≤ q.off + b.offset

/-- The slots that the plan has apart are apart. -/
def SlotsApart (bs : Scratch β) : Prop :=
  ∀ l ∈ bs.layout, ∀ s t, s ≠ t → l.cap s ≠ 0 → l.cap t ≠ 0 →
    (l.offset s + l.cap s ≤ l.offset t ∨ l.offset t + l.cap t ≤ l.offset s) →
    Apart (bs.pair s).b (bs.pair t).b

/-- What an op relies on once it has taken its slot. -/
def Relied (bs : Scratch β) : Op β → Prop
  | .prepare _ _ => SlotsApart bs
  | .ensure owner slot nElems _ =>
    SlotsApart bs ∧ (0 < nElems → Usable isHost bs.heap (bs.pair slot).b owner (4 * nElems))

/-- The device is asked for a buffer for the slot. -/
def Asks (bs : Scratch β) (owner : β) (slot : Slot) (nElems : ℕ) : Prop :=
  isHost owner = false ∧ ¬ bs.InPlan slot nElems ∧
    ¬ (bs.own slot = true ∧ (bs.pair slot).b.owner = some owner ∧ (bs.pair slot).b.handle.isSome ∧
      sizeT (nElems * 4) ≤ (bs.pair slot).b.size)

instance (bs : Scratch β) (owner : β) (slot : Slot) (nElems : ℕ) : Decidable (Asks isHost bs owner slot nElems) :=
  inferInstanceAs (Decidable (_ ∧ _))

/-- Sizes do not wrap; a slot in the arena is taken by the backend of the scratch, and the arena was there
when it was last asked for; a slot outside it gets its buffer where one is asked for. -/
def Sound (p : MemPlan) (a : β) (bs : Scratch β) : Op β → Prop
  | .prepare nRows _ => nRows ≤ 2147483584 ∧ p.arenaBytes nRows < 2 ^ 64
  | .ensure owner slot nElems ok => 4 * nElems < 2 ^ 64 ∧
      (bs.InPlan slot nElems → owner = a ∧ ∀ l ∈ bs.layout, l.total ≤ bs.arenaBytes) ∧
      (Asks isHost bs owner slot nElems → ok = true)

instance (p : MemPlan) (a : β) (bs : Scratch β) (op : Op β) : Decidable (Sound isHost p a bs op) :=
  match op with
  | .prepare _ _ => inferInstanceAs (Decidable (_ ∧ _))
  | .ensure _ _ _ _ => inferInstanceAs (Decidable (_ ∧ (_ → _ ∧ _) ∧ (_ → _)))

def ReliedRun (p : MemPlan) (a : β) : Scratch β → List (Op β) → Prop
  | _, [] => True
  | bs, op :: ops => Relied isHost (step isHost p a bs op) op ∧ ReliedRun p a (step isHost p a bs op) ops

def SoundRun (p : MemPlan) (a : β) : Scratch β → List (Op β) → Prop
  | _, [] => True
  | bs, op :: ops => Sound isHost p a bs op ∧ SoundRun p a (step isHost p a bs op) ops

end Slots

end BatchScratch

end Kappai
