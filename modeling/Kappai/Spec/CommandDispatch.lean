import Kappai.Spec.CommandRing

/-! Dispatches of the Vulkan backend: the barriers that are recorded before one, the cache its
descriptor set comes from, and what is remembered of it afterwards. -/

namespace Kappai

open VkPriv Proc

/-- The sets that wait to be freed are freed when there is no room for another. 1024 is the size of
`pending_free_sets`. -/
def vkDescFreeRoom : VkM Unit := do
  let s ← get
  if 1024 ≤ s.pendingFreeSets.length then
    match ← outcome vkFlush with
    | .error _ => modify fun s => { s with pendingFreeSets := [] }
    | .ok _ =>
      let s ← get
      if 1024 ≤ s.pendingFreeSets.length then
        vkFreeDescriptorSets s.pendingFreeSets
        modify fun s => { s with pendingFreeSets := [] }

def vkQueueDescFree (set : ℕ) : VkM Unit := do
  if set = 0 then return
  modify fun s => { s with pendingFreeAfter := max s.pendingFreeAfter s.lastSignalValue }
  vkDescFreeRoom
  modify fun s => { s with pendingFreeSets := s.pendingFreeSets ++ [set] }

def modifyDesc (pipeline slot : ℕ) (f : VkDescSlot → VkDescSlot) : VkM Unit := modify fun s => { s with
  descCache := setAt s.descCache pipeline
    (setAt (s.descCache pipeline) slot (f (s.descCache pipeline slot))) }

/-- An entry is given up: its set is to be freed. -/
def vkDescDrop (pipeline slot : ℕ) : VkM Unit := do
  let s ← get
  vkQueueDescFree (s.descCache pipeline slot).set
  modifyDesc pipeline slot fun e => { e with valid := false, set := 0 }

/-- `vk_desc_cache_drop_buf`; 256 is `VK_DESC_CACHE_CAP`. -/
def vkDescCacheDropBuf (freed pipeline : ℕ) : VkM Unit :=
  (List.range 256).forM fun slot => do
    let s ← get
    let e := s.descCache pipeline slot
    if e.valid && (List.range (s.setup.nBindings pipeline)).any fun k => e.bufs k == freed then
      vkDescDrop pipeline slot

/-- `vk_invalidate_desc_cache_for_buf`; 64 is `VK_DEAD_BUF_CAP`. -/
def vkInvalidateDescCacheForBuf (freed : ℕ) : VkM Unit := do
  let s ← get
  if s.totalDescAllocs = 0 then return
  if s.deadBufs.length < 64 then
    if !s.deadBufs.contains freed then
      modify fun s => { s with deadBufs := s.deadBufs ++ [freed] }
  else
    s.setup.walked.forM (vkDescCacheDropBuf freed)
    modify fun s => { s with deadBufs := [] }

/-- `vk_alloc_buffer`: the driver may give out any handle that no live buffer has. -/
def vkAllocBuffer (handle : ℕ) : VkM Unit := modify fun s =>
  if handle = 0 ∨ (s.live handle).isSome then s
  else { s with live := setAt s.live handle (some s.created), created := s.created + 1 }

/-- `vk_free_buffer` of the live buffer with this handle. -/
def vkFreeBuffer (handle : ℕ) : VkM Unit := do
  let s ← get
  if (s.live handle).isNone then return
  vkInvalidateDescCacheForBuf handle
  modify fun s => { s with live := setAt s.live handle none }

/-- The arguments of `vk_dispatch_ex`. A buffer that was freed has the handle 0. -/
structure VkDispatch where
  pipeline : ℕ
  bufs : List ℕ
  offs : ℕ → ℕ
  ranges : ℕ → Option ℕ
  writeMask : ℕ
  batchActive : Bool
  groupsFit : Bool

namespace VkDispatch

variable (d : VkDispatch)

def writes (i : ℕ) : Bool := d.writeMask.testBit i

/-- The buffers that it writes, in order. -/
def written : List ℕ := (d.bufs.zipIdx.filter fun e => d.writes e.2).map Prod.fst

def read : List ℕ := (d.bufs.zipIdx.filter fun e => !d.writes e.2).map Prod.fst

def uses : List (ℕ × Bool) := d.bufs.zipIdx.map fun e => (e.1, d.writes e.2)

/-- `fnv1a_update` with the eight bytes of `x`; a hash is a 64-bit number. -/
def fnv1aUpdate (h x : ℕ) : ℕ :=
  (List.range 8).foldl (fun h i => Nat.xor h (x / 256 ^ i % 256) * 0x100000001b3 % 2 ^ 64) h

/-- `vk_desc_hash`, from `FNV1A_OFFSET_BASIS` on. -/
def hash : ℕ :=
  d.bufs.zipIdx.foldl (fun h e => fnv1aUpdate (fnv1aUpdate h e.1) (d.offs e.2)) 0xcbf29ce484222325

/-- What the dispatch is to be given. -/
def wants (s : VkPriv) : List VkBinding := d.bufs.zipIdx.map fun e =>
  ⟨e.1, (s.live e.1).getD 0, d.offs e.2, d.ranges e.2⟩

/-- `memcmp` of an entry's buffers and offsets. -/
def matchesSlot (e : VkDescSlot) : Bool :=
  d.bufs.zipIdx.all fun b => e.bufs b.2 == b.1 && e.offs b.2 == d.offs b.2

end VkDispatch

def vkFlushLimit (s : VkPriv) (d : VkDispatch) : ℕ :=
  if s.setup.mobile then 256 else if d.batchActive then 4096 else 256

/-- The switch to the next command buffer when this one has enough dispatches. -/
def vkDispatchSwitch (d : VkDispatch) : VkM Unit := do
  let s ← get
  if vkFlushLimit s d ≤ s.pendingDispatches then
    vkRunCmd
    vkRingResume

/-- The checks of `vk_dispatch_ex`; 16 is `VK_MAX_BINDINGS`. -/
def vkDispatchBegin (d : VkDispatch) : VkM Unit := do
  let s ← get
  if s.deviceLost then throw .internal
  if !d.groupsFit then throw .invalidArg
  vkRingResume
  vkDispatchSwitch d
  if 16 < d.bufs.length then throw .invalidArg
  let s ← get
  if d.bufs.any fun b => b == 0 || (s.live b).isNone then throw .invalidArg

namespace VkHazards

/-- The loop over the buffers with writes that no barrier covers: the buffers to put into the barrier. -/
def takeDirty (h : VkHazards) : List ℕ → List ℕ × VkHazards
  | [] => ([], h)
  | buf :: bufs =>
    if h.vkDirtyLookup buf then
      let r := (h.vkDirtyRemove buf).takeDirty bufs
      (buf :: r.1, r.2)
    else h.takeDirty bufs

/-- The barrier over everything if the dispatch writes what was read. -/
def warBarrier (h : VkHazards) (d : VkDispatch) : List VkCmd × VkHazards :=
  if d.written.any h.vkReadsHas then ([.barrier], h.vkDirtyClear) else ([], h)

/-- The barriers over the buffers whose writes it is to see. -/
def dirtyBarriers (h : VkHazards) (bufs : List ℕ) : List VkCmd × VkHazards :=
  if h.dirtyCount = 0 then ([], h)
  else
    let r := h.takeDirty bufs
    let h' := if r.1 = [] then r.2 else r.2.vkReadsClear
    (if r.1 = [] then [] else [.bufferBarriers r.1],
      if h'.dirtyCount = 0 then h'.vkDirtyClear else h')

/-- The barriers before a dispatch. -/
def before (h : VkHazards) (d : VkDispatch) : List VkCmd × VkHazards :=
  let r := h.warBarrier d
  let r' := r.2.dirtyBarriers d.bufs
  (r.1 ++ r'.1, r'.2)

/-- `vk_dirty_add` for one buffer; 128 is `VK_DIRTY_MAX`. -/
def dirtyAddBuf (h : VkHazards) (buf : ℕ) : List VkCmd × VkHazards :=
  let full := 128 ≤ h.dirtyCount
  let h := if full then h.vkDirtyClear else h
  (if full then [.barrier] else [], if h.vkDirtyLookup buf then h else h.vkDirtyInsert buf)

/-- `vk_dirty_add` -/
def vkDirtyAdd (h : VkHazards) : List ℕ → List VkCmd × VkHazards
  | [] => ([], h)
  | buf :: bufs =>
    let r := h.dirtyAddBuf buf
    let rest := r.2.vkDirtyAdd bufs
    (r.1 ++ rest.1, rest.2)

/-- What is remembered of a dispatch. -/
def after (h : VkHazards) (d : VkDispatch) : List VkCmd × VkHazards :=
  let r := h.vkDirtyAdd d.written
  (r.1, d.read.foldl vkReadsAdd r.2)

end VkHazards

/-- The barriers are recorded with what is remembered after them. -/
def modifyHazards (f : VkHazards → List VkCmd × VkHazards) : VkM Unit := do
  let s ← get
  let r := f s.hazards
  modify fun s => { s with hazards := r.2 }
  r.1.forM vkCmd

/-- The search for an entry: the one that matches, else the first free slot and the least recently used
one. 32 is `VK_DESC_PROBE_MAX`; a tick is a 64-bit number. -/
structure VkProbe where
  hit : Option ℕ
  missSlot : Option ℕ
  lruSlot : ℕ
  lruTick : ℕ

def vkDescProbe (d : VkDispatch) (cache : ℕ → VkDescSlot) : List ℕ → VkProbe → VkProbe
  | [], r => r
  | idx :: rest, r =>
    let e := cache idx
    let older : VkProbe :=
      if e.lastUsed < r.lruTick then { r with lruTick := e.lastUsed, lruSlot := idx } else r
    if !e.valid then vkDescProbe d cache rest { r with missSlot := some (r.missSlot.getD idx) }
    else if e.hash ≠ d.hash then vkDescProbe d cache rest older
    else if d.matchesSlot e then { r with hit := some idx }
    else vkDescProbe d cache rest older

/-- The search in the order of the dispatch's hash. -/
def VkDispatch.probe (d : VkDispatch) (cache : ℕ → VkDescSlot) : VkProbe :=
  vkDescProbe d cache ((List.range 32).map fun i => (d.hash % 256 + i) % 256) ⟨none, none, 0, 2 ^ 64 - 1⟩

/-- The entries that name a dead buffer are given up; the first slot that is free then. -/
def vkDescPurge (d : VkDispatch) : List ℕ → Option ℕ → VkM (Option ℕ)
  | [], miss => return miss
  | idx :: rest, miss => do
    let s ← get
    let e := s.descCache d.pipeline idx
    if !e.valid then vkDescPurge d rest (some (miss.getD idx))
    else if (List.range d.bufs.length).any fun b => s.deadBufs.contains (e.bufs b) then
      vkDescDrop d.pipeline idx
      vkDescPurge d rest (some (miss.getD idx))
    else vkDescPurge d rest miss

/-- A new descriptor set in a slot of the cache. The driver gives out a handle that no allocated set
has. -/
def vkDescAlloc (d : VkDispatch) (slot : ℕ) : VkM ℕ := do
  let s ← get
  let e := s.descCache d.pipeline slot
  if e.valid && e.set != 0 then
    vkDescDrop d.pipeline slot
  let a ← ask
  vkCheck a
  let s ← get
  let set :=
    if a.handle = 0 ∨ s.sets.any (fun e => e.1 == a.handle) then
      s.sets.foldl (fun r e => max r (e.1 + 1)) 1
    else a.handle
  modify fun s => { s with
    totalDescAllocs := s.totalDescAllocs + 1
    sets := s.sets ++ [(set, d.wants s)]
    descTick := s.descTick + 1 }
  let s ← get
  modifyDesc d.pipeline slot fun e => { e with
    set := set
    bufs := fun i => d.bufs.getD i (e.bufs i)
    offs := fun i => if i < d.bufs.length then d.offs i else e.offs i
    hash := d.hash
    valid := true
    lastUsed := s.descTick }
  return set

def vkDispatchSet (d : VkDispatch) : VkM ℕ := do
  let s ← get
  if d.bufs.any fun b => s.deadBufs.contains b then
    let miss ← vkDescPurge d (List.range 256) none
    vkDescAlloc d (miss.getD 0)
  else
    let r := d.probe (s.descCache d.pipeline)
    match r.hit with
    | some idx =>
      modify fun s => { s with descTick := s.descTick + 1 }
      let s ← get
      modifyDesc d.pipeline idx fun e => { e with lastUsed := s.descTick }
      return (s.descCache d.pipeline idx).set
    | none => vkDescAlloc d (r.missSlot.getD r.lruSlot)

/-- The descriptor set that the commands of a buffer leave bound. -/
def boundSet (cmds : List VkCmd) : Option ℕ :=
  cmds.foldl (fun r c =>
    match c with
    | .bindSet set => some set
    | _ => r) none

def vkBindPipeline (pipeline : ℕ) : VkM Unit := do
  let s ← get
  if s.lastPipeline ≠ pipeline then
    vkCmd (.bindPipeline pipeline)
    modify fun s => { s with lastPipeline := pipeline, lastDescPipelineMatch := false }

def vkBindSet (set : ℕ) : VkM Unit := do
  let s ← get
  if !s.lastDescPipelineMatch || s.lastDescSet ≠ set then
    vkCmd (.bindSet set)
    modify fun s => { s with lastDescSet := set, lastDescPipelineMatch := true }

def vkDispatchRecord (d : VkDispatch) (set : ℕ) : VkM Unit := do
  vkBindPipeline d.pipeline
  vkBindSet set
  let s ← get
  let cmds := (s.cmd.map fun idx => (s.ring idx).cmds).getD []
  vkCmd (.dispatch d.uses (d.wants s) ((boundSet cmds).bind fun set =>
    (s.sets.find? fun e => e.1 == set).map Prod.snd))

/-- `vk_dirty_add` and what follows it. -/
def vkDispatchNote (d : VkDispatch) : VkM Unit := do
  modifyHazards fun h => h.after d
  modify fun s => { s with pendingDispatches := s.pendingDispatches + 1 }
  let s ← get
  modifySlot s.ringCur fun r => { r with hasWork := true }

/-- `vk_dispatch_ex` up to `vk_dirty_add` -/
def vkDispatchCmds (d : VkDispatch) : VkM Unit := do
  vkDispatchBegin d
  modifyHazards fun h => h.before d
  let set ← vkDispatchSet d
  vkDispatchRecord d set

def vkDispatchEx (d : VkDispatch) : VkM Unit := do
  vkDispatchCmds d
  vkDispatchNote d

/-- The operations on a device, each with the driver's answers to its calls. -/
inductive VkOp
  | dispatch (d : VkDispatch)
  | flush
  | runCmd
  | alloc (handle : ℕ)
  | free (handle : ℕ)

namespace VkPriv

def op : VkOp → VkM Unit
  | .dispatch d => vkDispatchEx d
  | .flush => vkFlush
  | .runCmd => vkRunCmd
  | .alloc handle => vkAllocBuffer handle
  | .free handle => vkFreeBuffer handle

def step (s : VkPriv) (a : VkOp × List VkAnswer) : VkPriv :=
  (Proc.exec (op a.1) { s with answers := a.2 }).2

end VkPriv

end Kappai
