import Kappai.Lib.Loop
import Kappai.Spec.MoeExperts

/-! Calls side by side on one layer, those of `moe_stream_resolve` and those that
`moe_stream_resolve_prep` starts. A step is one id of the loop a call is in, so other calls may go
between two ids where the source holds the lock. -/

namespace Kappai

/-- The slot of the next id has been waited for where `waited`. -/
inductive MoePhase
  | scan (todo : List ℕ) (waited : Bool)
  | collect (todo : List ℕ) (waited : Bool)
  | rewait (todo : List ℕ)
  | fetch
  | final (todo : List ℕ) (waited : Bool)
  | done
deriving DecidableEq

/-- `deps`: the misses that depend on a primary one, with the out slot of each and the primary's. -/
structure MoeTask where
  prep : Bool
  call : MoeCall
  deps : List (ℕ × ℕ)
  phase : MoePhase

/-- A lookup after a wait: the out slot is marked invalid if the slot is still not ready. -/
def MoeCall.takeOrInvalid (c : MoeCall) (L : MoeStreamLayer) (k : ℕ) : MoeStreamLayer × MoeCall :=
  match c.id k with
  | none => (L, c.setOut k .invalid)
  | some e =>
    match L.lookup e c.now with
    | (L', .ready out) => (L', c.setOut k out)
    | (L', _) => (L', c.setOut k .invalid)

namespace MoeTask

def start (prep : Bool) (ids : List (Option ℕ)) (now : UInt64) : MoeTask :=
  ⟨prep, .start ids now, [], .scan (List.range ids.length) false⟩

variable (t : MoeTask)

/-- The call is through with an id. -/
def next (phase : MoePhase) (s : MoeStreamLayer × MoeCall) : MoeStreamLayer × MoeTask :=
  (s.1, { t with call := s.2, phase := phase })

/-- The call waits for a slot. -/
def await (phase : MoePhase) (L : MoeStreamLayer) : MoeStreamLayer × MoeTask :=
  (L, { t with phase := phase })

/-- One id of `resolve_scan_hits`; `moe_stream_resolve_prep` waits for a slot that is not ready. -/
def scan (L : MoeStreamLayer) (k : ℕ) (todo : List ℕ) : MoeStreamLayer × MoeTask :=
  match t.prep, (t.call.id k).map (L.lookup · t.call.now) with
  | true, some (L', .notReady) => t.await (.scan (k :: todo) true) L'
  | _, _ => t.next (.scan todo false) (t.call.scanHit L k)

/-- One id of `resolve_collect_misses`; without a wait list a slot that is not ready makes the id
depend on the first miss of the call for its expert, or is waited for. -/
def collect (L : MoeStreamLayer) (k : ℕ) (todo : List ℕ) : MoeStreamLayer × MoeTask :=
  match t.prep, (t.call.id k).map (L.lookup · t.call.now) with
  | true, some (L', .notReady) =>
    match t.call.misses.find? fun m => some m.entry.eid == t.call.id k with
    | some m => (L', { t with deps := t.deps ++ [(k, m.k)], phase := .collect todo false })
    | none => t.await (.collect (k :: todo) true) L'
  | _, _ => t.next (.collect todo false) (t.call.collectMiss L k)

/-- One id of the last wait loop of `moe_stream_resolve`, before the wait. -/
def final (L : MoeStreamLayer) (k : ℕ) (todo : List ℕ) : MoeStreamLayer × MoeTask :=
  match (t.call.id k).map (L.lookup · t.call.now) with
  | some (L', .ready out) => t.next (.final todo false) (L', t.call.setOut k out)
  | some (L', _) => t.await (.final (k :: todo) true) L'
  | none => t.await (.final todo false) L

def step (L : MoeStreamLayer) : MoeStreamLayer × MoeTask :=
  match t.phase with
  | .scan (k :: todo) true => t.next (.scan todo false) (t.call.takeOrInvalid L k)
  | .scan (k :: todo) false => t.scan L k todo
  | .scan [] _ => t.await (.collect t.call.need false) L
  | .collect (k :: todo) true => t.next (.collect todo false) (t.call.takeOrInvalid L k)
  | .collect (k :: todo) false => t.collect L k todo
  | .collect [] _ => t.await (.rewait t.call.waits) L
  | .rewait (k :: todo) => t.next (.rewait todo) (t.call.rewaitMiss L k)
  | .rewait [] => t.await .fetch L
  | .fetch =>
    if t.call.misses = [] ∧ t.deps = [] then t.await (.final t.call.waits false) L else (L, t)
  | .final (k :: todo) true => t.next (.final todo false) (t.call.finalWait L k)
  | .final (k :: todo) false => t.final L k todo
  | .final [] _ => t.await .done L
  | .done => (L, t)

/-- The fetch of a primary miss is over. -/
def commit (L : MoeStreamLayer) (j : ℕ) (fetched : Bool) : MoeStreamLayer × MoeTask :=
  match t.phase, t.call.misses[j]? with
  | .fetch, some m => t.next .fetch (t.call.commitMiss L m fetched)
  | _, _ => (L, t)

/-- `moe_stream_op_finalize_miss` of a miss that depends on another, here at any time. -/
def finalizeDep (L : MoeStreamLayer) (j : ℕ) : MoeStreamLayer × MoeTask :=
  match t.phase, t.deps[j]? with
  | .fetch, some d =>
    let s := t.call.takeOrInvalid L d.1
    (s.1, { t with call := s.2, deps := t.deps.eraseIdx j, phase := .fetch })
  | _, _ => (L, t)

end MoeTask

/-- One slot of `moe_stream_release_slots`. Where the caller `frees`, it has freed its private buffers
and marked their slots invalid before. -/
def MoeStreamLayer.releaseOut (L : MoeStreamLayer) (frees : Bool) (o : MoeOutSlot) :
    MoeStreamLayer :=
  if frees && o.owned then L
  else
    match o.slot.eid with
    | some e => L.release e
    | none => L

/-- The caller of a finished call gives back its next out slot. -/
def MoeTask.release (t : MoeTask) (L : MoeStreamLayer) (frees : Bool) : MoeStreamLayer × MoeTask :=
  match t.phase, t.call.outs with
  | .done, o :: outs => (L.releaseOut frees o, { t with call := { t.call with outs := outs } })
  | _, _ => (L, t)

/-- The moves of the tier, and the eviction it does for room. -/
def MoeOp.isTier : MoeOp → Bool
  | .evict _ _ => true
  | .promote _ _ _ _ _ => true
  | .demote _ _ _ => true
  | _ => false

structure MoeSystem where
  layer : MoeStreamLayer
  tasks : List MoeTask

inductive MoeAct
  | start (prep : Bool) (ids : List (Option ℕ)) (now : UInt64)
  | step (i : ℕ)
  | commit (i j : ℕ) (fetched : Bool)
  | finalizeDep (i j : ℕ)
  | release (i : ℕ) (frees : Bool)
  | tier (op : MoeOp)
deriving DecidableEq

namespace MoeSystem

def init (lruCap tierCap : ℕ) (pins : List (ℕ × PinResult)) : MoeSystem :=
  ⟨.init lruCap tierCap pins, []⟩

def task (s : MoeSystem) (i : ℕ) (f : MoeTask → MoeStreamLayer → MoeStreamLayer × MoeTask) :
    MoeSystem :=
  match s.tasks[i]? with
  | some t => ⟨(f t s.layer).1, s.tasks.set i (f t s.layer).2⟩
  | none => s

def apply (s : MoeSystem) : MoeAct → MoeSystem
  | .start prep ids now => { s with tasks := s.tasks ++ [.start prep ids now] }
  | .step i => s.task i MoeTask.step
  | .commit i j fetched => s.task i fun t L => t.commit L j fetched
  | .finalizeDep i j => s.task i fun t L => t.finalizeDep L j
  | .release i frees => s.task i fun t L => t.release L frees
  | .tier op =>
    if op.isTier then { s with layer := (MoeStream.apply ⟨s.layer, []⟩ op).layer } else s

end MoeSystem

/-! How a layer call gives back the out slots of its resolve: `moe_router_batch` followed by
`moe_experts_batch`, and `device_submit` followed by `device_collect`. -/

/-- `moe_stream_release_slots` -/
def moeStreamReleaseSlots (L : MoeStreamLayer) (slots : List MoeOutSlot) : MoeStreamLayer :=
  slots.foldl (fun L o =>
    match o.slot.eid with
    | some e => L.release e
    | none => L) L

/-- The layer, the out slots whose private buffers were freed, and whether the call returned `OK`. -/
structure MoeCallEnd where
  layer : MoeStreamLayer
  freed : List MoeOutSlot
  ok : Bool

namespace MoeOutSlot

/-- `us->owned && us->heap_buf` -/
def isPrivate (o : MoeOutSlot) : Bool := o.owned && o.slot.heapBuf.isSome

/-- The slot once its private buffer is freed. -/
def freePrivate (o : MoeOutSlot) : MoeOutSlot :=
  if o.isPrivate then { o with slot := { o.slot with heapBuf := none, eid := none } } else o

end MoeOutSlot

/-- `moe_release_batch_slots` -/
def moeReleaseBatchSlots (L : MoeStreamLayer) (slots : List MoeOutSlot) : MoeCallEnd :=
  ⟨moeStreamReleaseSlots L (slots.map MoeOutSlot.freePrivate),
    slots.filter MoeOutSlot.isPrivate, true⟩

section

variable {B F : Type*} [DecidableEq B] [Field F] [DecidableEq F]

/-- The slots of the union as the paths of `moe_experts_batch` see them. -/
def MoeCall.views (c : MoeCall) (useMmap : Bool) (i : ℕ) : MoeSlotView :=
  (c.outs.getD i .invalid).view useMmap

/-- The end of `moe_router_batch` with `moe_experts_batch`. The router gives up if the resolve has
failed. -/
def moeExpertsBatchEnd (R : MoeRouting) (env : MoeBatchEnv B) (useMmap : Bool) (v : MoeValues F)
    (L : MoeStreamLayer) (c : MoeCall) : MoeCallEnd :=
  if c.ok then
    match moeExpertsBatch R env (c.views useMmap) v with
    | some _ => moeReleaseBatchSlots L c.outs
    | none => ⟨L, [], false⟩
  else ⟨L, [], false⟩

end

/-- A `moe_exec_target`, and how the calls made for it come out: `upload` for a slot that is not on
the device, `ffn` for the expert of a slot. -/
structure MoeExecTarget where
  direct : Bool
  useMmap : Bool
  scratch : Bool
  write : Bool
  scale : Bool
  upload : ℕ → Bool
  ffn : ℕ → Bool
  collectScratch : Bool
  read : Bool

namespace MoeExecTarget

variable (t : MoeExecTarget)

/-- `device_submit` behind its resolve and the scratch: whether its calls go through. -/
def submits (slots : List MoeOutSlot) : Bool :=
  (t.direct || t.write) && t.scale && slots.zipIdx.all fun o =>
    let s := o.1.view t.useMmap
    s.eid.isNone || !(s.gateW.isSome || s.dev.isSome) || ((s.dev.isSome || t.upload o.2) && t.ffn o.2)

/-- `device_submit`; `true` if `device_collect` is still to come. -/
def deviceSubmit (L : MoeStreamLayer) (c : MoeCall) : MoeStreamLayer × Bool :=
  if !c.ok then (L, false)
  else if !t.direct && !t.scratch then (moeStreamReleaseSlots L c.outs, false)
  else if !t.submits c.outs then (moeStreamReleaseSlots L c.outs, false)
  else (L, true)

/-- `device_collect` -/
def deviceCollect (L : MoeStreamLayer) (c : MoeCall) : MoeStreamLayer × Bool :=
  (moeStreamReleaseSlots L c.outs, t.direct || (t.collectScratch && t.read))

/-- The end of a `device_submit` with its `device_collect`, which frees nothing. -/
def deviceEnd (L : MoeStreamLayer) (c : MoeCall) : MoeCallEnd :=
  let s := t.deviceSubmit L c
  if s.2 then ⟨(t.deviceCollect s.1 c).1, [], (t.deviceCollect s.1 c).2⟩ else ⟨s.1, [], false⟩

end MoeExecTarget

/-- A layer call that has resolved its experts, with how its calls come out. -/
inductive MoeLayerCall (B F : Type*)
  | batch (R : MoeRouting) (env : MoeBatchEnv B) (useMmap : Bool) (v : MoeValues F)
  | device (t : MoeExecTarget)

/-- The rest of the layer call. -/
def MoeLayerCall.finish {B F : Type*} [DecidableEq B] [Field F] [DecidableEq F] :
    MoeLayerCall B F → MoeStreamLayer → MoeCall → MoeCallEnd
  | .batch R env useMmap v => moeExpertsBatchEnd R env useMmap v
  | .device t => t.deviceEnd

end Kappai
