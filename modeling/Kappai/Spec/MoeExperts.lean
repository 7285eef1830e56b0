import Kappai.Spec.MoeStream
import Mathlib.Algebra.Field.Defs
import Mathlib.Algebra.Group.Pi.Basic
import Mathlib.Data.List.Sort
import Kappai.Lib.Buckets

/-! `moe_stream_resolve`, one function for each hold of the layer's lock. Statistics and the
scores of the tier policy are left out; `now` is what the call draws from the clock. -/

namespace Kappai

/-- An out slot of a call: a copy of the expert's slot, or of the private buffer the expert was
read into. `held` is not in the source: the slot whose use count the out slot stands for. -/
structure MoeOutSlot where
  slot : MoeExpertSlot
  owned : Bool
  held : Option SlotRef
deriving DecidableEq

namespace MoeOutSlot

/-- `slot_zero` -/
def zero : MoeOutSlot := ⟨.zero, false, none⟩

/-- `slot_mark_invalid` -/
def invalid : MoeOutSlot := ⟨{ MoeExpertSlot.zero with ioReady := true }, false, none⟩

/-- What `slot_take_ready` leaves in the out slot. -/
def taken (s : MoeExpertSlot) (r : SlotRef) : MoeOutSlot := ⟨{ s with ioReady := true }, false, some r⟩

end MoeOutSlot

/-- A miss of a call, and the out slot it is for. -/
structure MoeMiss where
  k : ℕ
  entry : MoeMissEntry
deriving DecidableEq

inductive MoeFound
  | absent
  | notReady
  | ready (out : MoeOutSlot)

/-- `layer_find` and `layer_take_ready_stats`, with the out slot. -/
def MoeStreamLayer.lookup (L : MoeStreamLayer) (e : ℕ) (now : UInt64) : MoeStreamLayer × MoeFound :=
  match L.layerFind e now with
  | (L', some r) =>
    if (L'.slot r).ioReady then
      (L'.setSlot { L'.slot r with inuse := (L'.slot r).inuse + 1 } r,
        .ready (.taken (L'.slot r) r))
    else (L', .notReady)
  | (L', none) => (L', .absent)

/-- The locals of a call. An id that names no expert is `none` in `ids`. -/
structure MoeCall where
  ids : List (Option ℕ)
  now : UInt64
  outs : List MoeOutSlot
  need : List ℕ
  misses : List MoeMiss
  waits : List ℕ
  ok : Bool

/-- `eid < 0 || eid >= m->moe.n_experts` -/
def moeExpertId (nExperts : ℕ) (eid : ℤ) : Option ℕ :=
  if 0 ≤ eid ∧ eid < nExperts then some eid.toNat else none

namespace MoeCall

def start (ids : List (Option ℕ)) (now : UInt64) : MoeCall :=
  ⟨ids, now, ids.map fun _ => .zero, [], [], [], true⟩

variable (c : MoeCall)

def id (k : ℕ) : Option ℕ := c.ids.getD k none

def setOut (k : ℕ) (o : MoeOutSlot) : MoeCall := { c with outs := c.outs.set k o }

def addMiss (m : MoeMiss) : MoeCall := { c with misses := c.misses ++ [m] }

/-- One id of `resolve_scan_hits`, without waiting. -/
def scanHit (L : MoeStreamLayer) (k : ℕ) : MoeStreamLayer × MoeCall :=
  match c.id k with
  | none => (L, c.setOut k .invalid)
  | some e =>
    match L.lookup e c.now with
    | (L', .ready out) => (L', c.setOut k out)
    | (L', _) => (L', { c.setOut k .zero with need := c.need ++ [k] })

/-- The insert of a miss: `miss_fill_slot`, or `miss_fill_desc` if no slot is free. -/
def insertMiss (L : MoeStreamLayer) (k e : ℕ) : MoeStreamLayer × MoeCall :=
  match L.layerInsertLru e c.now with
  | (L', none) => (L', c.addMiss ⟨k, e, none, 0, MoeExpertSlot.zero.fromExpertDesc e⟩)
  | (L', some i) =>
    let slot := (L'.lruSlots i).fromExpertDesc e
    (L'.setLru i slot, c.addMiss ⟨k, e, some i, slot.gen, slot⟩)

/-- One id of `resolve_collect_misses` with a wait list. -/
def collectMiss (L : MoeStreamLayer) (k : ℕ) : MoeStreamLayer × MoeCall :=
  match c.id k with
  | none => (L, c)
  | some e =>
    match L.lookup e c.now with
    | (L', .ready out) => (L', c.setOut k out)
    | (L', .notReady) => (L', { c with waits := c.waits ++ [k] })
    | (L', .absent) => c.insertMiss L' k e

/-- One id of the first wait loop: an expert that is gone again is inserted again. -/
def rewaitMiss (L : MoeStreamLayer) (k : ℕ) : MoeStreamLayer × MoeCall :=
  match c.id k with
  | none => (L, c)
  | some e =>
    match L.lookup e c.now with
    | (L', .ready out) => (L', c.setOut k out)
    | (L', .notReady) => (L', c)
    | (L', .absent) => c.insertMiss L' k e

/-- The out slot of `miss_commit`; a fetched expert that cannot go into its slot stays private. -/
def commitOut (L : MoeStreamLayer) (me : MoeMissEntry) (fetched : Bool) : MoeOutSlot :=
  if fetched then
    let tmp := { me.tmp with heapBuf := me.tmp.eid, ioReady := true }
    match me.slot with
    | some i =>
      if (L.lruSlots i).gen = me.gen ∧ (L.lruSlots i).inuse = 0 then ⟨tmp, false, some (.lru i)⟩
      else ⟨tmp, true, none⟩
    | none => ⟨tmp, true, none⟩
  else .invalid

/-- `miss_commit`, and `miss_entry_status` -/
def commitMiss (L : MoeStreamLayer) (m : MoeMiss) (fetched : Bool) : MoeStreamLayer × MoeCall :=
  (L.missCommit m.entry fetched,
    { c.setOut m.k (commitOut L m.entry fetched) with
      misses := c.misses.erase m, ok := c.ok && fetched })

/-- One id of the last wait loop, after the wait for a slot that is not ready. -/
def finalWait (L : MoeStreamLayer) (k : ℕ) : MoeStreamLayer × MoeCall :=
  match c.id k with
  | none => (L, c)
  | some e =>
    match L.lookup e c.now with
    | (L', .ready out) => (L', c.setOut k out)
    | (L', _) => (L', { c.setOut k .invalid with ok := false })

/-- One id of the last wait loop: a slot that is not ready is waited for, then looked up anew. -/
def waitReady (L : MoeStreamLayer) (k : ℕ) : MoeStreamLayer × MoeCall :=
  match c.id k with
  | none => (L, c)
  | some e =>
    match L.lookup e c.now with
    | (L', .ready out) => (L', c.setOut k out)
    | (L', _) => c.finalWait L' k

end MoeCall

section

variable (L : MoeStreamLayer) (ids : List (Option ℕ)) (now : UInt64)

/-- The loops of a call go on with the layer and its locals. -/
def moeLoop {α : Type*} (body : MoeCall → MoeStreamLayer → α → MoeStreamLayer × MoeCall)
    (todo : List α) (s : MoeStreamLayer × MoeCall) : MoeStreamLayer × MoeCall :=
  todo.foldl (fun s k => body s.2 s.1 k) s

/-- `resolve_scan_hits` -/
def resolveScanHits : MoeStreamLayer × MoeCall :=
  moeLoop MoeCall.scanHit (List.range ids.length) (L, .start ids now)

/-- `resolve_collect_misses` -/
def resolveCollectMisses : MoeStreamLayer × MoeCall :=
  let s := resolveScanHits L ids now
  moeLoop MoeCall.collectMiss s.2.need s

/-- `moe_stream_resolve` with no other caller: nothing changes while it waits. `fetched` says
which of the misses could be read. -/
def moeStreamResolve (fetched : MoeMiss → Bool) : MoeStreamLayer × MoeCall :=
  let s := resolveCollectMisses L ids now
  let s := moeLoop MoeCall.rewaitMiss s.2.waits s
  let s := moeLoop (fun c L m => c.commitMiss L m (fetched m)) s.2.misses s
  moeLoop MoeCall.waitReady s.2.waits s

end

end Kappai

/-! `moe_router_batch` once the ids are there, and `moe_experts_batch`: the union of the routed
experts with the entries of each, and the paths that run them. Arithmetic is exact, over a field;
what a matmul by a weight matrix computes is given, and so are the statuses of the calls. -/

namespace Kappai

variable {B F : Type*}

/-! ### The union -/

/-- `moe_router_ids`; -1 is `none`. -/
structure MoeRouting where
  nRows : ℕ
  topK : ℕ
  ids : ℕ → ℕ → Option ℕ

/-- An entry of `moe_router_ids` that is not -1. -/
structure MoePair where
  row : ℕ
  k : ℕ
  eid : ℕ
deriving DecidableEq

/-- `moe_expert_union_idx` where `moe_expert_seen_gen` is that of the call, `moe_union_ids` and
`moe_union_count`. -/
structure MoeUnion where
  idx : ℕ → Option ℕ
  ids : List ℕ
  count : ℕ → ℕ

def MoeUnion.see (u : MoeUnion) (eid : ℕ) : MoeUnion :=
  match u.idx eid with
  | some i => { u with count := Function.update u.count i (u.count i + 1) }
  | none =>
    { idx := Function.update u.idx eid (some u.ids.length)
      ids := u.ids ++ [eid]
      count := Function.update u.count u.ids.length 1 }

namespace MoeRouting

variable (R : MoeRouting)

/-- The entries row by row; every loop skips -1. -/
def routed : List MoePair :=
  (List.range R.nRows).flatMap fun row =>
    (List.range R.topK).filterMap fun k => (R.ids row k).map fun eid => ⟨row, k, eid⟩

def union : MoeUnion := R.routed.foldl (fun u p => u.see p.eid) ⟨fun _ => none, [], fun _ => 0⟩

/-- `moe_n_union` -/
def nUnion : ℕ := R.union.ids.length

/-- `moe_union_rows` and `moe_union_kidx`; `moe_union_offsets` are where the stretches begin. -/
def places : ℕ → MoePair :=
  scatter (fun p => (R.union.idx p.eid).getD 0) (stretch R.union.count) (fun _ => ⟨0, 0, 0⟩) R.routed

/-- The `rows` and `kidx` of an expert of the union. -/
def entries (cnt u : ℕ) : List MoePair :=
  (List.range cnt).map fun c => R.places (stretch R.union.count u + c)

/-- `moe_order_pair_cmp` -/
def orderBefore (u v : ℕ) : Prop :=
  R.union.count v < R.union.count u ∨ (R.union.count u = R.union.count v ∧ u ≤ v)

instance : DecidableRel R.orderBefore := fun _ _ => inferInstanceAs (Decidable (_ ∨ _))

/-- `moe_union_order` -/
def order : List ℕ := (List.range R.nUnion).insertionSort R.orderBefore

def orderAt (i : ℕ) : ℕ := R.order.getD i 0

/-- `moe_union_sorted_ids` -/
def sortedIds : List ℕ := R.order.map fun u => R.union.ids.getD u 0

end MoeRouting

/-! ### What the paths work on -/

/-- The weights of an expert; a matrix stands for what a matmul by it computes. -/
structure MoeWeights (F : Type*) where
  gateUpFused : Bool
  gate : (ℕ → F) → ℕ → F
  up : (ℕ → F) → ℕ → F
  down : (ℕ → F) → ℕ → F
  gateScale : F
  upScale : F
  downScale : F

/-- `moe_router_w`, the input rows and the experts of the layer. -/
structure MoeValues (F : Type*) where
  inter : ℕ
  activate : F → F → (ℕ → F) → (ℕ → F) → ℕ → F
  experts : ℕ → MoeWeights F
  weight : ℕ → ℕ → F
  x : ℕ → ℕ → F

/-- What the paths read of an expert's slot: `gateW` and `dev` name the expert whose weights its
host pointers and its device buffers lead to. -/
structure MoeSlotView where
  eid : Option ℕ
  gateW : Option ℕ
  dev : Option ℕ
deriving DecidableEq

/-- Without a buffer of its own a slot has the pointers into the mapped file. -/
def MoeOutSlot.view (o : MoeOutSlot) (useMmap : Bool) : MoeSlotView :=
  ⟨o.slot.eid, o.slot.heapBuf.or (if useMmap then o.slot.eid else none), o.slot.dev⟩

/-- The backend `a` of the layer, what it can do, the owner of each slot's device buffers, and how
the calls come out: `device` for all the calls to one backend in `moe_experts_batch_split`, `host`
for the kernels of one entry on the host. -/
structure MoeBatchEnv (B : Type*) where
  a : B
  matmulBatch : Bool
  capResident : Bool
  expertsResident : Bool
  ownBuffers : Bool
  pooled : Bool
  owner : ℕ → B
  residentOk : Bool
  splitRead : Bool
  device : B → Bool
  read : Bool
  host : ℕ → ℕ → Bool
  write : Bool

/-- `MOE_MAX_TOPK * 8` -/
def moeMaxPacked : ℕ := 64 * 8

namespace MoeValues

variable [Field F] (v : MoeValues F)

/-- The activation of an expert's gate and up projections, which are one matmul if they are fused. -/
def act (w : MoeWeights F) (x : ℕ → F) : ℕ → F :=
  if w.gateUpFused then
    let gu := w.gate x
    v.activate w.gateScale w.upScale gu fun i => gu (v.inter + i)
  else v.activate w.gateScale w.upScale (w.gate x) (w.up x)

/-- The feed-forward network of an expert. -/
def ffn (e : ℕ) (x : ℕ → F) : ℕ → F := fun d =>
  (v.experts e).downScale * (v.experts e).down (v.act (v.experts e) x) d

/-- What `moe_experts_batch` of a backend adds to `out`, one expert after the other. -/
def deviceExperts (group : List (ℕ × List MoePair)) (out : ℕ → ℕ → F) : ℕ → ℕ → F :=
  group.foldl (fun out g => g.2.foldl (fun out p => Function.update out p.row fun d =>
    out p.row d + v.weight p.row p.k * v.ffn g.1 (v.x p.row) d) out) out

variable [DecidableEq F]

/-- An entry in `moe_experts_grouped`. -/
def groupedEntry (e : ℕ) (p : MoePair) : ℕ → F :=
  let w := v.experts e
  let y := w.down (v.act w (v.x p.row))
  if w.downScale = 1 then fun d => v.weight p.row p.k * y d
  else fun d => v.weight p.row p.k * (w.downScale * y d)

/-- An entry in `moe_expert_exec` and in the loop over the tokens. -/
def tokenEntry (e row k : ℕ) : ℕ → F :=
  let w := v.experts e
  let y := w.down (v.act w (v.x row))
  let y := if w.downScale ≠ 1 then fun d => y d * w.downScale else y
  fun d => v.weight row k * y d

end MoeValues

/-! ### The paths -/

section

variable [Field F] (R : MoeRouting) (env : MoeBatchEnv B) (slots : ℕ → MoeSlotView)
  (v : MoeValues F)

/-- One expert of `moe_experts_resident_grouped`; `none` is `ERR_UNSUPPORTED`. -/
def residentExpert [DecidableEq B] (i : ℕ) : Option (ℕ × List MoePair) :=
  let u := R.orderAt i
  if R.union.count u = 0 then some (0, [])
  else
    match slots i with
    | ⟨some _, _, some e⟩ =>
      if env.owner i = env.a then some (e, R.entries (R.union.count u) u) else none
    | _ => none

/-- `moe_experts_resident_grouped`; `none` if it fails. -/
def moeExpertsResidentGrouped [DecidableEq B] : Option (ℕ → ℕ → F) :=
  if !env.ownBuffers || moeMaxPacked < R.nUnion then none
  else
    match (List.range R.nUnion).mapM (residentExpert R env slots) with
    | some group => if env.residentOk then some (v.deviceExperts group fun _ _ => 0) else none
    | none => none

/-- The locals of `moe_experts_batch_split`, with `moe_union_count` and `moe_out`. -/
structure MoeSplit (B F : Type*) where
  owners : ℕ → Option B
  count : ℕ → ℕ
  out : ℕ → ℕ → F

/-- The backend at `i0` runs its experts, or leaves them to the host. -/
def splitStep [DecidableEq B] (s : MoeSplit B F) (i0 : ℕ) : MoeSplit B F :=
  match s.owners i0 with
  | none => s
  | some eb =>
    let idx := (List.range R.nUnion).filter fun i => decide (i0 ≤ i) && s.owners i == some eb
    let owners := fun i => if i0 ≤ i ∧ s.owners i = some eb then none else s.owners i
    if idx.length ≤ moeMaxPacked ∧ env.device eb then
      let tmp := v.deviceExperts (idx.map fun i =>
        ((slots i).dev.getD 0, R.entries (s.count (R.orderAt i)) (R.orderAt i))) fun _ _ => 0
      { owners
        count := fun u => if u ∈ idx.map R.orderAt then 0 else s.count u
        out := fun row d => s.out row d + tmp row d }
    else { s with owners }

def splitOwners (i : ℕ) : Option B :=
  if 0 < R.union.count (R.orderAt i) ∧ (slots i).eid.isSome ∧ (slots i).dev.isSome then
    some (env.owner i)
  else none

/-- `moe_experts_batch_split` -/
def moeExpertsBatchSplit [DecidableEq B] : MoeSplit B F :=
  let s : MoeSplit B F := ⟨splitOwners R env slots, R.union.count, fun _ _ => 0⟩
  if ((List.range R.nUnion).any fun i => (s.owners i).isSome) && env.splitRead then
    (List.range R.nUnion).foldl (splitStep R env slots v) s
  else s

variable [DecidableEq F]

/-- One expert of `moe_experts_grouped`; `none` if an activation fails. -/
def groupedExpert (count : ℕ → ℕ) (contrib : ℕ → ℕ → ℕ → F) (i : ℕ) : Option (ℕ → ℕ → ℕ → F) :=
  let u := R.orderAt i
  match count u, slots i with
  | cnt + 1, ⟨some _, some e, _⟩ =>
    let entries := R.entries (cnt + 1) u
    if entries.all fun p => env.host p.row p.k then
      some (entries.foldl (fun contrib p => Function.update contrib p.row
        (Function.update (contrib p.row) p.k (v.groupedEntry e p))) contrib)
    else none
  | _, _ => some contrib

/-- `moe_experts_grouped`: what is in `moe_out` afterwards. Its status is ignored. -/
def moeExpertsGrouped (count : ℕ → ℕ) (out : ℕ → ℕ → F) : ℕ → ℕ → F :=
  if env.read then
    match (List.range R.nUnion).foldlM (groupedExpert R env slots v count) fun _ _ _ => 0 with
    | some contrib => fun row d =>
      if row < R.nRows then (List.range R.topK).foldl (fun o k => o + contrib row k d) (out row d)
      else out row d
    | none => out
  else out

/-- `moe_per_token_slots` -/
def perTokenSlots : ℕ → ℕ → MoeSlotView :=
  (List.range R.nUnion).foldl (fun t i =>
    (R.entries (R.union.count (R.orderAt i)) (R.orderAt i)).foldl (fun t p =>
      Function.update t p.row (Function.update (t p.row) p.k (slots i))) t)
    fun _ _ => ⟨none, none, none⟩

/-- One index of `moe_batch_expert_chunk`; the status of `moe_expert_exec` is ignored. -/
def allOuts (idx : ℕ) : ℕ → ℕ → F :=
  match perTokenSlots R slots (idx / R.topK) (idx % R.topK) with
  | ⟨some _, some e, _⟩ =>
    if env.host (idx / R.topK) (idx % R.topK) then
      Function.update (fun _ _ => 0) (idx / R.topK) (v.tokenEntry e (idx / R.topK) (idx % R.topK))
    else fun _ _ => 0
  | _ => fun _ _ => 0

def moeExpertsPooled : ℕ → ℕ → F :=
  (List.range (R.nRows * R.topK)).foldl (fun out idx row d => out row d + allOuts R env slots v idx row d)
    fun _ _ => 0

/-- One entry of the loop over the tokens; `none` if it returns. -/
def tokenStep (out : ℕ → ℕ → F) (p : ℕ × ℕ) : Option (ℕ → ℕ → F) :=
  match perTokenSlots R slots p.1 p.2 with
  | ⟨some _, some e, _⟩ =>
    if env.host p.1 p.2 then
      some (Function.update out p.1 fun d => out p.1 d + v.tokenEntry e p.1 p.2 d)
    else none
  | _ => some out

def moeExpertsTokens : Option (ℕ → ℕ → F) :=
  ((List.range R.nRows).flatMap fun row => (List.range R.topK).map fun k => (row, k)).foldlM
    (tokenStep R env slots v) fun _ _ => 0

/-- `moe_experts_batch`: what it writes, or `none` if it returns an error. Where it returns `OK` it has
released the slots, and nowhere else. -/
def moeExpertsBatch [DecidableEq B] : Option (ℕ → ℕ → F) :=
  let finish := fun out : ℕ → ℕ → F => if env.write then some out else none
  if 1 < R.nRows ∧ env.matmulBatch then
    match if env.capResident && env.expertsResident then
      moeExpertsResidentGrouped R env slots v else none with
    | some out => some out
    | none =>
      let s : MoeSplit B F :=
        if env.expertsResident then moeExpertsBatchSplit R env slots v
        else ⟨fun _ => none, R.union.count, fun _ _ => 0⟩
      finish (moeExpertsGrouped R env slots v s.count s.out)
  else if !env.read then none
  else if env.pooled then finish (moeExpertsPooled R env slots v)
  else (moeExpertsTokens R env slots v).bind finish

end

end Kappai
