import Kappai.Spec.Graph

/-! The memory plan of a set of graphs: which slots interfere, which share a buffer, and where the
buffers lie for a number of rows. `size_t` arithmetic is modulo `2 ^ 64`. -/

namespace Kappai

structure MemDims where
  attnBuf : ℕ
  qOut : ℕ
  kvOut : ℕ
  maxInter : ℕ
  ffnAct : ℕ
  gateRow : ℕ
  upRow : ℕ
  hcFlat : ℕ
  hcCoef : ℕ
  hybProj : ℕ
  hybGate : ℕ
  hybHeads : ℕ

/-- `slot_row_elems`, with `SLOT_SIZE_KIND` read in. -/
def MemDims.slotRowElems (d : MemDims) (s : Slot) : ℕ :=
  if s = .ffnGate then d.gateRow
  else if s = .ffnUp then d.upRow
  else if s = .hybProj then d.hybProj
  else if s = .hybGate then d.hybGate
  else if s = .hybAlpha ∨ s = .hybBeta then d.hybHeads
  else if s = .x ∨ s = .xb ∨ s = .xb2 ∨ s = .attnOut ∨ s = .residTmp then d.attnBuf
  else if s = .q then d.qOut
  else if s = .k ∨ s = .v then d.kvOut
  else if s = .ffnAct then d.ffnAct
  else if s = .ffnGateUp then 2 * d.maxInter
  else if s = .hc then d.hcFlat
  else if s = .hcCoef then d.hcCoef
  else 0

structure HiddenUse where
  slot : Slot
  range : CgRange
deriving DecidableEq

/-- `node_local_scratch` -/
def OpKind.nodeLocalScratch (k : OpKind) : Bool :=
  k == .matmul || k == .matmulMulti || k == .matmulResidual || k == .matmulFfnDown

namespace CgGraph

variable (g : CgGraph)

/-- `has_storage` -/
def HasStorage (v : ℕ) : Prop := 0 ≤ (g.range v).stop ∧ (g.value v).viewOf = none

instance (v : ℕ) : Decidable (g.HasStorage v) := inferInstanceAs (Decidable (_ ∧ _))

/-- The span of the scratch of a slot in a section, over the kinds whose scratch is not local to
the node. -/
def hiddenSpan (slot : Slot) (sec : CgSection) : CgRange :=
  g.nodes.zipIdx.foldl
    (fun r p =>
      if slot ∈ p.1.kind.batchExtraMask ∧ ¬ p.1.kind.nodeLocalScratch ∧ p.1.sec = sec then
        r.extend p.2 p.2
      else r)
    .untouched

def localUses : List HiddenUse :=
  g.nodes.zipIdx.flatMap fun p =>
    if p.1.kind.nodeLocalScratch then
      p.1.kind.batchExtraMask.map fun s => ⟨s, ⟨p.2, p.2⟩⟩
    else []

def spanUses : List HiddenUse :=
  Slot.all.flatMap fun s =>
    [CgSection.pre, .layer, .post].filterMap fun sec =>
      if 0 ≤ (g.hiddenSpan s sec).stop then some ⟨s, g.hiddenSpan s sec⟩ else none

/-- `collect_hidden_uses` -/
def hiddenUses : List HiddenUse := g.localUses ++ g.spanUses

/-- `node_batch_slot_mask` as a set. -/
def NodeMask (n : CgNode) (s : Slot) : Prop :=
  s ∈ n.kind.batchExtraMask ∨
    ∃ v ∈ n.ins ++ n.outs, (g.value v).viewOf = none ∧ (g.value v).slot = some s

instance (n : CgNode) (s : Slot) : Decidable (g.NodeMask n s) :=
  inferInstanceAs (Decidable (_ ∨ _))

end CgGraph

/-- `graph_set_batch_slot_mask` as a set. -/
def batchSlotMask (graphs : List CgGraph) (s : Slot) : Bool :=
  graphs.any fun g => (g.nodes.take g.postBegin).any fun n => g.NodeMask n s

/-- The three tables, each as the list of its nonzero entries. -/
structure Interference where
  conflict : List (Slot × Slot)
  seen : List Slot
  pinned : List Slot

namespace Interference

def empty : Interference := ⟨[], [], []⟩

variable (x : Interference)

/-- `add_conflict` -/
def addConflict (a b : Slot) : Interference :=
  if a = b then x else { x with conflict := (a, b) :: (b, a) :: x.conflict }

def see (s : Slot) : Interference := { x with seen := s :: x.seen }

/-- One pair of values of `collect_value_conflicts`. -/
def valuePair (g : CgGraph) (v w : ℕ) : Interference :=
  match (g.value v).slot, (g.value w).slot with
  | some a, some b =>
    if g.HasStorage w ∧ (g.range v).Overlaps (g.range w) then x.addConflict a b else x
  | _, _ => x

/-- One value of `collect_value_conflicts`. -/
def valueConflicts (g : CgGraph) (v : ℕ) : Interference :=
  if g.HasStorage v then
    (List.range' (v + 1) (g.values.length - (v + 1))).foldl (fun x w => x.valuePair g v w)
      ((g.value v).slot.elim x x.see)
  else x

/-- `collect_value_conflicts` -/
def collectValueConflicts (g : CgGraph) : Interference :=
  (List.range g.values.length).foldl (fun x v => x.valueConflicts g v) x

/-- One value against a hidden use in `collect_use_conflicts`. -/
def useValue (g : CgGraph) (u : HiddenUse) (v : ℕ) : Interference :=
  match (g.value v).slot with
  | some b =>
    if g.HasStorage v ∧ (g.range v).Overlaps u.range then x.addConflict u.slot b else x
  | none => x

/-- `collect_use_conflicts` -/
def collectUseConflicts (g : CgGraph) : List HiddenUse → Interference → Interference
  | [], x => x
  | u :: us, x =>
    let x := (List.range g.values.length).foldl (fun x v => x.useValue g u v) (x.see u.slot)
    let x := us.foldl
      (fun x w => if u.range.Overlaps w.range then x.addConflict u.slot w.slot else x) x
    collectUseConflicts g us x

/-- `pin_swapped_slots` -/
def pinSwappedSlots (g : CgGraph) (n : CgNode) : Interference :=
  (n.ins ++ n.outs).foldl
    (fun x v => (g.value v).slot.elim x fun s => { x with pinned := s :: x.pinned }) x

/-- `collect_graph` -/
def collectGraph (g : CgGraph) : Interference :=
  g.nodes.foldl (fun x n => if n.kind = .swap then x.pinSwappedSlots g n else x)
    (collectUseConflicts g g.hiddenUses (x.collectValueConflicts g))

/-- `aliasable` of an interference that is there. -/
def Aliasable (s : Slot) : Prop := s ∈ x.seen ∧ s ∉ x.pinned

instance (s : Slot) : Decidable (x.Aliasable s) := inferInstanceAs (Decidable (_ ∧ _))

end Interference

structure MemPlan where
  planned : Slot → Bool
  rep : Slot → Slot
  rowElems : Slot → ℕ
  groupRowElems : Slot → ℕ

namespace MemPlan

/-- One step of `order_slots`: the slots already there, largest rows first. -/
def orderInsert (rowElems : Slot → ℕ) (order : List Slot) (s : Slot) : List Slot :=
  let small := order.reverse.takeWhile fun o => rowElems o < rowElems s
  let large := order.reverse.dropWhile fun o => rowElems o < rowElems s
  large.reverse ++ s :: small.reverse

/-- `order_slots` -/
def orderSlots (planned : Slot → Bool) (rowElems : Slot → ℕ) : List Slot :=
  (Slot.all.filter planned).foldl (orderInsert rowElems) []

/-- `can_join` -/
def CanJoin (x : Interference) (rep : Slot → Slot) (s r : Slot) : Prop :=
  x.Aliasable r ∧ ∀ k, k ≠ s → rep k = r → (k, s) ∉ x.conflict

instance (x : Interference) (rep : Slot → Slot) (s r : Slot) : Decidable (CanJoin x rep s r) :=
  inferInstanceAs (Decidable (_ ∧ _))

/-- One slot of `group_slots`: it joins the first group ordered before it that takes it. -/
def groupSlot (x : Interference) (seen : List Slot) (rep : Slot → Slot) (s : Slot) :
    Slot → Slot :=
  if x.Aliasable s then
    match seen.find? fun r => rep r = r ∧ CanJoin x rep s r with
    | some r => Function.update rep s r
    | none => rep
  else rep

def groupLoop (x : Interference) : List Slot → List Slot → (Slot → Slot) → Slot → Slot
  | _, [], rep => rep
  | seen, s :: todo, rep => groupLoop x (seen ++ [s]) todo (groupSlot x seen rep s)

/-- The row of a buffer is the largest row of its slots. -/
def groupRows (planned : Slot → Bool) (rep : Slot → Slot) (rowElems : Slot → ℕ) : Slot → ℕ :=
  Slot.all.foldl
    (fun rows s => if planned s then
        Function.update rows (rep s) (max (rows (rep s)) (rowElems s)) else rows)
    fun _ => 0

open Slot in
/-- `HYBRID_SLOTS` -/
def hybridSlots : List Slot := [hybProj, hybGate, hybAlpha, hybBeta]

/-- The mask of `mem_plan_build`. -/
def mask (graphs : Option (List CgGraph)) (isHybrid : Bool) (s : Slot) : Bool :=
  match graphs with
  | some gs =>
    (if Slot.all.any (batchSlotMask gs) then batchSlotMask gs s else true) ||
      (isHybrid && decide (s ∈ hybridSlots))
  | none => true

/-- `mem_plan_build` -/
def build (graphs : Option (List CgGraph)) (d : MemDims) (isHybrid : Bool) : MemPlan :=
  let rowElems := d.slotRowElems
  let planned := fun s => mask graphs isHybrid s && decide (0 < rowElems s)
  let rep := match graphs with
    | some gs =>
      groupLoop (gs.foldl Interference.collectGraph .empty) [] (orderSlots planned rowElems) id
    | none => id
  ⟨planned, rep, rowElems, groupRows planned rep rowElems⟩

end MemPlan

/-- The `int` that a sum wraps to. -/
def intWrap (z : ℤ) : ℤ := (z + 2147483648) % 4294967296 - 2147483648

def sizeT (z : ℤ) : ℕ := (z % 18446744073709551616).toNat

/-- The doubling loop of `mem_rows_bucket`, which is run for at most 64 rows. -/
def doubleTo (n : ℤ) : ℕ → ℤ → ℤ
  | 0, b => b
  | fuel + 1, b => if b < n then doubleTo n fuel (2 * b) else b

/-- `mem_rows_bucket` -/
def memRowsBucket (nRows : ℤ) : ℤ :=
  if nRows > 64 then intWrap (nRows + 63) / 64 * 64 else doubleTo nRows 6 1

/-- `align_up` -/
def alignUp (v : ℕ) : ℕ := sizeT (v + 255) / 256 * 256

structure MemLayout where
  offset : Slot → ℕ
  cap : Slot → ℕ
  total : ℕ
  bucket : ℤ

namespace MemLayout

/-- One buffer of the first loop of `layout_compute`. -/
def place (p : MemPlan) (l : MemLayout) (s : Slot) : MemLayout :=
  if p.planned s ∧ p.rep s = s then
    let cap := alignUp (sizeT (p.groupRowElems s * sizeT l.bucket * 4))
    { l with
      offset := Function.update l.offset s l.total
      cap := Function.update l.cap s cap
      total := sizeT (l.total + cap) }
  else l

/-- One slot of the second loop of `layout_compute`. -/
def share (p : MemPlan) (l : MemLayout) (s : Slot) : MemLayout :=
  if p.planned s ∧ p.rep s ≠ s then
    { l with
      offset := Function.update l.offset s (l.offset (p.rep s))
      cap := Function.update l.cap s (l.cap (p.rep s)) }
  else l

/-- `layout_compute` -/
def compute (p : MemPlan) (nRows : ℤ) : MemLayout :=
  Slot.all.foldl (share p)
    (Slot.all.foldl (place p) ⟨fun _ => 0, fun _ => 0, 0, memRowsBucket nRows⟩)

end MemLayout

end Kappai
