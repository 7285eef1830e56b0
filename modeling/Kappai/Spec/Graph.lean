import Kappai.Spec.Recipe
import Mathlib.Logic.Function.Basic

/-! The compute graph of a recipe: values and nodes, the builder that lowers the op lists of the
three sections, and the live range of every value. `CG_NONE` is `none`. -/

namespace Kappai

inductive CgSection
  | pre | layer | post
deriving DecidableEq, Repr

inductive CgExternal
  | none | hostInput | layer
deriving DecidableEq

/-- The fields below `loopCarried` are those of the component graphs. -/
structure CgValue where
  producer : Option ℕ
  aliasOf : Option ℕ
  viewOf : Option ℕ
  nUses : ℕ
  slot : Option Slot
  loopCarried : Bool
  external : CgExternal
  bind : ℕ
  elems : ℕ
  viewOffset : ℕ
  layerStride : ℕ
deriving DecidableEq

def CgValue.zero : CgValue := ⟨none, none, none, 0, none, false, .none, 0, 0, 0, 0⟩

structure CgNode where
  kind : OpKind
  sec : CgSection
  recipeIndex : ℕ
  wIdx : ℕ
  coalesceRunLen : ℕ
  fuseNext : Bool
  ins : List ℕ
  outs : List ℕ
  params : OpParams
deriving DecidableEq

structure CgCarry where
  slot : Slot
  input : ℕ
  output : ℕ
deriving DecidableEq

structure CgGraph where
  nodes : List CgNode
  values : List CgValue
  layerBegin : ℕ
  postBegin : ℕ
  carry : List CgCarry

namespace CgGraph

def empty : CgGraph := ⟨[], [], 0, 0, []⟩

variable (g : CgGraph)

def value (v : ℕ) : CgValue := g.values.getD v .zero

def sectionBegin : CgSection → ℕ
  | .pre => 0
  | .layer => g.layerBegin
  | .post => g.postBegin

/-- `section_begin[section + 1]` -/
def sectionEnd : CgSection → ℕ
  | .pre => g.layerBegin
  | .layer => g.postBegin
  | .post => g.nodes.length

def modifyValue (v : ℕ) (f : CgValue → CgValue) : CgGraph :=
  { g with values := g.values.modify v f }

/-- `n_uses++` -/
def use (v : ℕ) : CgGraph := g.modifyValue v fun val => { val with nUses := val.nUses + 1 }

end CgGraph

/-- `builder`, without the last writers of the states outside the slots. -/
structure CgBuild where
  g : CgGraph
  cur : Slot → Option ℕ
  entry : Slot → Option ℕ
  exposed : Slot → Bool
  tracking : Bool

/-- `SLOT_VIEWS` -/
def slotViews (s : Slot) : List Slot := if s = .ffnGateUp then [.ffnGate, .ffnUp] else []

namespace CgBuild

/-- `new_value` -/
def newValue (b : CgBuild) (slot : Slot) (producer : Option ℕ) : CgBuild × ℕ :=
  ({ b with g :=
      { b.g with values :=
        b.g.values ++ [{ CgValue.zero with producer := producer, slot := some slot }] } },
    b.g.values.length)

def setCur (b : CgBuild) (slot : Slot) (v : ℕ) : CgBuild :=
  { b with cur := Function.update b.cur slot (some v) }

/-- `read_slot` -/
def readSlot (b : CgBuild) (slot : Slot) : CgBuild × ℕ :=
  match b.cur slot with
  | some v =>
    (if b.tracking ∧ b.cur slot = b.entry slot then
        { b with exposed := Function.update b.exposed slot true }
      else b, v)
  | none =>
    let (b', v) := b.newValue slot none
    let b' := b'.setCur slot v
    (if b.tracking then
        { b' with entry := Function.update b'.entry slot (some v),
                  exposed := Function.update b'.exposed slot true }
      else b', v)

/-- One read of `lower_op`. -/
def lowerRead (acc : CgBuild × List ℕ) (slot : Slot) : CgBuild × List ℕ :=
  let (b, v) := acc.1.readSlot slot
  ({ b with g := b.g.use v }, acc.2 ++ [v])

/-- One view of `add_slot_views`. -/
def addSlotView (id parent : ℕ) (acc : CgBuild × List ℕ) (slot : Slot) : CgBuild × List ℕ :=
  if acc.2.length < opTouchMax then
    let (b, v) := acc.1.newValue slot (some id)
    let b := { b with g := b.g.modifyValue v fun val => { val with viewOf := some parent } }
    (b.setCur slot v, acc.2 ++ [v])
  else acc

/-- One write of `lower_op`, with the views that follow it. -/
def lowerWrite (id : ℕ) (reads : List Slot) (ins : List ℕ) (acc : CgBuild × List ℕ)
    (slot : Slot) : CgBuild × List ℕ :=
  let (b, v) := acc.1.newValue slot (some id)
  let b :=
    match reads.idxOf? slot with
    | some r => { b with g := b.g.modifyValue v fun val => { val with aliasOf := ins[r]? } }
    | none => b
  (slotViews slot).foldl (addSlotView id v) (b.setCur slot v, acc.2 ++ [v])

/-- `lower_op` -/
def lowerOp (b : CgBuild) (op : RecipeOp) (sec : CgSection) (recipeIndex : ℕ) : CgBuild :=
  let id := b.g.nodes.length
  let (b, ins) := op.touchReads.foldl lowerRead (b, [])
  let (b, outs) := op.touchWrites.foldl (lowerWrite id op.touchReads ins) (b, [])
  { b with g := { b.g with nodes := b.g.nodes ++ [{
      kind := op.kind
      sec := sec
      recipeIndex := recipeIndex
      wIdx := op.wIdx
      coalesceRunLen := op.coalesceRunLen
      fuseNext := op.fuseNext
      ins := ins
      outs := outs
      params := op.u }] } }

/-- `lower_ops` -/
def lowerOps (b : CgBuild) (ops : List RecipeOp) (sec : CgSection) : CgBuild :=
  ops.zipIdx.foldl (fun b p => if p.1.kind = .none then b else b.lowerOp p.1 sec p.2) b

/-- One slot of `collect_carries`. -/
def collectCarry (b : CgBuild) (slot : Slot) : CgBuild :=
  match b.entry slot, b.cur slot with
  | some i, some o =>
    if ¬ b.exposed slot ∨ i = o then b
    else
      { b with g :=
        { b.g.modifyValue i fun val => { val with loopCarried := true } with
          carry := b.g.carry ++ [⟨slot, i, o⟩] } }
  | _, _ => b

/-- `collect_carries` -/
def collectCarries (b : CgBuild) : CgBuild := Slot.all.foldl collectCarry b

def init : CgBuild := ⟨.empty, fun _ => none, fun _ => none, fun _ => false, false⟩

/-- The builder once the pre section is lowered. -/
def afterPre (r : ModelRecipe) : CgBuild :=
  let b := init.lowerOps r.preOps .pre
  { b with g := { b.g with layerBegin := b.g.nodes.length }, entry := b.cur, tracking := true }

/-- The builder once the layer section is lowered and the carries are collected. -/
def afterLayer (r : ModelRecipe) : CgBuild :=
  let b := (afterPre r).lowerOps r.layerOps .layer
  let b := { b with tracking := false }.collectCarries
  { b with g := { b.g with postBegin := b.g.nodes.length } }

end CgBuild

/-- `graph_build` -/
def graphBuild (r : ModelRecipe) : CgGraph := ((CgBuild.afterLayer r).lowerOps r.postOps .post).g

/-- A range starts at `INT_MAX` and stops at `-1` while nothing has touched its value. -/
structure CgRange where
  start : ℤ
  stop : ℤ
deriving DecidableEq, Repr

namespace CgRange

def untouched : CgRange := ⟨2147483647, -1⟩

/-- `range_extend` -/
def extend (r : CgRange) (lo hi : ℤ) : CgRange := ⟨min r.start lo, max r.stop hi⟩

/-- `range_overlaps` -/
def Overlaps (a b : CgRange) : Prop := a.start ≤ b.stop ∧ b.start ≤ a.stop

instance (a b : CgRange) : Decidable (a.Overlaps b) := inferInstanceAs (Decidable (_ ∧ _))

end CgRange

namespace CgGraph

variable (g : CgGraph)

/-- The first loop of `graph_value_ranges`: the nodes that touch a value. -/
def touchRanges : List CgRange :=
  g.nodes.zipIdx.foldl
    (fun ranges p =>
      (p.1.ins ++ p.1.outs).foldl (fun r v => r.modify v fun r => r.extend p.2 p.2) ranges)
    (List.replicate g.values.length .untouched)

/-- The second loop: a value from before the layer section that is last touched in it stays live to
the end of it. -/
def sectionRange (val : CgValue) (r : CgRange) : CgRange :=
  if r.stop < 0 then r
  else
    let start := if val.producer = none then 0 else r.start
    let early := ∀ p ∈ val.producer, p < g.layerBegin
    if early ∧ (g.layerBegin : ℤ) ≤ r.stop ∧ r.stop < g.postBegin then ⟨start, g.postBegin - 1⟩
    else ⟨start, r.stop⟩

/-- The third loop: a carried slot is live throughout. -/
def carryRanges (ranges : List CgRange) : List CgRange :=
  g.carry.foldl
    (fun r c =>
      let whole := fun r : CgRange => r.extend 0 (g.nodes.length - 1)
      (r.modify c.input whole).modify c.output whole)
    ranges

/-- One value of the last loop: a view keeps what it is a view of live. -/
def viewRange (ranges : List CgRange) (v : ℕ) : List CgRange :=
  let r := ranges.getD v .untouched
  match (g.value v).viewOf with
  | some p => if 0 ≤ r.stop then ranges.modify p fun q => q.extend r.start r.stop else ranges
  | none => ranges

/-- `graph_value_ranges` -/
def valueRanges : List CgRange :=
  (List.range g.values.length).foldl g.viewRange
    (g.carryRanges (List.zipWith g.sectionRange g.values g.touchRanges))

def range (v : ℕ) : CgRange := g.valueRanges.getD v .untouched

end CgGraph

end Kappai
