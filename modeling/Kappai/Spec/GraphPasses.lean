import Kappai.Spec.Graph

/-! The optimization passes over the graph of a recipe, the compaction after a pass, and the way
back to op lists. A pass returns the graph and how much it changed; the pass over the profile stages
is left out. -/

namespace Kappai

/-- `RECIPE_COALESCE_MAX` -/
def recipeCoalesceMax : ℕ := 4

/-- `cg_pass_ctx`: what `pass_backends_ok` answers for each capability, and the model and layer of
the variant. -/
structure PassCtx where
  matmulResidualOk : Bool
  multiMatmulOk : Bool
  coalescingOk : Bool
  addNormOk : CgSection → Bool
  layer : Option ℕ
  hasPerLayerEmbeddings : Bool
  hasLayerOutputScale : Bool
  layerOutScale : List ℚ

namespace CgGraph

variable (g : CgGraph)

def node (i : ℕ) : CgNode := g.nodes.getD i ⟨.none, .pre, 0, 0, 0, false, [], [], .other 0⟩

def setNode (i : ℕ) (n : CgNode) : CgGraph := { g with nodes := g.nodes.set i n }

/-- The slot of an operand of a node. -/
def inSlot (n : CgNode) (k : ℕ) : Option Slot := (g.value (n.ins.getD k 0)).slot

def outSlot (n : CgNode) (k : ℕ) : Option Slot := (g.value (n.outs.getD k 0)).slot

/-! ### Compaction -/

/-- The nodes that a pass has not dropped. -/
def kept (nodes : List CgNode) : List CgNode := nodes.filter fun n => n.kind ≠ .none

/-- `remap` of `graph_compact` -/
def remap (i : ℕ) : Option ℕ :=
  if (g.node i).kind = .none then none else some (kept (g.nodes.take i)).length

/-- `graph_compact` -/
def compact : CgGraph :=
  { g with
    nodes := kept g.nodes
    values := g.values.map fun v => { v with producer := v.producer.bind g.remap }
    layerBegin := (kept (g.nodes.take g.layerBegin)).length
    postBegin := (kept (g.nodes.take g.postBegin)).length }

/-- `graph_run_passes` -/
def runPasses (passes : List (CgGraph → CgGraph × ℕ)) : CgGraph :=
  passes.foldl (fun g pass => if (pass g).2 = 0 then (pass g).1 else (pass g).1.compact) g

/-! ### Residual matmuls -/

/-- `value_is_carry_out` -/
def ValueIsCarryOut (v : ℕ) : Prop := ∃ c ∈ g.carry, c.output = v

instance (v : ℕ) : Decidable (g.ValueIsCarryOut v) := inferInstanceAs (Decidable (∃ c ∈ _, _))

/-- The nodes of the section of a node. -/
def sectionNodes (sec : CgSection) : List CgNode :=
  (g.nodes.take (g.sectionEnd sec)).drop (g.sectionBegin sec)

/-- `in_coalesced_run` -/
def InCoalescedRun (n : CgNode) : Prop :=
  ∃ s ∈ g.sectionNodes n.sec, s.kind = .matmul ∧ 1 < s.coalesceRunLen ∧
    s.recipeIndex ≤ n.recipeIndex ∧ n.recipeIndex < s.recipeIndex + s.coalesceRunLen

instance (n : CgNode) : Decidable (g.InCoalescedRun n) := inferInstanceAs (Decidable (∃ s ∈ _, _))

/-- `writes_slot_between` -/
def WritesSlotBetween (first last : ℕ) (slot : Option Slot) : Prop :=
  ∃ n ∈ (g.nodes.take last).drop (first + 1), n.kind ≠ .none ∧
    ∃ o ∈ n.outs, (g.value o).slot = slot

instance (first last : ℕ) (slot : Option Slot) : Decidable (g.WritesSlotBetween first last slot) :=
  inferInstanceAs (Decidable (∃ n ∈ _, _ ∧ ∃ o ∈ _, _))

/-- `try_fuse_matmul_residual` -/
def tryFuseMatmulResidual (addIndex : ℕ) : CgGraph × ℕ :=
  let add := g.node addIndex
  match add.ins, add.outs, (g.value (add.ins.getD 1 0)).producer with
  | [acc, y], [_], some mmIndex =>
    let yv := g.value y
    let mm := g.node mmIndex
    if add.kind ≠ .add ∨ add.sec ≠ .layer then (g, 0)
    else if yv.nUses ≠ 1 ∨ yv.loopCarried ∨ g.ValueIsCarryOut y then (g, 0)
    else if mm.kind ≠ .matmul ∨ mm.sec ≠ add.sec then (g, 0)
    else
      match mm.ins, mm.outs with
      | [input], [_] =>
        if g.InCoalescedRun mm ∨ g.WritesSlotBetween mmIndex addIndex (g.value input).slot then (g, 0)
        else
          (((g.setNode addIndex { add with
              kind := .matmulResidual, wIdx := mm.wIdx, params := mm.params,
              ins := [input, acc] }).modifyValue y fun v => { v with nUses := 0 }).setNode mmIndex
            { mm with kind := .none }, 1)
      | _, _ => (g, 0)
  | _, _, _ => (g, 0)

/-- `graph_fuse_matmul_residual` -/
def fuseMatmulResidual (ctx : PassCtx) : CgGraph × ℕ :=
  if ctx.matmulResidualOk then
    (List.range g.nodes.length).foldl
      (fun p i => ((p.1.tryFuseMatmulResidual i).1, p.2 + (p.1.tryFuseMatmulResidual i).2)) (g, 0)
  else (g, 0)

/-! ### Output scales -/

/-- `node_touches_slot` -/
def NodeTouchesSlot (n : CgNode) (slot : Option Slot) : Prop :=
  ∃ v ∈ n.ins ++ n.outs, (g.value v).slot = slot

instance (n : CgNode) (slot : Option Slot) : Decidable (g.NodeTouchesSlot n slot) :=
  inferInstanceAs (Decidable (∃ v ∈ _, _))

/-- `replace_value` -/
def replaceValue (src dst : ℕ) : CgGraph :=
  let re := fun v => if v = src then dst else v
  let g' : CgGraph :=
    { g with
      nodes := g.nodes.map fun n => { n with ins := n.ins.map re }
      carry := g.carry.map fun c => { c with output := re c.output }
      values := g.values.map fun v => { v with aliasOf := v.aliasOf.map re, viewOf := v.viewOf.map re } }
  (g'.modifyValue dst fun v => { v with nUses := v.nUses + (g.value src).nUses - 1 }).modifyValue src
    fun v => { v with nUses := 0 }

/-- `drop_scale_node` -/
def dropScaleNode (index : ℕ) : CgGraph :=
  let scale := g.node index
  let g' := g.replaceValue (scale.outs.getD 0 0) (scale.ins.getD 0 0)
  g'.setNode index { g'.node index with kind := .none }

/-- `layer_output_scale` -/
def layerOutputScale (ctx : PassCtx) (scale : CgNode) : ℚ :=
  match ctx.layer with
  | some li =>
    if ctx.hasLayerOutputScale ∧ li < ctx.layerOutScale.length ∧ ctx.layerOutScale.getD li 1 ≠ 1 then
      ctx.layerOutScale.getD li 1
    else scale.params.scaleBy
  | none => scale.params.scaleBy

/-- The loop of `fold_scale_node`, over the nodes before the scale, the last one first. -/
def foldScaleLoop (ctx : PassCtx) (index : ℕ) : List ℕ → CgGraph × ℕ
  | [] => (g, 0)
  | k :: ks =>
    let scale := g.node index
    let slot := g.inSlot scale 0
    let prev := g.node k
    if prev.kind = .none then foldScaleLoop ctx index ks
    else if prev.kind = .rmsnormAdd ∧ (g.outSlot prev 0 = slot ∨ g.inSlot prev 0 = slot) then
      ((g.setNode k { prev with
          params := prev.params.mulOutScale (layerOutputScale ctx scale) }).dropScaleNode index, 1)
    else if prev.kind = .pleProjInject ∧ g.inSlot prev 0 = slot then
      if ctx.hasPerLayerEmbeddings then (g.dropScaleNode index, 1)
      else foldScaleLoop ctx index ks
    else if g.NodeTouchesSlot prev slot then (g, 0)
    else foldScaleLoop ctx index ks

/-- `fold_scale_node` -/
def foldScaleNode (ctx : PassCtx) (index : ℕ) : CgGraph × ℕ :=
  let lo := g.sectionBegin (g.node index).sec
  g.foldScaleLoop ctx index (List.range' lo (index - lo)).reverse

/-- `graph_fuse_output_scale` -/
def fuseOutputScale (ctx : PassCtx) : CgGraph × ℕ :=
  if ctx.layer = none then (g, 0)
  else
    (List.range g.nodes.length).foldl
      (fun p i =>
        if (p.1.node i).kind = .scale ∧ (p.1.node i).sec = .layer then
          ((p.1.foldScaleNode ctx i).1, p.2 + (p.1.foldScaleNode ctx i).2)
        else p)
      (g, 0)

/-! ### Matmuls of one input -/

/-- `can_merge_gate_up` -/
def CanMergeGateUp (gate up : CgNode) : Prop :=
  gate.kind = .matmul ∧ up.kind = .matmul ∧ gate.sec = .layer ∧ up.sec = .layer ∧
    gate.wIdx = widxGate ∧ up.wIdx = widxUp ∧ up.recipeIndex = gate.recipeIndex + 1 ∧
    gate.ins.length = 1 ∧ up.ins.length = 1 ∧ gate.outs.length = 1 ∧ up.outs.length = 1 ∧
    gate.ins = up.ins ∧ gate.params.k = up.params.k ∧
    (g.outSlot up 0).map Fin.val = (g.outSlot gate 0).map fun s => s.val + 1

instance (gate up : CgNode) : Decidable (g.CanMergeGateUp gate up) := by
  unfold CanMergeGateUp
  infer_instance

/-- `merge_gate_up` -/
def mergeGateUp (i : ℕ) : CgGraph :=
  let gate := g.node i
  let up := g.node (i + 1)
  let upOut := up.outs.getD 0 0
  let g' := (g.modifyValue (gate.ins.getD 0 0) fun v => { v with nUses := v.nUses - 1 }).modifyValue
    upOut fun v => { v with producer := some i }
  (g'.setNode i { gate with
      kind := .matmulMulti
      params := .matmulMulti gate.params.k gate.params.n up.params.n 0 false
      outs := gate.outs ++ [upOut] }).setNode (i + 1) { up with kind := .none }

/-- `graph_fuse_gate_up_multi` -/
def fuseGateUpMulti (ctx : PassCtx) : CgGraph × ℕ :=
  if ctx.multiMatmulOk then
    (List.range (g.nodes.length - 1)).foldl
      (fun p i =>
        if p.1.CanMergeGateUp (p.1.node i) (p.1.node (i + 1)) then (p.1.mergeGateUp i, p.2 + 1)
        else p)
      (g, 0)
  else (g, 0)

/-- The loop of `coalesce_run_at`: `run` nodes are in the run, at most `fuel` more can join. -/
def coalesceRunLoop (index stop : ℕ) : ℕ → ℕ → ℕ
  | run, 0 => run
  | run, fuel + 1 =>
    let head := g.node index
    let next := g.node (index + run)
    if index + run < stop ∧ next.kind = .matmul ∧ next.params.n ≠ 0 ∧ next.params.k ≠ 0 ∧
        next.recipeIndex = head.recipeIndex + run ∧ g.inSlot next 0 = g.inSlot head 0 ∧
        next.params.k = head.params.k then
      coalesceRunLoop index stop (run + 1) fuel
    else run

/-- `coalesce_run_at` -/
def coalesceRunAt (index : ℕ) : ℕ :=
  g.coalesceRunLoop index (g.sectionEnd (g.node index).sec) 1 (recipeCoalesceMax - 1)

/-- One node of `graph_coalesce_matmul_runs`. -/
def coalesceNode (supported : Bool) (p : CgGraph × ℕ) (i : ℕ) : CgGraph × ℕ :=
  let n := p.1.node i
  if n.kind ≠ .matmul ∨ n.sec ≠ .layer ∨ n.params.n = 0 ∨ n.params.k = 0 then p
  else
    let want := if supported then p.1.coalesceRunAt i else 1
    (p.1.setNode i { n with coalesceRunLen := want },
      if want ≠ n.coalesceRunLen ∧ (1 < want ∨ 1 < n.coalesceRunLen) then p.2 + 1 else p.2)

/-- `graph_coalesce_matmul_runs` -/
def coalesceMatmulRuns (ctx : PassCtx) : CgGraph × ℕ :=
  (List.range g.nodes.length).foldl (coalesceNode ctx.coalescingOk) (g, 0)

/-! ### Norms after a residual norm -/

/-- One node of `graph_fuse_rmsnorm_add_norm`. -/
def fuseAddNorm (ctx : PassCtx) (p : CgGraph × ℕ) (i : ℕ) : CgGraph × ℕ :=
  let add := p.1.node i
  let norm := p.1.node (i + 1)
  if add.kind = .rmsnormAdd ∧ norm.kind = .rmsnorm ∧ ¬ add.fuseNext ∧ norm.sec = add.sec ∧
      norm.recipeIndex = add.recipeIndex + 1 ∧ norm.ins.getD 0 0 = add.outs.getD 0 0 ∧
      norm.params.eps = add.params.eps ∧ ctx.addNormOk add.sec then
    (p.1.setNode i { add with fuseNext := true }, p.2 + 1)
  else p

/-- `graph_fuse_rmsnorm_add_norm` -/
def fuseRmsnormAddNorm (ctx : PassCtx) : CgGraph × ℕ :=
  (List.range (g.nodes.length - 1)).foldl (fuseAddNorm ctx) (g, 0)

/-! ### Back to op lists -/

/-- `lower_fused_node` -/
def lowerFusedNode (n : CgNode) : RecipeOp :=
  .mkMatmulResidual (g.inSlot n 0) (g.inSlot n 1) (g.inSlot n 1) n.wIdx n.params.n n.params.k

/-- `lower_multi_node` -/
def lowerMultiNode (n : CgNode) : RecipeOp :=
  .mkMatmulMulti2 (g.inSlot n 0) (g.outSlot n 0) (g.outSlot n 1) n.wIdx n.params.nOut0
    n.params.nOut1 n.params.k

/-- `lowerable_rewrite` -/
def lowerableRewrite (lowered original : OpKind) : Bool :=
  (lowered == .matmulResidual && original == .add) || (lowered == .matmulMulti && original == .matmul)

/-- `lower_node` -/
def lowerNode (n : CgNode) (orig : RecipeOp) : RecipeOp :=
  let op :=
    if n.kind = orig.kind then orig
    else
      { (if n.kind = .matmulResidual then g.lowerFusedNode n else g.lowerMultiNode n) with
        geom := orig.geom }
  { op with coalesceRunLen := n.coalesceRunLen, fuseNext := n.fuseNext, u := n.params }

/-- One node of `graph_lower_section`. -/
def lowerInto (orig : List RecipeOp) (out : List RecipeOp) (n : CgNode) : Option (List RecipeOp) :=
  match orig[n.recipeIndex]? with
  | none => none
  | some op =>
    if n.kind ≠ op.kind ∧ ¬ lowerableRewrite n.kind op.kind then none
    else some (out.set n.recipeIndex (g.lowerNode n op))

/-- `graph_lower_section`; `none` where it gives up. -/
def lowerSection (sec : CgSection) (orig : List RecipeOp) : Option (List RecipeOp) :=
  (g.sectionNodes sec).foldlM (g.lowerInto orig) (orig.map fun op => { op with kind := .none })

/-- `lower_into`, which keeps the ops that could not be lowered. -/
def lowerOr (sec : CgSection) (ops : List RecipeOp) : List RecipeOp :=
  (g.lowerSection sec ops).getD ops

end CgGraph

/-- The passes of `graph_optimize_recipe`, in their order. -/
def optimizePasses (ctx : PassCtx) : List (CgGraph → CgGraph × ℕ) :=
  [fun g => g.fuseOutputScale ctx, fun g => g.fuseGateUpMulti ctx,
    fun g => g.coalesceMatmulRuns ctx, fun g => g.fuseRmsnormAddNorm ctx,
    fun g => g.fuseMatmulResidual ctx]

/-- The recipe that the graph left by the passes is lowered to. -/
def ModelRecipe.lowered (r : ModelRecipe) (g : CgGraph) : ModelRecipe where
  preOps := g.lowerOr .pre r.preOps
  layerOps := g.lowerOr .layer r.layerOps
  postOps := g.lowerOr .post r.postOps

end Kappai
