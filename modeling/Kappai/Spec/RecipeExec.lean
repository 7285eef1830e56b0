import Kappai.Lib.SharedCells
import Kappai.Spec.MemPlan

/-! How a recipe is executed: every op as an instruction over the slots, with the kernels of the
backend and all state outside the slots given. Rows in segments are left out. -/

namespace Kappai

/-- The kernels, for the layer of the op or for the ops outside the layers. `add` adds the first
elements of a row; what the kinds without a kernel here do is `other`. -/
structure Kernels (V S : Type*) where
  dim : ℕ
  hasLayerOutputScale : Bool
  layerOutScale : ℕ → ℚ
  matmul : Option ℕ → ℕ → ℕ → ℕ → V → V
  add : ℕ → V → V → V
  scale : ℚ → V → V
  rmsnorm : Option ℕ → ℕ → ℚ → V → V
  other : Option ℕ → RecipeOp → S → List V → S × (ℕ → V) × (ℕ → Option V)

namespace Kernels

variable {V S : Type*} (K : Kernels V S)

/-- The factor of `scale_run`. -/
def scaleOf (layer : Option ℕ) (op : RecipeOp) : ℚ :=
  match layer with
  | some li => if K.hasLayerOutputScale ∧ K.layerOutScale li ≠ 1 then K.layerOutScale li
      else op.u.scaleBy
  | none => op.u.scaleBy

/-- A scaling by one is not run. -/
def scaled (sc : ℚ) (v : V) : V := if sc = 1 then v else K.scale sc v

/-- What an op makes of the values it loads: the new state, the stores and the scratch. A
`MATMUL_RESIDUAL` adds as many elements as the matmul has rows, an `ADD` as many as the model has
dimensions. -/
def run (layer : Option ℕ) (op : RecipeOp) (s : S) (vs : List V) : S × (ℕ → V) × (ℕ → Option V) :=
  match op.kind, vs with
  | .add, [x, y] => (s, fun _ => K.add K.dim x y, fun _ => none)
  | .matmul, [x] => (s, fun _ => K.matmul layer op.wIdx op.u.n op.u.k x, fun _ => none)
  | .matmulResidual, [x, r] =>
    let tmp := K.matmul layer op.wIdx op.u.n op.u.k x
    (s, fun _ => K.add op.u.n r tmp, fun _ => some tmp)
  | .rmsnormAdd, [x, r] =>
    let y := K.add K.dim (K.rmsnorm layer op.wIdx op.u.eps x) r
    (s, fun _ => K.scaled op.u.outScale y, fun _ => none)
  | .scale, [x] => (s, fun _ => K.scaled (K.scaleOf layer op) x, fun _ => none)
  | _, _ => K.other layer op s vs

end Kernels

namespace RecipeOp

variable {V S : Type*}

/-- `op_swap` exchanges the buffers of its slots; the other handlers load and store. -/
def instr (K : Kernels V S) (layer : Option ℕ) (op : RecipeOp) : CellInstr Slot V S :=
  match op.kind, op.in0, op.in1 with
  | .swap, some a, some b => .exchange a b
  | _, _, _ => .op ⟨op.loads, op.stores, op.scratch, K.run layer op⟩

/-- The steps of a section: `OP_NONE` is not lowered. -/
def steps (ops : List RecipeOp) : List RecipeOp := ops.filter fun op => op.kind ≠ .none

def sectionInstrs (K : Kernels V S) (layer : Option ℕ) (ops : List RecipeOp) :
    List (CellInstr Slot V S) :=
  (steps ops).map (instr K layer)

end RecipeOp

namespace ModelRecipe

variable {V S : Type*}

/-- The pre section once, the layer section once for every layer, the post section once. -/
def program (K : Kernels V S) (r : ModelRecipe) (nLayers : ℕ) : List (CellInstr Slot V S) :=
  RecipeOp.sectionInstrs K none r.preOps ++
    (List.range nLayers).flatMap (fun li => RecipeOp.sectionInstrs K (some li) r.layerOps) ++
    RecipeOp.sectionInstrs K none r.postOps

end ModelRecipe

/-- Where an op runs: its section, the layer if it runs for one, and its place in the op list. -/
structure OpSite where
  sec : CgSection
  layer : Option ℕ
  index : ℕ
deriving DecidableEq

namespace ModelRecipe

variable {V S : Type*}

def opsOf (r : ModelRecipe) : CgSection → List RecipeOp
  | .pre => r.preOps
  | .layer => r.layerOps
  | .post => r.postOps

def opAt (r : ModelRecipe) (site : OpSite) : Option RecipeOp := (r.opsOf site.sec)[site.index]?

/-- The steps of a section, each at its site. -/
def sectionSites (K : Kernels V S) (r : ModelRecipe) (sec : CgSection) (layer : Option ℕ) :
    List (OpSite × CellInstr Slot V S) :=
  ((r.opsOf sec).zipIdx.filter fun p => p.1.kind ≠ .none).map fun p =>
    (⟨sec, layer, p.2⟩, RecipeOp.instr K layer p.1)

/-- As `program`, with every instruction at its site. -/
def sites (K : Kernels V S) (r : ModelRecipe) (nLayers : ℕ) :
    List (OpSite × CellInstr Slot V S) :=
  r.sectionSites K .pre none ++
    (List.range nLayers).flatMap (fun li => r.sectionSites K .layer (some li)) ++
    r.sectionSites K .post none

end ModelRecipe

/-- An instruction over a bank shows what it takes in. -/
def slotMachine (V S : Type*) :
    Machine (CellBank Slot Slot V S) (CellInstr Slot V S) (List V) where
  step := CellInstr.step
  shows := fun m i => i.inputs m

/-- A buffer for every slot. -/
def privateBank {V S : Type*} (env : S) (mem : Slot → V) : CellBank Slot Slot V S := ⟨env, id, mem⟩

/-- The shared buffers of a plan; a slot that is not planned keeps to its own. -/
def MemPlan.bank {V S : Type*} (p : MemPlan) (env : S) (mem : Slot → V) :
    CellBank Slot Slot V S :=
  ⟨env, p.rep, mem⟩

/-- What every op of a run takes in, at its site. -/
def ModelRecipe.taken {V S : Type*} (K : Kernels V S) (r : ModelRecipe) (nLayers : ℕ) (env : S)
    (mem : Slot → V) : List (OpSite × List V) :=
  (slotMachine V S).trace (privateBank env mem) (r.sites K nLayers)

end Kappai
