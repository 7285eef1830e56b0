import Mathlib.Algebra.GroupWithZero.Nat
import Mathlib.Data.Fintype.Basic
import Mathlib.Data.Nat.Notation
import Mathlib.Data.Rat.Defs

/-! Recipes: op lists over the slot machine, the table of what each op kind touches, and what the
handlers of the kinds load and store. Floats are exact; the profile stage of an op is left out. -/

namespace Kappai

/-- `RECIPE_SLOT_NONE` is the `none` of an `Option Slot`. -/
abbrev Slot := Fin 23

instance : LawfulBEq Slot := inferInstance

namespace Slot

def x : Slot := 0
def xb : Slot := 1
def xb2 : Slot := 2
def attnOut : Slot := 3
def q : Slot := 4
def k : Slot := 5
def v : Slot := 6
def ffnGate : Slot := 7
def ffnUp : Slot := 8
def ffnAct : Slot := 9
def ffnGateUp : Slot := 10
def residTmp : Slot := 11
def logits : Slot := 14
def routerIds : Slot := 15
def routerW : Slot := 16
def hybProj : Slot := 17
def hybGate : Slot := 18
def hybAlpha : Slot := 19
def hybBeta : Slot := 20
def hc : Slot := 21
def hcCoef : Slot := 22

def all : List Slot := List.finRange 23

end Slot

inductive OpKind
  | none
  | embdLookup | scaleEmbeddings | pleBuild
  | rmsnorm | rmsnormPerHead | rmsnormNoweight | rmsnormAdd
  | matmul | matmulResidual | matmulMulti | matmulFfnDown
  | rope | ropeQkFused | ropeExt | qkNormRope
  | kvPut | copyKToV | attention
  | add | swap | ffnActivate | ffnActivateEx | ffnActivateFused | scale
  | pleProjInject
  | softcap | logitsReadback
  | mlaQProj | mlaKvProj | mlaQkvProjFused | attentionMla | moeRouter | moeExperts | moeShared
  | splitQgate | partialRopeQk | attnOutputGate | gatedDeltaNet | shortconv
  | hcInit | hcPre | hcPost | hcFinal | kda | mlaAbsorbed
  | dfMatmul | dfConv | dfRmsnorm | dfRmsnormPerHead | dfLayernormModulate | dfAdd | dfGatedAdd
  | dfActivate | dfFfnActivate | dfRopeTable | dfAttention | dfUpsampleShortcutAdd
  | layernorm | addBias | addTypeEmbd | splitQkv | activate | attentionFull
deriving DecidableEq, Repr

/-- `weight_idx`, as far as the modelled functions name its members. -/
def widxNone : ℕ := 0
def widxWq : ℕ := 5
def widxGate : ℕ := 10
def widxUp : ℕ := 11

/-- `op_params`. A member that no modelled function reads is `other`. -/
inductive OpParams
  | matmul (n k : ℕ)
  | matmulMulti (k nOut0 nOut1 nOut2 : ℕ) (vFromK : Bool)
  | rmsnorm (eps outScale : ℚ)
  | scale (scale : ℚ)
  | other (bits : ℕ)
deriving DecidableEq

namespace OpParams

def n : OpParams → ℕ
  | .matmul n _ => n
  | _ => 0

def k : OpParams → ℕ
  | .matmul _ k | .matmulMulti k _ _ _ _ => k
  | _ => 0

def nOut0 : OpParams → ℕ
  | .matmulMulti _ n _ _ _ => n
  | _ => 0

def nOut1 : OpParams → ℕ
  | .matmulMulti _ _ n _ _ => n
  | _ => 0

def eps : OpParams → ℚ
  | .rmsnorm e _ => e
  | _ => 0

def outScale : OpParams → ℚ
  | .rmsnorm _ s => s
  | _ => 0

def scaleBy : OpParams → ℚ
  | .scale s => s
  | _ => 0

/-- `params.rmsnorm.out_scale *= sc` -/
def mulOutScale (u : OpParams) (sc : ℚ) : OpParams :=
  match u with
  | .rmsnorm e s => .rmsnorm e (s * sc)
  | u => u

end OpParams

structure OpLayerGeom where
  headDim : ℕ
  nKvHeads : ℕ
  qRowStride : ℕ
  kvRowStride : ℕ
  isGlobal : Bool
deriving DecidableEq

structure RecipeOp where
  kind : OpKind
  in0 : Option Slot
  in1 : Option Slot
  in2 : Option Slot
  in3 : Option Slot
  out : Option Slot
  out1 : Option Slot
  out2 : Option Slot
  wIdx : ℕ
  coalesceRunLen : ℕ
  fuseNext : Bool
  u : OpParams
  geom : OpLayerGeom
deriving DecidableEq

/-- `OP_TOUCH_*` -/
inductive Touch
  | in0 | in1 | in2 | in3 | out | out1 | out2
deriving DecidableEq

/-- `OP_TOUCH_MAX` -/
def opTouchMax : ℕ := 6

open Touch in
/-- The `reads` column of `OP_REQUIREMENTS`. -/
def OpKind.reads : OpKind → List Touch
  | .none | .embdLookup => []
  | .rmsnormAdd | .matmulResidual | .matmulFfnDown | .ropeQkFused | .qkNormRope | .kvPut | .add
  | .swap | .ffnActivate | .ffnActivateEx | .partialRopeQk | .attnOutputGate | .logitsReadback
  | .pleProjInject | .dfLayernormModulate | .dfAdd | .dfFfnActivate | .dfRopeTable
  | .dfUpsampleShortcutAdd => [in0, in1]
  | .attentionFull | .attention | .attentionMla | .mlaAbsorbed | .hcPost | .moeExperts
  | .dfGatedAdd => [in0, in1, in2]
  | .gatedDeltaNet | .dfAttention => [in0, in1, in2, in3]
  | _ => [in0]

open Touch in
/-- The `writes` column of `OP_REQUIREMENTS`. -/
def OpKind.writes : OpKind → List Touch
  | .none | .pleBuild | .mlaKvProj | .kvPut | .logitsReadback => []
  | .splitQkv | .matmulMulti => [out, out1, out2]
  | .moeRouter | .ropeQkFused | .qkNormRope | .splitQgate | .partialRopeQk | .hcPre => [out, out1]
  | .add => [in0]
  | .swap | .pleProjInject => [in0, in1]
  | _ => [out]

open Slot in
/-- The `batch_extra_mask` column of `OP_REQUIREMENTS`. -/
def OpKind.batchExtraMask : OpKind → List Slot
  | .matmulResidual => [residTmp]
  | .matmulFfnDown => [ffnAct]
  | .mlaQProj => [ffnGate]
  | .mlaKvProj => [ffnUp]
  | .mlaQkvProjFused => [ffnGate, ffnUp]
  | .moeRouter | .moeExperts => [xb, xb2, ffnAct, residTmp]
  | .moeShared => [xb, xb2, ffnGate, ffnUp, ffnAct, ffnGateUp, residTmp]
  | _ => []

open Touch in
/-- The operands whose slots the handler of the kind loads. -/
def OpKind.loads : OpKind → List Touch
  | .none | .embdLookup => []
  | .matmulResidual => [in0, out]
  | .hcPost => [in0, in1, out]
  | .rmsnormAdd | .matmulFfnDown | .ropeQkFused | .qkNormRope | .kvPut | .add | .swap
  | .ffnActivate | .ffnActivateEx | .partialRopeQk | .attnOutputGate => [in0, in1]
  | .attentionFull | .moeExperts => [in0, in1, in2]
  | .gatedDeltaNet => [in0, in1, in2, in3]
  | _ => [in0]

open Touch in
/-- The operands whose slots the handler of the kind stores to. -/
def OpKind.stores : OpKind → List Touch
  | .none | .pleBuild | .mlaKvProj | .kvPut | .logitsReadback => []
  | .rmsnormPerHead | .rmsnormNoweight | .rope | .ropeExt | .add | .scale | .softcap
  | .attnOutputGate => [in0]
  | .ropeQkFused | .qkNormRope | .partialRopeQk | .swap | .pleProjInject => [in0, in1]
  | .splitQkv | .matmulMulti => [out, out1, out2]
  | .moeRouter | .splitQgate | .hcPre => [out, out1]
  | _ => [out]

namespace RecipeOp

/-- `mk_op_base`, which leaves the unions and the marks of the passes at zero. -/
def base (kind : OpKind) (in0 in1 in2 out : Option Slot) (wIdx : ℕ) : RecipeOp where
  kind := kind
  in0 := in0
  in1 := in1
  in2 := in2
  in3 := none
  out := out
  out1 := none
  out2 := none
  wIdx := wIdx
  coalesceRunLen := 0
  fuseNext := false
  u := .other 0
  geom := ⟨0, 0, 0, 0, false⟩

def mkMatmul (i o : Slot) (wIdx n k : ℕ) : RecipeOp :=
  { base .matmul (some i) none none (some o) wIdx with u := .matmul n k }

def mkMatmulResidual (i residual o : Option Slot) (wIdx n k : ℕ) : RecipeOp :=
  { base .matmulResidual i residual none o wIdx with u := .matmul n k }

def mkMatmulMulti2 (i o0 o1 : Option Slot) (wIdx n0 n1 k : ℕ) : RecipeOp :=
  { base .matmulMulti i none none o0 wIdx with out1 := o1, u := .matmulMulti k n0 n1 0 false }

def mkAdd (a b : Slot) : RecipeOp := base .add (some a) (some b) none none widxNone

def mkSwap (a b : Slot) : RecipeOp := base .swap (some a) (some b) none none widxNone

def mkRmsnorm (i o : Slot) (wIdx : ℕ) (eps : ℚ) : RecipeOp :=
  { base .rmsnorm (some i) none none (some o) wIdx with u := .rmsnorm eps 0 }

def mkRmsnormAdd (i residual o : Slot) (wIdx : ℕ) (eps : ℚ) : RecipeOp :=
  { base .rmsnormAdd (some i) (some residual) none (some o) wIdx with u := .rmsnorm eps 1 }

def mkScale (io : Slot) (wIdx : ℕ) (scale : ℚ) : RecipeOp :=
  { base .scale (some io) none none (some io) wIdx with u := .scale scale }

def mkPleProjInject (i residual : Slot) (wIdx : ℕ) : RecipeOp :=
  base .pleProjInject (some i) (some residual) none none wIdx

def mkFfnActivate (gate up o : Slot) : RecipeOp :=
  base .ffnActivate (some gate) (some up) none (some o) widxNone

def mkFfnActivateFused (i o : Slot) : RecipeOp :=
  base .ffnActivateFused (some i) none none (some o) widxNone

def mkEmbdLookup : RecipeOp := base .embdLookup none none none (some .x) 1

variable (op : RecipeOp)

/-- `touch_resolve` -/
def operand : Touch → Option Slot
  | .in0 => op.in0
  | .in1 => op.in1
  | .in2 => op.in2
  | .in3 => op.in3
  | .out => op.out
  | .out1 => op.out1
  | .out2 => op.out2

/-- `touch_push` -/
def touchPush (list : List Slot) (slot : Option Slot) : List Slot :=
  match slot with
  | none => list
  | some s => if s ∈ list ∨ list.length ≥ opTouchMax then list else list ++ [s]

/-- The `reads` of `recipe_op_touch`. -/
def touchReads : List Slot := (op.kind.reads.map op.operand).foldl touchPush []

/-- The `writes` of `recipe_op_touch`. -/
def touchWrites : List Slot := (op.kind.writes.map op.operand).foldl touchPush []

/-- The slots the handler loads, each operand in its place. -/
def loads : List Slot := op.kind.loads.filterMap op.operand

def stores : List Slot := op.kind.stores.filterMap op.operand

/-- The slots the handler may overwrite as scratch. -/
def scratch : List Slot := op.kind.batchExtraMask

/-- The operands are laid out as the builders of the ops lay them out: what the table says is
written is stored, and the handler touches no slot but those of the table. -/
structure Shaped : Prop where
  writes : ∀ s ∈ op.touchWrites, s ∈ op.stores
  stores : ∀ s ∈ op.stores, s ∈ op.touchWrites ∨ s ∈ op.touchReads
  loads : ∀ s ∈ op.loads, s ∈ op.touchReads

instance : Decidable op.Shaped :=
  decidable_of_iff ((∀ s ∈ op.touchWrites, s ∈ op.stores) ∧
      (∀ s ∈ op.stores, s ∈ op.touchWrites ∨ s ∈ op.touchReads) ∧
      ∀ s ∈ op.loads, s ∈ op.touchReads)
    ⟨fun h => ⟨h.1, h.2.1, h.2.2⟩, fun h => ⟨h.writes, h.stores, h.loads⟩⟩

end RecipeOp

structure ModelRecipe where
  preOps : List RecipeOp
  layerOps : List RecipeOp
  postOps : List RecipeOp

end Kappai
