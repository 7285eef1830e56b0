import Kappai.Sanity.Lowering
import Kappai.Sanity.SlotRuns

/-! One matmul folded into the `ADD` that takes its output: the graph stays coherent, and both
graphs run alike but for the folded pair. -/

namespace Kappai

open RecipeOp

/-- The builders lay the operands out so that the handler stores what the table says is written and
nothing else. -/
structure RecipeOp.Exact (op : RecipeOp) : Prop extends op.Shaped where
  only : ∀ s ∈ op.stores, s ∈ op.touchWrites

instance (op : RecipeOp) : Decidable op.Exact :=
  decidable_of_iff (op.Shaped ∧ ∀ s ∈ op.stores, s ∈ op.touchWrites)
    ⟨fun h => ⟨h.1, h.2⟩, fun h => ⟨h.toShaped, h.only⟩⟩

namespace CgGraph

variable {g g' g₀ : CgGraph} {r : ModelRecipe}

/-- The op of a node loads slots of values the node reads and stores to the slots of the values it
writes. -/
structure Speaks (g : CgGraph) (r : ModelRecipe) (n : CgNode) : Prop where
  loads : ∀ s ∈ (g.nodeOp r n).loads, ∃ v ∈ n.ins, (g.value v).slot = some s
  stores : ∀ s, s ∈ (g.nodeOp r n).stores ↔
    ∃ v ∈ n.outs, (g.value v).viewOf = none ∧ (g.value v).slot = some s

/-- The values but for the counts of their uses. -/
def SameValues (g g' : CgGraph) : Prop :=
  g'.values.length = g.values.length ∧ ∀ v, (g'.value v).slot = (g.value v).slot ∧
    (g'.value v).producer = (g.value v).producer ∧ (g'.value v).viewOf = (g.value v).viewOf

theorem SameValues.refl (g : CgGraph) : SameValues g g := ⟨rfl, fun _ => ⟨rfl, rfl, rfl⟩⟩

theorem SameValues.trans {g'' : CgGraph} (h : SameValues g g') (h' : SameValues g' g'') :
    SameValues g g'' :=
  ⟨h'.1.trans h.1, fun v => ⟨(h'.2 v).1.trans (h.2 v).1, (h'.2 v).2.1.trans (h.2 v).2.1,
    (h'.2 v).2.2.trans (h.2 v).2.2⟩⟩

/-- What the pass has made of a node: nothing, or it dropped a matmul or folded one into an
`ADD`. -/
def Folded (n₀ n : CgNode) : Prop :=
  n.sec = n₀.sec ∧ n.recipeIndex = n₀.recipeIndex ∧ n.outs = n₀.outs ∧
    (n = n₀ ∨ n₀.sec = .layer ∧
      (n₀.kind = .matmul ∧ n.kind = .none ∨ n₀.kind = .add ∧ n.kind = .matmulResidual))

/-- The graph while the pass runs over that of a recipe. -/
structure Fusing (r : ModelRecipe) (g₀ g : CgGraph) : Prop where
  coherent : Coherent g
  layerBegin : g.layerBegin = g₀.layerBegin
  postBegin : g.postBegin = g₀.postBegin
  carry : g.carry = g₀.carry
  values : SameValues g₀ g
  length : g.nodes.length = g₀.nodes.length
  nodes : ∀ (t : ℕ) (n : CgNode), g.nodes[t]? = some n →
    ∃ n₀, g₀.nodes[t]? = some n₀ ∧ Folded n₀ n
  speaks : ∀ (t : ℕ) (n : CgNode), g.LiveNode t n → g.Speaks r n

/-- The graph after a matmul is folded into an `ADD`. -/
def fused (g : CgGraph) (p q : ℕ) (add mm : CgNode) (acc y input : ℕ) : CgGraph :=
  ((g.setNode q { add with
      kind := .matmulResidual, wIdx := mm.wIdx, params := mm.params, ins := [input, acc] }
    ).modifyValue y fun v => { v with nUses := 0 }).setNode p { mm with kind := .none }

/-- What the pass asks of the nodes that it folds. -/
structure Foldable (g : CgGraph) (p q : ℕ) (add mm : CgNode) (acc y input : ℕ) : Prop where
  addNode : g.nodes[q]? = some add
  addKind : add.kind = .add
  addSec : add.sec = .layer
  addIns : add.ins = [acc, y]
  addOuts : add.outs.length = 1
  producer : (g.value y).producer = some p
  uses : (g.value y).nUses = 1
  carryOut : ¬ g.ValueIsCarryOut y
  mmNode : g.nodes[p]? = some mm
  mmKind : mm.kind = .matmul
  mmSec : mm.sec = .layer
  mmIns : mm.ins = [input]
  mmOuts : mm.outs.length = 1
  quiet : ¬ g.WritesSlotBetween p q (g.value input).slot

theorem node_of_kind {i : ℕ} (h : (g.node i).kind ≠ .none) : g.nodes[i]? = some (g.node i) := by
  rw [node, List.getD_eq_getElem?_getD] at h ⊢
  cases hn : g.nodes[i]? with
  | none =>
    rw [hn] at h
    exact absurd rfl h
  | some n => rfl

/-- One step of the pass folds a pair, or it leaves the graph. -/
theorem tryFuse_cases (g : CgGraph) (q : ℕ) :
    g.tryFuseMatmulResidual q = (g, 0) ∨
      ∃ p add mm acc y input, g.Foldable p q add mm acc y input ∧
        g.tryFuseMatmulResidual q = (g.fused p q add mm acc y input, 1) := by
  unfold tryFuseMatmulResidual
  dsimp only
  split
  · rename_i acc y o p hins houts hprod
    rw [hins] at hprod
    split_ifs with hadd hy hmm
    · exact Or.inl rfl
    · exact Or.inl rfl
    · exact Or.inl rfl
    · push Not at hadd hy hmm
      split
      · rename_i input o' hmi hmo
        split_ifs with hno
        · exact Or.inl rfl
        · push Not at hno
          refine Or.inr ⟨p, g.node q, g.node p, acc, y, input, ⟨?_, hadd.1, hadd.2, hins, ?_, hprod,
            hy.1, hy.2.2, ?_, hmm.1, hmm.2.trans hadd.2, hmi, ?_, hno.2⟩, rfl⟩
          · exact node_of_kind (by rw [hadd.1]; decide)
          · rw [houts]
            rfl
          · exact node_of_kind (by rw [hmm.1]; decide)
          · rw [hmo]
            rfl
      · exact Or.inl rfl
  · exact Or.inl rfl

/-! ### The graph after a fold -/

variable {p q acc y input : ℕ} {add mm : CgNode}

theorem value_modify_zero (g : CgGraph) (y v : ℕ) :
    ((g.modifyValue y fun v => { v with nUses := 0 }).value v).slot = (g.value v).slot ∧
      ((g.modifyValue y fun v => { v with nUses := 0 }).value v).producer = (g.value v).producer ∧
      ((g.modifyValue y fun v => { v with nUses := 0 }).value v).viewOf = (g.value v).viewOf := by
  rcases Nat.lt_or_ge v g.values.length with hlt | hge
  · rw [value_modifyValue g y v _ hlt]
    split_ifs
    · exact ⟨rfl, rfl, rfl⟩
    · exact ⟨rfl, rfl, rfl⟩
  · simp only [value, List.getD_eq_getElem?_getD]
    rw [List.getElem?_eq_none (by rw [length_modifyValue]; exact hge), List.getElem?_eq_none hge]
    exact ⟨rfl, rfl, rfl⟩

theorem sameValues_fused (g : CgGraph) (p q : ℕ) (add mm : CgNode) (acc y input : ℕ) :
    SameValues g (g.fused p q add mm acc y input) := by
  refine ⟨length_modifyValue _ _ _, fun v => ?_⟩
  exact value_modify_zero _ y v

theorem nodes_fused (g : CgGraph) (p q : ℕ) (add mm : CgNode) (acc y input : ℕ) :
    (g.fused p q add mm acc y input).nodes =
      (g.nodes.set q { add with
        kind := .matmulResidual, wIdx := mm.wIdx, params := mm.params, ins := [input, acc] }).set p
          { mm with kind := .none } := rfl

theorem LiveReaches.lt_of_producer {v t p : ℕ} (h : g.LiveReaches v t)
    (hp : (g.value v).producer = some p) : p < t := by
  obtain ⟨s, -, hprod⟩ := h
  rw [hp] at hprod
  exact hprod.1

/-- The pair of a fold: the matmul comes first, and nothing else reads what it writes. -/
structure Foldable.Pair (g : CgGraph) (p q : ℕ) (mm : CgNode) (acc y : ℕ) : Prop where
  lt : p < q
  outs : mm.outs = [y]
  live : y < g.values.length
  reaches : g.LiveReaches y q
  once : ∀ (t : ℕ) (n : CgNode), g.LiveNode t n → y ∈ n.ins → t = q
  acc_ne : acc ≠ y

theorem Foldable.pair (h : g.Foldable p q add mm acc y input) (hc : Coherent g) :
    Foldable.Pair g p q mm acc y := by
  have hadd : g.LiveNode q add := ⟨h.addNode, by rw [h.addKind]; decide⟩
  have hy : y ∈ add.ins := by
    rw [h.addIns]
    exact List.mem_cons_of_mem _ List.mem_cons_self
  obtain ⟨hlt, hr⟩ := hc.reads q add hadd y hy
  obtain ⟨hpq, hmem⟩ := hr.mem_outs h.producer h.mmNode
  obtain ⟨o, ho⟩ := List.length_eq_one_iff.mp h.mmOuts
  rw [ho] at hmem
  have huses := hc.uses y hlt
  rw [h.uses] at huses
  refine ⟨hpq, by rw [ho, List.mem_singleton.mp hmem], hlt, hr, fun t n hn hyn => ?_, fun heq => ?_⟩
  · by_contra hne
    have := two_le_liveUses hn hadd hne hyn hy
    omega
  · have hle := le_liveUses hadd y
    rw [h.addIns, heq] at hle
    simp only [List.count_cons_self, List.count_nil] at hle
    omega

/-- What a live node is after the fold. -/
theorem Foldable.liveNode_cases (h : g.Foldable p q add mm acc y input) (hpq : p < q) {t : ℕ}
    {n : CgNode} (hn : (g.fused p q add mm acc y input).LiveNode t n) :
    (t ≠ p ∧ t ≠ q ∧ g.LiveNode t n) ∨ t = q ∧ n = { add with
      kind := .matmulResidual, wIdx := mm.wIdx, params := mm.params, ins := [input, acc] } := by
  obtain ⟨hget, hk⟩ := hn
  rw [nodes_fused] at hget
  rcases eq_or_ne t p with rfl | htp
  · have hlt : t < g.nodes.length := (List.getElem?_eq_some_iff.mp h.mmNode).1
    rw [List.getElem?_set_self (by rw [List.length_set]; exact hlt)] at hget
    obtain rfl := Option.some.inj hget
    exact absurd rfl hk
  · rw [List.getElem?_set_ne htp.symm] at hget
    rcases eq_or_ne t q with rfl | htq
    · have hlt : t < g.nodes.length := (List.getElem?_eq_some_iff.mp h.addNode).1
      rw [List.getElem?_set_self hlt] at hget
      exact Or.inr ⟨rfl, (Option.some.inj hget).symm⟩
    · rw [List.getElem?_set_ne htq.symm] at hget
      exact Or.inl ⟨htp, htq, hget, hk⟩

theorem liveNode_fused {t : ℕ} {n : CgNode} (hn : g.LiveNode t n) (htp : t ≠ p) (htq : t ≠ q) :
    (g.fused p q add mm acc y input).LiveNode t n := by
  refine ⟨?_, hn.2⟩
  rw [nodes_fused, List.getElem?_set_ne htp.symm, List.getElem?_set_ne htq.symm]
  exact hn.1

theorem Foldable.liveNode_residual (h : g.Foldable p q add mm acc y input) (hpq : p < q) :
    (g.fused p q add mm acc y input).LiveNode q { add with
      kind := .matmulResidual, wIdx := mm.wIdx, params := mm.params, ins := [input, acc] } := by
  refine ⟨?_, fun hk => by cases hk⟩
  rw [nodes_fused, List.getElem?_set_ne hpq.ne,
    List.getElem?_set_self (List.getElem?_eq_some_iff.mp h.addNode).1]

/-- No write comes to be by a fold. -/
theorem Foldable.liveQuiet (h : g.Foldable p q add mm acc y input) (hpq : p < q) {lo hi : ℕ}
    {s : Slot} (hq : g.LiveQuiet lo hi s) : (g.fused p q add mm acc y input).LiveQuiet lo hi s := by
  have hv := sameValues_fused g p q add mm acc y input
  intro k n hn hlo hhi w hw
  rw [(hv.2 w).1]
  rcases h.liveNode_cases hpq hn with ⟨-, -, hlive⟩ | ⟨rfl, rfl⟩
  · exact hq k n hlive hlo hhi w hw
  · exact hq k add ⟨h.addNode, by rw [h.addKind]; decide⟩ hlo hhi w hw

/-- Values other than the output of the matmul still reach where they reached. -/
theorem Foldable.liveReaches (h : g.Foldable p q add mm acc y input)
    (hp : Foldable.Pair g p q mm acc y) {v t : ℕ} (hr : g.LiveReaches v t) (hne : v ≠ y) :
    (g.fused p q add mm acc y input).LiveReaches v t := by
  have hv := sameValues_fused g p q add mm acc y input
  obtain ⟨s, hs, hprod⟩ := hr
  refine ⟨s, (hv.2 v).1.trans hs, ?_⟩
  rw [(hv.2 v).2.1]
  cases hprodv : (g.value v).producer with
  | none =>
    rw [hprodv] at hprod
    exact h.liveQuiet hp.lt hprod
  | some k =>
    rw [hprodv] at hprod
    obtain ⟨hkt, ⟨n, hn, hvn⟩, hq⟩ := hprod
    refine ⟨hkt, ?_, h.liveQuiet hp.lt hq⟩
    rcases eq_or_ne k p with rfl | hkp
    · obtain rfl := Option.some.inj (hn.1.symm.trans h.mmNode)
      rw [hp.outs] at hvn
      exact absurd (List.mem_singleton.mp hvn) hne
    · rcases eq_or_ne k q with rfl | hkq
      · obtain rfl := Option.some.inj (hn.1.symm.trans h.addNode)
        exact ⟨_, h.liveNode_residual hp.lt, hvn⟩
      · exact ⟨n, liveNode_fused hn hkp hkq, hvn⟩

/-- The input of the matmul reaches the `ADD` once the matmul is gone. -/
theorem Foldable.input_reaches (h : g.Foldable p q add mm acc y input) (hc : Coherent g)
    (hp : Foldable.Pair g p q mm acc y) :
    input < g.values.length ∧ (g.fused p q add mm acc y input).LiveReaches input q := by
  have hv := sameValues_fused g p q add mm acc y input
  have hmm : g.LiveNode p mm := ⟨h.mmNode, by rw [h.mmKind]; decide⟩
  obtain ⟨hlt, hr⟩ := hc.reads p mm hmm input (by rw [h.mmIns]; exact List.mem_cons_self)
  have hne : input ≠ y := fun heq => by
    have hr' : g.LiveReaches y p := heq ▸ hr
    exact absurd (hr'.lt_of_producer h.producer) (lt_irrefl p)
  refine ⟨hlt, ?_⟩
  obtain ⟨s, hs, hprod⟩ := h.liveReaches hp hr hne
  have hquiet : ∀ lo, (g.fused p q add mm acc y input).LiveQuiet lo p s →
      (g.fused p q add mm acc y input).LiveQuiet lo q s := by
    intro lo hlo k n hn hlok hkq w hw hws
    rcases Nat.lt_trichotomy k p with hkp | rfl | hpk
    · exact hlo k n hn hlok hkp w hw hws
    · rcases h.liveNode_cases hp.lt hn with ⟨hne, -⟩ | ⟨heq, -⟩
      · exact hne rfl
      · omega
    · rcases h.liveNode_cases hp.lt hn with ⟨-, -, hlive⟩ | ⟨heq, -⟩
      · refine h.quiet ⟨n, ?_, hlive.2, w, hw, ?_⟩
        · refine List.mem_of_getElem? (i := k - (p + 1)) ?_
          rw [List.getElem?_drop, show p + 1 + (k - (p + 1)) = k by omega, List.getElem?_take,
            if_pos hkq]
          exact hlive.1
        · rw [← (hv.2 w).1, ← (hv.2 input).1, hws, hs]
      · omega
  refine ⟨s, hs, ?_⟩
  cases hprodv : ((g.fused p q add mm acc y input).value input).producer with
  | none =>
    rw [hprodv] at hprod
    exact hquiet 0 hprod
  | some k =>
    rw [hprodv] at hprod
    exact ⟨hprod.1.trans hp.lt, hprod.2.1, hquiet _ hprod.2.2⟩

theorem Foldable.uses_eq (h : g.Foldable p q add mm acc y input) (hc : Coherent g)
    (hp : Foldable.Pair g p q mm acc y) {v : ℕ} (hv : v < g.values.length) :
    ((g.fused p q add mm acc y input).value v).nUses =
      liveUses (g.fused p q add mm acc y input).nodes v := by
  have hset := liveUses_set h.addNode { add with
    kind := .matmulResidual, wIdx := mm.wIdx, params := mm.params, ins := [input, acc] } v
  have hmm : (g.nodes.set q { add with
      kind := .matmulResidual, wIdx := mm.wIdx, params := mm.params, ins := [input, acc] })[p]? =
      some mm := by
    rw [List.getElem?_set_ne hp.lt.ne', h.mmNode]
  have hset' := liveUses_set hmm { mm with kind := .none } v
  rw [if_neg (by rw [h.addKind]; decide), if_neg (fun hk => by cases hk), h.addIns] at hset
  rw [if_neg (by rw [h.mmKind]; decide), if_pos rfl] at hset'
  dsimp only at hset
  have hmmIns : mm.ins.count v = [input].count v := by rw [h.mmIns]
  have huses := hc.uses v hv
  have hacc : ([acc] ++ [y]).count v = [acc].count v + [y].count v := List.count_append
  have hinput : ([input] ++ [acc]).count v = [input].count v + [acc].count v := List.count_append
  rw [List.singleton_append] at hacc hinput
  have hval : ((g.fused p q add mm acc y input).value v).nUses =
      if y = v then 0 else (g.value v).nUses := by
    refine (congrArg CgValue.nUses (value_modifyValue g y v _ hv)).trans ?_
    split_ifs
    · rfl
    · rfl
  rw [hval, nodes_fused]
  rcases eq_or_ne y v with rfl | hne
  · have hone := h.uses
    rw [if_pos rfl]
    rw [List.count_singleton_self] at hacc
    omega
  · have hzero : [y].count v = 0 := List.count_eq_zero.mpr fun hmem =>
      hne (List.mem_singleton.mp hmem).symm
    rw [if_neg hne]
    omega

theorem Foldable.coherent (h : g.Foldable p q add mm acc y input) (hc : Coherent g)
    (hp : Foldable.Pair g p q mm acc y) : Coherent (g.fused p q add mm acc y input) := by
  have hv := sameValues_fused g p q add mm acc y input
  have hadd : g.LiveNode q add := ⟨h.addNode, by rw [h.addKind]; decide⟩
  have hmm : g.LiveNode p mm := ⟨h.mmNode, by rw [h.mmKind]; decide⟩
  have haccIns : acc ∈ add.ins := by
    rw [h.addIns]
    exact List.mem_cons_self
  refine ⟨?_, fun t n hn => ?_, fun t n hn v hvn => ?_, fun t n hn v hvn => ?_,
    fun v hlt => h.uses_eq hc hp (hv.1 ▸ hlt), fun t n hn hsec v hvn hearly => ?_⟩
  · rw [nodes_fused, List.length_set, List.length_set]
    exact hc.begins
  · rw [nodes_fused] at hn
    rcases eq_or_ne t p with rfl | htp
    · rw [List.getElem?_set_self (by
        rw [List.length_set]
        exact (List.getElem?_eq_some_iff.mp h.mmNode).1)] at hn
      obtain rfl := Option.some.inj hn
      exact hc.sec t mm h.mmNode
    · rw [List.getElem?_set_ne htp.symm] at hn
      rcases eq_or_ne t q with rfl | htq
      · rw [List.getElem?_set_self (List.getElem?_eq_some_iff.mp h.addNode).1] at hn
        obtain rfl := Option.some.inj hn
        exact hc.sec t add h.addNode
      · rw [List.getElem?_set_ne htq.symm] at hn
        exact hc.sec t n hn
  · rw [hv.1]
    rcases h.liveNode_cases hp.lt hn with ⟨-, htq, hlive⟩ | ⟨rfl, rfl⟩
    · obtain ⟨hlt, hr⟩ := hc.reads t n hlive v hvn
      exact ⟨hlt, h.liveReaches hp hr fun heq => htq (hp.once t n hlive (heq ▸ hvn))⟩
    · rcases List.mem_pair.mp hvn with rfl | rfl
      · exact h.input_reaches hc hp
      · obtain ⟨hlt, hr⟩ := hc.reads t add hadd v haccIns
        exact ⟨hlt, h.liveReaches hp hr hp.acc_ne⟩
  · rw [hv.1, (hv.2 v).2.1]
    rcases h.liveNode_cases hp.lt hn with ⟨-, -, hlive⟩ | ⟨rfl, rfl⟩
    · exact hc.outs t n hlive v hvn
    · exact hc.outs t add hadd v hvn
  · have hback : ∀ t n, g.LiveNode t n → n.sec = .layer → v ∈ n.ins →
        ∃ s o, ((g.fused p q add mm acc y input).value v).slot = some s ∧
          ((g.fused p q add mm acc y input).value o).slot = some s ∧
          (g.fused p q add mm acc y input).LiveReaches o g.postBegin ∧
            (v = o ∨ ⟨s, v, o⟩ ∈ g.carry) := by
      intro t n hlive hsec hvn
      have hearly' : g.Early g.layerBegin v := fun k hk => hearly k (by
        rw [(hv.2 v).2.1]
        exact hk)
      obtain ⟨s, o, hs, ho, hr, hcarry⟩ := hc.carried t n hlive hsec v hvn hearly'
      refine ⟨s, o, (hv.2 v).1.trans hs, (hv.2 o).1.trans ho, h.liveReaches hp hr ?_, hcarry⟩
      rintro rfl
      rcases hcarry with rfl | hmem
      · have := hearly' p h.producer
        have := ((hc.sec_layer h.mmNode).mp h.mmSec).1
        omega
      · exact h.carryOut ⟨_, hmem, rfl⟩
    rcases h.liveNode_cases hp.lt hn with ⟨-, -, hlive⟩ | ⟨rfl, rfl⟩
    · exact hback t n hlive hsec hvn
    · rcases List.mem_pair.mp hvn with rfl | rfl
      · exact hback p mm hmm h.mmSec (by rw [h.mmIns]; exact List.mem_cons_self)
      · exact hback t add hadd h.addSec haccIns

/-! ### The ops of a fold -/

/-- A node that the passes have left alone is lowered to its op. -/
theorem nodeOp_of_built {t : ℕ} {n : CgNode} (h : Built r g₀)
    (hn : g₀.nodes[t]? = some n) (g : CgGraph) :
    ∃ i, r.items[t]? = some i ∧ Lowered g₀ i n ∧ (r.opsOf n.sec)[n.recipeIndex]? = some i.op ∧
      g.nodeOp r n = i.op := by
  obtain ⟨i, hi, hl⟩ := h.item hn
  have hop : (r.opsOf n.sec)[n.recipeIndex]? = some i.op := by
    rw [hl.sec, hl.recipeIndex]
    exact (mem_items (List.mem_of_getElem? hi)).2
  refine ⟨i, hi, hl, hop, ?_⟩
  rw [nodeOp_eq hop, lowerNode]
  simp only [if_pos hl.kind, hl.coalesceRunLen, hl.fuseNext, hl.params]

theorem touchPush_of_mem {l : List Slot} {s : Slot} (h : s ∈ l) : touchPush l (some s) = l :=
  if_pos (Or.inl h)

theorem touchPush_of_notMem {l : List Slot} {s : Slot} (h : s ∉ l) (hl : l.length < opTouchMax) :
    touchPush l (some s) = l ++ [s] :=
  if_neg (not_or.mpr ⟨h, not_le.mpr hl⟩)

theorem touchPush_singleton {a : Option Slot} {s : Slot} (h : [a].foldl touchPush [] = [s]) :
    a = some s := by
  cases a with
  | none => cases h
  | some a =>
    rw [List.foldl_cons, List.foldl_nil, touchPush_of_notMem List.not_mem_nil (by decide)] at h
    rw [(List.cons.inj h).1]

theorem touchPush_pair {a b : Option Slot} {s t : Slot}
    (h : [a, b].foldl touchPush [] = [s, t]) : a = some s ∧ b = some t ∧ s ≠ t := by
  cases a with
  | none =>
    cases b with
    | none => cases h
    | some b =>
      rw [List.foldl_cons, List.foldl_cons, List.foldl_nil,
        show touchPush [] none = [] from rfl,
        touchPush_of_notMem List.not_mem_nil (by decide)] at h
      cases h
  | some a =>
    rw [List.foldl_cons, touchPush_of_notMem List.not_mem_nil (by decide), List.nil_append] at h
    cases b with
    | none => cases h
    | some b =>
      rw [List.foldl_cons, List.foldl_nil] at h
      by_cases hba : b = a
      · rw [touchPush_of_mem (by simp [hba])] at h
        cases h
      · rw [touchPush_of_notMem (by simp [hba]) (by simp [opTouchMax]), List.singleton_append] at h
        obtain ⟨rfl, htail⟩ := List.cons.inj h
        obtain ⟨rfl, -⟩ := List.cons.inj htail
        exact ⟨rfl, rfl, fun hab => hba hab.symm⟩

/-- The ops of the nodes of a fold: a matmul of slot `I` into slot `Y`, and an `ADD` of `Y` to slot
`X`. -/
structure FoldOps (g : CgGraph) (r : ModelRecipe) (add mm : CgNode) (acc y input : ℕ)
    (opA opM : RecipeOp) (X Y I : Slot) : Prop where
  addOp : g.nodeOp r add = opA
  addAt : r.layerOps[add.recipeIndex]? = some opA
  addKind : opA.kind = .add
  addIn0 : opA.in0 = some X
  addIn1 : opA.in1 = some Y
  ne : X ≠ Y
  accSlot : (g.value acc).slot = some X
  ySlot : (g.value y).slot = some Y
  mmOp : g.nodeOp r mm = opM
  mmAt : r.layerOps[mm.recipeIndex]? = some opM
  mmKind : opM.kind = .matmul
  mmIn0 : opM.in0 = some I
  mmOut : opM.out = some Y
  inputSlot : (g.value input).slot = some I
  wIdx : mm.wIdx = opM.wIdx
  params : mm.params = opM.u
  plain : (g.value y).viewOf = none
  addOut : ∀ v ∈ add.outs, (g.value v).viewOf = none ∧ (g.value v).slot = some X

theorem Fusing.unchanged (h : Fusing r g₀ g) {t : ℕ} {n : CgNode} (hn : g.nodes[t]? = some n)
    (hk : n.kind = .add ∨ n.kind = .matmul) : g₀.nodes[t]? = some n := by
  obtain ⟨n₀, hn₀, -, -, -, hcase⟩ := h.nodes t n hn
  rcases hcase with rfl | ⟨-, ⟨-, hnone⟩ | ⟨-, hres⟩⟩
  · exact hn₀
  · rw [hnone] at hk
    rcases hk with hk | hk <;> cases hk
  · rw [hres] at hk
    rcases hk with hk | hk <;> cases hk

theorem Fusing.foldOps (h : Fusing r g₀ g) (hb : Built r g₀)
    (hf : g.Foldable p q add mm acc y input) (hp : Foldable.Pair g p q mm acc y) :
    ∃ opA opM X Y I, g.FoldOps r add mm acc y input opA opM X Y I := by
  obtain ⟨i, hi, hl, hopA, heqA⟩ := nodeOp_of_built hb (h.unchanged hf.addNode (Or.inl hf.addKind)) g
  obtain ⟨j, hj, hlm, hopM, heqM⟩ := nodeOp_of_built hb (h.unchanged hf.mmNode (Or.inr hf.mmKind)) g
  have hkA : i.op.kind = .add := hl.kind.symm.trans hf.addKind
  have hkM : j.op.kind = .matmul := hlm.kind.symm.trans hf.mmKind
  have hslot : ∀ v, (g.value v).slot = (g₀.value v).slot := fun v => (h.values.2 v).1
  have hreadsA := hl.ins
  rw [hf.addIns] at hreadsA
  obtain ⟨X, Y, hXY, hX, hY⟩ : ∃ X Y, i.op.touchReads = [X, Y] ∧ (g₀.value acc).slot = some X ∧
      (g₀.value y).slot = some Y := by
    rcases hr : i.op.touchReads with _ | ⟨X, _ | ⟨Y, _ | ⟨Z, l⟩⟩⟩ <;> rw [hr] at hreadsA <;>
      simp only [List.map_cons, List.map_nil, List.cons.injEq, and_true, reduceCtorEq, and_false]
        at hreadsA
    exact ⟨X, Y, rfl, hreadsA.1, hreadsA.2⟩
  have hinA : i.op.in0 = some X ∧ i.op.in1 = some Y ∧ X ≠ Y := by
    refine touchPush_pair ?_
    rw [← hXY, touchReads, hkA]
    rfl
  have hreadsM := hlm.ins
  rw [hf.mmIns] at hreadsM
  obtain ⟨I, hI, hIs⟩ : ∃ I, j.op.touchReads = [I] ∧ (g₀.value input).slot = some I := by
    rcases hr : j.op.touchReads with _ | ⟨I, _ | ⟨Z, l⟩⟩ <;> rw [hr] at hreadsM <;>
      simp only [List.map_cons, List.map_nil, List.cons.injEq, and_true, reduceCtorEq, and_false]
        at hreadsM
    exact ⟨I, rfl, hreadsM⟩
  have hinM : j.op.in0 = some I := by
    refine touchPush_singleton ?_
    rw [← hI, touchReads, hkM]
    rfl
  have hwM : j.op.touchWrites = [j.op.out].foldl touchPush [] := by
    rw [touchWrites, hkM]
    rfl
  have hwA : i.op.touchWrites = [X] := by
    rw [touchWrites, hkA, OpKind.writes, List.map_cons, List.map_nil, operand, hinA.1,
      List.foldl_cons, List.foldl_nil, touchPush_of_notMem List.not_mem_nil (by decide),
      List.nil_append]
  obtain ⟨Y', hout⟩ : ∃ Y', j.op.out = some Y' := by
    cases hout : j.op.out with
    | some Y' => exact ⟨Y', rfl⟩
    | none =>
      have hnil : j.op.touchWrites = [] := by
        rw [hwM, hout]
        rfl
      have hplain := (hlm.plain (by rw [hnil]; exact List.not_mem_nil)).1
      rw [hnil, hp.outs] at hplain
      cases hplain
  have hwM' : j.op.touchWrites = [Y'] := by
    rw [hwM, hout, List.foldl_cons, List.foldl_nil,
      touchPush_of_notMem List.not_mem_nil (by decide), List.nil_append]
  obtain ⟨w, hw, hws, hwv⟩ := hlm.stored Y' (by rw [hwM']; exact List.mem_cons_self)
  rw [hp.outs] at hw
  obtain rfl := List.mem_singleton.mp hw
  obtain rfl : Y' = Y := Option.some.inj (hws.symm.trans hY)
  have hlayer : ∀ n : CgNode, n.sec = .layer → r.opsOf n.sec = r.layerOps := fun n hn => by
    rw [hn]
    rfl
  rw [hlayer add hf.addSec] at hopA
  rw [hlayer mm hf.mmSec] at hopM
  refine ⟨i.op, j.op, X, Y', I, heqA, hopA, hkA, hinA.1, hinA.2.1, hinA.2.2, (hslot acc).trans hX,
    (hslot w).trans hY, heqM, hopM, hkM, hinM, hout, (hslot input).trans hIs, hlm.wIdx,
    hlm.params, (h.values.2 w).2.2.trans hwv, fun v hv => ?_⟩
  obtain ⟨o, ho⟩ := List.length_eq_one_iff.mp hf.addOuts
  obtain ⟨u, hu, hus, huv⟩ := hl.stored X (by rw [hwA]; exact List.mem_cons_self)
  rw [ho] at hu hv
  obtain rfl := List.mem_singleton.mp hu
  obtain rfl := List.mem_singleton.mp hv
  exact ⟨(h.values.2 v).2.2.trans huv, (hslot v).trans hus⟩

/-- The node of a folded matmul. -/
def residualNode (add mm : CgNode) (acc input : ℕ) : CgNode :=
  { add with
    kind := .matmulResidual, wIdx := mm.wIdx, params := mm.params, ins := [input, acc] }

variable {opA opM : RecipeOp} {X Y I : Slot}

/-- The op of a folded matmul. -/
theorem FoldOps.residual (ho : g.FoldOps r add mm acc y input opA opM X Y I)
    (hf : g.Foldable p q add mm acc y input) :
    let op := (g.fused p q add mm acc y input).nodeOp r (residualNode add mm acc input)
    op.kind = .matmulResidual ∧ op.in0 = some I ∧ op.out = some X ∧ op.wIdx = opM.wIdx ∧
      op.u = opM.u := by
  have hv := sameValues_fused g p q add mm acc y input
  have hop : (r.opsOf (residualNode add mm acc input).sec)[(residualNode add mm acc
      input).recipeIndex]? = some opA := by
    change (r.opsOf add.sec)[add.recipeIndex]? = some opA
    rw [hf.addSec]
    exact ho.addAt
  have hne : (residualNode add mm acc input).kind ≠ opA.kind := by
    rw [ho.addKind]
    exact fun hk => by cases hk
  have hI : (g.fused p q add mm acc y input).inSlot (residualNode add mm acc input) 0 = some I :=
    (hv.2 input).1.trans ho.inputSlot
  have hX : (g.fused p q add mm acc y input).inSlot (residualNode add mm acc input) 1 = some X :=
    (hv.2 acc).1.trans ho.accSlot
  intro op
  have heq : op = (g.fused p q add mm acc y input).lowerNode (residualNode add mm acc input) opA :=
    nodeOp_eq hop
  rw [heq, lowerNode]
  simp only [if_neg hne, if_pos (show (residualNode add mm acc input).kind = .matmulResidual from
    rfl), lowerFusedNode, hI, hX]
  exact ⟨rfl, rfl, rfl, ho.wIdx, ho.params⟩

theorem residual_touches {op : RecipeOp} (hk : op.kind = .matmulResidual) (hi : op.in0 = some I)
    (ho : op.out = some X) :
    op.loads = [I, X] ∧ op.stores = [X] ∧ op.scratch = [.residTmp] := by
  simp [loads, stores, scratch, hk, OpKind.loads, OpKind.stores, OpKind.batchExtraMask, operand, hi,
    ho]

theorem matmul_touches {op : RecipeOp} (hk : op.kind = .matmul) (hi : op.in0 = some I)
    (ho : op.out = some Y) : op.loads = [I] ∧ op.stores = [Y] ∧ op.scratch = [] := by
  simp [loads, stores, scratch, hk, OpKind.loads, OpKind.stores, OpKind.batchExtraMask, operand, hi,
    ho]

theorem add_touches {op : RecipeOp} (hk : op.kind = .add) (h0 : op.in0 = some X)
    (h1 : op.in1 = some Y) : op.loads = [X, Y] ∧ op.stores = [X] ∧ op.scratch = [] := by
  simp [loads, stores, scratch, hk, OpKind.loads, OpKind.stores, OpKind.batchExtraMask, operand, h0,
    h1]

theorem Fusing.fused (h : Fusing r g₀ g) (hb : Built r g₀)
    (hf : g.Foldable p q add mm acc y input) : Fusing r g₀ (g.fused p q add mm acc y input) := by
  have hp := hf.pair h.coherent
  obtain ⟨opA, opM, X, Y, I, ho⟩ := h.foldOps hb hf hp
  have hv := sameValues_fused g p q add mm acc y input
  refine ⟨hf.coherent h.coherent hp, h.layerBegin, h.postBegin, h.carry, h.values.trans hv, ?_,
    fun t n hn => ?_, fun t n hn => ?_⟩
  · rw [nodes_fused, List.length_set, List.length_set, h.length]
  · rw [nodes_fused] at hn
    rcases eq_or_ne t p with rfl | htp
    · rw [List.getElem?_set_self (by
        rw [List.length_set]
        exact (List.getElem?_eq_some_iff.mp hf.mmNode).1)] at hn
      obtain rfl := Option.some.inj hn
      exact ⟨mm, h.unchanged hf.mmNode (Or.inr hf.mmKind), rfl, rfl, rfl,
        Or.inr ⟨hf.mmSec, Or.inl ⟨hf.mmKind, rfl⟩⟩⟩
    · rw [List.getElem?_set_ne htp.symm] at hn
      rcases eq_or_ne t q with rfl | htq
      · rw [List.getElem?_set_self (List.getElem?_eq_some_iff.mp hf.addNode).1] at hn
        obtain rfl := Option.some.inj hn
        exact ⟨add, h.unchanged hf.addNode (Or.inl hf.addKind), rfl, rfl, rfl,
          Or.inr ⟨hf.addSec, Or.inr ⟨hf.addKind, rfl⟩⟩⟩
      · rw [List.getElem?_set_ne htq.symm] at hn
        exact h.nodes t n hn
  · rcases hf.liveNode_cases hp.lt hn with ⟨-, -, hlive⟩ | ⟨rfl, rfl⟩
    · have hs := h.speaks t n hlive
      have hop : (g.fused p q add mm acc y input).nodeOp r n = g.nodeOp r n :=
        nodeOp_congr (fun v => (hv.2 v).1) n
      refine ⟨fun s hs' => ?_, fun s => ?_⟩
      · rw [hop] at hs'
        obtain ⟨v, hvn, hslot⟩ := hs.loads s hs'
        exact ⟨v, hvn, (hv.2 v).1.trans hslot⟩
      · rw [hop, hs.stores s]
        simp only [(hv.2 _).1, (hv.2 _).2.2]
    · obtain ⟨hk, hi, hout, -, -⟩ := ho.residual hf
      obtain ⟨hl, hst, -⟩ := residual_touches hk hi hout
      refine ⟨fun s hs => ?_, fun s => ?_⟩
      · change s ∈ ((g.fused p t add mm acc y input).nodeOp r
          (residualNode add mm acc input)).loads at hs
        rw [hl] at hs
        rcases List.mem_pair.mp hs with rfl | rfl
        · exact ⟨input, List.mem_cons_self, (hv.2 input).1.trans ho.inputSlot⟩
        · exact ⟨acc, List.mem_cons_of_mem _ List.mem_cons_self, (hv.2 acc).1.trans ho.accSlot⟩
      · change s ∈ ((g.fused p t add mm acc y input).nodeOp r
          (residualNode add mm acc input)).stores ↔ _
        rw [hst, List.mem_singleton]
        obtain ⟨o, hoe⟩ := List.length_eq_one_iff.mp hf.addOuts
        have hoX := ho.addOut o (by rw [hoe]; exact List.mem_cons_self)
        constructor
        · rintro rfl
          exact ⟨o, by rw [hoe]; exact List.mem_cons_self, (hv.2 o).2.2.trans hoX.1,
            (hv.2 o).1.trans hoX.2⟩
        · rintro ⟨v, hvo, -, hslot⟩
          rw [hoe] at hvo
          obtain rfl := List.mem_singleton.mp hvo
          rw [(hv.2 v).1, hoX.2] at hslot
          exact (Option.some.inj hslot).symm

end CgGraph

end Kappai
