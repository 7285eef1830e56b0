import Kappai.Sanity.LiveGraph

/-! The op list that a section of a graph is lowered to has the ops of the nodes that are left, in
their order, and the program of the lowered recipe is the program of the graph. -/

namespace Kappai

open RecipeOp

/-! ### Writing ops into an empty list -/

section

variable {F : CgNode → RecipeOp} {ns : List CgNode} {base : List RecipeOp}

/-- The ops of the nodes, each written to its place. -/
def writeOps (F : CgNode → RecipeOp) (base : List RecipeOp) (ns : List CgNode) : List RecipeOp :=
  ns.foldl (fun out n => out.set n.recipeIndex (F n)) base

theorem length_writeOps (F : CgNode → RecipeOp) (ns : List CgNode) (base : List RecipeOp) :
    (writeOps F base ns).length = base.length := by
  induction ns generalizing base with
  | nil => rfl
  | cons n ns ih => exact (ih _).trans (List.length_set ..)

theorem writeOps_snoc (n : CgNode) :
    writeOps F base (ns ++ [n]) = (writeOps F base ns).set n.recipeIndex (F n) := by
  rw [writeOps, List.foldl_append]
  rfl

theorem getElem?_writeOps_of_notMem {k : ℕ} (h : ∀ n ∈ ns, n.recipeIndex ≠ k) :
    (writeOps F base ns)[k]? = base[k]? := by
  induction ns generalizing base with
  | nil => rfl
  | cons n ns ih =>
    refine (ih fun m hm => h m (List.mem_cons_of_mem _ hm)).trans ?_
    exact List.getElem?_set_ne (h n List.mem_cons_self)

theorem getElem?_writeOps_of_mem {n : CgNode} (hn : n ∈ ns)
    (hord : ns.Pairwise fun a b => a.recipeIndex < b.recipeIndex)
    (hlt : n.recipeIndex < base.length) : (writeOps F base ns)[n.recipeIndex]? = some (F n) := by
  induction ns generalizing base with
  | nil => cases hn
  | cons m ns ih =>
    rw [List.pairwise_cons] at hord
    rcases List.mem_cons.mp hn with rfl | hn
    · refine (getElem?_writeOps_of_notMem fun m hm => (hord.1 m hm).ne').trans ?_
      rw [List.getElem?_set_self hlt]
    · exact ih hn hord.2 (by rw [List.length_set]; exact hlt)

/-- The ops of a list that are lowered, with their places. -/
def liveOps (ops : List RecipeOp) : List (RecipeOp × ℕ) :=
  ops.zipIdx.filter fun p => p.1.kind ≠ .none

theorem filter_zipIdx_eq_nil {ops : List RecipeOp} (h : ∀ op ∈ ops, op.kind = .none) (k : ℕ) :
    ((ops.zipIdx k).filter fun p => p.1.kind ≠ .none) = [] := by
  refine List.filter_eq_nil_iff.mpr fun p hp => ?_
  simp [h p.1 (List.fst_mem_of_mem_zipIdx hp)]

/-- An op written past all that is left adds itself at the end. -/
theorem liveOps_set {ops : List RecipeOp} {i : ℕ} {op : RecipeOp} (hi : i < ops.length)
    (hop : op.kind ≠ .none) (hrest : ∀ k x, ops[k]? = some x → i ≤ k → x.kind = .none) :
    liveOps (ops.set i op) = liveOps ops ++ [(op, i)] := by
  have hdrop : ∀ x ∈ ops.drop (i + 1), x.kind = .none := by
    intro x hx
    obtain ⟨k, hk⟩ := List.getElem?_of_mem hx
    rw [List.getElem?_drop] at hk
    exact hrest _ x hk (by omega)
  have hsplit : ops = ops.take i ++ ops[i] :: ops.drop (i + 1) := by
    rw [← List.drop_eq_getElem_cons hi, List.take_append_drop]
  have hx : (ops[i]).kind = .none := hrest i _ (List.getElem?_eq_getElem hi) le_rfl
  have hlen : (ops.take i).length = i := by
    rw [List.length_take]
    omega
  have hset : ops.set i op = ops.take i ++ op :: ops.drop (i + 1) := by
    rw [List.set_eq_take_append_cons_drop, if_pos hi]
  rw [hset, liveOps, liveOps]
  conv_rhs => rw [hsplit]
  rw [List.zipIdx_append, List.zipIdx_append, List.filter_append, List.filter_append,
    List.zipIdx_cons, List.zipIdx_cons, List.filter_cons_of_pos (by simpa using hop),
    List.filter_cons_of_neg (by simp [hx]), filter_zipIdx_eq_nil hdrop, List.append_nil, hlen,
    Nat.zero_add]

theorem liveOps_writeOps (hbase : ∀ op ∈ base, op.kind = .none)
    (hlt : ∀ n ∈ ns, n.recipeIndex < base.length) (hF : ∀ n ∈ ns, (F n).kind ≠ .none)
    (hord : ns.Pairwise fun a b => a.recipeIndex < b.recipeIndex) :
    liveOps (writeOps F base ns) = ns.map fun n => (F n, n.recipeIndex) := by
  induction ns using List.reverseRecOn with
  | nil => exact filter_zipIdx_eq_nil hbase 0
  | append_singleton ns n ih =>
    rw [List.pairwise_append] at hord
    have hlast : ∀ m ∈ ns, m.recipeIndex < n.recipeIndex :=
      fun m hm => hord.2.2 m hm n List.mem_cons_self
    have hmem := List.mem_append_right ns (List.mem_singleton_self n)
    rw [writeOps_snoc, liveOps_set (by rw [length_writeOps]; exact hlt n hmem) (hF n hmem),
      ih (fun m hm => hlt m (List.mem_append_left _ hm))
        (fun m hm => hF m (List.mem_append_left _ hm)) hord.1, List.map_append, List.map_cons,
      List.map_nil]
    intro k x hk hle
    rw [getElem?_writeOps_of_notMem fun m hm => ((hlast m hm).trans_le hle).ne] at hk
    exact hbase x (List.mem_of_getElem? hk)

end

/-! ### The program of a graph -/

namespace CgGraph

variable {V S : Type*}

/-- The op a node is lowered to. -/
def nodeOp (g : CgGraph) (r : ModelRecipe) (n : CgNode) : RecipeOp :=
  g.lowerNode n ((r.opsOf n.sec).getD n.recipeIndex (.base .none none none none none 0))

/-- What runs at a node. -/
def nodeSite (K : Kernels V S) (r : ModelRecipe) (g : CgGraph) (layer : Option ℕ) (n : CgNode) :
    List (OpSite × CellInstr Slot V S) :=
  if n.kind = .none then []
  else [(⟨n.sec, layer, n.recipeIndex⟩, instr K layer (g.nodeOp r n))]

/-- What runs at a place of the graph. -/
def site (K : Kernels V S) (r : ModelRecipe) (g : CgGraph) (layer : Option ℕ) (t : ℕ) :
    List (OpSite × CellInstr Slot V S) :=
  g.nodes[t]?.elim [] (g.nodeSite K r layer)

def sites (K : Kernels V S) (r : ModelRecipe) (g : CgGraph) (nLayers : ℕ) :
    List (OpSite × CellInstr Slot V S) :=
  (List.range' 0 g.layerBegin).flatMap (g.site K r none) ++
    (List.range nLayers).flatMap (fun li =>
      (List.range' g.layerBegin (g.postBegin - g.layerBegin)).flatMap (g.site K r (some li))) ++
    (List.range' g.postBegin (g.nodes.length - g.postBegin)).flatMap (g.site K r none)

end CgGraph

theorem flatMap_range'_elim {α β : Type*} (l : List α) (f : α → List β) (lo n : ℕ) :
    (List.range' lo n).flatMap (fun t => l[t]?.elim [] f) = ((l.drop lo).take n).flatMap f := by
  induction n generalizing lo with
  | zero => rfl
  | succ n ih =>
    rw [List.range'_succ, List.flatMap_cons, ih]
    rcases Nat.lt_or_ge lo l.length with hlt | hge
    · rw [List.drop_eq_getElem_cons hlt, List.take_succ_cons, List.flatMap_cons,
        List.getElem?_eq_getElem hlt]
      rfl
    · rw [List.getElem?_eq_none hge, List.drop_eq_nil_of_le hge,
        List.drop_eq_nil_of_le (by omega)]
      simp

namespace CgGraph

variable {V S : Type*}

/-- The program of a section of the graph. -/
theorem flatMap_site (K : Kernels V S) (r : ModelRecipe) (g : CgGraph) (layer : Option ℕ)
    (lo hi : ℕ) :
    (List.range' lo (hi - lo)).flatMap (g.site K r layer) =
      (kept ((g.nodes.take hi).drop lo)).map fun n =>
        (⟨n.sec, layer, n.recipeIndex⟩, instr K layer (g.nodeOp r n)) := by
  refine (flatMap_range'_elim g.nodes (g.nodeSite K r layer) lo (hi - lo)).trans ?_
  rw [List.drop_take]
  generalize (g.nodes.drop lo).take (hi - lo) = l
  induction l with
  | nil => rfl
  | cons n l ih =>
    rw [List.flatMap_cons, ih, nodeSite, kept, kept]
    split_ifs with hk
    · rw [List.filter_cons_of_neg (by simp [hk])]
      rfl
    · rw [List.filter_cons_of_pos (by simpa using hk)]
      rfl

/-- The sections of a graph are those of its program. -/
theorem sites_eq (K : Kernels V S) (r : ModelRecipe) (g : CgGraph) (nLayers : ℕ) :
    g.sites K r nLayers =
      (kept (g.sectionNodes .pre)).map (fun n =>
        (⟨n.sec, none, n.recipeIndex⟩, instr K none (g.nodeOp r n))) ++
      (List.range nLayers).flatMap (fun li => (kept (g.sectionNodes .layer)).map fun n =>
        (⟨n.sec, some li, n.recipeIndex⟩, instr K (some li) (g.nodeOp r n))) ++
      (kept (g.sectionNodes .post)).map (fun n =>
        (⟨n.sec, none, n.recipeIndex⟩, instr K none (g.nodeOp r n))) := by
  rw [sites]
  simp only [flatMap_site]
  have hpre := flatMap_site K r g none 0 g.layerBegin
  rw [Nat.sub_zero] at hpre
  rw [hpre]
  rfl

end CgGraph

/-! ### Lowering a graph -/

namespace CgGraph

variable {g h : CgGraph} {r : ModelRecipe} {sec : CgSection}

/-- Every node that is left is of an op of its section and can be lowered, and the nodes of a
section are in the order of their ops. -/
structure Lowerable (r : ModelRecipe) (g : CgGraph) : Prop where
  op : ∀ sec, ∀ n ∈ kept (g.sectionNodes sec), n.sec = sec ∧
    ∃ op, (r.opsOf sec)[n.recipeIndex]? = some op ∧
      (n.kind = op.kind ∨ lowerableRewrite n.kind op.kind = true)
  ordered : ∀ sec, (g.sectionNodes sec).Pairwise fun a b => a.recipeIndex < b.recipeIndex

theorem nodeOp_eq {n : CgNode} {op : RecipeOp}
    (hop : (r.opsOf n.sec)[n.recipeIndex]? = some op) : g.nodeOp r n = g.lowerNode n op := by
  rw [nodeOp, List.getD_eq_getElem?_getD, hop]
  rfl

theorem lowerNode_kind {n : CgNode} {op : RecipeOp}
    (h : n.kind = op.kind ∨ lowerableRewrite n.kind op.kind = true) :
    (g.lowerNode n op).kind = n.kind := by
  rw [lowerNode]
  by_cases hk : n.kind = op.kind
  · simp only [if_pos hk]
    exact hk.symm
  · have hr := h.resolve_left hk
    simp only [if_neg hk]
    by_cases hres : n.kind = .matmulResidual
    · rw [if_pos hres, hres]
      rfl
    · have hmulti : n.kind = .matmulMulti := by
        simp only [lowerableRewrite, Bool.or_eq_true, Bool.and_eq_true, beq_iff_eq] at hr
        exact (hr.resolve_left fun hall => hres hall.1).1
      rw [if_neg hres, hmulti]
      rfl

theorem lowerNode_congr (hs : ∀ v, (h.value v).slot = (g.value v).slot) (n : CgNode)
    (op : RecipeOp) : h.lowerNode n op = g.lowerNode n op := by
  simp only [lowerNode, lowerFusedNode, lowerMultiNode, inSlot, outSlot, hs]

theorem nodeOp_congr (hs : ∀ v, (h.value v).slot = (g.value v).slot) (n : CgNode) :
    h.nodeOp r n = g.nodeOp r n := lowerNode_congr hs n _

theorem lowerInto_eq {orig out : List RecipeOp} {n : CgNode} {op : RecipeOp}
    (hop : orig[n.recipeIndex]? = some op)
    (hk : n.kind = op.kind ∨ lowerableRewrite n.kind op.kind = true) :
    g.lowerInto orig out n = some (out.set n.recipeIndex (g.lowerNode n op)) := by
  rw [lowerInto, hop]
  dsimp only
  rw [if_neg]
  rintro ⟨hne, hnot⟩
  exact hnot (hk.resolve_left hne)

/-- Nodes of ops that can be lowered are lowered, each to the place of its op. -/
theorem foldlM_lowerInto {ns : List CgNode}
    (hop : ∀ n ∈ ns, n.sec = sec ∧ ∃ op, (r.opsOf sec)[n.recipeIndex]? = some op ∧
      (n.kind = op.kind ∨ lowerableRewrite n.kind op.kind = true)) (base : List RecipeOp) :
    ns.foldlM (g.lowerInto (r.opsOf sec)) base = some (writeOps (g.nodeOp r) base ns) := by
  induction ns generalizing base with
  | nil => rfl
  | cons n ns ih =>
    obtain ⟨hsec, op, ho, hk⟩ := hop n List.mem_cons_self
    rw [List.foldlM_cons, lowerInto_eq ho hk]
    refine (ih (fun m hm => hop m (List.mem_cons_of_mem _ hm)) _).trans ?_
    rw [writeOps, writeOps, List.foldl_cons, nodeOp_eq (hsec ▸ ho)]

/-- The op list of a section of the lowered recipe. -/
theorem lowerOr_eq (hl : Lowerable r g) (hh : h.sectionNodes sec = kept (g.sectionNodes sec))
    (hs : ∀ v, (h.value v).slot = (g.value v).slot) :
    h.lowerOr sec (r.opsOf sec) = writeOps (g.nodeOp r)
      ((r.opsOf sec).map fun op => { op with kind := .none }) (kept (g.sectionNodes sec)) := by
  have hop : ∀ n ∈ h.sectionNodes sec, n.sec = sec ∧ ∃ op, (r.opsOf sec)[n.recipeIndex]? = some op ∧
      (n.kind = op.kind ∨ lowerableRewrite n.kind op.kind = true) :=
    fun n hn => hl.op sec n (hh ▸ hn)
  have hfold := foldlM_lowerInto (g := h) hop ((r.opsOf sec).map fun op => { op with kind := .none })
  rw [lowerOr, lowerSection, hfold, Option.getD_some, hh]
  refine congrArg (fun F => writeOps F _ _) (funext fun n => nodeOp_congr hs n)

theorem opsOf_lowered (hl : Lowerable r g) (hh : ∀ sec, h.sectionNodes sec = kept (g.sectionNodes sec))
    (hs : ∀ v, (h.value v).slot = (g.value v).slot) (sec : CgSection) :
    (r.lowered h).opsOf sec = writeOps (g.nodeOp r)
      ((r.opsOf sec).map fun op => { op with kind := .none }) (kept (g.sectionNodes sec)) := by
  rw [← lowerOr_eq hl (hh sec) hs]
  cases sec with
  | pre => rfl
  | layer => rfl
  | post => rfl

theorem kept_kind {ns : List CgNode} {n : CgNode} (hn : n ∈ kept ns) : n.kind ≠ .none := by
  simpa using (List.mem_filter.mp hn).2

theorem Lowerable.nodeOp_kind (hl : Lowerable r g) {n : CgNode}
    (hn : n ∈ kept (g.sectionNodes sec)) : (g.nodeOp r n).kind = n.kind := by
  obtain ⟨hsec, op, hop, hk⟩ := hl.op sec n hn
  rw [nodeOp_eq (hsec ▸ hop), lowerNode_kind hk]

/-- The lowered recipe runs the program of the graph. -/
theorem sites_lowered {V S : Type*} (K : Kernels V S) (hl : Lowerable r g)
    (hh : ∀ sec, h.sectionNodes sec = kept (g.sectionNodes sec))
    (hs : ∀ v, (h.value v).slot = (g.value v).slot) (nLayers : ℕ) :
    (r.lowered h).sites K nLayers = g.sites K r nLayers := by
  have hsec : ∀ sec layer, (r.lowered h).sectionSites K sec layer =
      (kept (g.sectionNodes sec)).map fun n =>
        (⟨n.sec, layer, n.recipeIndex⟩, instr K layer (g.nodeOp r n)) := by
    intro sec layer
    have hbase : ∀ op ∈ (r.opsOf sec).map fun op => { op with kind := .none }, op.kind = .none := by
      intro op hop
      obtain ⟨op', -, rfl⟩ := List.mem_map.mp hop
      rfl
    have hlt : ∀ n ∈ kept (g.sectionNodes sec), n.recipeIndex <
        ((r.opsOf sec).map fun op => { op with kind := .none }).length := by
      intro n hn
      obtain ⟨-, op, hop, -⟩ := hl.op sec n hn
      rw [List.length_map]
      exact (List.getElem?_eq_some_iff.mp hop).1
    have hkind : ∀ n ∈ kept (g.sectionNodes sec), (g.nodeOp r n).kind ≠ .none := by
      intro n hn
      rw [hl.nodeOp_kind hn]
      exact kept_kind hn
    have hlive := liveOps_writeOps hbase hlt hkind
      ((hl.ordered sec).sublist List.filter_sublist)
    rw [ModelRecipe.sectionSites, opsOf_lowered hl hh hs]
    unfold liveOps at hlive
    rw [hlive, List.map_map]
    refine List.map_congr_left fun n hn => ?_
    rw [← (hl.op sec n hn).1]
    rfl
  rw [ModelRecipe.sites, sites_eq, hsec, hsec]
  simp only [hsec]

/-! ### Compaction -/

theorem kept_append (l l' : List CgNode) : kept (l ++ l') = kept l ++ kept l' :=
  List.filter_append ..

theorem compact_slot (g : CgGraph) (v : ℕ) : (g.compact.value v).slot = (g.value v).slot := by
  rw [value, value, compact, List.getD_eq_getElem?_getD, List.getD_eq_getElem?_getD,
    List.getElem?_map]
  cases g.values[v]? with
  | none => rfl
  | some val => rfl

/-- Cutting after the nodes that are left of a prefix. -/
theorem kept_take (nodes : List CgNode) (k : ℕ) :
    (kept nodes).take (kept (nodes.take k)).length = kept (nodes.take k) ∧
      (kept nodes).drop (kept (nodes.take k)).length = kept (nodes.drop k) := by
  have hsplit : kept nodes = kept (nodes.take k) ++ kept (nodes.drop k) := by
    rw [← kept_append, List.take_append_drop]
  rw [hsplit]
  exact ⟨List.take_left' rfl, List.drop_left' rfl⟩

theorem kept_between (nodes : List CgNode) {lo hi : ℕ} (h : lo ≤ hi) :
    ((kept nodes).take (kept (nodes.take hi)).length).drop (kept (nodes.take lo)).length =
      kept ((nodes.take hi).drop lo) := by
  rw [(kept_take nodes hi).1]
  have htake : nodes.take lo = (nodes.take hi).take lo := by
    rw [List.take_take, Nat.min_eq_left h]
  rw [htake]
  exact (kept_take (nodes.take hi) lo).2

/-- Compaction leaves the nodes that are left in their sections. -/
theorem sectionNodes_compact (hb : g.layerBegin ≤ g.postBegin ∧ g.postBegin ≤ g.nodes.length)
    (sec : CgSection) : g.compact.sectionNodes sec = kept (g.sectionNodes sec) := by
  cases sec with
  | pre => exact kept_between g.nodes (Nat.zero_le g.layerBegin)
  | layer => exact kept_between g.nodes hb.1
  | post =>
    have hpost : g.sectionNodes .post = g.nodes.drop g.postBegin :=
      congrArg (List.drop g.postBegin) List.take_length
    have h := kept_between g.nodes hb.2
    rw [List.take_length] at h
    rw [hpost]
    exact h

end CgGraph

/-! ### The graph of a recipe and its program -/

namespace Built

open CgGraph

variable {r : ModelRecipe} {g : CgGraph}

/-- The nodes of a section are those of its ops. -/
theorem sectionNodes (h : Built r g) (sec : CgSection) :
    List.Forall₂ (Lowered g) (opsAt sec (r.opsOf sec)) (g.sectionNodes sec) := by
  have hlow := h.lowered
  have hlb := h.layerBegin
  have hpb := h.postBegin
  rw [hlb] at hpb
  rw [ModelRecipe.items] at hlow
  cases sec with
  | pre =>
    have hcut := List.forall₂_take g.layerBegin hlow
    rw [List.append_assoc, hlb, List.take_left' rfl, ← hlb] at hcut
    exact hcut
  | layer =>
    have hcut := List.forall₂_drop g.layerBegin (List.forall₂_take g.postBegin hlow)
    rw [List.take_left' (by rw [List.length_append, hpb]), hlb, List.drop_left' rfl, ← hlb] at hcut
    exact hcut
  | post =>
    have hcut := List.forall₂_drop g.postBegin hlow
    rw [List.drop_left' (by rw [List.length_append, hpb])] at hcut
    have hpost : g.sectionNodes .post = g.nodes.drop g.postBegin :=
      congrArg (List.drop g.postBegin) List.take_length
    rw [hpost]
    exact hcut

theorem kept_sectionNodes (h : Built r g) (sec : CgSection) :
    kept (g.sectionNodes sec) = g.sectionNodes sec := by
  refine List.filter_eq_self.mpr fun n hn => ?_
  have hmem : n ∈ g.nodes := List.mem_of_mem_take (List.mem_of_mem_drop hn)
  obtain ⟨t, ht⟩ := List.getElem?_of_mem hmem
  simpa using h.kind_ne_none ht

/-- The graph of a recipe has the program of the recipe. -/
theorem sites_eq {V S : Type*} (h : Built r g) (K : Kernels V S) (nLayers : ℕ) :
    g.sites K r nLayers = r.sites K nLayers := by
  have hsec : ∀ sec layer, ((kept (g.sectionNodes sec)).map fun n =>
      ((⟨n.sec, layer, n.recipeIndex⟩ : OpSite), instr K layer (g.nodeOp r n))) =
      r.sectionSites K sec layer := by
    intro sec layer
    have hops : r.sectionSites K sec layer = (opsAt sec (r.opsOf sec)).map fun i =>
        (⟨i.sec, layer, i.index⟩, instr K layer i.op) := by
      rw [ModelRecipe.sectionSites, opsAt, List.map_map]
      rfl
    rw [h.kept_sectionNodes, hops]
    have hall := h.sectionNodes sec
    have hmem : ∀ i ∈ opsAt sec (r.opsOf sec), (r.opsOf i.sec)[i.index]? = some i.op := by
      intro i hi
      obtain ⟨hs, -, hop⟩ := mem_opsAt hi
      rw [hs]
      exact hop
    generalize opsAt sec (r.opsOf sec) = items at hall hmem
    generalize g.sectionNodes sec = nodes at hall
    induction hall with
    | nil => rfl
    | @cons i n items nodes hl _ ih =>
      have hop : (r.opsOf n.sec)[n.recipeIndex]? = some i.op := by
        rw [hl.sec, hl.recipeIndex]
        exact hmem i List.mem_cons_self
      have heq : g.nodeOp r n = i.op := by
        rw [nodeOp_eq hop, lowerNode]
        simp only [if_pos hl.kind, hl.coalesceRunLen, hl.fuseNext, hl.params]
      rw [List.map_cons, List.map_cons, ih fun j hj => hmem j (List.mem_cons_of_mem _ hj), heq,
        hl.sec, hl.recipeIndex]
  rw [CgGraph.sites_eq, ModelRecipe.sites, hsec, hsec]
  simp only [hsec]

end Built

/-! ### Graphs whose nodes a pass has rewritten -/

namespace CgGraph

variable {g g₀ h : CgGraph} {r : ModelRecipe}

/-- A pass has left the kind of a node, dropped the node, or made one of it that can be lowered. -/
def Rewritten (n₀ n : CgNode) : Prop :=
  n.sec = n₀.sec ∧ n.recipeIndex = n₀.recipeIndex ∧
    (n.kind = .none ∨ n.kind = n₀.kind ∨ lowerableRewrite n.kind n₀.kind = true)

theorem forall₂_sectionNodes {R : CgNode → CgNode → Prop} (hR : List.Forall₂ R g₀.nodes g.nodes)
    (hlb : g.layerBegin = g₀.layerBegin) (hpb : g.postBegin = g₀.postBegin) (sec : CgSection) :
    List.Forall₂ R (g₀.sectionNodes sec) (g.sectionNodes sec) := by
  have hends : g.sectionEnd sec = g₀.sectionEnd sec := by
    cases sec with
    | pre => exact hlb
    | layer => exact hpb
    | post => exact hR.length_eq.symm
  have hbegins : g.sectionBegin sec = g₀.sectionBegin sec := by
    cases sec with
    | pre => rfl
    | layer => exact hlb
    | post => exact hpb
  rw [sectionNodes, sectionNodes, hends, hbegins]
  exact List.forall₂_drop _ (List.forall₂_take _ hR)

theorem exists_left_of_forall₂ {α β : Type*} {R : α → β → Prop} {l : List α} {l' : List β}
    (h : List.Forall₂ R l l') {b : β} (hb : b ∈ l') : ∃ a ∈ l, R a b := by
  induction h with
  | nil => cases hb
  | cons hab _ ih =>
    rcases List.mem_cons.mp hb with rfl | hb
    · exact ⟨_, List.mem_cons_self, hab⟩
    · obtain ⟨a, ha, hR⟩ := ih hb
      exact ⟨a, List.mem_cons_of_mem _ ha, hR⟩

theorem pairwise_of_forall₂ {α β : Type*} {R : α → β → Prop} {P : α → α → Prop}
    {Q : β → β → Prop} {l : List α} {l' : List β} (h : List.Forall₂ R l l') (hl : l.Pairwise P)
    (hPQ : ∀ a a' b b', R a b → R a' b' → P a a' → Q b b') : l'.Pairwise Q := by
  induction h with
  | nil => exact List.Pairwise.nil
  | cons hab hrest ih =>
    rw [List.pairwise_cons] at hl ⊢
    refine ⟨fun b hb => ?_, ih hl.2⟩
    obtain ⟨a, ha, hR⟩ := exists_left_of_forall₂ hrest hb
    exact hPQ _ _ _ _ hab hR (hl.1 a ha)

/-- A graph made of that of a recipe. -/
structure Remade (r : ModelRecipe) (g₀ g : CgGraph) : Prop where
  built : Built r g₀
  nodes : List.Forall₂ Rewritten g₀.nodes g.nodes
  layerBegin : g.layerBegin = g₀.layerBegin
  postBegin : g.postBegin = g₀.postBegin

namespace Remade

theorem rewritten (hm : Remade r g₀ g) {t : ℕ} {n₀ n : CgNode} (hn₀ : g₀.nodes[t]? = some n₀)
    (hn : g.nodes[t]? = some n) : Rewritten n₀ n := by
  obtain ⟨h₀, rfl⟩ := List.getElem?_eq_some_iff.mp hn₀
  obtain ⟨h₁, rfl⟩ := List.getElem?_eq_some_iff.mp hn
  exact (List.forall₂_iff_get.mp hm.nodes).2 t h₀ h₁

theorem item (hm : Remade r g₀ g) {sec : CgSection} {n : CgNode} (hn : n ∈ g.sectionNodes sec) :
    ∃ n₀ ∈ g₀.sectionNodes sec, Rewritten n₀ n ∧
      ∃ i ∈ opsAt sec (r.opsOf sec), Lowered g₀ i n₀ := by
  obtain ⟨n₀, hn₀, hr⟩ :=
    exists_left_of_forall₂ (forall₂_sectionNodes hm.nodes hm.layerBegin hm.postBegin sec) hn
  exact ⟨n₀, hn₀, hr, exists_left_of_forall₂ (hm.built.sectionNodes sec) hn₀⟩

/-- It can be lowered. -/
theorem lowerable (hm : Remade r g₀ g) : Lowerable r g := by
  refine ⟨fun sec n hn => ?_, fun sec => ?_⟩
  · obtain ⟨hmem, hk⟩ := List.mem_filter.mp hn
    obtain ⟨n₀, -, ⟨hsec, hidx, hkind⟩, i, hi, hl⟩ := hm.item hmem
    obtain ⟨his, -, hop⟩ := mem_opsAt hi
    refine ⟨hsec.trans (hl.sec.trans his), i.op, ?_, ?_⟩
    · rw [hidx, hl.recipeIndex]
      exact hop
    · rw [hl.kind] at hkind
      exact hkind.resolve_left (by simpa using hk)
  · refine pairwise_of_forall₂ (forall₂_sectionNodes hm.nodes hm.layerBegin hm.postBegin sec)
      (P := fun a b => a.recipeIndex < b.recipeIndex) ?_ fun a a' b b' hab hab' hlt => by
        rw [hab.2.1, hab'.2.1]
        exact hlt
    exact pairwise_of_forall₂ (hm.built.sectionNodes sec) (opsAt_pairwise sec _)
      fun a a' b b' hab hab' hlt => by
        rw [hab.recipeIndex, hab'.recipeIndex]
        exact hlt

/-- The op that the lowered recipe has for a node. -/
theorem opsOf_node (hm : Remade r g₀ g)
    (hh : ∀ sec, h.sectionNodes sec = kept (g.sectionNodes sec))
    (hs : ∀ v, (h.value v).slot = (g.value v).slot) {sec : CgSection} {n : CgNode} {op : RecipeOp}
    (hn : n ∈ g.sectionNodes sec) (hop : (r.opsOf sec)[n.recipeIndex]? = some op) :
    ((r.lowered h).opsOf sec)[n.recipeIndex]? =
      some (if n.kind = .none then { op with kind := .none } else g.nodeOp r n) := by
  have hl := hm.lowerable
  have hbase : ((r.opsOf sec).map fun op => { op with kind := .none })[n.recipeIndex]? =
      some { op with kind := .none } := by
    rw [List.getElem?_map, hop]
    rfl
  rw [opsOf_lowered hl hh hs]
  split_ifs with hk
  · refine (getElem?_writeOps_of_notMem fun m hmem heq => ?_).trans hbase
    obtain ⟨hmem, hmk⟩ := List.mem_filter.mp hmem
    have hne : m ≠ n := by
      rintro rfl
      simp [hk] at hmk
    have hsymm : Std.Symm fun a b : CgNode => a ≠ b → a.recipeIndex ≠ b.recipeIndex :=
      ⟨fun a b h hba hidx => h hba.symm hidx.symm⟩
    have hord := (hl.ordered sec).imp fun {a b : CgNode} (hlt : a.recipeIndex < b.recipeIndex)
      (_ : a ≠ b) => hlt.ne
    exact List.Pairwise.forall_of_forall (fun a _ haa => absurd rfl haa) hord hmem hn hne heq
  · refine getElem?_writeOps_of_mem (List.mem_filter.mpr ⟨hn, by simpa using hk⟩)
      ((hl.ordered sec).sublist List.filter_sublist) ?_
    rw [List.length_map]
    exact (List.getElem?_eq_some_iff.mp hop).1

theorem mem_sectionNodes (hm : Remade r g₀ g) {t : ℕ} {n : CgNode} (hn : g.nodes[t]? = some n) :
    n ∈ g.sectionNodes n.sec := by
  have hlen := hm.nodes.length_eq
  have htn : t < g.nodes.length := (List.getElem?_eq_some_iff.mp hn).1
  have hn₀ := List.getElem?_eq_getElem (hlen ▸ htn : t < g₀.nodes.length)
  have hr := hm.rewritten hn₀ hn
  obtain ⟨hpre, hpost⟩ := hm.built.sec_iff hn₀
  rw [← hm.layerBegin, ← hr.1] at hpre
  rw [← hm.postBegin, ← hr.1] at hpost
  have hmem : ∀ lo hi, lo ≤ t → t < hi → n ∈ (g.nodes.take hi).drop lo := by
    intro lo hi hlo hhi
    refine List.mem_of_getElem? (i := t - lo) ?_
    rw [List.getElem?_drop, Nat.add_sub_cancel' hlo, List.getElem?_take, if_pos hhi, hn]
  have hb := hm.built.coherent.begins
  rw [← hm.layerBegin, ← hm.postBegin] at hb
  cases hsec : n.sec with
  | pre => exact hmem 0 g.layerBegin (Nat.zero_le t) (hpre.mp hsec)
  | layer =>
    refine hmem g.layerBegin g.postBegin ?_ ?_
    · by_contra hlt
      rw [hpre.mpr (not_le.mp hlt)] at hsec
      cases hsec
    · by_contra hge
      rw [hpost.mpr (not_lt.mp hge)] at hsec
      cases hsec
  | post => exact hmem g.postBegin g.nodes.length (hpost.mp hsec) htn

theorem nodeOp_kind (hm : Remade r g₀ g) {t : ℕ} {n : CgNode} (hn : g.nodes[t]? = some n)
    (hk : n.kind ≠ .none) : (g.nodeOp r n).kind = n.kind :=
  hm.lowerable.nodeOp_kind (List.mem_filter.mpr ⟨hm.mem_sectionNodes hn, by simpa using hk⟩)

/-- The op of a node before and after. -/
theorem opAt_node (hm : Remade r g₀ g)
    (hh : ∀ sec, h.sectionNodes sec = kept (g.sectionNodes sec))
    (hs : ∀ v, (h.value v).slot = (g.value v).slot) {t : ℕ} {n₀ n : CgNode}
    (hn₀ : g₀.nodes[t]? = some n₀) (hn : g.nodes[t]? = some n) (layer : Option ℕ) :
    ∃ op, op.kind = n₀.kind ∧ r.opAt ⟨n₀.sec, layer, n₀.recipeIndex⟩ = some op ∧
      (r.lowered h).opAt ⟨n₀.sec, layer, n₀.recipeIndex⟩ =
        some (if n.kind = .none then { op with kind := .none } else g.nodeOp r n) := by
  obtain ⟨i, hi, hl⟩ := hm.built.item hn₀
  have hop := (mem_items (List.mem_of_getElem? hi)).2
  rw [← hl.sec, ← hl.recipeIndex] at hop
  have hr := hm.rewritten hn₀ hn
  have hop' : (r.opsOf n.sec)[n.recipeIndex]? = some i.op := by
    rw [hr.1, hr.2.1]
    exact hop
  have hnode := hm.opsOf_node hh hs (hm.mem_sectionNodes hn) hop'
  rw [hr.1, hr.2.1] at hnode
  exact ⟨i.op, hl.kind.symm, hop, hnode⟩

/-- An op that the lowered recipe has not is that of a node. -/
theorem node_of_ne (hm : Remade r g₀ g)
    (hh : ∀ sec, h.sectionNodes sec = kept (g.sectionNodes sec))
    (hs : ∀ v, (h.value v).slot = (g.value v).slot) {site : OpSite}
    (hne : (r.lowered h).opAt site ≠ r.opAt site) :
    ∃ (t : ℕ) (n₀ n : CgNode), g₀.nodes[t]? = some n₀ ∧ g.nodes[t]? = some n ∧
      n₀.sec = site.sec ∧ n₀.recipeIndex = site.index := by
  rw [ModelRecipe.opAt, ModelRecipe.opAt, opsOf_lowered hm.lowerable hh hs] at hne
  have hnone : (∀ n ∈ kept (g.sectionNodes site.sec), n.recipeIndex ≠ site.index) →
      ∃ op, (r.opsOf site.sec)[site.index]? = some op ∧ op.kind ≠ .none := by
    intro hnone
    rw [getElem?_writeOps_of_notMem hnone, List.getElem?_map] at hne
    cases hop : (r.opsOf site.sec)[site.index]? with
    | none =>
      rw [hop] at hne
      exact absurd rfl hne
    | some op =>
      refine ⟨op, rfl, fun hk => hne ?_⟩
      rw [hop, Option.map_some, ← hk]
  have hop : ∃ op, (r.opsOf site.sec)[site.index]? = some op ∧ op.kind ≠ .none := by
    by_cases hex : ∀ n ∈ kept (g.sectionNodes site.sec), n.recipeIndex ≠ site.index
    · exact hnone hex
    · push Not at hex
      obtain ⟨n, hn, hidx⟩ := hex
      obtain ⟨n₀, -, ⟨-, hidx₀, -⟩, i, hi, hl⟩ := hm.item (List.mem_of_mem_filter hn)
      obtain ⟨-, hik, hiop⟩ := mem_opsAt hi
      rw [← hl.recipeIndex, ← hidx₀, hidx] at hiop
      exact ⟨i.op, hiop, hik⟩
  obtain ⟨op, hop, hk⟩ := hop
  obtain ⟨t, n₀, hn₀, hl⟩ := hm.built.node_of_op hop hk
  have htn : t < g.nodes.length :=
    hm.nodes.length_eq ▸ (List.getElem?_eq_some_iff.mp hn₀).1
  exact ⟨t, n₀, _, hn₀, List.getElem?_eq_getElem htn, hl.sec, hl.recipeIndex⟩

/-- One pass over the graph of a recipe and the compaction after it. -/
theorem sectionNodes_runPasses (pass : CgGraph → CgGraph × ℕ) (hm : Remade r g₀ (pass g₀).1)
    (hnone : (pass g₀).2 = 0 → (pass g₀).1 = g₀) (sec : CgSection) :
    (g₀.runPasses [pass]).sectionNodes sec = kept ((pass g₀).1.sectionNodes sec) := by
  rw [runPasses, List.foldl_cons, List.foldl_nil]
  split_ifs with hzero
  · rw [hnone hzero, hm.built.kept_sectionNodes]
  · have hb := hm.built.coherent.begins
    rw [← hm.layerBegin, ← hm.postBegin, hm.nodes.length_eq] at hb
    exact sectionNodes_compact hb sec

theorem slot_runPasses (g₀ : CgGraph) (pass : CgGraph → CgGraph × ℕ) (v : ℕ) :
    ((g₀.runPasses [pass]).value v).slot = ((pass g₀).1.value v).slot := by
  rw [runPasses, List.foldl_cons, List.foldl_nil]
  split_ifs
  · rfl
  · exact compact_slot _ v

/-- The recipe that a pass leaves runs the program of the graph that it leaves. -/
theorem sites_runPasses {V S : Type*} (pass : CgGraph → CgGraph × ℕ)
    (hm : Remade r g₀ (pass g₀).1) (hnone : (pass g₀).2 = 0 → (pass g₀).1 = g₀)
    (K : Kernels V S) (nLayers : ℕ) :
    (r.lowered (g₀.runPasses [pass])).sites K nLayers = (pass g₀).1.sites K r nLayers :=
  sites_lowered K hm.lowerable (sectionNodes_runPasses pass hm hnone) (slot_runPasses g₀ pass) nLayers

end Remade

end CgGraph

end Kappai
