import Kappai.Sanity.GraphNodes
import Kappai.Spec.GraphPasses
import Kappai.Spec.RecipeExec

/-! A graph whose passes have dropped nodes: what the nodes that are left read is still the last
value written by one of them, and the program of the graph is that of its ops. -/

namespace Kappai

open RecipeOp

namespace CgGraph

variable {g : CgGraph} {v t lo hi : ℕ} {s : Slot}

/-- Node `t` has not been dropped. -/
def LiveNode (g : CgGraph) (t : ℕ) (n : CgNode) : Prop := g.nodes[t]? = some n ∧ n.kind ≠ .none

/-- As `Quiet`, for the nodes that are left. -/
def LiveQuiet (g : CgGraph) (lo hi : ℕ) (s : Slot) : Prop :=
  ∀ (k : ℕ) (n : CgNode), g.LiveNode k n → lo ≤ k → k < hi →
    ∀ w ∈ n.outs, (g.value w).slot ≠ some s

/-- As `Reaches`, for the nodes that are left. -/
def LiveReaches (g : CgGraph) (v t : ℕ) : Prop :=
  ∃ s, (g.value v).slot = some s ∧
    match (g.value v).producer with
    | none => g.LiveQuiet 0 t s
    | some p => p < t ∧ (∃ n, g.LiveNode p n ∧ v ∈ n.outs) ∧ g.LiveQuiet (p + 1) t s

/-- How often the nodes that are left read a value. -/
def liveUses (nodes : List CgNode) (v : ℕ) : ℕ :=
  (nodes.map fun n => if n.kind = .none then 0 else n.ins.count v).sum

/-- The graph between two steps of the passes. -/
structure Coherent (g : CgGraph) : Prop where
  begins : g.layerBegin ≤ g.postBegin ∧ g.postBegin ≤ g.nodes.length
  sec : ∀ (t : ℕ) (n : CgNode), g.nodes[t]? = some n →
    (n.sec = .pre ↔ t < g.layerBegin) ∧ (n.sec = .post ↔ g.postBegin ≤ t)
  reads : ∀ (t : ℕ) (n : CgNode), g.LiveNode t n → ∀ v ∈ n.ins,
    v < g.values.length ∧ g.LiveReaches v t
  outs : ∀ (t : ℕ) (n : CgNode), g.LiveNode t n → ∀ v ∈ n.outs,
    v < g.values.length ∧ (g.value v).producer = some t
  uses : ∀ v < g.values.length, (g.value v).nUses = liveUses g.nodes v
  carried : ∀ (t : ℕ) (n : CgNode), g.LiveNode t n → n.sec = .layer → ∀ v ∈ n.ins,
    g.Early g.layerBegin v → ∃ s o, (g.value v).slot = some s ∧ (g.value o).slot = some s ∧
      g.LiveReaches o g.postBegin ∧ (v = o ∨ ⟨s, v, o⟩ ∈ g.carry)

theorem Coherent.sec_layer (h : Coherent g) {n : CgNode} (hn : g.nodes[t]? = some n) :
    n.sec = .layer ↔ g.layerBegin ≤ t ∧ t < g.postBegin := by
  obtain ⟨hpre, hpost⟩ := h.sec t n hn
  have := h.begins.1
  cases hs : n.sec with
  | pre =>
    have := hpre.mp hs
    simp only [reduceCtorEq, false_iff]
    omega
  | layer =>
    have h₁ : ¬ t < g.layerBegin := fun hlt => by
      rw [hpre.mpr hlt] at hs
      cases hs
    have h₂ : ¬ g.postBegin ≤ t := fun hle => by
      rw [hpost.mpr hle] at hs
      cases hs
    simp only [true_iff]
    omega
  | post =>
    have := hpost.mp hs
    simp only [reduceCtorEq, false_iff]
    omega

theorem LiveNode.unique {m n : CgNode} (h : g.LiveNode t n) (h' : g.LiveNode t m) : m = n :=
  Option.some.inj (h'.1.symm.trans h.1)

/-- Two values of one slot that reach a node come from the same node. -/
theorem LiveReaches.producer_eq {w p : ℕ} (hv : g.LiveReaches v t) (hw : g.LiveReaches w t)
    (hslot : (g.value w).slot = (g.value v).slot) (hp : (g.value v).producer = some p) :
    (g.value w).producer = some p := by
  obtain ⟨s, hs, hvp⟩ := hv
  rw [hp] at hvp
  obtain ⟨hpt, ⟨n, hn, hvn⟩, hq⟩ := hvp
  obtain ⟨s', hs', hwp⟩ := hw
  obtain rfl : s' = s := by
    rw [hslot, hs] at hs'
    exact (Option.some.inj hs').symm
  cases hpw : (g.value w).producer with
  | none =>
    rw [hpw] at hwp
    exact absurd hs (hwp p n hn (Nat.zero_le _) hpt v hvn)
  | some p' =>
    rw [hpw] at hwp
    obtain ⟨hpt', ⟨m, hm, hwm⟩, hq'⟩ := hwp
    rcases Nat.lt_trichotomy p p' with hlt | heq | hgt
    · exact absurd hs' (hq p' m hm hlt hpt' w hwm)
    · rw [heq]
    · exact absurd hs (hq' p n hn hgt hpt v hvn)

theorem LiveReaches.mem_outs {p : ℕ} {n : CgNode} (h : g.LiveReaches v t)
    (hp : (g.value v).producer = some p) (hn : g.nodes[p]? = some n) : p < t ∧ v ∈ n.outs := by
  obtain ⟨s, -, hprod⟩ := h
  rw [hp] at hprod
  obtain ⟨hlt, ⟨m, hm, hv⟩, -⟩ := hprod
  obtain rfl := Option.some.inj (hm.1.symm.trans hn)
  exact ⟨hlt, hv⟩

theorem liveUses_set {nodes : List CgNode} {i : ℕ} {n : CgNode} (hn : nodes[i]? = some n)
    (m : CgNode) (v : ℕ) :
    liveUses (nodes.set i m) v + (if n.kind = .none then 0 else n.ins.count v) =
      liveUses nodes v + (if m.kind = .none then 0 else m.ins.count v) := by
  induction nodes generalizing i with
  | nil => cases hn
  | cons x nodes ih =>
    cases i with
    | zero =>
      obtain rfl := Option.some.inj hn
      simp only [liveUses, List.set_cons_zero, List.map_cons, List.sum_cons]
      omega
    | succ i =>
      have hi := ih hn
      simp only [liveUses, List.set_cons_succ, List.map_cons, List.sum_cons] at hi ⊢
      omega

theorem le_liveUses {n : CgNode} (hn : g.LiveNode t n) (v : ℕ) :
    n.ins.count v ≤ liveUses g.nodes v := by
  have hset := liveUses_set hn.1 { n with ins := [] } v
  rw [if_neg hn.2, if_neg (show ({ n with ins := [] } : CgNode).kind ≠ .none from hn.2),
    List.count_nil] at hset
  omega

/-- Two nodes that read a value are two uses of it. -/
theorem two_le_liveUses {t' : ℕ} {n n' : CgNode} (hn : g.LiveNode t n) (hn' : g.LiveNode t' n')
    (hne : t ≠ t') (hv : v ∈ n.ins) (hv' : v ∈ n'.ins) : 2 ≤ liveUses g.nodes v := by
  have hset := liveUses_set hn.1 { n with ins := [] } v
  rw [if_neg hn.2, if_neg (show ({ n with ins := [] } : CgNode).kind ≠ .none from hn.2),
    List.count_nil] at hset
  have hlive : ({ g with nodes := g.nodes.set t { n with ins := [] } } : CgGraph).LiveNode t' n' :=
    ⟨by rw [List.getElem?_set_ne hne]; exact hn'.1, hn'.2⟩
  have hle := le_liveUses hlive v
  have h₁ := List.one_le_count_iff.mpr hv
  have h₂ := List.one_le_count_iff.mpr hv'
  dsimp only at hle
  omega

end CgGraph

/-! ### The graph of a recipe -/

theorem mem_opsAt {sec : CgSection} {ops : List RecipeOp} {i : OpAt} (h : i ∈ opsAt sec ops) :
    i.sec = sec ∧ i.op.kind ≠ .none ∧ ops[i.index]? = some i.op := by
  obtain ⟨p, hp, rfl⟩ := List.mem_map.mp h
  obtain ⟨hmem, hk⟩ := List.mem_filter.mp hp
  exact ⟨rfl, by simpa using hk, List.mk_mem_zipIdx_iff_getElem?.mp hmem⟩

theorem mem_items {r : ModelRecipe} {i : OpAt} (h : i ∈ r.items) :
    i.op.kind ≠ .none ∧ (r.opsOf i.sec)[i.index]? = some i.op := by
  rcases List.mem_append.mp h with h | h
  · rcases List.mem_append.mp h with h | h
    · obtain ⟨hs, hk, hop⟩ := mem_opsAt h
      rw [hs]
      exact ⟨hk, hop⟩
    · obtain ⟨hs, hk, hop⟩ := mem_opsAt h
      rw [hs]
      exact ⟨hk, hop⟩
  · obtain ⟨hs, hk, hop⟩ := mem_opsAt h
    rw [hs]
    exact ⟨hk, hop⟩

theorem opsAt_pairwise (sec : CgSection) (ops : List RecipeOp) :
    (opsAt sec ops).Pairwise fun i j => i.index < j.index := by
  have hzip : ops.zipIdx.Pairwise fun a b => a.2 < b.2 := by
    refine List.pairwise_iff_getElem.mpr fun i j hi hj hij => ?_
    rw [List.getElem_zipIdx, List.getElem_zipIdx]
    dsimp only
    omega
  exact List.pairwise_map.mpr (hzip.sublist List.filter_sublist)

/-- The ops of a section are lowered in their order. -/
theorem items_pairwise (r : ModelRecipe) :
    r.items.Pairwise fun i j => i.sec = j.sec → i.index < j.index := by
  have hin : ∀ sec ops, (opsAt sec ops).Pairwise fun i j => i.sec = j.sec → i.index < j.index := by
    intro sec ops
    refine (opsAt_pairwise sec ops).imp ?_
    exact fun hlt _ => hlt
  refine List.pairwise_append.mpr ⟨List.pairwise_append.mpr ⟨hin _ _, hin _ _, ?_⟩, hin _ _, ?_⟩
  · intro i hi j hj heq
    rw [(mem_opsAt hi).1, (mem_opsAt hj).1] at heq
    cases heq
  · intro i hi j hj heq
    rcases List.mem_append.mp hi with hi | hi
    · rw [(mem_opsAt hi).1, (mem_opsAt hj).1] at heq
      cases heq
    · rw [(mem_opsAt hi).1, (mem_opsAt hj).1] at heq
      cases heq

theorem mem_items_of_op {r : ModelRecipe} {sec : CgSection} {k : ℕ} {op : RecipeOp}
    (hop : (r.opsOf sec)[k]? = some op) (hk : op.kind ≠ .none) : ⟨sec, k, op⟩ ∈ r.items := by
  have hmem : (⟨sec, k, op⟩ : OpAt) ∈ opsAt sec (r.opsOf sec) :=
    List.mem_map.mpr ⟨(op, k), List.mem_filter.mpr ⟨List.mk_mem_zipIdx_iff_getElem?.mpr hop,
      by simpa using hk⟩, rfl⟩
  rw [ModelRecipe.items, List.mem_append, List.mem_append]
  cases sec with
  | pre => exact Or.inl (Or.inl hmem)
  | layer => exact Or.inl (Or.inr hmem)
  | post => exact Or.inr hmem

namespace Built

open CgGraph

variable {r : ModelRecipe} {g : CgGraph} {t : ℕ} {n : CgNode}

/-- Every op that is lowered has its node. -/
theorem node_of_op (h : Built r g) {sec : CgSection} {k : ℕ} {op : RecipeOp}
    (hop : (r.opsOf sec)[k]? = some op) (hk : op.kind ≠ .none) :
    ∃ (t : ℕ) (n : CgNode), g.nodes[t]? = some n ∧ Lowered g ⟨sec, k, op⟩ n := by
  obtain ⟨t, ht⟩ := List.getElem?_of_mem (mem_items_of_op hop hk)
  have hlow := List.forall₂_iff_get.mp h.lowered
  have hti : t < r.items.length := (List.getElem?_eq_some_iff.mp ht).1
  have htn : t < g.nodes.length := hlow.1 ▸ hti
  have hl := hlow.2 t hti htn
  rw [show r.items.get ⟨t, hti⟩ = ⟨sec, k, op⟩ from
    Option.some.inj ((List.getElem?_eq_getElem hti).symm.trans ht)] at hl
  exact ⟨t, _, List.getElem?_eq_getElem htn, hl⟩

/-- Every node is that of an op. -/
theorem item (h : Built r g) (hn : g.nodes[t]? = some n) :
    ∃ i, r.items[t]? = some i ∧ Lowered g i n := by
  have hlow := List.forall₂_iff_get.mp h.lowered
  have htn : t < g.nodes.length := (List.getElem?_eq_some_iff.mp hn).1
  have hti : t < r.items.length := hlow.1 ▸ htn
  have hl := hlow.2 t hti htn
  rw [show g.nodes.get ⟨t, htn⟩ = n from
    Option.some.inj ((List.getElem?_eq_getElem htn).symm.trans hn)] at hl
  exact ⟨_, List.getElem?_eq_getElem hti, hl⟩

/-- The nodes of a section are in the order of their ops. -/
theorem index_lt (h : Built r g) {t' : ℕ} {n' : CgNode} (hn : g.nodes[t]? = some n)
    (hn' : g.nodes[t']? = some n') (hsec : n.sec = n'.sec) (hlt : t < t') :
    n.recipeIndex < n'.recipeIndex := by
  obtain ⟨i, hi, hl⟩ := h.item hn
  obtain ⟨j, hj, hl'⟩ := h.item hn'
  obtain ⟨hti, hgi⟩ := List.getElem?_eq_some_iff.mp hi
  obtain ⟨htj, hgj⟩ := List.getElem?_eq_some_iff.mp hj
  have hpair := List.pairwise_iff_getElem.mp (items_pairwise r) t t' hti htj hlt
  rw [hgi, hgj, ← hl.sec, ← hl'.sec, ← hl.recipeIndex, ← hl'.recipeIndex] at hpair
  exact hpair hsec

theorem eq_of_index (h : Built r g) {t' : ℕ} {n' : CgNode} (hn : g.nodes[t]? = some n)
    (hn' : g.nodes[t']? = some n') (hsec : n.sec = n'.sec)
    (hidx : n.recipeIndex = n'.recipeIndex) : t = t' := by
  rcases Nat.lt_trichotomy t t' with hlt | heq | hgt
  · have := h.index_lt hn hn' hsec hlt
    omega
  · exact heq
  · have := h.index_lt hn' hn hsec.symm hgt
    omega

theorem kind_ne_none (h : Built r g) (hn : g.nodes[t]? = some n) : n.kind ≠ .none := by
  obtain ⟨i, hi, hl⟩ := h.item hn
  rw [hl.kind]
  exact (mem_items (List.mem_of_getElem? hi)).1

theorem liveNode_iff (h : Built r g) : g.LiveNode t n ↔ g.nodes[t]? = some n :=
  ⟨fun hn => hn.1, fun hn => ⟨hn, h.kind_ne_none hn⟩⟩

theorem liveReaches (h : Built r g) {v : ℕ} (hr : g.Reaches v t) : g.LiveReaches v t := by
  obtain ⟨s, hs, hp⟩ := hr
  refine ⟨s, hs, ?_⟩
  cases hprod : (g.value v).producer with
  | none =>
    rw [hprod] at hp
    exact fun k n hn => hp k n hn.1
  | some p =>
    rw [hprod] at hp
    obtain ⟨hlt, ⟨n, hn, hv⟩, hq⟩ := hp
    exact ⟨hlt, ⟨n, h.liveNode_iff.mpr hn, hv⟩, fun k n hn => hq k n hn.1⟩

theorem nodes_length (h : Built r g) : g.nodes.length = r.items.length := h.lowered.length_eq.symm

/-- The section of a node is told by its place. -/
theorem sec_iff (h : Built r g) (hn : g.nodes[t]? = some n) :
    (n.sec = .pre ↔ t < g.layerBegin) ∧ (n.sec = .post ↔ g.postBegin ≤ t) := by
  obtain ⟨i, hi, hl⟩ := h.item hn
  rw [hl.sec]
  have hpb := h.postBegin
  have hlb := h.layerBegin
  rw [ModelRecipe.items, List.append_assoc] at hi
  rcases Nat.lt_or_ge t (opsAt .pre r.preOps).length with hlt | hge
  · rw [List.getElem?_append_left hlt] at hi
    have hs := (mem_opsAt (List.mem_of_getElem? hi)).1
    rw [hs]
    simp only [reduceCtorEq, true_iff, false_iff]
    omega
  · rw [List.getElem?_append_right hge] at hi
    rcases Nat.lt_or_ge (t - (opsAt .pre r.preOps).length) (opsAt .layer r.layerOps).length with
      hlt | hge'
    · rw [List.getElem?_append_left hlt] at hi
      have hs := (mem_opsAt (List.mem_of_getElem? hi)).1
      rw [hs]
      simp only [reduceCtorEq, false_iff]
      omega
    · rw [List.getElem?_append_right hge'] at hi
      have hs := (mem_opsAt (List.mem_of_getElem? hi)).1
      rw [hs]
      simp only [reduceCtorEq, true_iff, false_iff]
      omega

theorem coherent (h : Built r g) : Coherent g := by
  have hle : g.postBegin ≤ g.nodes.length := by
    have hpb := h.postBegin
    have hlb := h.layerBegin
    rw [h.nodes_length, ModelRecipe.items, List.length_append, List.length_append]
    omega
  refine ⟨⟨h.postBegin ▸ Nat.le_add_right _ _, hle⟩, fun t n hn => h.sec_iff hn,
    fun t n hn v hv => ?_, fun t n hn v hv => h.outs t n hn.1 v hv, fun v hv => ?_,
    fun t n hn hsec v hv hearly => ?_⟩
  · obtain ⟨hlt, hr⟩ := h.ins t n hn.1 v hv
    exact ⟨hlt, h.liveReaches hr⟩
  · rw [h.uses v hv, usesIn, liveUses]
    refine congrArg List.sum (List.map_congr_left fun n hn => ?_)
    obtain ⟨t, ht⟩ := List.getElem?_of_mem hn
    rw [if_neg (h.kind_ne_none ht)]
  · obtain ⟨hpre, hpost⟩ := h.sec_iff hn.1
    have hlo : g.layerBegin ≤ t := not_lt.mp fun hlt => by
      rw [hpre.mpr hlt] at hsec
      cases hsec
    have hhi : t < g.postBegin := not_le.mp fun hge => by
      rw [hpost.mpr hge] at hsec
      cases hsec
    obtain ⟨s, o, hs, ho, hr, hc⟩ := h.carried t n hn.1 hlo hhi v hv hearly
    exact ⟨s, o, hs, ho, h.liveReaches hr, hc⟩

end Built

end Kappai
