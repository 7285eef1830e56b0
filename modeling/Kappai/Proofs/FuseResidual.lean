import Kappai.Proofs.SlotSharing
import Kappai.Sanity.FuseResidual

/-! Folding matmuls into the `ADD`s that take their output changes nothing that the other ops of
a recipe take in. -/

namespace Kappai

open RecipeOp

namespace CgGraph

variable {g g₀ : CgGraph} {r : ModelRecipe} {p q acc y input : ℕ} {add mm : CgNode}
  {opA opM : RecipeOp} {X Y I : Slot} {t : ℕ}

/-- What the nodes read and what the section carries over is stored where its slot says, and the
scratch of the residual matmuls is no operand. -/
structure Plain (g : CgGraph) : Prop where
  reads : ∀ (t : ℕ) (n : CgNode), g.LiveNode t n → ∀ v ∈ n.ins,
    (g.value v).viewOf = none ∧ (g.value v).slot ≠ some .residTmp
  carried : ∀ c ∈ g.carry, (g.value c.output).viewOf = none

theorem Plain.fused (h : Plain g) (hf : g.Foldable p q add mm acc y input) (hpq : p < q) :
    Plain (g.fused p q add mm acc y input) := by
  have hv := sameValues_fused g p q add mm acc y input
  refine ⟨fun t n hn v hvn => ?_, fun c hc => (hv.2 c.output).2.2.trans (h.carried c hc)⟩
  rw [(hv.2 v).1, (hv.2 v).2.2]
  rcases hf.liveNode_cases hpq hn with ⟨-, -, hlive⟩ | ⟨rfl, rfl⟩
  · exact h.reads t n hlive v hvn
  · rcases List.mem_pair.mp hvn with rfl | rfl
    · exact h.reads p mm ⟨hf.mmNode, by rw [hf.mmKind]; decide⟩ v
        (by rw [hf.mmIns]; exact List.mem_cons_self)
    · exact h.reads t add ⟨hf.addNode, by rw [hf.addKind]; decide⟩ v
        (by rw [hf.addIns]; exact List.mem_cons_self)

/-- No node from `lo` up to `hi` stores to the slot. -/
def StoreQuiet (g : CgGraph) (lo hi : ℕ) (s : Slot) : Prop :=
  ∀ (k : ℕ) (n : CgNode), g.LiveNode k n → lo ≤ k → k < hi →
    ∀ w ∈ n.outs, (g.value w).viewOf = none → (g.value w).slot ≠ some s

/-- The slots that may differ before node `t` once the matmul at `p`, which stores to `Y`, is
gone: `Y` until the next store to it, also into the next iteration, and the scratch. -/
def Dead (g : CgGraph) (p : ℕ) (Y : Slot) (t : ℕ) : Set Slot :=
  {c | c = .residTmp ∨ c = Y ∧ ((p < t ∧ g.StoreQuiet (p + 1) t Y) ∨
    (t ≤ p ∧ g.StoreQuiet (p + 1) g.postBegin Y ∧ g.StoreQuiet g.layerBegin t Y))}

theorem LiveReaches.cases {v : ℕ} {s : Slot} (h : g.LiveReaches v t)
    (hs : (g.value v).slot = some s) :
    ((g.value v).producer = none ∧ g.LiveQuiet 0 t s) ∨
      ∃ k n, (g.value v).producer = some k ∧ k < t ∧ g.LiveNode k n ∧ v ∈ n.outs ∧
        g.LiveQuiet (k + 1) t s := by
  obtain ⟨s', hs', hp⟩ := h
  obtain rfl := Option.some.inj (hs'.symm.trans hs)
  cases hprod : (g.value v).producer with
  | none =>
    rw [hprod] at hp
    exact Or.inl ⟨rfl, hp⟩
  | some k =>
    rw [hprod] at hp
    obtain ⟨hkt, ⟨n, hn, hvn⟩, hq⟩ := hp
    exact Or.inr ⟨k, n, rfl, hkt, hn, hvn, hq⟩

/-- A plain value of slot `Y` that comes from before a place no store to `Y` lies before, back to the
matmul, is the output of the matmul. -/
theorem Foldable.eq_of_reaches (hf : g.Foldable p q add mm acc y input)
    (hp : Foldable.Pair g p q mm acc y) (hY : (g.value y).slot = some Y) {v : ℕ}
    (hr : g.LiveReaches v t) (hv : (g.value v).slot = some Y) (hview : (g.value v).viewOf = none)
    (hpt : p < t) (hq : g.StoreQuiet (p + 1) t Y) : v = y := by
  have hmm : g.LiveNode p mm := ⟨hf.mmNode, by rw [hf.mmKind]; decide⟩
  have hymem : y ∈ mm.outs := by
    rw [hp.outs]
    exact List.mem_cons_self
  rcases hr.cases hv with ⟨-, hquiet⟩ | ⟨k, n, -, hkt, hn, hvn, hquiet⟩
  · exact absurd hY (hquiet p mm hmm (Nat.zero_le _) hpt y hymem)
  · rcases Nat.lt_trichotomy k p with hlt | rfl | hgt
    · exact absurd hY (hquiet p mm hmm hlt hpt y hymem)
    · obtain rfl := hmm.unique hn
      rw [hp.outs] at hvn
      exact List.mem_singleton.mp hvn
    · exact absurd hv (hq k n hn hgt hkt v hvn hview)

/-- What a node of the layer section or of the post section reads is not dead, the `ADD` apart. -/
theorem Foldable.read_alive (hf : g.Foldable p q add mm acc y input) (hc : Coherent g)
    (hplain : Plain g) (hp : Foldable.Pair g p q mm acc y) (hY : (g.value y).slot = some Y)
    {n : CgNode} (hn : g.LiveNode t n) (hlo : g.layerBegin ≤ t) (htq : t ≠ q) {v : ℕ} {s : Slot}
    (hv : v ∈ n.ins) (hs : (g.value v).slot = some s) : s ∉ g.Dead p Y t := by
  obtain ⟨-, hr⟩ := hc.reads t n hn v hv
  obtain ⟨hview, hresid⟩ := hplain.reads t n hn v hv
  obtain ⟨hplo, hphi⟩ := (hc.sec_layer hf.mmNode).mp hf.mmSec
  rintro (rfl | ⟨rfl, ⟨hpt, hq⟩ | ⟨htp, hafter, hbefore⟩⟩)
  · exact hresid hs
  · obtain rfl := hf.eq_of_reaches hp hY hr hs hview hpt hq
    exact htq (hp.once t n hn hv)
  · have hearly : g.Early g.layerBegin v := by
      intro k hk
      rcases hr.cases hs with ⟨hnone, -⟩ | ⟨k', m, hk', hkt, hm, hvm, -⟩
      · rw [hnone] at hk
        cases hk
      · obtain rfl := Option.some.inj (hk'.symm.trans hk)
        by_contra hge
        exact absurd hs (hbefore k' m hm (not_lt.mp hge) hkt v hvm hview)
    have hsec : n.sec = .layer := (hc.sec_layer hn.1).mpr ⟨hlo, by omega⟩
    obtain ⟨s', o, hs', ho, hro, hcarry⟩ := hc.carried t n hn hsec v hv hearly
    obtain rfl := Option.some.inj (hs'.symm.trans hs)
    have hviewo : (g.value o).viewOf = none := by
      rcases hcarry with rfl | hmem
      · exact hview
      · exact hplain.carried _ hmem
    obtain rfl := hf.eq_of_reaches hp hY hro ho hviewo hphi hafter
    rcases hcarry with rfl | hmem
    · exact absurd (hearly p hf.producer) (not_lt.mpr hplo)
    · exact hf.carryOut ⟨_, hmem, rfl⟩

/-- A slot stays dead at a node other than the matmul that does not store to it. -/
theorem dead_succ {c : Slot} (htp : t ≠ p) (hc : c ∈ g.Dead p Y t)
    (hst : ∀ n : CgNode, g.LiveNode t n → ∀ w ∈ n.outs, (g.value w).viewOf = none →
      (g.value w).slot ≠ some c) : c ∈ g.Dead p Y (t + 1) := by
  have hstep : ∀ lo, g.StoreQuiet lo t c → g.StoreQuiet lo (t + 1) c := by
    intro lo hq k n hn hlok hk w hw hview
    rcases Nat.lt_succ_iff_lt_or_eq.mp hk with hlt | rfl
    · exact hq k n hn hlok hlt w hw hview
    · exact hst n hn w hw hview
  rcases hc with rfl | ⟨rfl, ⟨hpt, hq⟩ | ⟨htp', hafter, hbefore⟩⟩
  · exact Or.inl rfl
  · exact Or.inr ⟨rfl, Or.inl ⟨by omega, hstep _ hq⟩⟩
  · exact Or.inr ⟨rfl, Or.inr ⟨by omega, hafter, hstep _ hbefore⟩⟩

end CgGraph

/-! ### What the ops of a fold do -/

section

variable {V S : Type*} (K : Kernels V S) (layer : Option ℕ) {op : RecipeOp} {X Y I : Slot}
  {m : CellBank Slot Slot V S}

theorem instr_of_ne_swap (hk : op.kind ≠ .swap) :
    instr K layer op = .op ⟨op.loads, op.stores, op.scratch, K.run layer op⟩ := by
  rcases instr_cases K layer op with ⟨a, b, hswap, -⟩ | heq
  · exact absurd hswap hk
  · exact heq

theorem step_matmul (hk : op.kind = .matmul) (hi : op.in0 = some I) (ho : op.out = some Y)
    (h : m.Respects id) :
    ((instr K layer op).step m).env = m.env ∧
      ∀ c, ((instr K layer op).step m).read c =
        if c = Y then K.matmul layer op.wIdx op.u.n op.u.k (m.read I) else m.read c := by
  obtain ⟨hl, hs, hx⟩ := CgGraph.matmul_touches hk hi ho
  rw [instr_of_ne_swap K layer (by rw [hk]; decide), hl]
  refine ⟨?_, fun c => ?_⟩
  · simp only [CellInstr.step, List.map_cons, List.map_nil, Kernels.run, hk]
  · rw [step_op_single hs hx h c]
    simp only [List.map_cons, List.map_nil, Kernels.run, hk]

theorem step_add (hk : op.kind = .add) (h0 : op.in0 = some X) (h1 : op.in1 = some Y)
    (h : m.Respects id) :
    ((instr K layer op).step m).env = m.env ∧
      ∀ c, ((instr K layer op).step m).read c =
        if c = X then K.add K.dim (m.read X) (m.read Y) else m.read c := by
  obtain ⟨hl, hs, hx⟩ := CgGraph.add_touches hk h0 h1
  rw [instr_of_ne_swap K layer (by rw [hk]; decide), hl]
  refine ⟨?_, fun c => ?_⟩
  · simp only [CellInstr.step, List.map_cons, List.map_nil, Kernels.run, hk]
  · rw [step_op_single hs hx h c]
    simp only [List.map_cons, List.map_nil, Kernels.run, hk]

theorem step_residual (hk : op.kind = .matmulResidual) (hi : op.in0 = some I)
    (ho : op.out = some X) (h : m.Respects id) :
    ((instr K layer op).step m).env = m.env ∧
      ∀ c, c ≠ .residTmp → ((instr K layer op).step m).read c =
        if c = X then
          K.add op.u.n (m.read X) (K.matmul layer op.wIdx op.u.n op.u.k (m.read I))
        else m.read c := by
  obtain ⟨hl, hs, hx⟩ := CgGraph.residual_touches hk hi ho
  rw [instr_of_ne_swap K layer (by rw [hk]; decide), hl, hs, hx]
  refine ⟨?_, fun c hc => ?_⟩
  · simp only [CellInstr.step, List.map_cons, List.map_nil, Kernels.run, hk]
  · simp only [CellInstr.step, CellInstr.pairs, List.map_cons, List.map_nil, Kernels.run, hk,
      List.zipIdx_singleton, List.filterMap_cons, List.filterMap_nil, Option.map_some,
      List.singleton_append, CellBank.writes, List.foldl_cons, List.foldl_nil]
    generalize K.matmul layer op.wIdx op.u.n op.u.k (m.read I) = tmp
    generalize K.add op.u.n (m.read X) tmp = sum
    change ((m.write (X, sum)).write (.residTmp, tmp)).read c = _
    have hlast : ((m.write (X, sum)).write (.residTmp, tmp)).read c = (m.write (X, sum)).read c :=
      CellBank.read_write_of_ne tmp fun hb => hc (h _ _ hb).symm
    rw [hlast]
    split_ifs with hcX
    · rw [hcX]
      exact CellBank.read_write_self m X _
    · exact CellBank.read_write_of_ne _ fun hb => hcX (h _ _ hb).symm

end

namespace CgGraph

variable {g g₀ : CgGraph} {r : ModelRecipe} {p q acc y input : ℕ} {add mm : CgNode}
  {opA opM : RecipeOp} {X Y I : Slot} {t : ℕ} {V S : Type*} {K : Kernels V S}
  {layer : Option ℕ} {keep : OpSite → Bool}

theorem site_of_live {n : CgNode} (hn : g.LiveNode t n) :
    g.site K r layer t = [(⟨n.sec, layer, n.recipeIndex⟩, instr K layer (g.nodeOp r n))] := by
  rw [site, hn.1]
  exact if_neg hn.2

theorem site_of_not_live (hn : ∀ n, ¬ g.LiveNode t n) : g.site K r layer t = [] := by
  rw [site]
  cases ht : g.nodes[t]? with
  | none => rfl
  | some n =>
    refine if_pos ?_
    by_contra hk
    exact hn n ⟨ht, hk⟩

theorem site_fused (htp : t ≠ p) (htq : t ≠ q) :
    (g.fused p q add mm acc y input).site K r layer t = g.site K r layer t := by
  have hv := sameValues_fused g p q add mm acc y input
  have hnode : (g.fused p q add mm acc y input).nodes[t]? = g.nodes[t]? := by
    rw [nodes_fused, List.getElem?_set_ne htp.symm, List.getElem?_set_ne htq.symm]
  rw [site, site, hnode]
  cases g.nodes[t]? with
  | none => rfl
  | some n =>
    change nodeSite K r _ layer n = nodeSite K r g layer n
    rw [nodeSite, nodeSite, nodeOp_congr fun v => (hv.2 v).1]

/-- The two runs before node `t`: alike but for the dead slots, and between the matmul and the `ADD`
the first holds in `Y` what the second is still to make. -/
def Held (g : CgGraph) (p q : ℕ) (Y I : Slot) (f : V → V) (t : ℕ)
    (m m' : CellBank Slot Slot V S) : Prop :=
  Alike (Set.compl (g.Dead p Y t)) m m' ∧ (p < t → t ≤ q → m.read Y = f (m'.read I))

/-- The scratch of the nodes between the two. -/
def ScratchApart (g : CgGraph) (r : ModelRecipe) (p q : ℕ) (Y I : Slot) : Prop :=
  ∀ (t : ℕ) (n : CgNode), g.LiveNode t n → p < t → t < q →
    Y ∉ (g.nodeOp r n).scratch ∧ I ∉ (g.nodeOp r n).scratch

/-- A node outside the fold. -/
theorem Foldable.relates_same (hf : g.Foldable p q add mm acc y input) (hF : Fusing r g₀ g)
    (hplain : Plain g) (hp : Foldable.Pair g p q mm acc y)
    (ho : g.FoldOps r add mm acc y input opA opM X Y I) (hx : g.ScratchApart r p q Y I)
    {f : V → V} (hlo : g.layerBegin ≤ t) (htp : t ≠ p) (htq : t ≠ q) :
    (slotMachine V S).Relates keep (g.Held p q Y I f t) (g.site K r layer t)
      ((g.fused p q add mm acc y input).site K r layer t) (g.Held p q Y I f (t + 1)) := by
  rw [site_fused htp htq]
  by_cases hlive : ∃ n, g.LiveNode t n
  · obtain ⟨n, hn⟩ := hlive
    have hs := hF.speaks t n hn
    rw [site_of_live hn]
    refine Machine.Relates.same fun m m' hheld => ?_
    obtain ⟨halike, hmid⟩ := hheld
    have hloads : ∀ s ∈ (g.nodeOp r n).loads, s ∈ Set.compl (g.Dead p Y t) := by
      intro s hsl
      obtain ⟨v, hv, hslot⟩ := hs.loads s hsl
      exact hf.read_alive hF.coherent hplain hp ho.ySlot hn hlo htq hv hslot
    have hlives : ∀ c ∈ Set.compl (g.Dead p Y (t + 1)),
        c ∈ Set.compl (g.Dead p Y t) ∨ c ∈ (g.nodeOp r n).stores := by
      intro c hc
      by_contra hnot
      push Not at hnot
      refine hc (dead_succ htp (not_not.mp hnot.1) fun m hm w hw hview hslot => ?_)
      obtain rfl := hn.unique hm
      exact hnot.2 ((hs.stores c).mpr ⟨w, hw, hview, hslot⟩)
    obtain ⟨hin, hnext⟩ := halike.step K layer hloads hlives
    refine ⟨hin, hnext, fun hpt htq' => ?_⟩
    have hpt' : p < t := by omega
    have htq'' : t < q := by omega
    have hstores : Y ∉ (g.nodeOp r n).stores ∧ I ∉ (g.nodeOp r n).stores := by
      refine ⟨fun hY => ?_, fun hI => ?_⟩
      · obtain ⟨w, hw, -, hslot⟩ := (hs.stores Y).mp hY
        obtain ⟨s, hsy, hprod⟩ := hp.reaches
        rw [hf.producer] at hprod
        obtain rfl := Option.some.inj (hsy.symm.trans ho.ySlot)
        exact hprod.2.2 t n hn hpt' htq'' w hw hslot
      · obtain ⟨w, hw, -, hslot⟩ := (hs.stores I).mp hI
        refine hf.quiet ⟨n, ?_, hn.2, w, hw, hslot.trans ho.inputSlot.symm⟩
        refine List.mem_of_getElem? (i := t - (p + 1)) ?_
        rw [List.getElem?_drop, show p + 1 + (t - (p + 1)) = t by omega, List.getElem?_take,
          if_pos htq'']
        exact hn.1
    obtain ⟨hxY, hxI⟩ := hx t n hn hpt' htq''
    change ((instr K layer (g.nodeOp r n)).step m).read Y =
      f (((instr K layer (g.nodeOp r n)).step m').read I)
    rw [read_step_of_untouched hstores.1 hxY halike.2.1,
      read_step_of_untouched hstores.2 hxI halike.2.2]
    exact hmid hpt' htq''.le
  · rw [site_of_not_live fun n hn => hlive ⟨n, hn⟩]
    refine Machine.Relates.nil fun m m' hheld => ⟨hheld.1.mono fun c hc hdead => ?_, fun hpt htq' => ?_⟩
    · exact hc (dead_succ htp hdead fun n hn => absurd ⟨n, hn⟩ hlive)
    · exact hheld.2 (by omega) (by omega)

/-- The matmul of the fold, which only the first program runs. -/
theorem Foldable.relates_matmul (hf : g.Foldable p q add mm acc y input) (hF : Fusing r g₀ g)
    (hplain : Plain g) (hp : Foldable.Pair g p q mm acc y)
    (ho : g.FoldOps r add mm acc y input opA opM X Y I)
    (hkeep : ∀ layer, keep ⟨.layer, layer, mm.recipeIndex⟩ = false) :
    (slotMachine V S).Relates keep
      (g.Held p q Y I (K.matmul layer opM.wIdx opM.u.n opM.u.k) p) (g.site K r layer p)
      ((g.fused p q add mm acc y input).site K r layer p)
      (g.Held p q Y I (K.matmul layer opM.wIdx opM.u.n opM.u.k) (p + 1)) := by
  have hmm : g.LiveNode p mm := ⟨hf.mmNode, by rw [hf.mmKind]; decide⟩
  have hnone : ∀ n, ¬ (g.fused p q add mm acc y input).LiveNode p n := by
    intro n hn
    rcases hf.liveNode_cases hp.lt hn with ⟨hne, -⟩ | ⟨heq, -⟩
    · exact hne rfl
    · exact hp.lt.ne heq
  have hIalive : I ∈ Set.compl (g.Dead p Y p) :=
    hf.read_alive hF.coherent hplain hp ho.ySlot hmm ((hF.coherent.sec_layer hf.mmNode).mp
      hf.mmSec).1 hp.lt.ne (by rw [hf.mmIns]; exact List.mem_cons_self) ho.inputSlot
  rw [site_of_live hmm, site_of_not_live hnone, ho.mmOp, hf.mmSec]
  refine Machine.Relates.hidden (fun s hs => ?_) (fun s hs => (by cases hs))
    fun m m' hheld => ?_
  · rw [List.mem_singleton.mp hs]
    exact hkeep layer
  obtain ⟨⟨⟨henv, hagree⟩, hm, hm'⟩, -⟩ := hheld
  obtain ⟨henv', hread⟩ := step_matmul K layer ho.mmKind ho.mmIn0 ho.mmOut hm
  change g.Held p q Y I _ (p + 1) ((instr K layer opM).step m) m'
  refine ⟨⟨⟨henv'.trans henv, fun c hc => ?_⟩, respects_step hm, hm'⟩, fun _ _ => ?_⟩
  · have hcY : c ≠ Y := by
      rintro rfl
      exact hc (Or.inr ⟨rfl, Or.inl ⟨Nat.lt_succ_self p, fun k n _ hlo hhi => by omega⟩⟩)
    rw [hread, if_neg hcY]
    refine hagree c fun hdead => ?_
    rcases hdead with rfl | ⟨rfl, -⟩
    · exact hc (Or.inl rfl)
    · exact hcY rfl
  · rw [hread, if_pos rfl, hagree I hIalive]

/-- The `ADD` of the fold and the residual matmul that replaces it. -/
theorem Foldable.relates_add (hf : g.Foldable p q add mm acc y input)
    (hplain : Plain g) (hp : Foldable.Pair g p q mm acc y)
    (ho : g.FoldOps r add mm acc y input opA opM X Y I)
    (hdim : opM.u.n = K.dim)
    (hkeep : ∀ layer, keep ⟨.layer, layer, add.recipeIndex⟩ = false) :
    (slotMachine V S).Relates keep
      (g.Held p q Y I (K.matmul layer opM.wIdx opM.u.n opM.u.k) q) (g.site K r layer q)
      ((g.fused p q add mm acc y input).site K r layer q)
      (g.Held p q Y I (K.matmul layer opM.wIdx opM.u.n opM.u.k) (q + 1)) := by
  have hadd : g.LiveNode q add := ⟨hf.addNode, by rw [hf.addKind]; decide⟩
  have hXresid : X ≠ .residTmp := by
    rintro rfl
    exact (hplain.reads q add hadd acc (by rw [hf.addIns]; exact List.mem_cons_self)).2 ho.accSlot
  obtain ⟨hk, hi, hout, hw, hu⟩ := ho.residual hf
  rw [site_of_live hadd, site_of_live (hf.liveNode_residual hp.lt), ho.addOp]
  refine Machine.Relates.hidden (fun s hs => ?_) (fun s hs => ?_) fun m m' hheld => ?_
  · rw [List.mem_singleton.mp hs, hf.addSec]
    exact hkeep layer
  · rw [List.mem_singleton.mp hs]
    change keep ⟨add.sec, layer, add.recipeIndex⟩ = false
    rw [hf.addSec]
    exact hkeep layer
  obtain ⟨⟨⟨henv, hagree⟩, hm, hm'⟩, hmid⟩ := hheld
  obtain ⟨henvA, hreadA⟩ := step_add K layer ho.addKind ho.addIn0 ho.addIn1 hm
  obtain ⟨henvR, hreadR⟩ := step_residual K layer hk hi hout hm'
  rw [hw, hu] at hreadR
  have hquiet : g.StoreQuiet (p + 1) q Y := by
    obtain ⟨s, hsy, hprod⟩ := hp.reaches
    rw [hf.producer] at hprod
    obtain rfl := Option.some.inj (hsy.symm.trans ho.ySlot)
    exact fun k n hn hlo hhi w hw _ => hprod.2.2 k n hn hlo hhi w hw
  have hXalive : X ∈ Set.compl (g.Dead p Y q) := by
    rintro (rfl | ⟨hXY, -⟩)
    · exact hXresid rfl
    · exact ho.ne hXY
  change g.Held p q Y I _ (q + 1) ((instr K layer opA).step m)
    ((instr K layer ((g.fused p q add mm acc y input).nodeOp r
      (residualNode add mm acc input))).step m')
  refine ⟨⟨⟨(henvA.trans henv).trans henvR.symm, fun c hc => ?_⟩, respects_step hm,
    respects_step hm'⟩, fun _ hle => absurd hle (by omega)⟩
  have hcR : c ≠ .residTmp := fun hcR => hc (Or.inl hcR)
  have hcY : c ≠ Y := by
    rintro rfl
    refine hc (Or.inr ⟨rfl, Or.inl ⟨hp.lt.trans (Nat.lt_succ_self q), fun k n hn hlo hhi w hw hv
      hs => ?_⟩⟩)
    rcases Nat.lt_succ_iff_lt_or_eq.mp hhi with hlt | rfl
    · exact hquiet k n hn hlo hlt w hw hv hs
    · obtain rfl := hn.unique hadd
      have hX := (ho.addOut w hw).2
      exact ho.ne (Option.some.inj (hX.symm.trans hs))
  rw [hreadA, hreadR c hcR, hmid hp.lt le_rfl, hagree X hXalive, hdim]
  split_ifs with hcX
  · rfl
  · refine hagree c ?_
    rintro (hres | ⟨heq, -⟩)
    · exact hcR hres
    · exact hcY heq

/-! ### The whole run -/

/-- A place where both programs run the same op from banks that are alike in every slot. -/
theorem relates_site_univ (g : CgGraph) (t : ℕ) :
    (slotMachine V S).Relates keep (Alike Set.univ) (g.site K r layer t) (g.site K r layer t)
      (Alike Set.univ) := by
  by_cases hlive : ∃ n, g.LiveNode t n
  · obtain ⟨n, hn⟩ := hlive
    rw [site_of_live hn]
    exact Machine.Relates.same fun m m' h =>
      h.step K layer (fun s _ => Set.mem_univ s) fun c _ => Or.inl (Set.mem_univ c)
  · rw [site_of_not_live fun n hn => hlive ⟨n, hn⟩]
    exact Machine.Relates.nil fun m m' h => h

/-- The run of a recipe before and after a fold. -/
theorem Foldable.relates_sites (hf : g.Foldable p q add mm acc y input) (hF : Fusing r g₀ g)
    (hplain : Plain g) (ho : g.FoldOps r add mm acc y input opA opM X Y I)
    (hx : g.ScratchApart r p q Y I) (hdim : opM.u.n = K.dim) (nLayers : ℕ)
    (hmm : ∀ layer, keep ⟨.layer, layer, mm.recipeIndex⟩ = false)
    (hadd : ∀ layer, keep ⟨.layer, layer, add.recipeIndex⟩ = false) :
    (slotMachine V S).Relates keep (Alike Set.univ) (g.sites K r nLayers)
      ((g.fused p q add mm acc y input).sites K r nLayers)
      (Alike (Set.compl (g.Dead p Y g.nodes.length))) := by
  have hp := hf.pair hF.coherent
  obtain ⟨hplo, hphi⟩ := (hF.coherent.sec_layer hf.mmNode).mp hf.mmSec
  obtain ⟨hqlo, hqhi⟩ := (hF.coherent.sec_layer hf.addNode).mp hf.addSec
  obtain ⟨hb₁, hb₂⟩ := hF.coherent.begins
  have hpre : (slotMachine V S).Relates keep (Alike Set.univ)
      ((List.range' 0 g.layerBegin).flatMap (g.site K r none))
      ((List.range' 0 g.layerBegin).flatMap ((g.fused p q add mm acc y input).site K r none))
      (Alike Set.univ) := by
    have hplaces := Machine.Relates.places (M := slotMachine V S) keep (fun _ => Alike Set.univ)
      (g.site K r none) ((g.fused p q add mm acc y input).site K r none) 0 g.layerBegin
      fun t _ ht => by
        rw [site_fused (by omega) (by omega)]
        exact relates_site_univ g t
    exact hplaces
  have hlayer : ∀ li, (slotMachine V S).Relates keep
      (Alike (Set.compl (g.Dead p Y g.layerBegin)))
      ((List.range' g.layerBegin (g.postBegin - g.layerBegin)).flatMap (g.site K r (some li)))
      ((List.range' g.layerBegin (g.postBegin - g.layerBegin)).flatMap
        ((g.fused p q add mm acc y input).site K r (some li)))
      (Alike (Set.compl (g.Dead p Y g.postBegin))) := by
    intro li
    have hplaces := Machine.Relates.places (M := slotMachine V S) keep
      (g.Held p q Y I (K.matmul (some li) opM.wIdx opM.u.n opM.u.k)) (g.site K r (some li))
      ((g.fused p q add mm acc y input).site K r (some li)) g.layerBegin (g.postBegin - g.layerBegin) fun t hlo _ => by
        rcases eq_or_ne t p with rfl | htp
        · exact hf.relates_matmul hF hplain hp ho hmm
        · rcases eq_or_ne t q with rfl | htq
          · exact hf.relates_add hplain hp ho hdim hadd
          · exact hf.relates_same hF hplain hp ho hx hlo htp htq
    rw [Nat.add_sub_cancel' hb₁] at hplaces
    exact hplaces.mono (fun m m' h => ⟨h, fun hlt => absurd hlt (not_lt.mpr hplo)⟩)
      fun m m' h => h.1
  -- a slot that is dead when the section ends was so when it began
  have hloop : Set.compl (g.Dead p Y g.layerBegin) ⊆ Set.compl (g.Dead p Y g.postBegin) := by
    rintro c hc (rfl | ⟨rfl, ⟨-, hq⟩ | ⟨hle, -⟩⟩)
    · exact hc (Or.inl rfl)
    · refine hc (Or.inr ⟨rfl, Or.inr ⟨hplo, hq, fun k n _ hlo hhi => ?_⟩⟩)
      omega
    · omega
  have hleave : Set.compl (g.Dead p Y g.postBegin) ⊆ Set.compl (g.Dead p Y g.layerBegin) := by
    rintro c hc (rfl | ⟨rfl, ⟨hlt, -⟩ | ⟨-, hq, -⟩⟩)
    · exact hc (Or.inl rfl)
    · omega
    · exact hc (Or.inr ⟨rfl, Or.inl ⟨hphi, hq⟩⟩)
  have hlayers := Machine.Relates.flatMap (List.range nLayers) fun li _ =>
    (hlayer li).mono (fun m m' h => h) fun m m' h => h.mono hloop
  have hpost : (slotMachine V S).Relates keep (Alike (Set.compl (g.Dead p Y g.postBegin)))
      ((List.range' g.postBegin (g.nodes.length - g.postBegin)).flatMap (g.site K r none))
      ((List.range' g.postBegin (g.nodes.length - g.postBegin)).flatMap
        ((g.fused p q add mm acc y input).site K r none))
      (Alike (Set.compl (g.Dead p Y g.nodes.length))) := by
    have hplaces := Machine.Relates.places (M := slotMachine V S) keep
      (g.Held p q Y I (K.matmul none opM.wIdx opM.u.n opM.u.k)) (g.site K r none)
      ((g.fused p q add mm acc y input).site K r none) g.postBegin (g.nodes.length - g.postBegin) fun t hlo _ =>
        hf.relates_same hF hplain hp ho hx (by omega) (by omega) (by omega)
    rw [Nat.add_sub_cancel' hb₂] at hplaces
    exact hplaces.mono (fun m m' h => ⟨h, fun _ hle => absurd hle (by omega)⟩) fun m m' h => h.1
  have hlen : (g.fused p q add mm acc y input).nodes.length = g.nodes.length := by
    rw [nodes_fused, List.length_set, List.length_set]
  rw [sites, sites, hlen]
  refine ((hpre.append ((hlayers.mono (fun m m' h => h.mono (Set.subset_univ _))
    fun m m' h => ?_))).append hpost)
  exact h.mono hleave

end CgGraph

/-! ### The pass -/

/-- The `ADD` at `j` adds what the matmul at `i` has stored. -/
structure Feeds (ops : List RecipeOp) (i j : ℕ) (mm add : RecipeOp) : Prop where
  lt : i < j
  mmAt : ops[i]? = some mm
  mmKind : mm.kind = .matmul
  addAt : ops[j]? = some add
  addKind : add.kind = .add
  slot : add.in1 = mm.out
  unwritten : ∀ (k : ℕ) (op : RecipeOp), ops[k]? = some op → i < k → k < j →
    ∀ s ∈ op.touchWrites, mm.out ≠ some s

/-- What the pass relies on: ops laid out as their builders lay them out, no reads of the slot that
residual matmuls have for scratch or of views, and between a matmul and the `ADD` of its output no
scratch in its slots; the output has the dimension of the model. -/
structure ResidualReady (dim : ℕ) (r : ModelRecipe) : Prop where
  exact : ∀ op ∈ r.preOps ++ r.layerOps ++ r.postOps, op.Exact
  resid : ∀ op ∈ r.preOps ++ r.layerOps ++ r.postOps, .residTmp ∉ op.touchReads
  dims : ∀ i j mm add, Feeds r.layerOps i j mm add → mm.u.n = dim
  scratch : ∀ i j mm add, Feeds r.layerOps i j mm add → ∀ (k : ℕ) (op : RecipeOp),
    r.layerOps[k]? = some op → i < k → k < j → ∀ s ∈ op.scratch, mm.in0 ≠ some s ∧ mm.out ≠ some s
  views : (graphBuild r).NoViewRead
  carries : ∀ c ∈ (graphBuild r).carry, ((graphBuild r).value c.output).viewOf = none

theorem mem_allOps {r : ModelRecipe} {i : OpAt} (h : i ∈ r.items) :
    i.op ∈ r.preOps ++ r.layerOps ++ r.postOps := by
  have hop := List.mem_of_getElem? (mem_items h).2
  rw [List.mem_append, List.mem_append]
  cases hs : i.sec with
  | pre =>
    rw [hs] at hop
    exact Or.inl (Or.inl hop)
  | layer =>
    rw [hs] at hop
    exact Or.inl (Or.inr hop)
  | post =>
    rw [hs] at hop
    exact Or.inr hop

namespace CgGraph

variable {g g₀ : CgGraph} {r : ModelRecipe} {p q acc y input : ℕ} {add mm : CgNode}
  {opA opM : RecipeOp} {X Y I : Slot} {t : ℕ} {dim : ℕ}

/-- The graph of a recipe before the pass. -/
theorem fusing_graphBuild (hr : ResidualReady dim r) :
    Fusing r (graphBuild r) (graphBuild r) := by
  have hb := graphBuild_built r
  refine ⟨hb.coherent, rfl, rfl, rfl, .refl _, rfl, fun t n hn => ⟨n, hn, rfl, rfl, rfl, Or.inl rfl⟩,
    fun t n hn => ?_⟩
  obtain ⟨i, hi, hl, -, heq⟩ := nodeOp_of_built hb hn.1 (graphBuild r)
  have hex := hr.exact i.op (mem_allOps (List.mem_of_getElem? hi))
  refine ⟨fun s hs => ?_, fun s => ?_⟩
  · rw [heq] at hs
    have hmem : some s ∈ n.ins.map fun v => ((graphBuild r).value v).slot := by
      rw [hl.ins]
      exact List.mem_map_of_mem (hex.loads s hs)
    exact List.mem_map.mp hmem
  · rw [heq]
    constructor
    · intro hs
      obtain ⟨v, hv, hslot, hview⟩ := hl.stored s (hex.only s hs)
      exact ⟨v, hv, hview, hslot⟩
    · rintro ⟨v, hv, hview, hslot⟩
      obtain ⟨s', hs', hslot'⟩ := hl.slots v hv hview
      obtain rfl := Option.some.inj (hslot'.symm.trans hslot)
      exact hex.writes s' hs'

theorem plain_graphBuild (hr : ResidualReady dim r) : Plain (graphBuild r) := by
  have hb := graphBuild_built r
  refine ⟨fun t n hn v hv => ⟨hr.views n (List.mem_of_getElem? hn.1) v hv, fun hslot => ?_⟩,
    hr.carries⟩
  obtain ⟨i, hi, hl⟩ := hb.item hn.1
  have hmem : some .residTmp ∈ i.op.touchReads.map some := by
    rw [← hl.ins]
    exact List.mem_map.mpr ⟨v, hv, hslot⟩
  obtain ⟨s, hs, heq⟩ := List.mem_map.mp hmem
  obtain rfl := Option.some.inj heq
  exact hr.resid i.op (mem_allOps (List.mem_of_getElem? hi)) hs

/-- A pair that the pass folds is a matmul and the `ADD` of its output. -/
theorem Foldable.feeds (hf : g.Foldable p q add mm acc y input) (hF : Fusing r g₀ g)
    (hb : Built r g₀) (hp : Foldable.Pair g p q mm acc y)
    (ho : g.FoldOps r add mm acc y input opA opM X Y I) :
    Feeds r.layerOps mm.recipeIndex add.recipeIndex opM opA := by
  have hmm := hF.unchanged hf.mmNode (Or.inr hf.mmKind)
  have hadd := hF.unchanged hf.addNode (Or.inl hf.addKind)
  refine ⟨hb.index_lt hmm hadd (hf.mmSec.trans hf.addSec.symm) hp.lt, ho.mmAt, ho.mmKind, ho.addAt,
    ho.addKind, ho.addIn1.trans ho.mmOut.symm, fun k op hop hlo hhi s hs heq => ?_⟩
  rw [ho.mmOut] at heq
  obtain rfl := Option.some.inj heq
  have hk : op.kind ≠ .none := by
    intro hnone
    rw [touchWrites, hnone] at hs
    cases hs
  obtain ⟨t, n, hn, hl⟩ := hb.node_of_op (show (r.opsOf .layer)[k]? = some op from hop) hk
  have hnsec : n.sec = .layer := hl.sec
  have hnidx : n.recipeIndex = k := hl.recipeIndex
  have hpt : p < t := by
    by_contra hle
    rcases Nat.lt_or_ge t p with hlt | hge
    · have := hb.index_lt hn hmm (hnsec.trans hf.mmSec.symm) hlt
      omega
    · obtain rfl : t = p := by omega
      obtain rfl := Option.some.inj (hn.symm.trans hmm)
      omega
  have htq : t < q := by
    by_contra hle
    rcases Nat.lt_or_ge q t with hlt | hge
    · have := hb.index_lt hadd hn (hf.addSec.trans hnsec.symm) hlt
      omega
    · obtain rfl : t = q := by omega
      obtain rfl := Option.some.inj (hn.symm.trans hadd)
      omega
  obtain ⟨-, s', hs', hprod⟩ := hb.ins q add hadd y (by
    rw [hf.addIns]
    exact List.mem_cons_of_mem _ List.mem_cons_self)
  have hY : (g₀.value y).slot = some Y := (hF.values.2 y).1.symm.trans ho.ySlot
  obtain rfl := Option.some.inj (hs'.symm.trans hY)
  rw [← (hF.values.2 y).2.1, hf.producer] at hprod
  obtain ⟨w, hw, hslot, -⟩ := hl.stored s' hs
  exact hprod.2.2 t n hn hpt htq w hw hslot

theorem Foldable.scratchApart (hf : g.Foldable p q add mm acc y input) (hF : Fusing r g₀ g)
    (hb : Built r g₀) (hplain : Plain g) (hr : ResidualReady dim r)
    (hp : Foldable.Pair g p q mm acc y)
    (ho : g.FoldOps r add mm acc y input opA opM X Y I) : g.ScratchApart r p q Y I := by
  intro t n hn hpt htq
  have hfeeds := hf.feeds hF hb hp ho
  obtain ⟨n₀, hn₀, hsec, hidx, -, hcase⟩ := hF.nodes t n hn.1
  rcases hcase with rfl | ⟨hsec₀, ⟨-, hnone⟩ | ⟨hadd₀, hres⟩⟩
  · obtain ⟨hlo, -⟩ := (hF.coherent.sec_layer hf.mmNode).mp hf.mmSec
    obtain ⟨-, hhi⟩ := (hF.coherent.sec_layer hf.addNode).mp hf.addSec
    have hnsec : n.sec = .layer := (hF.coherent.sec_layer hn.1).mpr ⟨by omega, by omega⟩
    obtain ⟨i, hi, hl, hop, heq⟩ := nodeOp_of_built hb hn₀ g
    rw [hnsec] at hop
    have hsep := hr.scratch _ _ _ _ hfeeds n.recipeIndex i.op hop
      (hb.index_lt (hF.unchanged hf.mmNode (Or.inr hf.mmKind)) hn₀ (hf.mmSec.trans hnsec.symm) hpt)
      (hb.index_lt hn₀ (hF.unchanged hf.addNode (Or.inl hf.addKind)) (hnsec.trans hf.addSec.symm)
        htq)
    rw [heq]
    exact ⟨fun hY => (hsep Y hY).2 ho.mmOut, fun hI => (hsep I hI).1 ho.mmIn0⟩
  · exact absurd hnone hn.2
  · have hk : (g.nodeOp r n).scratch = [.residTmp] := by
      obtain ⟨i, hi, hl, hop, -⟩ := nodeOp_of_built hb hn₀ g
      rw [scratch, nodeOp_eq (by rw [hsec, hidx]; exact hop), lowerNode_kind, hres]
      · rfl
      · rw [hres, ← hl.kind, hadd₀]
        exact Or.inr rfl
    have hYr : Y ≠ .residTmp := by
      rintro rfl
      exact (hplain.reads q add ⟨hf.addNode, by rw [hf.addKind]; decide⟩ y (by
        rw [hf.addIns]
        exact List.mem_cons_of_mem _ List.mem_cons_self)).2 ho.ySlot
    have hIr : I ≠ .residTmp := by
      rintro rfl
      exact (hplain.reads p mm ⟨hf.mmNode, by rw [hf.mmKind]; decide⟩ input (by
        rw [hf.mmIns]
        exact List.mem_cons_self)).2 ho.inputSlot
    rw [hk]
    exact ⟨fun h => hYr (List.mem_singleton.mp h), fun h => hIr (List.mem_singleton.mp h)⟩

/-- A kind that the pass has changed. -/
def Changed (g₀ g : CgGraph) (n₀ : CgNode) : Prop :=
  ∃ (t : ℕ) (n : CgNode), g₀.nodes[t]? = some n₀ ∧ g.nodes[t]? = some n ∧ n.kind ≠ n₀.kind

/-- A fold changes its two nodes, and those changed before stay so. -/
theorem Foldable.changed (hf : g.Foldable p q add mm acc y input) (hF : Fusing r g₀ g)
    (hpq : p < q) :
    Changed g₀ (g.fused p q add mm acc y input) mm ∧
      Changed g₀ (g.fused p q add mm acc y input) add ∧
      ∀ n₀, Changed g₀ g n₀ → Changed g₀ (g.fused p q add mm acc y input) n₀ := by
  refine ⟨⟨p, { mm with kind := .none }, hF.unchanged hf.mmNode (Or.inr hf.mmKind), ?_, ?_⟩,
    ⟨q, residualNode add mm acc input, hF.unchanged hf.addNode (Or.inl hf.addKind),
      (hf.liveNode_residual hpq).1, ?_⟩, ?_⟩
  · rw [nodes_fused, List.getElem?_set_self]
    rw [List.length_set]
    exact (List.getElem?_eq_some_iff.mp hf.mmNode).1
  · rw [hf.mmKind]
    exact fun hk => by cases hk
  · rw [hf.addKind]
    exact fun hk => by cases hk
  · rintro n₀ ⟨t, n, hn₀, hn, hne⟩
    refine ⟨t, n, hn₀, ?_, hne⟩
    have hsame : n = n₀ → False := fun heq => hne (by rw [heq])
    have htp : t ≠ p := by
      rintro rfl
      obtain rfl := Option.some.inj (hn.symm.trans hf.mmNode)
      exact hsame (Option.some.inj ((hF.unchanged hn (Or.inr hf.mmKind)).symm.trans hn₀))
    have htq : t ≠ q := by
      rintro rfl
      obtain rfl := Option.some.inj (hn.symm.trans hf.addNode)
      exact hsame (Option.some.inj ((hF.unchanged hn (Or.inl hf.addKind)).symm.trans hn₀))
    rw [nodes_fused, List.getElem?_set_ne htp.symm, List.getElem?_set_ne htq.symm, hn]

/-- The pass so far: the graph and how many matmuls it has folded. -/
structure Folding {V S : Type*} (K : Kernels V S) (r : ModelRecipe) (nLayers : ℕ) (env : S)
    (mem : Slot → V) (s : CgGraph × ℕ) : Prop where
  fusing : Fusing r (graphBuild r) s.1
  plain : Plain s.1
  none : s.2 = 0 → s.1 = graphBuild r
  runs : ∀ keep : OpSite → Bool,
    (∀ n₀, Changed (graphBuild r) s.1 n₀ → ∀ layer, keep ⟨.layer, layer, n₀.recipeIndex⟩ = false) →
      (slotMachine V S).shown keep (privateBank env mem) ((graphBuild r).sites K r nLayers) =
        (slotMachine V S).shown keep (privateBank env mem) (s.1.sites K r nLayers)

section

variable {V S : Type*} {K : Kernels V S} {nLayers : ℕ} {env : S} {mem : Slot → V}

theorem Folding.tryFuse {s : CgGraph × ℕ} (hr : ResidualReady K.dim r)
    (h : Folding K r nLayers env mem s) (i : ℕ) :
    Folding K r nLayers env mem
      ((s.1.tryFuseMatmulResidual i).1, s.2 + (s.1.tryFuseMatmulResidual i).2) := by
  have hb := graphBuild_built r
  rcases tryFuse_cases s.1 i with heq | ⟨p, add, mm, acc, y, input, hf, heq⟩
  · rw [heq]
    exact h
  · have hp := hf.pair h.fusing.coherent
    obtain ⟨opA, opM, X, Y, I, ho⟩ := h.fusing.foldOps hb hf hp
    have hfeeds := hf.feeds h.fusing hb hp ho
    obtain ⟨hmm, hadd, hold⟩ := hf.changed h.fusing hp.lt
    rw [heq]
    refine ⟨h.fusing.fused hb hf, h.plain.fused hf hp.lt, fun hzero => ?_, fun keep hkeep => ?_⟩
    · exact absurd hzero (Nat.succ_ne_zero _)
    · refine (h.runs keep fun n₀ hn₀ => hkeep n₀ (hold n₀ hn₀)).trans ?_
      exact (hf.relates_sites h.fusing h.plain ho (hf.scratchApart h.fusing hb h.plain hr hp ho)
        (hr.dims _ _ _ _ hfeeds) nLayers (hkeep mm hmm) (hkeep add hadd) _ _
        (alike_private Set.univ env mem)).1

/-- The whole pass. -/
theorem folding_fuseMatmulResidual (hr : ResidualReady K.dim r) (ctx : PassCtx) :
    Folding K r nLayers env mem ((graphBuild r).fuseMatmulResidual ctx) := by
  have hstart : Folding K r nLayers env mem (graphBuild r, 0) :=
    ⟨fusing_graphBuild hr, plain_graphBuild hr, fun _ => rfl, fun _ _ => rfl⟩
  rw [fuseMatmulResidual]
  split_ifs
  · generalize List.range (graphBuild r).nodes.length = is
    generalize (graphBuild r, 0) = s at hstart
    induction is generalizing s with
    | nil => exact hstart
    | cons i is ih => exact ih _ (hstart.tryFuse hr i)
  · exact hstart

end

/-! ### The lowered recipe -/

theorem Fusing.remade (h : Fusing r g₀ g) (hb : Built r g₀) : Remade r g₀ g := by
  refine ⟨hb, List.forall₂_iff_get.mpr ⟨h.length.symm, fun t h₁ h₂ => ?_⟩, h.layerBegin,
    h.postBegin⟩
  obtain ⟨n₀, hn₀, hsec, hidx, -, hcase⟩ := h.nodes t _ (List.getElem?_eq_getElem h₂)
  obtain rfl := Option.some.inj ((List.getElem?_eq_getElem h₁).symm.trans hn₀)
  refine ⟨hsec, hidx, ?_⟩
  rcases hcase with heq | ⟨-, ⟨-, hnone⟩ | ⟨hadd, hres⟩⟩
  · exact Or.inr (Or.inl (congrArg CgNode.kind heq))
  · exact Or.inl hnone
  · refine Or.inr (Or.inr ?_)
    rw [List.get_eq_getElem, List.get_eq_getElem, hadd, hres]
    decide

end CgGraph

open CgGraph in
/-- Folding matmuls into the `ADD`s of their outputs leaves what every other op takes in, and the
ops that change are those matmuls and `ADD`s. -/
theorem fuseMatmulResidual_taken_eq {V S : Type*} (K : Kernels V S) (r : ModelRecipe)
    (hr : ResidualReady K.dim r) (ctx : PassCtx) (nLayers : ℕ) (env : S) (mem : Slot → V) :
    let r' := r.lowered ((graphBuild r).runPasses [fun g => g.fuseMatmulResidual ctx])
    (∀ site op, r'.opAt site ≠ r.opAt site → r.opAt site = some op → site.sec = .layer ∧
      ((op.kind = .matmul ∧ r'.opAt site = some { op with kind := .none }) ∨
        op.kind = .add ∧ ∃ op', r'.opAt site = some op' ∧ op'.kind = .matmulResidual)) ∧
      (r'.taken K nLayers env mem).filter (fun q => r'.opAt q.1 = r.opAt q.1) =
        (r.taken K nLayers env mem).filter fun q => r'.opAt q.1 = r.opAt q.1 := by
  intro r'
  have hb := graphBuild_built r
  have hfold : Folding K r nLayers env mem ((graphBuild r).fuseMatmulResidual ctx) :=
    folding_fuseMatmulResidual hr ctx
  have hm := hfold.fusing.remade hb
  have hh := Remade.sectionNodes_runPasses (fun g => g.fuseMatmulResidual ctx) hm hfold.none
  have hs := Remade.slot_runPasses (graphBuild r) fun g => g.fuseMatmulResidual ctx
  refine ⟨fun site op hne hop => ?_, ?_⟩
  · obtain ⟨t, n₀, n, hn₀, hn, hsec, hidx⟩ := hm.node_of_ne hh hs hne
    obtain ⟨op₀, hk₀, hat, hat'⟩ := hm.opAt_node hh hs hn₀ hn site.layer
    rw [hsec, hidx] at hat hat'
    obtain rfl := Option.some.inj (hat.symm.trans hop)
    obtain ⟨n₁, hn₁, -, -, -, hcase⟩ := hfold.fusing.nodes t n hn
    obtain rfl := Option.some.inj (hn₁.symm.trans hn₀)
    rcases hcase with rfl | ⟨hlayer, ⟨hmm, hnone⟩ | ⟨hadd, hres⟩⟩
    · obtain ⟨i, -, -, hi, heq⟩ := nodeOp_of_built hb hn₀ ((graphBuild r).fuseMatmulResidual ctx).1
      rw [if_neg (hb.kind_ne_none hn₀), heq] at hat'
      rw [hsec, hidx] at hi
      exact absurd (hat'.trans hi.symm) hne
    · rw [if_pos hnone] at hat'
      exact ⟨hsec.symm.trans hlayer, Or.inl ⟨hk₀.trans hmm, hat'⟩⟩
    · rw [if_neg (by rw [hres]; decide)] at hat'
      refine ⟨hsec.symm.trans hlayer, Or.inr ⟨hk₀.trans hadd, _, hat', ?_⟩⟩
      rw [hm.nodeOp_kind hn (by rw [hres]; decide), hres]
  · have hkeep : ∀ n₀, Changed (graphBuild r) ((graphBuild r).fuseMatmulResidual ctx).1 n₀ →
        ∀ layer, decide (r'.opAt ⟨.layer, layer, n₀.recipeIndex⟩ =
          r.opAt ⟨.layer, layer, n₀.recipeIndex⟩) = false := by
      rintro n₀ ⟨t, n, hn₀, hn, hne⟩ layer
      obtain ⟨n₁, hn₁, -, -, -, hcase⟩ := hfold.fusing.nodes t n hn
      obtain rfl := Option.some.inj (hn₁.symm.trans hn₀)
      have hlayer : n₁.sec = .layer := by
        rcases hcase with rfl | ⟨hlayer, -⟩
        · exact absurd rfl hne
        · exact hlayer
      obtain ⟨op, hk, hat, hat'⟩ := hm.opAt_node hh hs hn₀ hn layer
      rw [hlayer] at hat hat'
      refine decide_eq_false fun heq => ?_
      rw [hat, hat', Option.some.injEq] at heq
      have hkind := congrArg RecipeOp.kind heq
      rw [hk] at hkind
      by_cases hnone : n.kind = .none
      · rw [if_pos hnone] at hkind
        exact hne (hnone.trans hkind)
      · rw [if_neg hnone, hm.nodeOp_kind hn hnone] at hkind
        exact hne hkind
    have hruns := hfold.runs (fun site => decide (r'.opAt site = r.opAt site)) hkeep
    rw [hb.sites_eq, ← Remade.sites_runPasses (fun g => g.fuseMatmulResidual ctx) hm hfold.none]
      at hruns
    exact hruns.symm

/-- Every capability, for a model without output scales. -/
def fullCtx : PassCtx := ⟨true, true, true, fun _ => true, some 0, false, false, []⟩

/-- The layer folds its matmul into the `ADD`, and the post section reads the output. -/
def residualRecipe : ModelRecipe where
  preOps := [mkEmbdLookup]
  layerOps := [mkMatmul .x .xb 5 8 8, mkAdd .x .xb]
  postOps := [mkMatmul .x .logits 3 8 8]

theorem feeds_residualRecipe {i j : ℕ} {mm add : RecipeOp}
    (h : Feeds residualRecipe.layerOps i j mm add) : i = 0 ∧ j = 1 ∧ mm = mkMatmul .x .xb 5 8 8 := by
  have hj : j < 2 := (List.getElem?_eq_some_iff.mp h.addAt).1
  obtain rfl : i = 0 := by
    have := h.lt
    omega
  exact ⟨rfl, by have := h.lt; omega, (Option.some.inj h.mmAt).symm⟩

theorem residualReady_residualRecipe : ResidualReady 8 residualRecipe where
  exact := by decide
  resid := by decide
  dims := fun i j mm add h => by
    rw [(feeds_residualRecipe h).2.2]
    rfl
  scratch := fun i j mm add h k op _ hlo hhi => by
    obtain ⟨rfl, rfl, -⟩ := feeds_residualRecipe h
    omega
  views := by decide +kernel
  carries := by decide +kernel

theorem residualRecipe_taken_eq :
    let r' := residualRecipe.lowered
      ((graphBuild residualRecipe).runPasses [fun g => g.fuseMatmulResidual fullCtx])
    r'.layerOps.map RecipeOp.kind = [.none, .matmulResidual] ∧
      (r'.taken numKernels 3 () fun _ => 0).filter
          (fun q => r'.opAt q.1 = residualRecipe.opAt q.1) =
        (residualRecipe.taken numKernels 3 () fun _ => 0).filter
          fun q => r'.opAt q.1 = residualRecipe.opAt q.1 :=
  ⟨by decide +kernel, (fuseMatmulResidual_taken_eq numKernels residualRecipe
    residualReady_residualRecipe fullCtx 3 () fun _ => 0).2⟩

/-- The post section reads the slot that a residual matmul has for scratch. -/
def scratchRecipe : ModelRecipe where
  preOps := [mkEmbdLookup, mkMatmul .x .residTmp 6 8 8]
  layerOps := [mkMatmul .x .xb 5 8 8, mkAdd .x .xb]
  postOps := [mkAdd .x .residTmp]

/-- An `ADD` that the pass leaves takes in what the residual matmul of the layer has put in its
scratch. -/
theorem fuseMatmulResidual_taken_ne :
    let r' := scratchRecipe.lowered
      ((graphBuild scratchRecipe).runPasses [fun g => g.fuseMatmulResidual fullCtx])
    (r'.taken numKernels 1 () fun _ => 0).filter
        (fun q => r'.opAt q.1 = scratchRecipe.opAt q.1) ≠
      (scratchRecipe.taken numKernels 1 () fun _ => 0).filter
        fun q => r'.opAt q.1 = scratchRecipe.opAt q.1 := by
  decide +kernel

end Kappai
