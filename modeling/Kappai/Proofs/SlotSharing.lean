import Kappai.Proofs.MemPlan
import Kappai.Sanity.GraphNodes
import Kappai.Sanity.MemPlan
import Kappai.Sanity.SlotRuns

/-! A recipe runs alike over the shared buffers of its plan and over a buffer for every slot. -/

namespace Kappai

open RecipeOp

namespace CgGraph

variable {g : CgGraph} {a : Slot} {v t : ℕ}

/-- The slot is read before anything is written to it. -/
def EntrySlot (g : CgGraph) (s : Slot) : Prop :=
  ∃ n ∈ g.nodes, ∃ v ∈ n.ins, (g.value v).producer = none ∧ (g.value v).slot = some s

instance (g : CgGraph) (s : Slot) : Decidable (g.EntrySlot s) :=
  inferInstanceAs (Decidable (∃ n ∈ g.nodes, ∃ v ∈ n.ins, _ ∧ _))

/-- The value is stored in the slot, and nodes touch it. -/
structure Stored (g : CgGraph) (a : Slot) (v : ℕ) : Prop where
  lt : v < g.values.length
  slot : (g.value v).slot = some a
  plain : (g.value v).viewOf = none
  touched : ∃ t, g.Touches t v

/-- The slots that hold a value from before node `t` that is still needed then. Those from before
node `lo` are only of interest if they are needed up to `hi`. -/
def Live (g : CgGraph) (lo hi t : ℕ) : Set Slot :=
  {a | ∃ v, g.Stored a v ∧ g.Early t v ∧ (t : ℤ) ≤ (g.range v).stop + 1 ∧
    (g.Early lo v → (hi : ℤ) ≤ (g.range v).stop + 1)}

theorem Stored.range_stop (h : g.Stored a v) : 0 ≤ (g.range v).stop := by
  obtain ⟨u, hu⟩ := h.touched
  have := range_of_touches hu h.lt
  omega

theorem Stored.storedRange (h : g.Stored a v) : g.StoredRange a (g.range v) :=
  Or.inl ⟨v, h.lt, ⟨h.range_stop, h.plain⟩, h.slot, rfl⟩

/-- The span of a scratch slot covers the nodes that have it. -/
theorem hiddenSpan_covers {n : CgNode} (hn : g.nodes[t]? = some n)
    (ha : a ∈ n.kind.batchExtraMask) (hl : n.kind.nodeLocalScratch = false) :
    (g.hiddenSpan a n.sec).start ≤ t ∧ (t : ℤ) ≤ (g.hiddenSpan a n.sec).stop := by
  refine foldl_reaches (P := fun r : CgRange => r.start ≤ t ∧ t ≤ r.stop) (fun r p h => ?_)
    (fun r => ?_) (List.mk_mem_zipIdx_iff_getElem?.mpr hn) _
  · split_ifs
    · exact ⟨(min_le_left _ _).trans h.1, h.2.trans (le_max_left _ _)⟩
    · exact h
  · rw [if_pos ⟨ha, by simp [hl], rfl⟩]
    exact ⟨min_le_right _ _, le_max_right _ _⟩

/-- The scratch of a node is in hidden use there. -/
theorem storedRange_scratch {n : CgNode} (hn : g.nodes[t]? = some n)
    (ha : a ∈ n.kind.batchExtraMask) :
    ∃ r : CgRange, g.StoredRange a r ∧ r.start ≤ t ∧ (t : ℤ) ≤ r.stop := by
  by_cases hl : n.kind.nodeLocalScratch
  · refine ⟨⟨t, t⟩, Or.inr ⟨⟨a, ⟨t, t⟩⟩, ?_, rfl, rfl⟩, le_rfl, le_rfl⟩
    refine List.mem_append_left _ (List.mem_flatMap.mpr
      ⟨(n, t), List.mk_mem_zipIdx_iff_getElem?.mpr hn, ?_⟩)
    rw [if_pos hl]
    exact List.mem_map.mpr ⟨a, ha, rfl⟩
  · have hspan := hiddenSpan_covers hn ha (by simpa using hl)
    refine ⟨g.hiddenSpan a n.sec, Or.inr ⟨⟨a, g.hiddenSpan a n.sec⟩, ?_, rfl, rfl⟩, hspan⟩
    refine List.mem_append_right _ (List.mem_flatMap.mpr ⟨a, MemPlan.mem_all a, ?_⟩)
    refine List.mem_filterMap.mpr ⟨n.sec, ?_, if_pos (by omega)⟩
    cases n.sec with
    | pre => simp
    | layer => simp
    | post => simp

end CgGraph

namespace Built

open CgGraph

variable {r : ModelRecipe} {g : CgGraph} {a : Slot} {v t : ℕ}

/-- A value that nodes touch and that has a producer is among what the producer writes. -/
theorem mem_outs (h : Built r g) {u p : ℕ} (hu : g.Touches u v)
    (hp : (g.value v).producer = some p) : ∃ n : CgNode, g.nodes[p]? = some n ∧ v ∈ n.outs := by
  obtain ⟨n, hn, hv⟩ := hu
  rcases List.mem_append.mp hv with hv | hv
  · obtain ⟨s, -, hprod⟩ := (h.ins u n hn v hv).2
    rw [hp] at hprod
    exact hprod.2.1
  · obtain rfl := Option.some.inj (hp.symm.trans (h.outs u n hn v hv).2)
    exact ⟨n, hn, hv⟩

/-- What is live has been live since before the node. -/
theorem range_start (h : Built r g) (hs : g.Stored a v) (he : g.Early (t + 1) v) :
    (g.range v).start ≤ t := by
  obtain ⟨u, hu⟩ := hs.touched
  cases hp : (g.value v).producer with
  | none =>
    have := (range_of_touches hu hs.lt).2.2.1 hp
    omega
  | some p =>
    obtain ⟨n, hn, hv⟩ := h.mem_outs hu hp
    have hstart := (range_of_touches ⟨n, hn, List.mem_append_right _ hv⟩ hs.lt).1
    have := he p hp
    omega

/-- A stored value that a node touches is in use there. -/
theorem storedRange_touch {n : CgNode} (hn : g.nodes[t]? = some n) (hv : v ∈ n.ins ++ n.outs)
    (hlt : v < g.values.length) (hslot : (g.value v).slot = some a)
    (hplain : (g.value v).viewOf = none) :
    ∃ r : CgRange, g.StoredRange a r ∧ r.start ≤ t ∧ (t : ℤ) ≤ r.stop := by
  have hst : g.Stored a v := ⟨hlt, hslot, hplain, t, n, hn, hv⟩
  have hr := range_of_touches ⟨n, hn, hv⟩ hlt
  exact ⟨_, hst.storedRange, hr.1, hr.2.1⟩

/-- The slots an op reads are in use at its node. -/
theorem storedRange_read (h : Built r g) (hview : g.NoViewRead) {n : CgNode} {i : OpAt}
    (hn : g.nodes[t]? = some n) (hl : Lowered g i n) (ha : a ∈ i.op.touchReads) :
    ∃ r : CgRange, g.StoredRange a r ∧ r.start ≤ t ∧ (t : ℤ) ≤ r.stop := by
  have hmem : some a ∈ n.ins.map fun v => (g.value v).slot := by
    rw [hl.ins]
    exact List.mem_map_of_mem ha
  obtain ⟨v, hv, hslot⟩ := List.mem_map.mp hmem
  exact storedRange_touch hn (List.mem_append_left _ hv) (h.ins t n hn v hv).1 hslot
    (hview n (List.mem_of_getElem? hn) v hv)

/-- The slots an op writes are in use at its node. -/
theorem storedRange_write (h : Built r g) {n : CgNode} {i : OpAt}
    (hn : g.nodes[t]? = some n) (hl : Lowered g i n) (ha : a ∈ i.op.touchWrites) :
    ∃ r : CgRange, g.StoredRange a r ∧ r.start ≤ t ∧ (t : ℤ) ≤ r.stop := by
  obtain ⟨v, hv, hslot, hplain⟩ := hl.stored a ha
  exact storedRange_touch hn (List.mem_append_right _ hv) (h.outs t n hn v hv).1 hslot hplain

/-- The slots an op stores to and its scratch are in use at its node. -/
theorem storedRange_node (h : Built r g) (hview : g.NoViewRead) {n : CgNode} {i : OpAt}
    (hn : g.nodes[t]? = some n) (hl : Lowered g i n) (hsh : i.op.Shaped)
    (ha : a ∈ i.op.stores ++ i.op.scratch) :
    ∃ r : CgRange, g.StoredRange a r ∧ r.start ≤ t ∧ (t : ℤ) ≤ r.stop := by
  rcases List.mem_append.mp ha with ha | ha
  · rcases hsh.stores a ha with hw | hr
    · exact h.storedRange_write hn hl hw
    · exact h.storedRange_read hview hn hl hr
  · rw [RecipeOp.scratch, ← hl.kind] at ha
    exact storedRange_scratch hn ha

/-- A slot whose value reaches past a node was live before it or is stored to by its op. -/
theorem live_succ (h : Built r g) {n : CgNode} {i : OpAt} (hn : g.nodes[t]? = some n)
    (hl : Lowered g i n) {lo hi : ℕ} (ha : a ∈ g.Live lo hi (t + 1)) :
    a ∈ g.Live lo hi t ∨ a ∈ i.op.touchWrites := by
  obtain ⟨v, hs, hearly, hstop, hkeep⟩ := ha
  by_cases hprod : (g.value v).producer = some t
  · obtain ⟨u, hu⟩ := hs.touched
    obtain ⟨m, hm, hv⟩ := h.mem_outs hu hprod
    obtain rfl := Option.some.inj (hm.symm.trans hn)
    obtain ⟨s, hw, hslot⟩ := hl.slots v hv hs.plain
    obtain rfl := Option.some.inj (hslot.symm.trans hs.slot)
    exact Or.inr hw
  · refine Or.inl ⟨v, hs, fun p hp => ?_, by omega, hkeep⟩
    have hlt := hearly p hp
    have hne : p ≠ t := fun heq => hprod (heq ▸ hp)
    omega

/-- A slot that an op reads is live, if what is from before the section is. -/
theorem live_of_read (h : Built r g) (hview : g.NoViewRead) {n : CgNode} {i : OpAt}
    (hn : g.nodes[t]? = some n) (hl : Lowered g i n) {lo hi : ℕ}
    (hkeep : ∀ v ∈ n.ins, g.Early lo v → (hi : ℤ) ≤ (g.range v).stop + 1)
    (ha : a ∈ i.op.touchReads) : a ∈ g.Live lo hi t := by
  have hmem : some a ∈ n.ins.map fun v => (g.value v).slot := by
    rw [hl.ins]
    exact List.mem_map_of_mem ha
  obtain ⟨v, hv, hslot⟩ := List.mem_map.mp hmem
  obtain ⟨hlt, s, -, hprod⟩ := h.ins t n hn v hv
  have htouch : g.Touches t v := ⟨n, hn, List.mem_append_left _ hv⟩
  have hrange := range_of_touches htouch hlt
  refine ⟨v, ⟨hlt, hslot, hview n (List.mem_of_getElem? hn) v hv, t, htouch⟩, fun p hp => ?_,
    by omega, hkeep v hv⟩
  rw [show (g.value v).producer = some p from hp] at hprod
  exact hprod.1

end Built

/-! ### One op -/

section

variable {V S : Type*}

theorem swap_touchReads {op : RecipeOp} {a b : Slot} (hk : op.kind = .swap)
    (ha : op.in0 = some a) (hb : op.in1 = some b) :
    op.touchReads = if b = a then [a] else [a, b] := by
  simp only [touchReads, hk, OpKind.reads, List.map_cons, List.map_nil, operand, ha, hb,
    List.foldl_cons, List.foldl_nil, touchPush]
  split_ifs <;> simp_all [opTouchMax]

/-- An op takes the slots live before its node to those live after it. -/
theorem sound_instr {r : ModelRecipe} {g : CgGraph} (h : Built r g) (hview : g.NoViewRead)
    (d : MemDims) (isHybrid : Bool) (K : Kernels V S) (layer : Option ℕ) {n : CgNode} {i : OpAt}
    {t lo hi : ℕ} (hn : g.nodes[t]? = some n) (hl : g.Lowered i n) (hsh : i.op.Shaped)
    (hkeep : ∀ v ∈ n.ins, g.Early lo v → (hi : ℤ) ≤ (g.range v).stop + 1) :
    (instr K layer i.op).Sound (MemPlan.build (some [g]) d isHybrid).rep (g.Live lo hi t)
      (g.Live lo hi (t + 1)) := by
  have hread : ∀ s ∈ i.op.touchReads, s ∈ g.Live lo hi t :=
    fun s hs => h.live_of_read hview hn hl hkeep hs
  rcases instr_cases K layer i.op with ⟨a, b, hk, ha0, hb1, heq⟩ | heq
  · have hab := swap_touchReads hk ha0 hb1
    have ha : a ∈ i.op.touchReads := by
      rw [hab]
      split_ifs
      · exact List.mem_cons_self
      · exact List.mem_cons_self
    have hb : b ∈ i.op.touchReads := by
      rw [hab]
      split_ifs with hba
      · exact List.mem_singleton.mpr hba
      · exact List.mem_cons_of_mem _ List.mem_cons_self
    have hpin : ∀ s ∈ i.op.touchReads, g.SwapSlot s := by
      intro s hs
      have hmem : some s ∈ n.ins.map fun v => (g.value v).slot := by
        rw [hl.ins]
        exact List.mem_map_of_mem hs
      obtain ⟨v, hv, hslot⟩ := List.mem_map.mp hmem
      exact ⟨n, List.mem_of_getElem? hn, hl.kind.trans hk, v, List.mem_append_left _ hv, hslot⟩
    have halone : ∀ s ∈ i.op.touchReads, ∀ c,
        (MemPlan.build (some [g]) d isHybrid).rep c =
          (MemPlan.build (some [g]) d isHybrid).rep s → c = s := by
      intro s hs c hrep
      by_contra hne
      exact (MemPlan.rep_apart (Ne.symm hne) hrep.symm List.mem_cons_self).2 (hpin s hs)
    rw [heq]
    refine ⟨⟨hread a ha, hread b hb⟩, fun c hc => ?_, fun c => ⟨halone a ha c, halone b hb c⟩⟩
    rcases h.live_succ hn hl hc with hL | hw
    · exact hL
    · have hwr : c ∈ i.op.touchReads := by
        rw [show i.op.touchReads = i.op.touchWrites by
          simp only [touchReads, touchWrites, hk, OpKind.reads, OpKind.writes]]
        exact hw
      exact hread c hwr
  · rw [heq]
    refine ⟨fun c hc => hread c (hsh.loads c hc), fun c hc => ?_, fun c hc w hw hne hrep => ?_⟩
    · exact (h.live_succ hn hl hc).imp id fun hw => hsh.writes c hw
    · obtain ⟨v, hs, hearly, hstop, -⟩ := hc
      obtain ⟨rng, hst, hlo, hhi⟩ := h.storedRange_node hview hn hl hsh hw
      have hstart := h.range_start hs hearly
      exact (MemPlan.rep_apart hne hrep List.mem_cons_self).1 _ _ hst hs.storedRange
        ⟨by omega, by omega⟩

theorem steps_eq_opsAt (sec : CgSection) (ops : List RecipeOp) :
    steps ops = (opsAt sec ops).map OpAt.op := by
  have hgen : ∀ k, steps ops =
      (((ops.zipIdx k).filter fun p => p.1.kind ≠ .none).map fun p => (⟨sec, p.2, p.1⟩ : OpAt)).map
        OpAt.op := by
    unfold steps
    induction ops with
    | nil => exact fun k => rfl
    | cons op ops ih =>
      intro k
      rw [List.zipIdx_cons]
      by_cases hk : op.kind = .none
      · rw [List.filter_cons_of_neg (by simp [hk]), List.filter_cons_of_neg (by simp [hk]), ← ih]
      · rw [List.filter_cons_of_pos (by simp [hk]), List.filter_cons_of_pos (by simp [hk]),
          List.map_cons, List.map_cons, ← ih]
  exact hgen 0

/-- A run of ops whose nodes are next to each other. -/
theorem sound_section {r : ModelRecipe} {g : CgGraph} (h : Built r g) (hview : g.NoViewRead)
    (d : MemDims) (isHybrid : Bool) (K : Kernels V S) (layer : Option ℕ) (sec : CgSection)
    (ops : List RecipeOp) (before after : List OpAt) (lo hi : ℕ)
    (hitems : r.items = before ++ opsAt sec ops ++ after) (hsh : ∀ op ∈ ops, op.Shaped)
    (hkeep : ∀ (t : ℕ) (n : CgNode), g.nodes[t]? = some n → before.length ≤ t →
      t < before.length + (opsAt sec ops).length → ∀ v ∈ n.ins, g.Early lo v →
      (hi : ℤ) ≤ (g.range v).stop + 1) :
    SoundChain (MemPlan.build (some [g]) d isHybrid).rep (g.Live lo hi before.length)
      (sectionInstrs K layer ops)
      (g.Live lo hi (before.length + (opsAt sec ops).length)) := by
  have hlen : (opsAt sec ops).length = (sectionInstrs K layer ops).length := by
    rw [sectionInstrs, steps_eq_opsAt sec, List.length_map, List.length_map]
  rw [hlen]
  refine SoundChain.of_places (L := g.Live lo hi) fun k j hj => ?_
  rw [sectionInstrs, steps_eq_opsAt sec, List.map_map] at hj
  rw [List.getElem?_map] at hj
  obtain ⟨i, hi', rfl⟩ := Option.map_eq_some_iff.mp hj
  have hk : k < (opsAt sec ops).length := (List.getElem?_eq_some_iff.mp hi').1
  have hitem : r.items[before.length + k]? = some i := by
    rw [hitems, List.append_assoc, List.getElem?_append_right (Nat.le_add_right _ _),
      Nat.add_sub_cancel_left, List.getElem?_append_left hk, hi']
  have hop : i.op ∈ ops := by
    have hmem : i.op ∈ (opsAt sec ops).map OpAt.op := List.mem_map_of_mem (List.mem_of_getElem? hi')
    rw [← steps_eq_opsAt] at hmem
    exact (List.mem_filter.mp hmem).1
  have hlow := List.forall₂_iff_get.mp h.lowered
  have hti : before.length + k < r.items.length := (List.getElem?_eq_some_iff.mp hitem).1
  have htn : before.length + k < g.nodes.length := hlow.1 ▸ hti
  have hn := List.getElem?_eq_getElem htn
  have hl := hlow.2 _ hti htn
  have hget : r.items.get ⟨before.length + k, hti⟩ = i :=
    Option.some.inj ((List.getElem?_eq_getElem hti).symm.trans hitem)
  rw [hget] at hl
  exact sound_instr h hview d isHybrid K layer hn hl (hsh _ hop)
    (hkeep _ _ hn (Nat.le_add_right _ _) (by omega))

end

/-! ### The whole run -/

section

open CgGraph

variable {V S : Type*}

/-- Slots read before they are written have buffers of their own. -/
theorem entry_apart {r : ModelRecipe} {g : CgGraph} (h : Built r g) (hview : g.NoViewRead)
    (d : MemDims) (isHybrid : Bool) {a b : Slot} (ha : g.EntrySlot a) (hb : g.EntrySlot b)
    (hrep : (MemPlan.build (some [g]) d isHybrid).rep a =
      (MemPlan.build (some [g]) d isHybrid).rep b) : a = b := by
  have hstored : ∀ s, g.EntrySlot s → ∃ r : CgRange, g.StoredRange s r ∧ r.start ≤ 0 ∧
      0 ≤ r.stop := by
    rintro s ⟨n, hn, v, hv, hprod, hslot⟩
    obtain ⟨t, ht⟩ := List.getElem?_of_mem hn
    have htouch : g.Touches t v := ⟨n, ht, List.mem_append_left _ hv⟩
    have hst : g.Stored s v := ⟨(h.ins t n ht v hv).1, hslot, hview n hn v hv, t, htouch⟩
    exact ⟨_, hst.storedRange, (range_of_touches htouch hst.lt).2.2.1 hprod, hst.range_stop⟩
  by_contra hne
  obtain ⟨ra, hsa, hla, hra⟩ := hstored a ha
  obtain ⟨rb, hsb, hlb, hrb⟩ := hstored b hb
  exact (MemPlan.rep_apart hne hrep List.mem_cons_self).1 _ _ hsa hsb ⟨by omega, by omega⟩

/-- Whatever the slots of an entry hold, shared buffers can hold it. -/
theorem exists_shared {r : ModelRecipe} {g : CgGraph} (h : Built r g) (hview : g.NoViewRead)
    (d : MemDims) (isHybrid : Bool) (mem : Slot → V) :
    ∃ shared : Slot → V, ∀ s, g.EntrySlot s →
      shared ((MemPlan.build (some [g]) d isHybrid).rep s) = mem s := by
  classical
  refine ⟨fun b => if hb : ∃ s, g.EntrySlot s ∧ (MemPlan.build (some [g]) d isHybrid).rep s = b
    then mem hb.choose else mem b, fun s hs => ?_⟩
  have hb : ∃ s', g.EntrySlot s' ∧ (MemPlan.build (some [g]) d isHybrid).rep s' =
      (MemPlan.build (some [g]) d isHybrid).rep s := ⟨s, hs, rfl⟩
  dsimp only
  rw [dif_pos hb, entry_apart h hview d isHybrid hb.choose_spec.1 hs hb.choose_spec.2]

/-- The live slots of a whole run with at least one layer. -/
theorem sound_program {r : ModelRecipe} {g : CgGraph} (h : Built r g) (hview : g.NoViewRead)
    (hsh : ∀ op ∈ r.preOps ++ r.layerOps ++ r.postOps, op.Shaped) (d : MemDims) (isHybrid : Bool)
    (K : Kernels V S) {nLayers : ℕ} (hlayers : 0 < nLayers) :
    ∃ L, SoundChain (MemPlan.build (some [g]) d isHybrid).rep (g.Live 0 0 0)
      (r.program K nLayers) L := by
  have htriv : ∀ v, (g.range v).stop + 1 ≥ 0 → g.Early 0 v → ((0 : ℕ) : ℤ) ≤ (g.range v).stop + 1 :=
    fun v hv _ => hv
  have hin : ∀ (t : ℕ) (n : CgNode), g.nodes[t]? = some n → ∀ v ∈ n.ins,
      (t : ℤ) ≤ (g.range v).stop := by
    intro t n hn v hv
    exact (range_of_touches ⟨n, hn, List.mem_append_left _ hv⟩ (h.ins t n hn v hv).1).2.1
  have hpre := sound_section h hview d isHybrid K none .pre r.preOps []
    (opsAt .layer r.layerOps ++ opsAt .post r.postOps) 0 0
    (by simp only [ModelRecipe.items, List.nil_append, List.append_assoc])
    (fun op hop => hsh op (by simp [hop])) fun t n hn _ _ v hv => htriv v (by
      have := hin t n hn v hv
      omega)
  have hlayer := fun li => sound_section h hview d isHybrid K (some li) .layer r.layerOps
    (opsAt .pre r.preOps) (opsAt .post r.postOps) g.layerBegin g.postBegin rfl (fun op hop => hsh op (by simp [hop]))
    fun t n hn hlo hhi v hv hearly => by
      rw [← h.layerBegin] at hlo hhi
      rw [← h.postBegin] at hhi
      have := (range_of_touches ⟨n, hn, List.mem_append_left _ hv⟩ (h.ins t n hn v hv).1).2.2.2
        hearly hlo hhi
      omega
  have hpost := sound_section h hview d isHybrid K none .post r.postOps
    (opsAt .pre r.preOps ++ opsAt .layer r.layerOps) [] 0 0
    (by simp only [ModelRecipe.items, List.append_nil])
    (fun op hop => hsh op (by simp [hop])) fun t n hn _ _ v hv => htriv v (by
      have := hin t n hn v hv
      omega)
  rw [← h.layerBegin, ← h.postBegin] at hlayer
  rw [List.length_append, ← h.layerBegin, ← h.postBegin] at hpost
  rw [List.length_nil, Nat.zero_add, ← h.layerBegin] at hpre
  have hle : g.layerBegin ≤ g.postBegin := h.postBegin ▸ Nat.le_add_right _ _
  -- the live set at the start of the section is that at its end, less what the section makes
  have hloop : g.Live g.layerBegin g.postBegin g.layerBegin ⊆
      g.Live g.layerBegin g.postBegin g.postBegin := by
    rintro a ⟨v, hs, hearly, hstop, hkeep⟩
    exact ⟨v, hs, fun p hp => lt_of_lt_of_le (hearly p hp) hle, hkeep hearly, hkeep⟩
  have henter : g.Live g.layerBegin g.postBegin g.layerBegin ⊆ g.Live 0 0 g.layerBegin := by
    rintro a ⟨v, hs, hearly, hstop, hkeep⟩
    exact ⟨v, hs, hearly, hstop, fun _ => by have := hs.range_stop; omega⟩
  have hleave : g.Live 0 0 g.postBegin ⊆ g.Live g.layerBegin g.postBegin g.postBegin := by
    rintro a ⟨v, hs, hearly, hstop, hkeep⟩
    exact ⟨v, hs, hearly, hstop, fun _ => hstop⟩
  obtain ⟨k, rfl⟩ : ∃ k, nLayers = k + 1 := ⟨nLayers - 1, by omega⟩
  have hloops := SoundChain.flatMap (List.range k) fun li _ => (hlayer li).shrink hloop
  have hall := (hpre.append ((hloops.append (hlayer k)).weaken henter)).append
    (hpost.weaken hleave)
  have hprog : r.program K (k + 1) = sectionInstrs K none r.preOps ++
      ((List.range k).flatMap (fun li => sectionInstrs K (some li) r.layerOps) ++
        sectionInstrs K (some k) r.layerOps) ++ sectionInstrs K none r.postOps := by
    rw [ModelRecipe.program, List.range_succ, List.flatMap_append, List.flatMap_singleton]
  rw [hprog]
  exact ⟨_, hall⟩

/-- The plan's shared buffers give every op what a buffer for every slot gives it. -/
theorem memPlan_run_eq (r : ModelRecipe)
    (hsh : ∀ op ∈ r.preOps ++ r.layerOps ++ r.postOps, op.Shaped)
    (hview : (graphBuild r).NoViewRead) (d : MemDims) (isHybrid : Bool) (K : Kernels V S)
    (nLayers : ℕ) (hlayers : 0 < nLayers) (env : S) (mem : Slot → V) :
    let p := MemPlan.build (some [graphBuild r]) d isHybrid
    (∃ shared : Slot → V, ∀ s, (graphBuild r).EntrySlot s → shared (p.rep s) = mem s) ∧
      ∀ shared : Slot → V, (∀ s, (graphBuild r).EntrySlot s → shared (p.rep s) = mem s) →
        cellTrace (p.bank env shared) (r.program K nLayers) =
          cellTrace (privateBank env mem) (r.program K nLayers) := by
  have h := graphBuild_built r
  intro p
  refine ⟨exists_shared h hview d isHybrid mem, fun shared hshared => ?_⟩
  obtain ⟨L, hchain⟩ := sound_program h hview hsh d isHybrid K hlayers
  have hinj : Function.Injective (id : Slot → Slot) := Function.injective_id
  have hown : (privateBank env mem).Respects (id : Slot → Slot) := fun c d hcd => hcd
  have hplan : (p.bank env shared).Respects p.rep := fun c d hcd => hcd
  refine (hchain.run hinj hplan hown ⟨rfl, fun c hc => hshared c ?_⟩).1
  obtain ⟨v, hs, hearly, -⟩ := hc
  obtain ⟨t, n, hn, hv⟩ := hs.touched
  have hnone : ((graphBuild r).value v).producer = none := by
    refine Option.eq_none_iff_forall_ne_some.mpr fun q hq => ?_
    exact absurd (hearly q hq) (by omega)
  rcases List.mem_append.mp hv with hv | hv
  · exact ⟨n, List.mem_of_getElem? hn, v, hv, hnone, hs.slot⟩
  · have hprod := (h.outs t n hn v hv).2
    rw [hnone] at hprod
    cases hprod

end

/-- Kernels over numbers: a matmul adds the index of its weight, the other kinds give seven. -/
def numKernels : Kernels ℕ Unit where
  dim := 8
  hasLayerOutputScale := false
  layerOutScale := fun _ => 1
  matmul := fun _ w _ _ x => x + w
  add := fun _ x y => x + y
  scale := fun _ x => x
  rmsnorm := fun _ _ _ x => x
  other := fun _ _ s _ => (s, fun _ => 7, fun _ => none)

def smallDims : MemDims := ⟨8, 8, 8, 8, 8, 16, 8, 0, 0, 0, 0, 0⟩

/-- The layer carries `X` over and reuses a buffer for the outputs of its matmuls. -/
def reuseRecipe : ModelRecipe where
  preOps := [mkEmbdLookup]
  layerOps := [mkMatmul .x .xb 5 8 8, mkAdd .x .xb, mkMatmul .x .xb2 6 8 8, mkAdd .x .xb2]
  postOps := [mkMatmul .x .logits 3 8 8]

theorem reuseRecipe_run_eq :
    (MemPlan.build (some [graphBuild reuseRecipe]) smallDims false).rep .xb =
      (MemPlan.build (some [graphBuild reuseRecipe]) smallDims false).rep .xb2 ∧
    cellTrace ((MemPlan.build (some [graphBuild reuseRecipe]) smallDims false).bank () fun _ => 0)
        (reuseRecipe.program numKernels 3) =
      cellTrace (privateBank () fun _ => 0) (reuseRecipe.program numKernels 3) :=
  ⟨by decide +kernel, (memPlan_run_eq reuseRecipe (by decide) (by decide +kernel) smallDims false
    numKernels 3 (by decide) () fun _ => 0).2 (fun _ => 0) fun _ _ => rfl⟩

/-- The layer reads `FFN_GATE` after it has stored to `FFN_GATE_UP`. -/
def viewReadRecipe : ModelRecipe where
  preOps := [mkEmbdLookup]
  layerOps := [mkMatmul .x .ffnGate widxGate 8 8, mkAdd .x .ffnGate, mkMatmul .x .ffnGateUp 13 16 8,
    mkAdd .x .ffnGate]
  postOps := []

/-- The post section reads a slot that the layer section writes. -/
def noLayerRecipe : ModelRecipe where
  preOps := [mkEmbdLookup, mkMatmul .x .xb 5 8 8, mkAdd .x .xb, mkMatmul .x .xb2 6 8 8]
  layerOps := [mkMatmul .x .xb 5 8 8]
  postOps := [mkAdd .x .xb]

/-- Without a layer the post section meets what the pre section left, and a view is not what its
slot holds. -/
theorem memPlan_run_ne :
    cellTrace ((MemPlan.build (some [graphBuild viewReadRecipe]) smallDims false).bank ()
        fun _ => 0) (viewReadRecipe.program numKernels 1) ≠
      cellTrace (privateBank () fun _ => 0) (viewReadRecipe.program numKernels 1) ∧
    cellTrace ((MemPlan.build (some [graphBuild noLayerRecipe]) smallDims false).bank ()
        fun _ => 0) (noLayerRecipe.program numKernels 0) ≠
      cellTrace (privateBank () fun _ => 0) (noLayerRecipe.program numKernels 0) := by
  decide +kernel

end Kappai
