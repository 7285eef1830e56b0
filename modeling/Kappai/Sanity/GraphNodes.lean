import Kappai.Sanity.GraphBuild

/-! The graph of a recipe: one node for every op that is lowered, in the order of the ops. -/

namespace Kappai

namespace CgGraph

variable {g : CgGraph}

/-- Nodes read no value that is a view of another. -/
def NoViewRead (g : CgGraph) : Prop := ∀ n ∈ g.nodes, ∀ v ∈ n.ins, (g.value v).viewOf = none

instance (g : CgGraph) : Decidable g.NoViewRead :=
  inferInstanceAs (Decidable (∀ n ∈ g.nodes, ∀ v ∈ n.ins, (g.value v).viewOf = none))

theorem Quiet.succ {lo t : ℕ} {s : Slot} (h : g.Quiet lo t s)
    (ht : ∀ (n : CgNode), g.nodes[t]? = some n → ∀ w ∈ n.outs, (g.value w).slot ≠ some s) :
    g.Quiet lo (t + 1) s := by
  intro k n hk hlo hlt w hw
  rcases Nat.lt_succ_iff_lt_or_eq.mp hlt with hlt | rfl
  · exact h k n hk hlo hlt w hw
  · exact ht n hk w hw

/-- A value reaches past a node that writes no value of its slot. -/
theorem Reaches.succ {v t : ℕ} {s : Slot} (h : g.Reaches v t) (hs : (g.value v).slot = some s)
    (ht : ∀ (n : CgNode), g.nodes[t]? = some n → ∀ w ∈ n.outs, (g.value w).slot ≠ some s) :
    g.Reaches v (t + 1) := by
  obtain ⟨s', hs', hp⟩ := h
  obtain rfl : s' = s := Option.some.inj (hs'.symm.trans hs)
  refine ⟨s', hs, ?_⟩
  cases hprod : (g.value v).producer with
  | none =>
    rw [hprod] at hp
    exact Quiet.succ hp ht
  | some p =>
    rw [hprod] at hp
    exact ⟨hp.1.trans (Nat.lt_succ_self t), hp.2.1, hp.2.2.succ ht⟩

end CgGraph

namespace CgBuild

open CgGraph

variable {b₀ b b' : CgBuild} {items : List OpAt} {pend ins outs : List ℕ} {lo : ℕ}

/-- The node is appended. -/
def addNode (b : CgBuild) (n : CgNode) : CgBuild :=
  { b with g := { b.g with nodes := b.g.nodes ++ [n] } }

@[simp] theorem addNode_value (b : CgBuild) (n : CgNode) (v : ℕ) :
    (b.addNode n).g.value v = b.g.value v := rfl

@[simp] theorem addNode_values (b : CgBuild) (n : CgNode) :
    (b.addNode n).g.values = b.g.values := rfl

@[simp] theorem addNode_cur (b : CgBuild) (n : CgNode) : (b.addNode n).cur = b.cur := rfl

theorem Wrote.oldAdd {written : List Slot} {id : ℕ} (hw : Wrote b₀ id b outs written)
    (n : CgNode) : Old b₀.g (b.addNode n).g := by
  refine ⟨hw.len, fun v hv => ?_⟩
  rw [addNode_value, hw.old v hv]
  exact ⟨rfl, rfl, rfl⟩

theorem Wrote.nodesAdd {written : List Slot} {id : ℕ} (hw : Wrote b₀ id b outs written)
    (n : CgNode) : (b.addNode n).g.nodes = b₀.g.nodes ++ [n] := by
  rw [addNode, hw.nodes]

/-- The node of an op, once its reads and its writes are lowered. -/
theorem Wrote.lowered {i : OpAt} {n : CgNode} (h : Inv b₀ items ins)
    (hs : ins.map (fun v => (b₀.g.value v).slot) = i.op.touchReads.map some)
    (hw : Wrote b₀ b₀.g.nodes.length b outs i.op.touchWrites)
    (hn : n = { kind := i.op.kind, sec := i.sec, recipeIndex := i.index, wIdx := i.op.wIdx,
                coalesceRunLen := i.op.coalesceRunLen, fuseNext := i.op.fuseNext, ins := ins,
                outs := outs, params := i.op.u }) :
    Lowered (b.addNode n).g i n := by
  subst hn
  refine ⟨rfl, rfl, rfl, rfl, rfl, rfl, rfl, ?_, hw.stored, hw.slots, hw.plain⟩
  rw [← hs]
  exact List.map_congr_left fun v hv => ((hw.oldAdd _).2 v (h.read v hv).1).2.1

theorem getElem?_snoc {l : List CgNode} {n m : CgNode} {t : ℕ} (h : (l ++ [n])[t]? = some m) :
    l[t]? = some m ∨ t = l.length ∧ m = n := by
  rcases Nat.lt_trichotomy t l.length with hlt | rfl | hgt
  · rw [List.getElem?_append_left hlt] at h
    exact Or.inl h
  · rw [List.getElem?_append_right le_rfl, Nat.sub_self] at h
    exact Or.inr ⟨rfl, (Option.some.inj h).symm⟩
  · rw [List.getElem?_eq_none (by simp; omega)] at h
    cases h

/-- What the new node leaves of the current values of the slots. -/
theorem Wrote.cur_cases {written : List Slot} {id : ℕ} (hw : Wrote b₀ id b outs written)
    {n : CgNode} (ho : n.outs = outs) (hid : id = b₀.g.nodes.length) (s : Slot) :
    (b.cur s = b₀.cur s ∧ ∀ (m : CgNode), (b.addNode n).g.nodes[b₀.g.nodes.length]? = some m →
      ∀ w ∈ m.outs, ((b.addNode n).g.value w).slot ≠ some s) ∨
    ∃ v, b.cur s = some v ∧ v < b.g.values.length ∧ ((b.addNode n).g.value v).slot = some s ∧
      ((b.addNode n).g.value v).producer = some b₀.g.nodes.length ∧
      (b.addNode n).g.Reaches v (b₀.g.nodes.length + 1) := by
  have hnew : (b.addNode n).g.nodes[b₀.g.nodes.length]? = some n := by
    rw [hw.nodesAdd, List.getElem?_append_right le_rfl, Nat.sub_self]
    rfl
  rcases hw.cur s with ⟨hcur, hno⟩ | ⟨v, hv, hcur, hslot⟩
  · refine Or.inl ⟨hcur, fun m hm w hmem => ?_⟩
    rw [hnew] at hm
    obtain rfl := Option.some.inj hm
    exact hno w (ho ▸ hmem)
  · have hprod := (hw.made v hv).1
    rw [hid] at hprod
    refine Or.inr ⟨v, hcur, ((hw.mem v).mp hv).2, hslot, hprod, s, hslot, ?_⟩
    rw [addNode_value, hprod]
    refine ⟨Nat.lt_succ_self _, ⟨n, hnew, ho ▸ hv⟩, fun k m _ hlo hlt => ?_⟩
    omega

theorem Inv.addNode {i : OpAt} {n : CgNode} (h : Inv b₀ items ins)
    (hs : ins.map (fun v => (b₀.g.value v).slot) = i.op.touchReads.map some)
    (hw : Wrote b₀ b₀.g.nodes.length b outs i.op.touchWrites)
    (hn : n = { kind := i.op.kind, sec := i.sec, recipeIndex := i.index, wIdx := i.op.wIdx,
                coalesceRunLen := i.op.coalesceRunLen, fuseNext := i.op.fuseNext, ins := ins,
                outs := outs, params := i.op.u }) :
    Inv (b.addNode n) (items ++ [i]) [] := by
  have ho := hw.oldAdd n
  have hnodes := hw.nodesAdd n
  have hpre : b₀.g.nodes <+: (b.addNode n).g.nodes := by
    rw [hnodes]
    exact List.prefix_append _ _
  have hins : n.ins = ins := by rw [hn]
  have houts : n.outs = outs := by rw [hn]
  have hlen : (b.addNode n).g.nodes.length = b₀.g.nodes.length + 1 := by
    rw [hnodes, List.length_append, List.length_singleton]
  refine ⟨?_, fun t m ht v hv => ?_, fun t m ht v hv => ?_, fun s v hv => ?_, fun s hv => ?_,
    fun v hv => (by cases hv), fun v hv => ?_⟩
  · rw [hnodes]
    refine List.rel_append ?_ (.cons (Wrote.lowered h hs hw hn) .nil)
    refine List.forall₂_iff_get.mpr ⟨h.lowered.length_eq, fun t ht ht' => ?_⟩
    exact (h.lowered.get ht ht').extend ho (h.bounded (List.get_mem _ _))
  · rw [hnodes] at ht
    rcases getElem?_snoc ht with ht | ⟨rfl, rfl⟩
    · obtain ⟨hlt, hr⟩ := h.ins t m ht v hv
      exact ⟨lt_of_lt_of_le hlt ho.1, hr.extend ho hpre h.outsIn hlt
        (List.getElem?_eq_some_iff.mp ht).1.le⟩
    · obtain ⟨hlt, hr⟩ := h.read v (hins ▸ hv)
      exact ⟨lt_of_lt_of_le hlt ho.1, hr.extend ho hpre h.outsIn hlt le_rfl⟩
  · rw [hnodes] at ht
    rcases getElem?_snoc ht with ht | ⟨rfl, rfl⟩
    · obtain ⟨hlt, hp⟩ := h.outs t m ht v hv
      exact ⟨lt_of_lt_of_le hlt ho.1, (ho.2 v hlt).1.trans hp⟩
    · rw [houts] at hv
      exact ⟨((hw.mem v).mp hv).2, (hw.made v hv).1⟩
  · rw [hlen]
    rcases hw.cur_cases houts rfl s with ⟨hcur, hno⟩ | ⟨w, hcur, hlt, hslot, -, hr⟩
    · rw [addNode_cur, hcur] at hv
      obtain ⟨hlt, hslot, hr⟩ := h.cur s v hv
      have hslot' := (ho.2 v hlt).2.1.trans hslot
      exact ⟨lt_of_lt_of_le hlt ho.1, hslot',
        (hr.extend ho hpre h.outsIn hlt le_rfl).succ hslot' hno⟩
    · rw [addNode_cur, hcur] at hv
      obtain rfl := Option.some.inj hv
      exact ⟨hlt, hslot, hr⟩
  · rw [hlen]
    rcases hw.cur_cases houts rfl s with ⟨hcur, hno⟩ | ⟨w, hcur, -⟩
    · rw [addNode_cur, hcur] at hv
      exact ((h.fresh s hv).extend ho hpre h.outsIn le_rfl).succ hno
    · rw [addNode_cur, hcur] at hv
      cases hv
  · rw [hnodes, usesIn_append, addNode_value]
    have hone : usesIn [n] v = ins.count v := by
      rw [usesIn, List.map_singleton, List.sum_singleton, hins]
    rw [hone, List.count_nil, Nat.add_zero]
    rcases Nat.lt_or_ge v b₀.g.values.length with hlt | hge
    · rw [hw.old v hlt]
      exact h.uses v hlt
    · have hmem := (hw.mem v).mpr ⟨hge, hv⟩
      have hno : usesIn b₀.g.nodes v = 0 := usesIn_eq_zero fun m hm hmem =>
        absurd (h.bounded hm v (List.mem_append_left _ hmem)) (by omega)
      have hpend : ins.count v = 0 := List.count_eq_zero.mpr fun hmem =>
        absurd (h.read v hmem).1 (by omega)
      rw [hno, hpend]
      exact (hw.made v hmem).2.1

theorem Tracked.addNode {i : OpAt} {n : CgNode} (h : Tracked b₀ lo ins) (hi : Inv b₀ items ins)
    (hw : Wrote b₀ b₀.g.nodes.length b outs i.op.touchWrites) (hins : n.ins = ins)
    (houts : n.outs = outs) (hlo : lo ≤ b₀.g.nodes.length) : Tracked (b.addNode n) lo [] := by
  intro hon
  have ho := hw.oldAdd n
  obtain ⟨htr, hen, hex⟩ := hw.track
  have hT := h (htr ▸ hon)
  refine ⟨fun s hs => ?_, fun s v hv hearly => ?_, fun t m ht hlot v hv hearly s hs => ?_,
    fun v hv => (by cases hv)⟩
  · change b.entry s = none
    rw [hen]
    rcases hw.cur_cases houts rfl s with ⟨hcur, -⟩ | ⟨w, hcur, -⟩
    · exact hT.entry s (hcur ▸ hs)
    · rw [addNode_cur, hcur] at hs
      cases hs
  · change b.entry s = some v
    rw [hen]
    rcases hw.cur_cases houts rfl s with ⟨hcur, -⟩ | ⟨w, hcur, -, -, hprod, -⟩
    · rw [addNode_cur, hcur] at hv
      exact hT.cur s v hv ((Early.extend ho (hi.cur s v hv).1).mp hearly)
    · rw [addNode_cur, hcur] at hv
      obtain rfl := Option.some.inj hv
      exact absurd (hearly _ hprod) (by omega)
  · change b.exposed s = true ∧ b.entry s = some v
    rw [hen, hex]
    rw [hw.nodesAdd] at ht
    rcases getElem?_snoc ht with ht | ⟨rfl, rfl⟩
    · have hlt := (hi.ins t m ht v hv).1
      rw [(ho.2 v hlt).2.1] at hs
      exact hT.ins t m ht hlot v hv ((Early.extend ho hlt).mp hearly) s hs
    · rw [hins] at hv
      have hlt := (hi.read v hv).1
      rw [(ho.2 v hlt).2.1] at hs
      exact hT.read v hv ((Early.extend ho hlt).mp hearly) s hs

/-! ### The ops of a section -/

/-- What the builder keeps between two ops. -/
structure Between (b : CgBuild) (items : List OpAt) (lo : ℕ) : Prop where
  inv : Inv b items []
  tracked : Tracked b lo []
  lo_le : lo ≤ b.g.nodes.length

/-- What lowering ops leaves as it is. -/
structure Onward (b b' : CgBuild) : Prop where
  nodes : b.g.nodes <+: b'.g.nodes
  layerBegin : b'.g.layerBegin = b.g.layerBegin
  postBegin : b'.g.postBegin = b.g.postBegin
  carry : b'.g.carry = b.g.carry
  tracking : b'.tracking = b.tracking
  old : Old b.g b'.g

theorem Onward.refl (b : CgBuild) : Onward b b :=
  ⟨List.prefix_refl _, rfl, rfl, rfl, rfl, Old.refl _⟩

theorem Onward.trans {b b' b'' : CgBuild} (h : Onward b b') (h' : Onward b' b'') :
    Onward b b'' :=
  ⟨h.nodes.trans h'.nodes, h'.layerBegin.trans h.layerBegin, h'.postBegin.trans h.postBegin,
    h'.carry.trans h.carry, h'.tracking.trans h.tracking, h.old.trans h'.old⟩

theorem Reading.lowerReads (slots : List Slot) :
    ∀ {b : CgBuild} {ins : List ℕ} {done : List Slot}, Reading b₀ items lo b ins done →
      let r := slots.foldl CgBuild.lowerRead (b, ins)
      Reading b₀ items lo r.1 r.2 (done ++ slots) := by
  induction slots with
  | nil =>
    intro b ins done h
    simpa only [List.append_nil, List.foldl_nil] using h
  | cons s slots ih =>
    intro b ins done h
    rw [List.append_cons]
    exact ih (h.lowerRead s)

theorem Between.lowerOp (h : Between b items lo) (op : RecipeOp) (sec : CgSection) (k : ℕ) :
    Between (b.lowerOp op sec k) (items ++ [⟨sec, k, op⟩]) lo ∧ Onward b (b.lowerOp op sec k) := by
  have hstart : Reading b items lo b [] [] := ⟨h.inv, h.tracked, Frame.refl b, rfl⟩
  have hread := Reading.lowerReads op.touchReads hstart
  have hw := Wrote.lowerWrites op.touchReads (op.touchReads.foldl CgBuild.lowerRead (b, [])).2
    op.touchWrites _ [] [] (Wrote.refl (op.touchReads.foldl CgBuild.lowerRead (b, [])).1
      b.g.nodes.length)
  generalize hr : op.touchReads.foldl CgBuild.lowerRead (b, []) = r at hread hw
  generalize hq : op.touchWrites.foldl
    (CgBuild.lowerWrite b.g.nodes.length op.touchReads r.2) (r.1, []) = q at hw
  obtain ⟨b₁, ins⟩ := r
  obtain ⟨b₂, outs⟩ := q
  dsimp only at hread hw
  rw [List.nil_append] at hread hw
  obtain ⟨hinv, htr, hf, hslots⟩ := hread
  have heq : b.lowerOp op sec k = b₂.addNode
      { kind := op.kind, sec := sec, recipeIndex := k, wIdx := op.wIdx,
        coalesceRunLen := op.coalesceRunLen, fuseNext := op.fuseNext, ins := ins, outs := outs,
        params := op.u } := by
    unfold CgBuild.lowerOp CgBuild.addNode
    dsimp only
    rw [hr]
    dsimp only
    rw [hq]
  rw [← hf.nodes] at hw
  have hnodes := hw.nodesAdd
  have hlo : lo ≤ b₁.g.nodes.length := by
    rw [hf.nodes]
    exact h.lo_le
  rw [heq]
  refine ⟨⟨Inv.addNode (i := ⟨sec, k, op⟩) hinv hslots hw rfl,
    Tracked.addNode (i := ⟨sec, k, op⟩) htr hinv hw rfl rfl hlo, ?_⟩,
    ⟨?_, hw.layerBegin.trans hf.layerBegin, hw.postBegin.trans hf.postBegin,
      hw.carry.trans hf.carry, hw.track.1.trans hf.tracking, hf.old.trans (hw.oldAdd _)⟩⟩
  · rw [hnodes, List.length_append]
    exact hlo.trans (Nat.le_add_right _ _)
  · rw [hnodes, hf.nodes]
    exact List.prefix_append _ _

theorem Between.lowerOps (ops : List RecipeOp) (sec : CgSection) (h : Between b items lo) :
    Between (b.lowerOps ops sec) (items ++ opsAt sec ops) lo ∧ Onward b (b.lowerOps ops sec) := by
  have hgen : ∀ (l : List (RecipeOp × ℕ)) (b : CgBuild) (items : List OpAt),
      Between b items lo →
      let b' := l.foldl
        (fun b p => if p.1.kind = .none then b else CgBuild.lowerOp b p.1 sec p.2) b
      Between b' (items ++ (l.filter fun p => p.1.kind ≠ .none).map fun p => ⟨sec, p.2, p.1⟩) lo ∧
        Onward b b' := by
    intro l
    induction l with
    | nil =>
      intro b items h
      simp only [List.foldl_nil, List.filter_nil, List.map_nil, List.append_nil]
      exact ⟨h, .refl b⟩
    | cons p l ih =>
      intro b items h
      by_cases hk : p.1.kind = .none
      · simp only [List.foldl_cons, hk, if_true]
        rw [List.filter_cons_of_neg (by simp [hk])]
        exact ih b items h
      · simp only [List.foldl_cons, hk, if_false]
        rw [List.filter_cons_of_pos (by simp [hk]), List.map_cons, List.append_cons]
        obtain ⟨hstep, hon⟩ := h.lowerOp p.1 sec p.2
        obtain ⟨hrest, hon'⟩ := ih _ _ hstep
        exact ⟨hrest, hon.trans hon'⟩
  exact hgen ops.zipIdx b items h

/-! ### The carries -/

/-- The builder has gained carries and marks only. -/
structure Marked (b b' : CgBuild) : Prop where
  nodes : b'.g.nodes = b.g.nodes
  layerBegin : b'.g.layerBegin = b.g.layerBegin
  cur : b'.cur = b.cur
  entry : b'.entry = b.entry
  exposed : b'.exposed = b.exposed
  tracking : b'.tracking = b.tracking
  len : b'.g.values.length = b.g.values.length
  value : ∀ v < b.g.values.length, b'.g.value v = b.g.value v ∨
    b'.g.value v = { b.g.value v with loopCarried := true }
  carry : b.g.carry <+: b'.g.carry

theorem Marked.refl (b : CgBuild) : Marked b b :=
  ⟨rfl, rfl, rfl, rfl, rfl, rfl, rfl, fun _ _ => Or.inl rfl, List.prefix_refl _⟩

theorem Marked.trans {b b' b'' : CgBuild} (h : Marked b b') (h' : Marked b' b'') :
    Marked b b'' := by
  refine ⟨h'.nodes.trans h.nodes, h'.layerBegin.trans h.layerBegin, h'.cur.trans h.cur,
    h'.entry.trans h.entry, h'.exposed.trans h.exposed, h'.tracking.trans h.tracking,
    h'.len.trans h.len, fun v hv => ?_, h.carry.trans h'.carry⟩
  rcases h.value v hv with hval | hval <;> rcases h'.value v (h.len ▸ hv) with hval' | hval' <;>
    rw [hval] at hval'
  · exact Or.inl hval'
  · exact Or.inr hval'
  · exact Or.inr hval'
  · exact Or.inr hval'

theorem Marked.old (h : Marked b b') : Old b.g b'.g := by
  refine ⟨h.len.ge, fun v hv => ?_⟩
  rcases h.value v hv with hval | hval
  · rw [hval]
    exact ⟨rfl, rfl, rfl⟩
  · rw [hval]
    exact ⟨rfl, rfl, rfl⟩

theorem Marked.inv (hm : Marked b b') (h : Inv b items []) : Inv b' items [] := by
  obtain ⟨hlow, hins, houts⟩ := h.keep hm.old hm.nodes
  have hpre : b.g.nodes <+: b'.g.nodes := by rw [hm.nodes]
  refine ⟨hlow, hins, houts, fun s v hv => ?_, fun s hs => ?_, fun v hv => (by cases hv),
    fun v hv => ?_⟩
  · obtain ⟨hlt, hslot, hr⟩ := h.cur s v (hm.cur ▸ hv)
    exact ⟨hm.len ▸ hlt, (hm.old.2 v hlt).2.1.trans hslot,
      (h.reaches_keep hm.old hm.nodes hlt hr).2⟩
  · rw [hm.nodes]
    exact (h.fresh s (hm.cur ▸ hs)).extend hm.old hpre h.outsIn le_rfl
  · have hlt : v < b.g.values.length := hm.len ▸ hv
    rw [hm.nodes, ← h.uses v hlt]
    rcases hm.value v hlt with hval | hval
    · rw [hval]
    · rw [hval]

theorem collectCarry_marked (b : CgBuild) (s : Slot) : Marked b (b.collectCarry s) := by
  unfold collectCarry
  split
  · split_ifs
    · exact .refl b
    · rename_i i o _ _ _
      refine ⟨rfl, rfl, rfl, rfl, rfl, rfl, length_modifyValue _ _ _, fun v hv => ?_,
        List.prefix_append _ _⟩
      change (b.g.modifyValue i _).value v = _ ∨ (b.g.modifyValue i _).value v = _
      rw [value_modifyValue b.g i v _ hv]
      split_ifs
      · exact Or.inr rfl
      · exact Or.inl rfl
  · exact .refl b

/-- A value that was exposed and is no longer current has its carry. -/
theorem mem_collectCarry {s : Slot} {i o : ℕ} (hi : b.entry s = some i) (ho : b.cur s = some o)
    (hex : b.exposed s = true) (hne : i ≠ o) : ⟨s, i, o⟩ ∈ (b.collectCarry s).g.carry := by
  unfold collectCarry
  rw [hi, ho]
  dsimp only
  rw [if_neg (by simp [hex, hne])]
  exact List.mem_append_right _ List.mem_cons_self

theorem collectCarries_marked (b : CgBuild) : Marked b b.collectCarries :=
  foldl_climbs Marked.refl Marked.trans collectCarry_marked _ b

theorem mem_collectCarries {s : Slot} {i o : ℕ} (hi : b.entry s = some i) (ho : b.cur s = some o)
    (hex : b.exposed s = true) (hne : i ≠ o) : ⟨s, i, o⟩ ∈ b.collectCarries.g.carry := by
  obtain ⟨l₁, l₂, hl⟩ := List.append_of_mem (List.mem_finRange s)
  have h₁ := foldl_climbs Marked.refl Marked.trans collectCarry_marked l₁ b
  have h₂ := foldl_climbs Marked.refl Marked.trans collectCarry_marked l₂
    ((l₁.foldl collectCarry b).collectCarry s)
  unfold collectCarries
  rw [Slot.all, hl, List.foldl_append, List.foldl_cons]
  refine h₂.carry.subset ?_
  exact mem_collectCarry (h₁.entry ▸ hi) (h₁.cur ▸ ho) (h₁.exposed ▸ hex) hne

/-! ### The three sections -/

theorem between_init : Between init [] 0 where
  inv := ⟨.nil, fun t n ht => (by cases ht), fun t n ht => (by cases ht), fun s v hv => (by cases hv),
    fun s _ k n hk => (by cases hk), fun v hv => (by cases hv), fun v hv => (by cases hv)⟩
  tracked := fun hon => (by cases hon)
  lo_le := le_rfl

theorem between_afterPre (r : ModelRecipe) :
    Between (afterPre r) (opsAt .pre r.preOps) (afterPre r).g.layerBegin ∧
      (afterPre r).g.layerBegin = (afterPre r).g.nodes.length := by
  obtain ⟨hb, -⟩ := between_init.lowerOps r.preOps .pre
  rw [List.nil_append] at hb
  have hinv : Inv (afterPre r) (opsAt .pre r.preOps) [] := hb.inv.congr rfl rfl rfl
  refine ⟨⟨hinv, fun _ => ?_, le_rfl⟩, rfl⟩
  refine ⟨fun s hs => hs, fun s v hv _ => hv, fun t n ht hlo => ?_, fun v hv => (by cases hv)⟩
  have hlt := (List.getElem?_eq_some_iff.mp ht).1
  exact absurd hlo (not_le.mpr hlt)

/-- The layer section, and what it reads from before it. -/
structure LayerDone (r : ModelRecipe) (b : CgBuild) : Prop where
  inv : Inv b (opsAt .pre r.preOps ++ opsAt .layer r.layerOps) []
  off : b.tracking = false
  layerBegin : b.g.layerBegin = (opsAt .pre r.preOps).length
  postBegin : b.g.postBegin = b.g.nodes.length
  carried : ∀ (t : ℕ) (n : CgNode), b.g.nodes[t]? = some n → b.g.layerBegin ≤ t → ∀ v ∈ n.ins,
    b.g.Early b.g.layerBegin v → ∃ s o, (b.g.value v).slot = some s ∧ b.cur s = some o ∧
      (v = o ∨ ⟨s, v, o⟩ ∈ b.g.carry)

theorem afterLayer_done (r : ModelRecipe) : LayerDone r (afterLayer r) := by
  obtain ⟨hpre, hlen⟩ := between_afterPre r
  obtain ⟨hb, hon⟩ := hpre.lowerOps r.layerOps .layer
  generalize hlb : (afterPre r).lowerOps r.layerOps .layer = b at hb hon
  have hT : Tracks b (afterPre r).g.layerBegin [] := hb.tracked (hon.tracking.trans rfl)
  have hm := collectCarries_marked { b with tracking := false }
  have hoff : Inv { b with tracking := false } (opsAt .pre r.preOps ++ opsAt .layer r.layerOps)
      [] := hb.inv.congr rfl rfl rfl
  have hinv := hm.inv hoff
  have heq : afterLayer r =
      { { b with tracking := false }.collectCarries with
        g := { { b with tracking := false }.collectCarries.g with
          postBegin := { b with tracking := false }.collectCarries.g.nodes.length } } := by
    rw [← hlb]
    rfl
  have hbegin : b.g.layerBegin = (afterPre r).g.layerBegin := hon.layerBegin
  rw [heq]
  refine ⟨hinv.congr rfl rfl rfl, hm.tracking, ?_, rfl, fun t n ht hlo v hv hearly => ?_⟩
  · have hlow := hpre.inv.lowered.length_eq
    change { b with tracking := false }.collectCarries.g.layerBegin = _
    rw [hm.layerBegin]
    exact hbegin.trans (hlen.trans hlow.symm)
  · change { b with tracking := false }.collectCarries.g.nodes[t]? = some n at ht
    change { b with tracking := false }.collectCarries.g.layerBegin ≤ t at hlo
    change { b with tracking := false }.collectCarries.g.Early
      { b with tracking := false }.collectCarries.g.layerBegin v at hearly
    change ∃ s o, ({ b with tracking := false }.collectCarries.g.value v).slot = some s ∧
      { b with tracking := false }.collectCarries.cur s = some o ∧
        (v = o ∨ ⟨s, v, o⟩ ∈ { b with tracking := false }.collectCarries.g.carry)
    rw [hm.nodes] at ht
    rw [hm.layerBegin] at hlo hearly
    have hlt := (hb.inv.ins t n ht v hv).1
    obtain ⟨s, hs, -⟩ := (hb.inv.ins t n ht v hv).2
    have hearly' := (Early.extend hm.old hlt).mp hearly
    obtain ⟨hex, hen⟩ := hT.ins t n ht (hbegin ▸ hlo) v hv (hbegin ▸ hearly') s hs
    refine ⟨s, ?_⟩
    cases ho : b.cur s with
    | none =>
      rw [hT.entry s ho] at hen
      cases hen
    | some o =>
      refine ⟨o, (hm.old.2 v hlt).2.1.trans hs, by rw [hm.cur]; exact ho, ?_⟩
      by_cases hvo : v = o
      · exact Or.inl hvo
      · exact Or.inr (mem_collectCarries hen ho hex hvo)

end CgBuild

/-- The ops of a recipe that are lowered. -/
def ModelRecipe.items (r : ModelRecipe) : List OpAt :=
  opsAt .pre r.preOps ++ opsAt .layer r.layerOps ++ opsAt .post r.postOps

open CgGraph in
/-- What the graph of a recipe is. -/
structure Built (r : ModelRecipe) (g : CgGraph) : Prop where
  layerBegin : g.layerBegin = (opsAt .pre r.preOps).length
  postBegin : g.postBegin = g.layerBegin + (opsAt .layer r.layerOps).length
  lowered : List.Forall₂ (Lowered g) r.items g.nodes
  ins : ∀ (t : ℕ) (n : CgNode), g.nodes[t]? = some n → ∀ v ∈ n.ins,
    v < g.values.length ∧ g.Reaches v t
  outs : ∀ (t : ℕ) (n : CgNode), g.nodes[t]? = some n → ∀ v ∈ n.outs,
    v < g.values.length ∧ (g.value v).producer = some t
  uses : ∀ v < g.values.length, (g.value v).nUses = usesIn g.nodes v
  carried : ∀ (t : ℕ) (n : CgNode), g.nodes[t]? = some n → g.layerBegin ≤ t → t < g.postBegin →
    ∀ v ∈ n.ins, g.Early g.layerBegin v → ∃ s o, (g.value v).slot = some s ∧
      (g.value o).slot = some s ∧ g.Reaches o g.postBegin ∧ (v = o ∨ ⟨s, v, o⟩ ∈ g.carry)

open CgGraph in
theorem graphBuild_built (r : ModelRecipe) : Built r (graphBuild r) := by
  have hd := CgBuild.afterLayer_done r
  have hbet : CgBuild.Between (CgBuild.afterLayer r)
      (opsAt .pre r.preOps ++ opsAt .layer r.layerOps) 0 :=
    ⟨hd.inv, fun hon => absurd (hd.off.symm.trans hon) (by simp), Nat.zero_le _⟩
  obtain ⟨hb, hon⟩ := hbet.lowerOps r.postOps .post
  have hlayer : (CgBuild.afterLayer r).g.nodes.length =
      (opsAt .pre r.preOps).length + (opsAt .layer r.layerOps).length := by
    rw [← hd.inv.lowered.length_eq, List.length_append]
  have hpost : (graphBuild r).postBegin = (CgBuild.afterLayer r).g.nodes.length :=
    hon.postBegin.trans hd.postBegin
  refine ⟨hon.layerBegin.trans hd.layerBegin, ?_, hb.inv.lowered, hb.inv.ins, hb.inv.outs,
    fun v hv => hb.inv.uses v hv, fun t n ht hlo hhi v hv hearly => ?_⟩
  · rw [hpost, hlayer]
    exact congrArg (· + _) (hon.layerBegin.trans hd.layerBegin).symm
  · have hhi' : t < (CgBuild.afterLayer r).g.nodes.length := hpost ▸ hhi
    have ht' : (CgBuild.afterLayer r).g.nodes[t]? = some n := by
      rw [← ht]
      exact (getElem?_of_isPrefix hon.nodes hhi').symm
    have hbegin : (graphBuild r).layerBegin = (CgBuild.afterLayer r).g.layerBegin :=
      hon.layerBegin
    have hlt := (hd.inv.ins t n ht' v hv).1
    rw [hbegin] at hlo hearly
    obtain ⟨s, o, hs, ho, hcarry⟩ := hd.carried t n ht' hlo v hv
      ((Early.extend hon.old hlt).mp hearly)
    obtain ⟨holt, hos, hor⟩ := hd.inv.cur s o ho
    refine ⟨s, o, (hon.old.2 v hlt).2.1.trans hs, (hon.old.2 o holt).2.1.trans hos, ?_, ?_⟩
    · rw [hpost]
      exact hor.extend hon.old hon.nodes hd.inv.outsIn holt le_rfl
    · exact hcarry.imp id fun h => by
        rw [← hon.carry] at h
        exact h

end Kappai
