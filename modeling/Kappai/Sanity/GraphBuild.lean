import Kappai.Lib.Loop
import Kappai.Spec.Graph
import Mathlib.Data.List.Basic
import Mathlib.Tactic.Common

/-! What the builder makes of an op list: every node touches the slots of its op, and every value a
node reads is the last one written to its slot. -/

namespace Kappai

/-- An op that is lowered, with its place in its section. -/
structure OpAt where
  sec : CgSection
  index : ℕ
  op : RecipeOp

/-- The ops of a section that are lowered. -/
def opsAt (sec : CgSection) (ops : List RecipeOp) : List OpAt :=
  (ops.zipIdx.filter fun p => p.1.kind ≠ .none).map fun p => ⟨sec, p.2, p.1⟩

namespace CgGraph

variable {g : CgGraph}

theorem value_append (vs : List CgValue) (val : CgValue) (v : ℕ) :
    { g with values := vs ++ [val] }.value v =
      if v = vs.length then val else vs.getD v .zero := by
  unfold value
  rcases Nat.lt_trichotomy v vs.length with hlt | heq | hgt
  · rw [if_neg hlt.ne, List.getD_eq_getElem?_getD, List.getElem?_append_left hlt,
      ← List.getD_eq_getElem?_getD]
  · subst heq
    simp
  · rw [if_neg hgt.ne']
    simp only [List.getD_eq_getElem?_getD]
    rw [List.getElem?_eq_none (by simp; omega), List.getElem?_eq_none hgt.le]

theorem value_modifyValue (g : CgGraph) (u v : ℕ) (f : CgValue → CgValue)
    (hv : v < g.values.length) :
    (g.modifyValue u f).value v = if u = v then f (g.value v) else g.value v := by
  simp only [modifyValue, value, List.getD_eq_getElem?_getD, List.getElem?_modify]
  rw [List.getElem?_eq_getElem hv]
  split_ifs
  · rfl
  · rfl

@[simp] theorem length_modifyValue (g : CgGraph) (u : ℕ) (f : CgValue → CgValue) :
    (g.modifyValue u f).values.length = g.values.length := List.length_modify ..

/-- The node of an op. -/
structure Lowered (g : CgGraph) (i : OpAt) (n : CgNode) : Prop where
  kind : n.kind = i.op.kind
  sec : n.sec = i.sec
  recipeIndex : n.recipeIndex = i.index
  wIdx : n.wIdx = i.op.wIdx
  coalesceRunLen : n.coalesceRunLen = i.op.coalesceRunLen
  fuseNext : n.fuseNext = i.op.fuseNext
  params : n.params = i.op.u
  ins : n.ins.map (fun v => (g.value v).slot) = i.op.touchReads.map some
  stored : ∀ s ∈ i.op.touchWrites,
    ∃ v ∈ n.outs, (g.value v).slot = some s ∧ (g.value v).viewOf = none
  slots : ∀ v ∈ n.outs, (g.value v).viewOf = none → ∃ s ∈ i.op.touchWrites,
    (g.value v).slot = some s
  plain : Slot.ffnGateUp ∉ i.op.touchWrites →
    n.outs.map (fun v => (g.value v).slot) = i.op.touchWrites.map some ∧
      ∀ v ∈ n.outs, (g.value v).viewOf = none

/-- What a value keeps while the graph is built. -/
def Old (g g' : CgGraph) : Prop :=
  g.values.length ≤ g'.values.length ∧ ∀ v < g.values.length,
    (g'.value v).producer = (g.value v).producer ∧ (g'.value v).slot = (g.value v).slot ∧
      (g'.value v).viewOf = (g.value v).viewOf

theorem Old.refl (g : CgGraph) : Old g g := ⟨le_rfl, fun _ _ => ⟨rfl, rfl, rfl⟩⟩

theorem Old.trans {g g' g'' : CgGraph} (h : Old g g') (h' : Old g' g'') : Old g g'' := by
  refine ⟨h.1.trans h'.1, fun v hv => ?_⟩
  obtain ⟨h1, h2, h3⟩ := h.2 v hv
  obtain ⟨h1', h2', h3'⟩ := h'.2 v (lt_of_lt_of_le hv h.1)
  exact ⟨h1'.trans h1, h2'.trans h2, h3'.trans h3⟩

end CgGraph

namespace CgBuild

open CgGraph

/-- A new value of a slot, which becomes the current one. -/
def push (b : CgBuild) (val : CgValue) (s : Slot) : CgBuild :=
  ({ b with g := { b.g with values := b.g.values ++ [val] } }).setCur s b.g.values.length

theorem modify_append_length (vs : List CgValue) (val : CgValue) (f : CgValue → CgValue) :
    (vs ++ [val]).modify vs.length f = vs ++ [f val] := by
  induction vs with
  | nil => rfl
  | cons x vs ih => exact congrArg (x :: ·) ih

theorem addSlotView_eq (id parent : ℕ) (b : CgBuild) (outs : List ℕ) (s : Slot) :
    addSlotView id parent (b, outs) s =
      if outs.length < opTouchMax then
        (b.push { CgValue.zero with producer := some id, slot := some s, viewOf := some parent } s,
          outs ++ [b.g.values.length])
      else (b, outs) := by
  unfold addSlotView
  split_ifs
  · simp only [newValue, modifyValue, modify_append_length, push]
  · rfl

theorem lowerWrite_eq (id : ℕ) (reads : List Slot) (ins : List ℕ) (b : CgBuild) (outs : List ℕ)
    (s : Slot) :
    ∃ val : CgValue, val.producer = some id ∧ val.slot = some s ∧ val.viewOf = none ∧
      val.nUses = 0 ∧
      lowerWrite id reads ins (b, outs) s =
        (slotViews s).foldl (addSlotView id b.g.values.length)
          (b.push val s, outs ++ [b.g.values.length]) := by
  unfold lowerWrite
  cases hr : reads.idxOf? s with
  | none =>
    exact ⟨{ CgValue.zero with producer := some id, slot := some s }, rfl, rfl, rfl, rfl, by
      simp only [newValue, push]⟩
  | some r =>
    exact ⟨{ CgValue.zero with producer := some id, slot := some s, aliasOf := ins[r]? },
      rfl, rfl, rfl, rfl, by simp only [newValue, modifyValue, modify_append_length, push]⟩

/-! ### The writes of a node -/

/-- What the writes of node `id` made of the builder. -/
structure Wrote (b₀ : CgBuild) (id : ℕ) (b : CgBuild) (outs : List ℕ) (written : List Slot) :
    Prop where
  nodes : b.g.nodes = b₀.g.nodes
  layerBegin : b.g.layerBegin = b₀.g.layerBegin
  postBegin : b.g.postBegin = b₀.g.postBegin
  carry : b.g.carry = b₀.g.carry
  track : b.tracking = b₀.tracking ∧ b.entry = b₀.entry ∧ b.exposed = b₀.exposed
  len : b₀.g.values.length ≤ b.g.values.length
  old : ∀ v < b₀.g.values.length, b.g.value v = b₀.g.value v
  mem : ∀ v, v ∈ outs ↔ b₀.g.values.length ≤ v ∧ v < b.g.values.length
  made : ∀ v ∈ outs, (b.g.value v).producer = some id ∧ (b.g.value v).nUses = 0 ∧
    (b.g.value v).slot ≠ none
  cur : ∀ s, (b.cur s = b₀.cur s ∧ ∀ v ∈ outs, (b.g.value v).slot ≠ some s) ∨
    ∃ v ∈ outs, b.cur s = some v ∧ (b.g.value v).slot = some s
  stored : ∀ s ∈ written, ∃ v ∈ outs, (b.g.value v).slot = some s ∧ (b.g.value v).viewOf = none
  slots : ∀ v ∈ outs, (b.g.value v).viewOf = none → ∃ s ∈ written, (b.g.value v).slot = some s
  plain : Slot.ffnGateUp ∉ written →
    outs.map (fun v => (b.g.value v).slot) = written.map some ∧
      ∀ v ∈ outs, (b.g.value v).viewOf = none

theorem Wrote.refl (b : CgBuild) (id : ℕ) : Wrote b id b [] [] where
  nodes := rfl
  layerBegin := rfl
  postBegin := rfl
  carry := rfl
  track := ⟨rfl, rfl, rfl⟩
  len := le_rfl
  old := fun _ _ => rfl
  mem := fun v => ⟨fun h => (by cases h), fun h => (by omega)⟩
  made := fun _ h => (by cases h)
  cur := fun _ => Or.inl ⟨rfl, fun _ h => (by cases h)⟩
  stored := fun _ h => (by cases h)
  slots := fun _ h => (by cases h)
  plain := fun _ => ⟨rfl, fun _ h => (by cases h)⟩

@[simp] theorem push_nodes (b : CgBuild) (val : CgValue) (s : Slot) :
    (b.push val s).g.nodes = b.g.nodes := rfl

@[simp] theorem push_length (b : CgBuild) (val : CgValue) (s : Slot) :
    (b.push val s).g.values.length = b.g.values.length + 1 := by
  simp [push, setCur]

theorem push_value (b : CgBuild) (val : CgValue) (s : Slot) (v : ℕ) :
    (b.push val s).g.value v = if v = b.g.values.length then val else b.g.value v :=
  value_append (g := b.g) b.g.values val v

theorem push_cur (b : CgBuild) (val : CgValue) (s s' : Slot) :
    (b.push val s).cur s' = if s' = s then some b.g.values.length else b.cur s' :=
  Function.update_apply ..

/-- One more value of the node. A view adds nothing to the slots written and goes with
`FFN_GATE_UP` only. -/
theorem Wrote.push {b₀ b : CgBuild} {id : ℕ} {outs : List ℕ} {written written' : List Slot}
    (h : Wrote b₀ id b outs written) {val : CgValue} {s : Slot} (hp : val.producer = some id)
    (hu : val.nUses = 0) (hs : val.slot = some s)
    (hw : val.viewOf = none ∧ written' = written ++ [s] ∨
      val.viewOf ≠ none ∧ written' = written ∧ Slot.ffnGateUp ∈ written) :
    Wrote b₀ id (b.push val s) (outs ++ [b.g.values.length]) written' := by
  have hlt : ∀ v ∈ outs, v ≠ b.g.values.length := fun v hv => ((h.mem v).mp hv).2.ne
  have hval : ∀ v ∈ outs, (b.push val s).g.value v = b.g.value v := fun v hv => by
    rw [push_value, if_neg (hlt v hv)]
  have hnew : (b.push val s).g.value b.g.values.length = val := by rw [push_value, if_pos rfl]
  have hsub : ∀ t ∈ written, t ∈ written' := by
    intro t ht
    rcases hw with ⟨-, rfl⟩ | ⟨-, rfl, -⟩
    · exact List.mem_append_left _ ht
    · exact ht
  refine ⟨h.nodes, h.layerBegin, h.postBegin, h.carry, h.track, ?_, fun v hv => ?_, fun v => ?_,
    fun v hv => ?_, fun t => ?_, fun t ht => ?_, fun v hv hview => ?_, fun hgu => ?_⟩
  · rw [push_length]
    exact h.len.trans (Nat.le_succ _)
  · rw [push_value, if_neg (lt_of_lt_of_le hv h.len).ne, h.old v hv]
  · rw [List.mem_append, List.mem_singleton, h.mem v, push_length]
    have := h.len
    omega
  · rcases List.mem_append.mp hv with hv | hv
    · rw [hval v hv]
      exact h.made v hv
    · rw [List.mem_singleton.mp hv, hnew]
      exact ⟨hp, hu, by rw [hs]; exact Option.some_ne_none _⟩
  · rcases eq_or_ne t s with rfl | hne
    · refine Or.inr ⟨_, List.mem_append_right _ List.mem_cons_self, ?_, ?_⟩
      · rw [push_cur, if_pos rfl]
      · rw [hnew, hs]
    · rw [push_cur, if_neg hne]
      rcases h.cur t with ⟨hcur, hno⟩ | ⟨v, hv, hcur, hslot⟩
      · refine Or.inl ⟨hcur, fun v hv => ?_⟩
        rcases List.mem_append.mp hv with hv | hv
        · rw [hval v hv]
          exact hno v hv
        · rw [List.mem_singleton.mp hv, hnew, hs]
          exact fun heq => hne (Option.some.inj heq).symm
      · exact Or.inr ⟨v, List.mem_append_left _ hv, hcur, by rw [hval v hv, hslot]⟩
  · have hold : t ∈ written → ∃ v ∈ outs ++ [b.g.values.length],
        ((b.push val s).g.value v).slot = some t ∧
          ((b.push val s).g.value v).viewOf = none := by
      intro ht
      obtain ⟨v, hv, hslot, hview⟩ := h.stored t ht
      exact ⟨v, List.mem_append_left _ hv, by rw [hval v hv, hslot], by rw [hval v hv, hview]⟩
    rcases hw with ⟨hview, rfl⟩ | ⟨-, rfl, -⟩
    · rcases List.mem_append.mp ht with ht | ht
      · exact hold ht
      · obtain rfl := List.mem_singleton.mp ht
        exact ⟨_, List.mem_append_right _ List.mem_cons_self, by rw [hnew, hs],
          by rw [hnew, hview]⟩
    · exact hold ht
  · rcases List.mem_append.mp hv with hv | hv
    · rw [hval v hv] at hview ⊢
      obtain ⟨t, ht, hslot⟩ := h.slots v hv hview
      exact ⟨t, hsub t ht, hslot⟩
    · rw [List.mem_singleton.mp hv, hnew] at hview ⊢
      rcases hw with ⟨-, rfl⟩ | ⟨hne, -⟩
      · exact ⟨s, List.mem_append_right _ List.mem_cons_self, hs⟩
      · exact absurd hview hne
  · rcases hw with ⟨hview, rfl⟩ | ⟨-, rfl, hmem⟩
    · obtain ⟨hmap, hviews⟩ := h.plain fun hmem => hgu (List.mem_append_left _ hmem)
      refine ⟨?_, fun v hv => ?_⟩
      · rw [List.map_append, List.map_append, List.map_cons, List.map_nil, hnew, hs, ← hmap]
        exact congrArg (· ++ _) (List.map_congr_left fun v hv => by rw [hval v hv])
      · rcases List.mem_append.mp hv with hv | hv
        · rw [hval v hv]
          exact hviews v hv
        · rw [List.mem_singleton.mp hv, hnew, hview]
    · exact absurd hmem hgu

theorem Wrote.views {b₀ : CgBuild} {id : ℕ} {written : List Slot} (parent : ℕ)
    (hgu : Slot.ffnGateUp ∈ written) (views : List Slot) :
    ∀ (b : CgBuild) (outs : List ℕ), Wrote b₀ id b outs written →
      let r := views.foldl (addSlotView id parent) (b, outs)
      Wrote b₀ id r.1 r.2 written := by
  induction views with
  | nil => exact fun b outs h => h
  | cons s views ih =>
    intro b outs h
    rw [List.foldl_cons, addSlotView_eq]
    split_ifs
    · exact ih _ _ (h.push rfl rfl rfl (Or.inr ⟨Option.some_ne_none _, rfl, hgu⟩))
    · exact ih _ _ h

theorem Wrote.lowerWrite {b₀ b : CgBuild} {id : ℕ} {outs : List ℕ} {written : List Slot}
    (h : Wrote b₀ id b outs written) (reads : List Slot) (ins : List ℕ) (s : Slot) :
    let r := lowerWrite id reads ins (b, outs) s
    Wrote b₀ id r.1 r.2 (written ++ [s]) := by
  obtain ⟨val, hp, hs, hv, hu, heq⟩ := lowerWrite_eq id reads ins b outs s
  have hpush := h.push hp hu hs (Or.inl ⟨hv, rfl⟩)
  rw [heq]
  unfold slotViews
  split_ifs with hgu
  · exact Wrote.views _ (List.mem_append_right _ (List.mem_singleton.mpr hgu.symm)) _ _ _ hpush
  · exact hpush

theorem Wrote.lowerWrites {b₀ : CgBuild} {id : ℕ} (reads : List Slot) (ins : List ℕ)
    (slots : List Slot) :
    ∀ (b : CgBuild) (outs : List ℕ) (written : List Slot), Wrote b₀ id b outs written →
      let r := slots.foldl (CgBuild.lowerWrite id reads ins) (b, outs)
      Wrote b₀ id r.1 r.2 (written ++ slots) := by
  induction slots with
  | nil =>
    intro b outs written h
    simpa only [List.append_nil, List.foldl_nil] using h
  | cons s slots ih =>
    intro b outs written h
    rw [List.append_cons]
    exact ih _ _ _ (h.lowerWrite reads ins s)

end CgBuild

/-! Every value a node reads is the last one written to its slot, uses are counted, and what the
layer section reads from before it is a carry if the section redefines its slot. -/

namespace CgGraph

variable {g g' : CgGraph}

/-- How often the nodes read a value. -/
def usesIn (nodes : List CgNode) (v : ℕ) : ℕ := (nodes.map fun n => n.ins.count v).sum

/-- No node from `lo` up to `hi` writes the slot. -/
def Quiet (g : CgGraph) (lo hi : ℕ) (s : Slot) : Prop :=
  ∀ (k : ℕ) (n : CgNode), g.nodes[k]? = some n → lo ≤ k → k < hi → ∀ w ∈ n.outs, (g.value w).slot ≠ some s

/-- The value is the last one written to its slot before node `t`, if any was. -/
def Reaches (g : CgGraph) (v t : ℕ) : Prop :=
  ∃ s, (g.value v).slot = some s ∧
    match (g.value v).producer with
    | none => g.Quiet 0 t s
    | some p => p < t ∧ (∃ n, g.nodes[p]? = some n ∧ v ∈ n.outs) ∧ g.Quiet (p + 1) t s

/-- The value is from before node `lo`. -/
def Early (g : CgGraph) (lo v : ℕ) : Prop := ∀ p ∈ (g.value v).producer, p < lo

/-- The values nodes write are there. -/
def OutsIn (g : CgGraph) : Prop :=
  ∀ (t : ℕ) (n : CgNode), g.nodes[t]? = some n → ∀ v ∈ n.outs, v < g.values.length

theorem getElem?_of_isPrefix {l l' : List CgNode} (h : l <+: l') {t : ℕ} (ht : t < l.length) :
    l'[t]? = l[t]? := by
  obtain ⟨m, rfl⟩ := h
  rw [List.getElem?_append_left ht]

theorem Quiet.extend {lo hi : ℕ} {s : Slot} (h : g.Quiet lo hi s) (ho : Old g g')
    (hn : g.nodes <+: g'.nodes) (hout : g.OutsIn) (hhi : hi ≤ g.nodes.length) :
    g'.Quiet lo hi s := by
  intro k n hk hlo hlt w hw
  rw [getElem?_of_isPrefix hn (lt_of_lt_of_le hlt hhi)] at hk
  rw [(ho.2 w (hout k n hk w hw)).2.1]
  exact h k n hk hlo hlt w hw

theorem Reaches.extend {v t : ℕ} (h : g.Reaches v t) (ho : Old g g')
    (hn : g.nodes <+: g'.nodes) (hout : g.OutsIn) (hv : v < g.values.length)
    (ht : t ≤ g.nodes.length) : g'.Reaches v t := by
  obtain ⟨s, hs, hp⟩ := h
  obtain ⟨hprod, hslot, -⟩ := ho.2 v hv
  refine ⟨s, by rw [hslot, hs], ?_⟩
  rw [hprod]
  cases hprodv : (g.value v).producer with
  | none =>
    rw [hprodv] at hp
    exact Quiet.extend hp ho hn hout ht
  | some p =>
    rw [hprodv] at hp
    obtain ⟨hpt, ⟨n, hnp, hvn⟩, hq⟩ := hp
    refine ⟨hpt, ⟨n, ?_, hvn⟩, hq.extend ho hn hout ht⟩
    rw [getElem?_of_isPrefix hn (lt_of_lt_of_le hpt ht), hnp]

theorem Early.extend {lo v : ℕ} (ho : Old g g') (hv : v < g.values.length) :
    g'.Early lo v ↔ g.Early lo v := by
  unfold Early
  rw [(ho.2 v hv).1]

theorem Lowered.extend {i : OpAt} {n : CgNode} (h : Lowered g i n) (ho : Old g g')
    (hb : ∀ v ∈ n.ins ++ n.outs, v < g.values.length) : Lowered g' i n := by
  have hslot : ∀ v ∈ n.ins ++ n.outs, (g'.value v).slot = (g.value v).slot :=
    fun v hv => (ho.2 v (hb v hv)).2.1
  have hview : ∀ v ∈ n.ins ++ n.outs, (g'.value v).viewOf = (g.value v).viewOf :=
    fun v hv => (ho.2 v (hb v hv)).2.2
  refine ⟨h.kind, h.sec, h.recipeIndex, h.wIdx, h.coalesceRunLen, h.fuseNext, h.params, ?_,
    fun s hs => ?_, fun v hv hnone => ?_, fun hgu => ?_⟩
  · rw [← h.ins]
    exact List.map_congr_left fun v hv => hslot v (List.mem_append_left _ hv)
  · obtain ⟨v, hv, hs', hnone⟩ := h.stored s hs
    have hmem := List.mem_append_right n.ins hv
    exact ⟨v, hv, (hslot v hmem).trans hs', (hview v hmem).trans hnone⟩
  · have hmem := List.mem_append_right n.ins hv
    rw [hview v hmem] at hnone
    rw [hslot v hmem]
    exact h.slots v hv hnone
  · obtain ⟨hmap, hviews⟩ := h.plain hgu
    refine ⟨?_, fun v hv => (hview v (List.mem_append_right n.ins hv)).trans (hviews v hv)⟩
    rw [← hmap]
    exact List.map_congr_left fun v hv => hslot v (List.mem_append_right _ hv)

theorem usesIn_append (l l' : List CgNode) (v : ℕ) :
    usesIn (l ++ l') v = usesIn l v + usesIn l' v := by
  simp only [usesIn, List.map_append, List.sum_append]

theorem usesIn_eq_zero {l : List CgNode} {v : ℕ} (h : ∀ n ∈ l, v ∉ n.ins) : usesIn l v = 0 := by
  induction l with
  | nil => rfl
  | cons n l ih =>
    rw [usesIn, List.map_cons, List.sum_cons, List.count_eq_zero.mpr (h n List.mem_cons_self),
      Nat.zero_add]
    exact ih fun m hm => h m (List.mem_cons_of_mem _ hm)

end CgGraph

namespace CgBuild

open CgGraph

/-- The builder after the ops `items`, with the values `pend` already read by the next one. -/
structure Inv (b : CgBuild) (items : List OpAt) (pend : List ℕ) : Prop where
  lowered : List.Forall₂ (Lowered b.g) items b.g.nodes
  ins : ∀ (t : ℕ) (n : CgNode), b.g.nodes[t]? = some n → ∀ v ∈ n.ins,
    v < b.g.values.length ∧ b.g.Reaches v t
  outs : ∀ (t : ℕ) (n : CgNode), b.g.nodes[t]? = some n → ∀ v ∈ n.outs,
    v < b.g.values.length ∧ (b.g.value v).producer = some t
  cur : ∀ s v, b.cur s = some v → v < b.g.values.length ∧ (b.g.value v).slot = some s ∧
    b.g.Reaches v b.g.nodes.length
  fresh : ∀ s, b.cur s = none → b.g.Quiet 0 b.g.nodes.length s
  read : ∀ v ∈ pend, v < b.g.values.length ∧ b.g.Reaches v b.g.nodes.length
  uses : ∀ v < b.g.values.length, (b.g.value v).nUses = usesIn b.g.nodes v + pend.count v

/-- What the builder keeps of the reads of values from before node `lo`. -/
structure Tracks (b : CgBuild) (lo : ℕ) (pend : List ℕ) : Prop where
  entry : ∀ s, b.cur s = none → b.entry s = none
  cur : ∀ s v, b.cur s = some v → b.g.Early lo v → b.entry s = some v
  ins : ∀ (t : ℕ) (n : CgNode), b.g.nodes[t]? = some n → lo ≤ t → ∀ v ∈ n.ins, b.g.Early lo v →
    ∀ s, (b.g.value v).slot = some s → b.exposed s = true ∧ b.entry s = some v
  read : ∀ v ∈ pend, b.g.Early lo v →
    ∀ s, (b.g.value v).slot = some s → b.exposed s = true ∧ b.entry s = some v

variable {b b' : CgBuild} {items : List OpAt} {pend : List ℕ} {lo : ℕ}

theorem Inv.outsIn (h : Inv b items pend) : b.g.OutsIn :=
  fun t n ht v hv => (h.outs t n ht v hv).1

theorem Inv.bounded (h : Inv b items pend) {n : CgNode} (hn : n ∈ b.g.nodes) :
    ∀ v ∈ n.ins ++ n.outs, v < b.g.values.length := by
  obtain ⟨t, ht⟩ := List.getElem?_of_mem hn
  intro v hv
  rcases List.mem_append.mp hv with hv | hv
  · exact (h.ins t n ht v hv).1
  · exact (h.outs t n ht v hv).1

/-- The nodes and what they touch are as before when the graph has only gained values. -/
theorem Inv.keep (h : Inv b items pend) (ho : Old b.g b'.g) (hn : b'.g.nodes = b.g.nodes) :
    List.Forall₂ (Lowered b'.g) items b'.g.nodes ∧
      (∀ t n, b'.g.nodes[t]? = some n → ∀ v ∈ n.ins,
        v < b'.g.values.length ∧ b'.g.Reaches v t) ∧
      ∀ t n, b'.g.nodes[t]? = some n → ∀ v ∈ n.outs,
        v < b'.g.values.length ∧ (b'.g.value v).producer = some t := by
  have hpre : b.g.nodes <+: b'.g.nodes := by rw [hn]
  refine ⟨?_, fun t n ht v hv => ?_, fun t n ht v hv => ?_⟩
  · rw [hn]
    refine List.forall₂_iff_get.mpr ⟨h.lowered.length_eq, fun t ht ht' => ?_⟩
    exact (h.lowered.get ht ht').extend ho (h.bounded (List.get_mem _ _))
  · rw [hn] at ht
    obtain ⟨hlt, hr⟩ := h.ins t n ht v hv
    have htl : t ≤ b.g.nodes.length := (List.getElem?_eq_some_iff.mp ht).1.le
    exact ⟨lt_of_lt_of_le hlt ho.1, hr.extend ho hpre h.outsIn hlt htl⟩
  · rw [hn] at ht
    obtain ⟨hlt, hp⟩ := h.outs t n ht v hv
    exact ⟨lt_of_lt_of_le hlt ho.1, (ho.2 v hlt).1.trans hp⟩

theorem Inv.reaches_keep (h : Inv b items pend) (ho : Old b.g b'.g)
    (hn : b'.g.nodes = b.g.nodes) {v : ℕ} (hv : v < b.g.values.length)
    (hr : b.g.Reaches v b.g.nodes.length) :
    v < b'.g.values.length ∧ b'.g.Reaches v b'.g.nodes.length := by
  have hpre : b.g.nodes <+: b'.g.nodes := by rw [hn]
  refine ⟨lt_of_lt_of_le hv ho.1, ?_⟩
  rw [hn]
  exact hr.extend ho hpre h.outsIn hv le_rfl

theorem old_push (b : CgBuild) (val : CgValue) (s : Slot) : Old b.g (b.push val s).g := by
  refine ⟨by rw [push_length]; omega, fun v hv => ?_⟩
  rw [push_value, if_neg hv.ne]
  exact ⟨rfl, rfl, rfl⟩

/-- The value of a slot that nothing has touched. -/
def entryValue (s : Slot) : CgValue := { CgValue.zero with slot := some s }

theorem Inv.pushEntry (h : Inv b items pend) {s : Slot} (hs : b.cur s = none) :
    Inv (b.push (entryValue s) s) items pend := by
  have ho := old_push b (entryValue s) s
  obtain ⟨hlow, hins, houts⟩ := h.keep ho rfl
  have hnew : (b.push (entryValue s) s).g.value b.g.values.length = entryValue s := by
    rw [push_value, if_pos rfl]
  refine ⟨hlow, hins, houts, fun t v hv => ?_, fun t ht => ?_, fun v hv => ?_, fun v hv => ?_⟩
  · rw [push_cur] at hv
    split_ifs at hv with hts
    · obtain rfl := Option.some.inj hv
      subst hts
      refine ⟨by rw [push_length]; omega, by rw [hnew]; rfl, t, by rw [hnew]; rfl, ?_⟩
      rw [hnew]
      exact (h.fresh t hs).extend ho (List.prefix_refl _) h.outsIn le_rfl
    · obtain ⟨hlt, hslot, hr⟩ := h.cur t v hv
      exact ⟨lt_of_lt_of_le hlt ho.1, (ho.2 v hlt).2.1.trans hslot,
        (h.reaches_keep ho rfl hlt hr).2⟩
  · rw [push_cur] at ht
    split_ifs at ht with hts
    exact (h.fresh t ht).extend ho (List.prefix_refl _) h.outsIn le_rfl
  · obtain ⟨hlt, hr⟩ := h.read v hv
    exact h.reaches_keep ho rfl hlt hr
  · rw [push_length] at hv
    rw [push_value]
    split_ifs with heq
    · have hno : usesIn b.g.nodes v = 0 := usesIn_eq_zero fun n hn hmem =>
        absurd (h.bounded hn v (List.mem_append_left _ hmem)) (by omega)
      have hpend : pend.count v = 0 := List.count_eq_zero.mpr fun hmem =>
        absurd (h.read v hmem).1 (by omega)
      rw [push_nodes, hno, hpend]
      rfl
    · exact h.uses v (by omega)

theorem value_use (g : CgGraph) (v w : ℕ) (hw : w < g.values.length) :
    (g.use v).value w =
      if v = w then { g.value w with nUses := (g.value w).nUses + 1 } else g.value w :=
  value_modifyValue g v w _ hw

theorem old_use (g : CgGraph) (v : ℕ) : Old g (g.use v) := by
  refine ⟨(length_modifyValue _ _ _).ge, fun w hw => ?_⟩
  rw [value_use g v w hw]
  split_ifs
  · exact ⟨rfl, rfl, rfl⟩
  · exact ⟨rfl, rfl, rfl⟩

theorem Inv.use (h : Inv b items pend) {v : ℕ} (hv : v < b.g.values.length)
    (hr : b.g.Reaches v b.g.nodes.length) :
    Inv { b with g := b.g.use v } items (pend ++ [v]) := by
  have ho := old_use b.g v
  let b' : CgBuild := { b with g := b.g.use v }
  have ho' : Old b.g b'.g := ho
  obtain ⟨hlow, hins, houts⟩ := h.keep ho' rfl
  refine ⟨hlow, hins, houts, fun t w hw => ?_, fun t ht => ?_, fun w hw => ?_, fun w hw => ?_⟩
  · obtain ⟨hlt, hslot, hreach⟩ := h.cur t w hw
    exact ⟨lt_of_lt_of_le hlt ho.1, (ho.2 w hlt).2.1.trans hslot,
      (h.reaches_keep ho' rfl hlt hreach).2⟩
  · exact (h.fresh t ht).extend ho (List.prefix_refl _) h.outsIn le_rfl
  · rcases List.mem_append.mp hw with hw | hw
    · obtain ⟨hlt, hreach⟩ := h.read w hw
      exact h.reaches_keep ho' rfl hlt hreach
    · obtain rfl := List.mem_singleton.mp hw
      exact h.reaches_keep ho' rfl hv hr
  · have hlt : w < b.g.values.length := by
      rw [← length_modifyValue b.g v]
      exact hw
    have huses := h.uses w hlt
    change ((b.g.use v).value w).nUses = usesIn b.g.nodes w + (pend ++ [v]).count w
    rw [value_use b.g v w hlt, List.count_append, List.count_singleton]
    split_ifs with heq hne hne
    · simp only [huses]
      omega
    · exact absurd (by simp [heq]) hne
    · exact absurd (by simpa using hne) heq
    · omega

theorem Inv.congr (h : Inv b items pend) (hn : b'.g.nodes = b.g.nodes)
    (hv : b'.g.values = b.g.values) (hc : b'.cur = b.cur) : Inv b' items pend := by
  have hval : ∀ v, b'.g.value v = b.g.value v := fun v => by rw [value, value, hv]
  have ho : Old b.g b'.g := by
    refine ⟨by rw [hv], fun v _ => ?_⟩
    rw [hval]
    exact ⟨rfl, rfl, rfl⟩
  have hpre : b.g.nodes <+: b'.g.nodes := by rw [hn]
  obtain ⟨hlow, hins, houts⟩ := h.keep ho hn
  refine ⟨hlow, hins, houts, fun s v hs => ?_, fun s hs => ?_, fun v hm => ?_, fun v hlt => ?_⟩
  · obtain ⟨hlt, hslot, hr⟩ := h.cur s v (hc ▸ hs)
    obtain ⟨hlt', hr'⟩ := h.reaches_keep ho hn hlt hr
    exact ⟨hlt', by rw [hval, hslot], hr'⟩
  · rw [hn]
    exact (h.fresh s (hc ▸ hs)).extend ho hpre h.outsIn le_rfl
  · exact h.reaches_keep ho hn (h.read v hm).1 (h.read v hm).2
  · rw [hn, hval]
    exact h.uses v (hv ▸ hlt)

/-- What lowering the operands of a node leaves as it is. -/
structure Frame (b b' : CgBuild) : Prop where
  nodes : b'.g.nodes = b.g.nodes
  layerBegin : b'.g.layerBegin = b.g.layerBegin
  postBegin : b'.g.postBegin = b.g.postBegin
  carry : b'.g.carry = b.g.carry
  tracking : b'.tracking = b.tracking
  old : Old b.g b'.g

theorem Frame.refl (b : CgBuild) : Frame b b := ⟨rfl, rfl, rfl, rfl, rfl, Old.refl _⟩

theorem Frame.trans {b b' b'' : CgBuild} (h : Frame b b') (h' : Frame b' b'') : Frame b b'' :=
  ⟨h'.nodes.trans h.nodes, h'.layerBegin.trans h.layerBegin, h'.postBegin.trans h.postBegin,
    h'.carry.trans h.carry, h'.tracking.trans h.tracking, h.old.trans h'.old⟩

/-- What a builder that tracks its reads keeps of them. -/
def Tracked (b : CgBuild) (lo : ℕ) (pend : List ℕ) : Prop := b.tracking = true → Tracks b lo pend

/-- A read of a slot that has a current value: the value is counted, and exposed if it is the one
the section started with. -/
theorem readSlot_some {s : Slot} {v : ℕ} (hs : b.cur s = some v) :
    ∃ b', b.readSlot s = (b', v) ∧ b'.g = b.g ∧ b'.cur = b.cur ∧ b'.entry = b.entry ∧
      b'.tracking = b.tracking ∧
      ∀ t, b'.exposed t = (b.exposed t || decide (t = s ∧ b.tracking ∧ b.entry s = some v)) := by
  unfold readSlot
  rw [hs]
  dsimp only
  split_ifs with h
  · refine ⟨_, rfl, rfl, rfl, rfl, rfl, fun t => ?_⟩
    dsimp only
    rw [Function.update_apply]
    by_cases hts : t = s
    · simp [hts, h.1, ← h.2]
    · simp [hts]
  · refine ⟨b, rfl, rfl, rfl, rfl, rfl, fun t => ?_⟩
    have hno : ¬ (t = s ∧ b.tracking = true ∧ b.entry s = some v) :=
      fun hall => h ⟨hall.2.1, hall.2.2.symm⟩
    simp [hno]

/-- A read of a slot that nothing has touched makes its entry value. -/
theorem readSlot_none {s : Slot} (hs : b.cur s = none) :
    ∃ b', b.readSlot s = (b', b.g.values.length) ∧ b'.g = (b.push (entryValue s) s).g ∧
      b'.cur = (b.push (entryValue s) s).cur ∧ b'.tracking = b.tracking ∧
      (b.tracking = true → b'.entry = Function.update b.entry s (some b.g.values.length) ∧
        b'.exposed = Function.update b.exposed s true) := by
  unfold readSlot
  rw [hs]
  by_cases ht : b.tracking = true
  · simp only [newValue, setCur, ht, if_true]
    exact ⟨_, rfl, rfl, rfl, rfl, fun _ => ⟨rfl, rfl⟩⟩
  · simp only [newValue, setCur, ht]
    exact ⟨_, rfl, rfl, rfl, by simp, fun h => absurd h (by simp)⟩

/-- The builder while the reads of a node are lowered. -/
structure Reading (b₀ : CgBuild) (items : List OpAt) (lo : ℕ) (b : CgBuild) (ins : List ℕ)
    (done : List Slot) : Prop where
  inv : Inv b items ins
  tracked : Tracked b lo ins
  frame : Frame b₀ b
  slots : ins.map (fun v => (b.g.value v).slot) = done.map some

theorem Tracks.extend (h : Tracks b lo pend) (hi : Inv b items pend) (hf : Frame b b')
    (hexp : ∀ s v, b.entry s = some v → b.exposed s = true →
      b'.entry s = some v ∧ b'.exposed s = true) :
    (∀ (t : ℕ) (n : CgNode), b'.g.nodes[t]? = some n → lo ≤ t → ∀ v ∈ n.ins, b'.g.Early lo v →
      ∀ s, (b'.g.value v).slot = some s → b'.exposed s = true ∧ b'.entry s = some v) ∧
    ∀ v ∈ pend, b'.g.Early lo v →
      ∀ s, (b'.g.value v).slot = some s → b'.exposed s = true ∧ b'.entry s = some v := by
  refine ⟨fun t n ht hlo v hv hearly s hs => ?_, fun v hv hearly s hs => ?_⟩
  · rw [hf.nodes] at ht
    have hlt := (hi.ins t n ht v hv).1
    rw [(hf.old.2 v hlt).2.1] at hs
    obtain ⟨hex, hen⟩ := h.ins t n ht hlo v hv ((Early.extend hf.old hlt).mp hearly) s hs
    exact ⟨(hexp s v hen hex).2, (hexp s v hen hex).1⟩
  · have hlt := (hi.read v hv).1
    rw [(hf.old.2 v hlt).2.1] at hs
    obtain ⟨hex, hen⟩ := h.read v hv ((Early.extend hf.old hlt).mp hearly) s hs
    exact ⟨(hexp s v hen hex).2, (hexp s v hen hex).1⟩

theorem Frame.use (b : CgBuild) (v : ℕ) : Frame b { b with g := b.g.use v } :=
  ⟨rfl, rfl, rfl, rfl, rfl, old_use b.g v⟩

/-- A value that is read and, if it is from before the section, exposed. -/
theorem Reading.use {b₀ : CgBuild} {ins : List ℕ} {done : List Slot}
    (hi : Inv b items ins) (ht : Tracked b lo ins) (hf : Frame b₀ b)
    (hs : ins.map (fun v => (b.g.value v).slot) = done.map some) {s : Slot} {v : ℕ}
    (hcur : b.cur s = some v)
    (hexp : b.tracking = true → b.g.Early lo v → b.exposed s = true ∧ b.entry s = some v) :
    Reading b₀ items lo { b with g := b.g.use v } (ins ++ [v]) (done ++ [s]) := by
  obtain ⟨hlt, hslot, hr⟩ := hi.cur s v hcur
  have hfu := Frame.use b v
  have hiu := hi.use hlt hr
  refine ⟨hiu, fun hon => ?_, hf.trans hfu, ?_⟩
  · obtain ⟨hins, hread⟩ := (ht hon).extend hi hfu fun _ _ hen hex => ⟨hen, hex⟩
    refine ⟨(ht hon).entry, fun t w hw hearly => ?_, hins, fun w hw hearly t ht' => ?_⟩
    · have hwl := (hi.cur t w hw).1
      exact (ht hon).cur t w hw ((Early.extend hfu.old hwl).mp hearly)
    · rcases List.mem_append.mp hw with hw | hw
      · exact hread w hw hearly t ht'
      · obtain rfl := List.mem_singleton.mp hw
        rw [(hfu.old.2 w hlt).2.1, hslot] at ht'
        obtain rfl := Option.some.inj ht'
        exact hexp hon ((Early.extend hfu.old hlt).mp hearly)
  · have hold : ins.map (fun w => ((b.g.use v).value w).slot) =
        ins.map fun w => (b.g.value w).slot :=
      List.map_congr_left fun w hw => (hfu.old.2 w (hi.read w hw).1).2.1
    change (ins ++ [v]).map (fun w => ((b.g.use v).value w).slot) = _
    rw [List.map_append, List.map_append, hold, hs, List.map_cons, List.map_nil,
      (hfu.old.2 v hlt).2.1, hslot]
    rfl

theorem Reading.lowerRead {b₀ : CgBuild} {ins : List ℕ} {done : List Slot}
    (h : Reading b₀ items lo b ins done) (s : Slot) :
    let r := lowerRead (b, ins) s
    Reading b₀ items lo r.1 r.2 (done ++ [s]) := by
  cases hs : b.cur s with
  | some v =>
    obtain ⟨b', heq, hg, hc, hen, htr, hex⟩ := readSlot_some hs
    have hlow : CgBuild.lowerRead (b, ins) s = ({ b' with g := b'.g.use v }, ins ++ [v]) := by
      simp only [CgBuild.lowerRead, heq]
    have hfr : Frame b b' :=
      ⟨by rw [hg], by rw [hg], by rw [hg], by rw [hg], htr, by rw [hg]; exact Old.refl _⟩
    rw [hlow]
    refine Reading.use (h.inv.congr (by rw [hg]) (by rw [hg]) hc) (fun hon => ?_) (h.frame.trans hfr) ?_ (by rw [hc, hs])
      fun hon hearly => ?_
    · have hT := h.tracked (htr ▸ hon)
      obtain ⟨hins, hread⟩ := hT.extend h.inv hfr fun t w hw hwt =>
        ⟨by rw [hen, hw], by rw [hex, hwt, Bool.true_or]⟩
      refine ⟨by rw [hc, hen]; exact hT.entry, fun t w hw hearly => ?_, hins, hread⟩
      rw [hg] at hearly
      rw [hc] at hw
      rw [hen]
      exact hT.cur t w hw hearly
    · rw [hg]
      exact h.slots
    · rw [hg] at hearly
      have hentry := (h.tracked (htr ▸ hon)).cur s v hs hearly
      rw [hex, hen]
      simp [htr ▸ hon, hentry]
  | none =>
    obtain ⟨b', heq, hg, hc, htr, hen⟩ := readSlot_none hs
    have hlow : CgBuild.lowerRead (b, ins) s =
        ({ b' with g := b'.g.use b.g.values.length }, ins ++ [b.g.values.length]) := by
      simp only [CgBuild.lowerRead, heq]
    have ho := old_push b (entryValue s) s
    have hfr : Frame b b' :=
      ⟨by rw [hg]; rfl, by rw [hg]; rfl, by rw [hg]; rfl, by rw [hg]; rfl, htr,
        by rw [hg]; exact ho⟩
    rw [hlow]
    refine Reading.use ((h.inv.pushEntry hs).congr (by rw [hg]) (by rw [hg]) hc) (fun hon => ?_) (h.frame.trans hfr) ?_
      (by rw [hc, push_cur, if_pos rfl]) fun hon _ => ?_
    · have hT := h.tracked (htr ▸ hon)
      obtain ⟨hentry, hexp⟩ := hen (htr ▸ hon)
      obtain ⟨hins, hread⟩ := hT.extend h.inv hfr fun t w hw hwt => by
        have hts : t ≠ s := by
          rintro rfl
          rw [hT.entry t hs] at hw
          exact absurd hw (by simp)
        exact ⟨by rw [hentry, Function.update_of_ne hts, hw],
          by rw [hexp, Function.update_of_ne hts, hwt]⟩
      refine ⟨fun t ht => ?_, fun t w hw hearly => ?_, hins, hread⟩
      · rw [hc, push_cur] at ht
        split_ifs at ht with hts
        rw [hentry, Function.update_of_ne hts]
        exact hT.entry t ht
      rw [hc, push_cur] at hw
      rw [hentry]
      split_ifs at hw with hts
      · rw [hts, Function.update_self, hw]
      · rw [Function.update_of_ne hts]
        have hwl := (h.inv.cur t w hw).1
        exact hT.cur t w hw ((Early.extend hfr.old hwl).mp hearly)
    · rw [← h.slots, hg]
      exact List.map_congr_left fun w hw => (ho.2 w (h.inv.read w hw).1).2.1
    · obtain ⟨hentry, hexp⟩ := hen (htr ▸ hon)
      rw [hentry, hexp, Function.update_self, Function.update_self]
      exact ⟨rfl, rfl⟩

end CgBuild

end Kappai
