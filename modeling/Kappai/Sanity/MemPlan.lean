import Kappai.Lib.Loop
import Kappai.Spec.MemPlan
import Mathlib.Tactic.Common
import Kappai.Spec.Graph

/-! Whatever is live at one time in one of the graphs ends up in the conflict table, and every slot
of a swap ends up pinned. -/

namespace Kappai

namespace Interference

structure Grows (x y : Interference) : Prop where
  conflict : x.conflict ⊆ y.conflict
  pinned : x.pinned ⊆ y.pinned

theorem Grows.refl (x : Interference) : Grows x x := ⟨List.Subset.refl _, List.Subset.refl _⟩

theorem Grows.trans {x y z : Interference} (h₁ : Grows x y) (h₂ : Grows y z) : Grows x z :=
  ⟨List.Subset.trans h₁.conflict h₂.conflict, List.Subset.trans h₁.pinned h₂.pinned⟩

theorem Grows.foldl {α : Type*} {f : Interference → α → Interference}
    (hstep : ∀ x a, Grows x (f x a)) (l : List α) (x : Interference) : Grows x (l.foldl f x) :=
  foldl_climbs .refl .trans hstep l x

/-- Both entries of the conflict of two slots. -/
def Has (x : Interference) (a b : Slot) : Prop := (a, b) ∈ x.conflict ∧ (b, a) ∈ x.conflict

variable {x y : Interference} {g : CgGraph} {a b : Slot}

theorem Has.symm (h : x.Has a b) : x.Has b a := ⟨h.2, h.1⟩

theorem Has.mono (h : x.Has a b) (hg : Grows x y) : y.Has a b :=
  ⟨hg.conflict h.1, hg.conflict h.2⟩

theorem addConflict_grows (x : Interference) (a b : Slot) : Grows x (x.addConflict a b) := by
  unfold addConflict
  split_ifs
  · exact .refl x
  · exact ⟨fun p hp => List.mem_cons_of_mem _ (List.mem_cons_of_mem _ hp), List.Subset.refl _⟩

theorem has_addConflict (x : Interference) (hab : a ≠ b) : (x.addConflict a b).Has a b := by
  simp [addConflict, hab, Has]

theorem valuePair_grows (g : CgGraph) (v w : ℕ) (x : Interference) :
    Grows x (x.valuePair g v w) := by
  unfold valuePair
  split
  · split_ifs
    · exact addConflict_grows _ _ _
    · exact .refl x
  · exact .refl x

theorem valueConflicts_grows (g : CgGraph) (x : Interference) (v : ℕ) :
    Grows x (x.valueConflicts g v) := by
  unfold valueConflicts
  split_ifs
  · refine Grows.trans ?_ (Grows.foldl (fun x w => valuePair_grows g v w x) _ _)
    cases (g.value v).slot with
    | none => exact .refl x
    | some s => exact ⟨List.Subset.refl _, List.Subset.refl _⟩
  · exact .refl x

theorem useValue_grows (g : CgGraph) (u : HiddenUse) (x : Interference) (v : ℕ) :
    Grows x (x.useValue g u v) := by
  unfold useValue
  split
  · split_ifs
    · exact addConflict_grows _ _ _
    · exact .refl x
  · exact .refl x

/-- What `collect_use_conflicts` does for one use, before it goes on to the next. -/
def useStep (g : CgGraph) (u : HiddenUse) (us : List HiddenUse) (x : Interference) : Interference :=
  us.foldl (fun x w => if u.range.Overlaps w.range then x.addConflict u.slot w.slot else x)
    ((List.range g.values.length).foldl (fun x v => x.useValue g u v) (x.see u.slot))

theorem collectUseConflicts_cons (g : CgGraph) (u : HiddenUse) (us : List HiddenUse)
    (x : Interference) :
    collectUseConflicts g (u :: us) x = collectUseConflicts g us (useStep g u us x) := rfl

theorem useStep_grows (g : CgGraph) (u : HiddenUse) (us : List HiddenUse) (x : Interference) :
    Grows x (useStep g u us x) := by
  have hsee : Grows x (x.see u.slot) := ⟨List.Subset.refl _, List.Subset.refl _⟩
  refine (hsee.trans (Grows.foldl (useValue_grows g u) _ _)).trans (Grows.foldl ?_ _ _)
  intro x w
  split_ifs
  · exact addConflict_grows _ _ _
  · exact .refl x

theorem collectUseConflicts_grows (g : CgGraph) (us : List HiddenUse) (x : Interference) :
    Grows x (collectUseConflicts g us x) := by
  induction us generalizing x with
  | nil => exact .refl x
  | cons u us ih => exact (useStep_grows g u us x).trans (ih _)

theorem pin_grows (g : CgGraph) (x : Interference) (v : ℕ) :
    Grows x ((g.value v).slot.elim x fun s => { x with pinned := s :: x.pinned }) := by
  cases (g.value v).slot with
  | none => exact .refl x
  | some s => exact ⟨List.Subset.refl _, List.subset_cons_self _ _⟩

theorem pinStep_grows (g : CgGraph) (x : Interference) (n : CgNode) :
    Grows x (if n.kind = .swap then x.pinSwappedSlots g n else x) := by
  split_ifs
  · exact Grows.foldl (pin_grows g) _ _
  · exact .refl x

theorem collectGraph_grows (x : Interference) (g : CgGraph) : Grows x (x.collectGraph g) :=
  ((Grows.foldl (valueConflicts_grows g) _ x).trans (collectUseConflicts_grows g _ _)).trans
    (Grows.foldl (pinStep_grows g) _ _)

/-! ### What a graph brings about -/

theorem has_valuePair {v w : ℕ} (hw : g.HasStorage w) (ha : (g.value v).slot = some a)
    (hb : (g.value w).slot = some b) (hab : a ≠ b) (ho : (g.range v).Overlaps (g.range w))
    (x : Interference) : (x.valuePair g v w).Has a b := by
  unfold valuePair
  rw [ha, hb]
  dsimp only
  rw [if_pos ⟨hw, ho⟩]
  exact has_addConflict x hab

theorem has_valueConflicts {v w : ℕ} (hv : g.HasStorage v) (hw : g.HasStorage w) (hlt : v < w)
    (hwn : w < g.values.length) (ha : (g.value v).slot = some a)
    (hb : (g.value w).slot = some b) (hab : a ≠ b) (ho : (g.range v).Overlaps (g.range w))
    (x : Interference) : (x.valueConflicts g v).Has a b := by
  unfold valueConflicts
  rw [if_pos hv]
  refine foldl_reaches (P := (Has · a b)) (fun x u h => h.mono (valuePair_grows g v u x))
    (has_valuePair hw ha hb hab ho) (List.mem_range'_1.mpr ⟨hlt, by omega⟩) _

/-- Two values stored in different slots and live at one time are in conflict. -/
theorem has_of_values {v w : ℕ} (hv : g.HasStorage v) (hw : g.HasStorage w)
    (hvn : v < g.values.length) (hwn : w < g.values.length) (ha : (g.value v).slot = some a)
    (hb : (g.value w).slot = some b) (hab : a ≠ b) (ho : (g.range v).Overlaps (g.range w))
    (x : Interference) : (x.collectGraph g).Has a b := by
  have hkeep : ∀ c d, ∀ (x : Interference) (u : ℕ), x.Has c d → (x.valueConflicts g u).Has c d :=
    fun c d x u h => h.mono (valueConflicts_grows g x u)
  have hvals : (x.collectValueConflicts g).Has a b := by
    rcases Nat.lt_trichotomy v w with hlt | heq | hgt
    · exact foldl_reaches (hkeep a b) (has_valueConflicts hv hw hlt hwn ha hb hab ho)
        (List.mem_range.mpr hvn) x
    · subst heq
      rw [ha] at hb
      exact absurd (Option.some.inj hb) hab
    · exact (foldl_reaches (hkeep b a)
        (has_valueConflicts hw hv hgt hvn hb ha hab.symm ⟨ho.2, ho.1⟩)
        (List.mem_range.mpr hwn) x).symm
  exact (hvals.mono (collectUseConflicts_grows g _ _)).mono (Grows.foldl (pinStep_grows g) _ _)

/-- A hidden use and a value of another slot live at one time are in conflict. -/
theorem has_of_use_value {u : HiddenUse} {v : ℕ} (hu : u ∈ g.hiddenUses) (hv : g.HasStorage v)
    (hvn : v < g.values.length) (hb : (g.value v).slot = some b) (hab : u.slot ≠ b)
    (ho : (g.range v).Overlaps u.range) (x : Interference) : (x.collectGraph g).Has u.slot b := by
  have hmake : ∀ x : Interference, (x.useValue g u v).Has u.slot b := by
    intro x
    unfold useValue
    rw [hb]
    dsimp only
    rw [if_pos ⟨hv, ho⟩]
    exact has_addConflict x hab
  have huses : ∀ (us : List HiddenUse), u ∈ us → ∀ x : Interference,
      (collectUseConflicts g us x).Has u.slot b := by
    intro us hus
    induction us with
    | nil => cases hus
    | cons w us ih =>
      intro x
      rw [collectUseConflicts_cons]
      rcases List.mem_cons.mp hus with rfl | hmem
      · have hhas : (useStep g u us x).Has u.slot b := by
          refine Has.mono (foldl_reaches (P := (Has · u.slot b))
            (fun x w h => h.mono (useValue_grows g u x w)) hmake
            (List.mem_range.mpr hvn) _) (Grows.foldl ?_ _ _)
          intro x w
          split_ifs
          · exact addConflict_grows _ _ _
          · exact .refl x
        exact hhas.mono (collectUseConflicts_grows g us _)
      · exact ih hmem _
  exact (huses _ hu _).mono (Grows.foldl (pinStep_grows g) _ _)

/-- Two hidden uses of different slots live at one time are in conflict. -/
theorem has_of_uses {u w : HiddenUse} (hu : u ∈ g.hiddenUses) (hw : w ∈ g.hiddenUses)
    (hab : u.slot ≠ w.slot) (ho : u.range.Overlaps w.range) (x : Interference) :
    (x.collectGraph g).Has u.slot w.slot := by
  have hmake : ∀ (us : List HiddenUse) (u w : HiddenUse), w ∈ us → u.slot ≠ w.slot →
      u.range.Overlaps w.range → ∀ x, (useStep g u us x).Has u.slot w.slot := by
    intro us u w hw hab ho x
    refine foldl_reaches (P := (Has · u.slot w.slot)) (fun x w' h => ?_) (fun x => ?_) hw _
    · split_ifs
      · exact h.mono (addConflict_grows _ _ _)
      · exact h
    · rw [if_pos ho]
      exact has_addConflict x hab
  have huses : ∀ (us : List HiddenUse), u ∈ us → w ∈ us → ∀ x : Interference,
      (collectUseConflicts g us x).Has u.slot w.slot := by
    intro us hus hws
    induction us with
    | nil => cases hus
    | cons z us ih =>
      intro x
      rw [collectUseConflicts_cons]
      rcases List.mem_cons.mp hus with rfl | hut <;> rcases List.mem_cons.mp hws with rfl | hwt
      · exact absurd rfl hab
      · exact (hmake us u w hwt hab ho x).mono (collectUseConflicts_grows g us _)
      · exact (hmake us w u hut hab.symm ⟨ho.2, ho.1⟩ x).symm.mono
          (collectUseConflicts_grows g us _)
      · exact ih hut hwt _
  exact (huses _ hu hw _).mono (Grows.foldl (pinStep_grows g) _ _)

/-- Every slot a swap touches is pinned. -/
theorem pinned_of_swap {n : CgNode} {v : ℕ} (hn : n ∈ g.nodes) (hk : n.kind = .swap)
    (hv : v ∈ n.ins ++ n.outs) (ha : (g.value v).slot = some a) (x : Interference) :
    a ∈ (x.collectGraph g).pinned := by
  have hkeep : ∀ (x : Interference) (n : CgNode), a ∈ x.pinned →
      a ∈ (if n.kind = .swap then x.pinSwappedSlots g n else x).pinned :=
    fun x n h => (pinStep_grows g x n).pinned h
  refine foldl_reaches (P := fun x : Interference => a ∈ x.pinned) hkeep (fun x => ?_) hn _
  rw [if_pos hk]
  refine foldl_reaches (P := fun x : Interference => a ∈ x.pinned) (fun x v h => (pin_grows g x v).pinned h)
    (fun x => ?_) hv x
  rw [ha]
  exact List.mem_cons_self

end Interference

/-! The slots that share a buffer are in no conflict with one another, and the layout gives the
buffers disjoint spans that hold their rows. -/

namespace MemPlan

/-- The grouping after the slots of `seen`: a slot points to a root, the slots of one group are in
no conflict, and nothing has joined or left a slot that is still to come. -/
structure Grouped (x : Interference) (seen : List Slot) (rep : Slot → Slot) : Prop where
  root : ∀ a, rep (rep a) = rep a
  mem : ∀ a, rep a ≠ a → a ∈ seen ∧ rep a ∈ seen
  free : ∀ a b, a ≠ b → rep a = rep b → ¬ x.Has a b
  aliasable : ∀ a b, a ≠ b → rep a = rep b → x.Aliasable a

variable {x : Interference} {seen : List Slot} {rep : Slot → Slot}

theorem Grouped.id (x : Interference) : Grouped x [] id where
  root := fun _ => rfl
  mem := fun _ h => absurd rfl h
  free := fun _ _ hab h => absurd h hab
  aliasable := fun _ _ hab h => absurd h hab

theorem Grouped.rep_eq_iff (h : Grouped x seen rep) {s : Slot} (hs : s ∉ seen) (a : Slot) :
    rep a = s ↔ a = s := by
  constructor
  · intro ha
    by_contra hne
    have hmem := (h.mem a fun hself => hne (hself.symm.trans ha)).2
    exact hs (ha ▸ hmem)
  · rintro rfl
    by_contra hne
    exact hs (h.mem a hne).1

theorem Grouped.snoc (h : Grouped x seen rep) (s : Slot) : Grouped x (seen ++ [s]) rep where
  root := h.root
  mem := fun a ha => ⟨List.mem_append_left _ (h.mem a ha).1, List.mem_append_left _ (h.mem a ha).2⟩
  free := h.free
  aliasable := h.aliasable

/-- Two slots with one root after `s` has joined `r`. -/
theorem rep_of_join {s r a b : Slot} (hab : a ≠ b)
    (heq : Function.update rep s r a = Function.update rep s r b) :
    rep a = rep b ∨ (a = s ∧ b ≠ s ∧ rep b = r) ∨ (b = s ∧ a ≠ s ∧ rep a = r) := by
  rcases eq_or_ne a s with rfl | ha
  · rw [Function.update_self, Function.update_of_ne hab.symm] at heq
    exact Or.inr (Or.inl ⟨rfl, hab.symm, heq.symm⟩)
  · rcases eq_or_ne b s with rfl | hb
    · rw [Function.update_self, Function.update_of_ne ha] at heq
      exact Or.inr (Or.inr ⟨rfl, ha, heq⟩)
    · rw [Function.update_of_ne ha, Function.update_of_ne hb] at heq
      exact Or.inl heq

theorem Grouped.join (h : Grouped x seen rep) {s r : Slot} (hs : s ∉ seen) (hr : r ∈ seen)
    (hroot : rep r = r) (hsa : x.Aliasable s) (hjoin : CanJoin x rep s r) :
    Grouped x (seen ++ [s]) (Function.update rep s r) where
  root := by
    intro a
    have hrs : r ≠ s := fun heq => hs (heq ▸ hr)
    rcases eq_or_ne a s with rfl | ha
    · rw [Function.update_self, Function.update_of_ne hrs, hroot]
    · have hne : rep a ≠ s := fun heq => ha ((h.rep_eq_iff hs a).mp heq)
      rw [Function.update_of_ne ha, Function.update_of_ne hne, h.root]
  mem := by
    intro a ha
    rcases eq_or_ne a s with rfl | hne
    · rw [Function.update_self]
      exact ⟨List.mem_append_right _ List.mem_cons_self, List.mem_append_left _ hr⟩
    · rw [Function.update_of_ne hne] at ha ⊢
      exact ⟨List.mem_append_left _ (h.mem a ha).1, List.mem_append_left _ (h.mem a ha).2⟩
  free := by
    intro a b hab heq hhas
    rcases rep_of_join hab heq with hrep | ⟨rfl, hne, hrep⟩ | ⟨rfl, hne, hrep⟩
    · exact h.free a b hab hrep hhas
    · exact hjoin.2 b hne hrep hhas.2
    · exact hjoin.2 a hne hrep hhas.1
  aliasable := by
    intro a b hab heq
    rcases rep_of_join hab heq with hrep | ⟨rfl, -, -⟩ | ⟨rfl, -, hrep⟩
    · exact h.aliasable a b hab hrep
    · exact hsa
    · rcases eq_or_ne a r with rfl | har
      · exact hjoin.1
      · exact h.aliasable a r har (hrep.trans hroot.symm)

theorem Grouped.groupSlot (h : Grouped x seen rep) {s : Slot} (hs : s ∉ seen) :
    Grouped x (seen ++ [s]) (groupSlot x seen rep s) := by
  unfold MemPlan.groupSlot
  split_ifs with hsa
  · split
    · rename_i r hfind
      have hp := List.find?_some hfind
      simp only [decide_eq_true_eq] at hp
      exact h.join hs (List.mem_of_find?_eq_some hfind) hp.1 hsa hp.2
    · exact h.snoc s
  · exact h.snoc s

theorem Grouped.loop (todo : List Slot) :
    ∀ {seen : List Slot} {rep : Slot → Slot}, Grouped x seen rep → (seen ++ todo).Nodup →
      Grouped x (seen ++ todo) (groupLoop x seen todo rep) := by
  induction todo with
  | nil =>
    intro seen rep h _
    simpa only [List.append_nil, groupLoop] using h
  | cons s todo ih =>
    intro seen rep h hnd
    have hs : s ∉ seen := fun hmem =>
      (List.nodup_append.mp hnd).2.2 s hmem s List.mem_cons_self rfl
    rw [List.append_cons] at hnd ⊢
    exact ih (h.groupSlot hs) hnd

theorem orderInsert_perm (rowElems : Slot → ℕ) (order : List Slot) (s : Slot) :
    (orderInsert rowElems order s).Perm (s :: order) := by
  unfold orderInsert
  refine List.perm_middle.trans (List.Perm.cons s ?_)
  rw [← List.reverse_append, List.takeWhile_append_dropWhile, List.reverse_reverse]

theorem orderSlots_perm (planned : Slot → Bool) (rowElems : Slot → ℕ) :
    (orderSlots planned rowElems).Perm (Slot.all.filter planned) := by
  have hfold : ∀ (l order : List Slot),
      (l.foldl (orderInsert rowElems) order).Perm (l ++ order) := by
    intro l
    induction l with
    | nil => exact fun order => .refl _
    | cons s l ih =>
      intro order
      refine (ih _).trans ?_
      exact (((orderInsert_perm rowElems order s).append_left l).trans List.perm_middle)
  simpa only [List.append_nil, orderSlots] using hfold (Slot.all.filter planned) []

theorem mem_all (s : Slot) : s ∈ Slot.all := List.mem_finRange s

theorem nodup_all : Slot.all.Nodup := List.nodup_finRange 23

/-- The groups of a plan over graphs. -/
theorem build_grouped (gs : List CgGraph) (d : MemDims) (isHybrid : Bool) :
    Grouped (gs.foldl Interference.collectGraph .empty)
      (orderSlots (build (some gs) d isHybrid).planned d.slotRowElems)
      (build (some gs) d isHybrid).rep := by
  have hnd := (orderSlots_perm (build (some gs) d isHybrid).planned d.slotRowElems).nodup_iff.mpr
    (nodup_all.filter _)
  have h := Grouped.loop _ (Grouped.id (gs.foldl Interference.collectGraph .empty)) hnd
  exact h

/-- The root of a planned slot is planned, and a slot that is not planned is its own root. -/
theorem build_rep_planned (gs : List CgGraph) (d : MemDims) (isHybrid : Bool) (a : Slot)
    (h : (build (some gs) d isHybrid).rep a ≠ a) :
    (build (some gs) d isHybrid).planned a = true ∧
      (build (some gs) d isHybrid).planned ((build (some gs) d isHybrid).rep a) = true := by
  have hmem := (build_grouped gs d isHybrid).mem a h
  have hperm := orderSlots_perm (build (some gs) d isHybrid).planned d.slotRowElems
  exact ⟨(List.mem_filter.mp (hperm.mem_iff.mp hmem.1)).2,
    (List.mem_filter.mp (hperm.mem_iff.mp hmem.2)).2⟩

/-- A buffer's row holds the row of every planned slot it is given to. -/
theorem le_groupRows (planned : Slot → Bool) (rep : Slot → Slot) (rowElems : Slot → ℕ) {a : Slot}
    (ha : planned a) : rowElems a ≤ groupRows planned rep rowElems (rep a) := by
  unfold groupRows
  refine foldl_reaches (P := fun rows : Slot → ℕ => rowElems a ≤ rows (rep a)) (fun rows s h => ?_)
    (fun rows => ?_) (mem_all a) _
  · split_ifs
    · rcases eq_or_ne (rep a) (rep s) with heq | hne
      · rw [heq, Function.update_self]
        rw [heq] at h
        exact h.trans (Nat.le_max_left _ _)
      · rwa [Function.update_of_ne hne]
    · exact h
  · rw [if_pos ha, Function.update_self]
    exact Nat.le_max_right _ _

end MemPlan

/-! ### The layout -/

theorem doubleTo_spec (n : ℤ) (h : n ≤ 64) :
    n ≤ doubleTo n 6 1 ∧ 1 ≤ doubleTo n 6 1 ∧ doubleTo n 6 1 ≤ 64 := by
  simp only [doubleTo]
  split_ifs <;> omega

/-- The rows the buffers are sized for: at least those asked for, unless the sum wraps. -/
theorem memRowsBucket_spec {n : ℤ} (h : n ≤ 2147483584) :
    n ≤ memRowsBucket n ∧ 1 ≤ memRowsBucket n ∧ memRowsBucket n < 2147483648 := by
  unfold memRowsBucket
  split_ifs with h64
  · have hwrap : intWrap (n + 63) = n + 63 := by
      unfold intWrap
      omega
    rw [hwrap]
    omega
  · obtain ⟨h1, h2, h3⟩ := doubleTo_spec n (by omega)
    omega

theorem sizeT_of_lt {v : ℕ} (h : v < 18446744073709551616) : sizeT v = v := by
  unfold sizeT
  omega

/-- `align_up`, where it does not wrap. -/
def roundUp (v : ℕ) : ℕ := (v + 255) / 256 * 256

theorem le_roundUp (v : ℕ) : v ≤ roundUp v := by
  unfold roundUp
  omega

theorem dvd_roundUp (v : ℕ) : 256 ∣ roundUp v := Nat.dvd_mul_left _ _

namespace MemPlan

variable (p : MemPlan)

def IsRoot (s : Slot) : Prop := p.planned s = true ∧ p.rep s = s

instance (s : Slot) : Decidable (p.IsRoot s) := inferInstanceAs (Decidable (_ ∧ _))

/-- The bytes of a buffer for a bucket of rows. -/
def bufferBytes (bucket : ℤ) (s : Slot) : ℕ := roundUp (p.groupRowElems s * bucket.toNat * 4)

/-- The bytes of the buffers of the roots of a list. -/
def rootBytes (bucket : ℤ) (l : List Slot) : ℕ :=
  ((l.filter fun s => p.IsRoot s).map (p.bufferBytes bucket)).sum

/-- The bytes of the whole arena. -/
def arenaBytes (nRows : ℤ) : ℕ := p.rootBytes (memRowsBucket nRows) Slot.all

theorem rootBytes_append (bucket : ℤ) (l l' : List Slot) :
    p.rootBytes bucket (l ++ l') = p.rootBytes bucket l + p.rootBytes bucket l' := by
  simp only [rootBytes, List.filter_append, List.map_append, List.sum_append]

theorem rootBytes_root {bucket : ℤ} {s : Slot} (h : p.IsRoot s) :
    p.rootBytes bucket [s] = p.bufferBytes bucket s := by
  simp [rootBytes, h]

theorem rootBytes_other {bucket : ℤ} {s : Slot} (h : ¬ p.IsRoot s) :
    p.rootBytes bucket [s] = 0 := by
  simp [rootBytes, h]

end MemPlan

namespace MemLayout

variable {p : MemPlan} {bucket : ℤ}

/-- The layout once the buffers of `placed` are placed. -/
structure Placed (p : MemPlan) (bucket : ℤ) (placed : List Slot) (l : MemLayout) : Prop where
  rows : l.bucket = bucket
  total : l.total = p.rootBytes bucket placed
  aligned : 256 ∣ l.total
  cap : ∀ s ∈ placed, p.IsRoot s → l.cap s = p.bufferBytes bucket s ∧ 256 ∣ l.offset s ∧
    l.offset s + l.cap s ≤ l.total
  apart : ∀ s ∈ placed, ∀ t ∈ placed, p.IsRoot s → p.IsRoot t → s ≠ t →
    l.offset s + l.cap s ≤ l.offset t ∨ l.offset t + l.cap t ≤ l.offset s

theorem cap_eq (hb : 0 ≤ bucket) (hb' : bucket < 2147483648) {s : Slot}
    (h : p.bufferBytes bucket s < 18446744073709551616) :
    alignUp (sizeT (p.groupRowElems s * sizeT bucket * 4)) = p.bufferBytes bucket s := by
  have hsize : sizeT bucket = bucket.toNat := by
    unfold sizeT
    omega
  unfold MemPlan.bufferBytes at h ⊢
  rw [hsize]
  generalize hv : p.groupRowElems s * bucket.toNat * 4 = v at h
  have hvlt : v < 18446744073709551616 := lt_of_le_of_lt (le_roundUp v) h
  have hcast : ((p.groupRowElems s : ℤ) * (bucket.toNat : ℤ) * 4) = (v : ℤ) := by
    rw [← hv]
    push_cast
    rfl
  rw [hcast, sizeT_of_lt hvlt]
  unfold alignUp roundUp sizeT at *
  omega

theorem Placed.place (hb : 0 ≤ bucket) (hb' : bucket < 2147483648) {placed : List Slot}
    {l : MemLayout} (h : Placed p bucket placed l) {s : Slot} (hs : s ∉ placed)
    (hfit : p.rootBytes bucket (placed ++ [s]) < 18446744073709551616) :
    Placed p bucket (placed ++ [s]) (l.place p s) := by
  rw [p.rootBytes_append] at hfit
  by_cases hroot : p.IsRoot s
  · rw [p.rootBytes_root hroot] at hfit
    have hcap := cap_eq (p := p) (s := s) hb hb' (by omega)
    have htotal : sizeT (l.total + p.bufferBytes bucket s) =
        l.total + p.bufferBytes bucket s := by
      have := sizeT_of_lt (v := l.total + p.bufferBytes bucket s) (by rw [h.total]; omega)
      simpa only [Int.natCast_add] using this
    have hplace : l.place p s =
        { l with
          offset := Function.update l.offset s l.total
          cap := Function.update l.cap s (p.bufferBytes bucket s)
          total := l.total + p.bufferBytes bucket s } := by
      unfold MemLayout.place
      rw [if_pos ⟨hroot.1, hroot.2⟩]
      simp only [h.rows, hcap, htotal]
    have hne : ∀ t ∈ placed, t ≠ s := fun t ht heq => hs (heq ▸ ht)
    rw [hplace]
    refine ⟨h.rows, ?_, ?_, ?_, ?_⟩
    · rw [p.rootBytes_append, p.rootBytes_root hroot, ← h.total]
    · exact Nat.dvd_add h.aligned (dvd_roundUp _)
    · intro t ht hrt
      rcases List.mem_append.mp ht with ht | ht
      · obtain ⟨hc, hd, hle⟩ := h.cap t ht hrt
        simp only [Function.update_of_ne (hne t ht)]
        exact ⟨hc, hd, by omega⟩
      · obtain rfl := List.mem_singleton.mp ht
        simp only [Function.update_self]
        exact ⟨trivial, h.aligned, le_rfl⟩
    · intro t ht u hu hrt hru htu
      rcases List.mem_append.mp ht with htp | hts <;> rcases List.mem_append.mp hu with hup | hus
      · simp only [Function.update_of_ne (hne t htp), Function.update_of_ne (hne u hup)]
        exact h.apart t htp u hup hrt hru htu
      · obtain rfl := List.mem_singleton.mp hus
        simp only [Function.update_of_ne (hne t htp), Function.update_self]
        exact Or.inl (h.cap t htp hrt).2.2
      · obtain rfl := List.mem_singleton.mp hts
        simp only [Function.update_of_ne (hne u hup), Function.update_self]
        exact Or.inr (h.cap u hup hru).2.2
      · exact absurd ((List.mem_singleton.mp hts).trans (List.mem_singleton.mp hus).symm) htu
  · have hplace : l.place p s = l := by
      unfold MemLayout.place
      exact if_neg hroot
    have hold : ∀ t ∈ placed ++ [s], p.IsRoot t → t ∈ placed := by
      intro t ht hrt
      rcases List.mem_append.mp ht with ht | ht
      · exact ht
      · obtain rfl := List.mem_singleton.mp ht
        exact absurd hrt hroot
    rw [hplace]
    refine ⟨h.rows, ?_, h.aligned, fun t ht hrt => h.cap t (hold t ht hrt) hrt,
      fun t ht u hu hrt hru => h.apart t (hold t ht hrt) u (hold u hu hru) hrt hru⟩
    rw [p.rootBytes_append, p.rootBytes_other hroot, Nat.add_zero, h.total]

theorem Placed.foldl (hb : 0 ≤ bucket) (hb' : bucket < 2147483648) (todo : List Slot) :
    ∀ {placed : List Slot} {l : MemLayout}, Placed p bucket placed l →
      (placed ++ todo).Nodup → p.rootBytes bucket (placed ++ todo) < 18446744073709551616 →
      Placed p bucket (placed ++ todo) (todo.foldl (MemLayout.place p) l) := by
  induction todo with
  | nil =>
    intro placed l h _ _
    simpa only [List.append_nil, List.foldl_nil] using h
  | cons s todo ih =>
    intro placed l h hnd hfit
    have hs : s ∉ placed := fun hmem =>
      (List.nodup_append.mp hnd).2.2 s hmem s List.mem_cons_self rfl
    rw [List.append_cons] at hnd hfit ⊢
    refine ih (h.place hb hb' hs ?_) hnd hfit
    rw [p.rootBytes_append] at hfit
    omega

/-- The second loop leaves the roots where they are and moves the others there. -/
theorem foldl_share (hroot : ∀ s, p.planned s = true → p.IsRoot (p.rep s)) (l₀ : MemLayout)
    (todo : List Slot) :
    ∀ l : MemLayout, (∀ s, p.IsRoot s → l.offset s = l₀.offset s ∧ l.cap s = l₀.cap s) →
      let l' := todo.foldl (share p) l
      (∀ s, p.IsRoot s → l'.offset s = l₀.offset s ∧ l'.cap s = l₀.cap s) ∧
        (∀ s, p.planned s = true → s ∈ todo ∨
            (l.offset s = l₀.offset (p.rep s) ∧ l.cap s = l₀.cap (p.rep s)) →
          l'.offset s = l₀.offset (p.rep s) ∧ l'.cap s = l₀.cap (p.rep s)) := by
  induction todo with
  | nil =>
    intro l h
    refine ⟨h, fun s hs hor => ?_⟩
    rcases hor with hmem | heq
    · cases hmem
    · exact heq
  | cons t todo ih =>
    intro l h
    have hstep : (∀ s, p.IsRoot s → (share p l t).offset s = l₀.offset s ∧
        (share p l t).cap s = l₀.cap s) ∧ ∀ s, p.planned s = true → s = t ∨
          (l.offset s = l₀.offset (p.rep s) ∧ l.cap s = l₀.cap (p.rep s)) →
        (share p l t).offset s = l₀.offset (p.rep s) ∧
          (share p l t).cap s = l₀.cap (p.rep s) := by
      unfold share
      split_ifs with hcond
      · have hrep := h _ (hroot t hcond.1)
        refine ⟨fun s hs => ?_, fun s hs hor => ?_⟩
        · have hne : s ≠ t := fun heq => hcond.2 (heq ▸ hs.2)
          simp only [Function.update_of_ne hne]
          exact h s hs
        · rcases eq_or_ne s t with rfl | hne
          · simp only [Function.update_self]
            exact hrep
          · simp only [Function.update_of_ne hne]
            exact hor.resolve_left hne
      · refine ⟨h, fun s hs hor => ?_⟩
        rcases hor with rfl | heq
        · have hself : p.rep s = s := by
            by_contra hne
            exact hcond ⟨hs, hne⟩
          rw [hself]
          exact h s ⟨hs, hself⟩
        · exact heq
    obtain ⟨hr, ho⟩ := ih _ hstep.1
    refine ⟨hr, fun s hs hor => ho s hs ?_⟩
    rcases hor with hmem | heq
    · rcases List.mem_cons.mp hmem with hst | hmem
      · exact Or.inr (hstep.2 s hs (Or.inl hst))
      · exact Or.inl hmem
    · exact Or.inr (hstep.2 s hs (Or.inr heq))

theorem foldl_share_total (todo : List Slot) (l : MemLayout) :
    (todo.foldl (share p) l).total = l.total ∧ (todo.foldl (share p) l).bucket = l.bucket := by
  induction todo generalizing l with
  | nil => exact ⟨rfl, rfl⟩
  | cons s todo ih =>
    rw [List.foldl_cons, (ih _).1, (ih _).2]
    unfold share
    split_ifs
    · exact ⟨rfl, rfl⟩
    · exact ⟨rfl, rfl⟩

/-- Where a planned slot lies: the span of its root. -/
structure Spans (p : MemPlan) (bucket : ℤ) (l : MemLayout) : Prop where
  rows : l.bucket = bucket
  total : l.total = p.rootBytes bucket Slot.all
  cap : ∀ s, p.planned s = true → l.cap s = p.bufferBytes bucket (p.rep s)
  aligned : ∀ s, p.planned s = true → 256 ∣ l.offset s
  inside : ∀ s, p.planned s = true → l.offset s + l.cap s ≤ l.total
  shared : ∀ s t, p.planned s = true → p.planned t = true → p.rep s = p.rep t →
    l.offset s = l.offset t
  apart : ∀ s t, p.planned s = true → p.planned t = true → p.rep s ≠ p.rep t →
    l.offset s + l.cap s ≤ l.offset t ∨ l.offset t + l.cap t ≤ l.offset s

theorem compute_spans (hroot : ∀ s, p.planned s = true → p.IsRoot (p.rep s)) {n : ℤ}
    (hn : n ≤ 2147483584) (hfit : p.arenaBytes n < 18446744073709551616) :
    Spans p (memRowsBucket n) (compute p n) := by
  obtain ⟨-, hb, hb'⟩ := memRowsBucket_spec hn
  have hstart : Placed p (memRowsBucket n) [] ⟨fun _ => 0, fun _ => 0, 0, memRowsBucket n⟩ :=
    ⟨rfl, rfl, ⟨0, rfl⟩, fun _ h => (by cases h), fun _ h => (by cases h)⟩
  have hplaced := hstart.foldl (by omega) hb' Slot.all MemPlan.nodup_all
    (by rwa [List.nil_append])
  rw [List.nil_append] at hplaced
  obtain ⟨-, hshare⟩ := foldl_share hroot _ Slot.all _ fun _ _ => ⟨rfl, rfl⟩
  have hat := fun s hs => hshare s hs (Or.inl (MemPlan.mem_all s))
  have hpl := fun s hs => hplaced.cap (p.rep s) (MemPlan.mem_all _) (hroot s hs)
  obtain ⟨htotal, hrows⟩ := foldl_share_total (p := p) Slot.all
    (Slot.all.foldl (place p) ⟨fun _ => 0, fun _ => 0, 0, memRowsBucket n⟩)
  unfold compute
  refine ⟨hrows.trans hplaced.rows, htotal.trans hplaced.total, fun s hs => ?_, fun s hs => ?_,
    fun s hs => ?_, fun s t hs ht heq => ?_, fun s t hs ht hne => ?_⟩
  · rw [(hat s hs).2]
    exact (hpl s hs).1
  · rw [(hat s hs).1]
    exact (hpl s hs).2.1
  · rw [(hat s hs).1, (hat s hs).2, htotal]
    exact (hpl s hs).2.2
  · rw [(hat s hs).1, (hat t ht).1, heq]
  · rw [(hat s hs).1, (hat s hs).2, (hat t ht).1, (hat t ht).2]
    exact hplaced.apart _ (MemPlan.mem_all _) _ (MemPlan.mem_all _) (hroot s hs) (hroot t ht) hne

end MemLayout

/-! The live range of a value covers every node that touches it, the start if it has no producer,
and the layer section if the section reads it from before. -/

namespace CgGraph

variable {g : CgGraph} {ranges ranges' : List CgRange} {v t : ℕ}

/-- The node reads or writes the value. -/
def Touches (g : CgGraph) (t v : ℕ) : Prop :=
  ∃ n : CgNode, g.nodes[t]? = some n ∧ v ∈ n.ins ++ n.outs

/-- Every range of the second list covers the one of the first. -/
def Covers (ranges ranges' : List CgRange) : Prop :=
  ranges'.length = ranges.length ∧ ∀ (v : ℕ) (r : CgRange), ranges[v]? = some r →
    ∃ r' : CgRange, ranges'[v]? = some r' ∧ r'.start ≤ r.start ∧ r.stop ≤ r'.stop

theorem Covers.refl (ranges : List CgRange) : Covers ranges ranges :=
  ⟨rfl, fun _ r h => ⟨r, h, le_rfl, le_rfl⟩⟩

theorem Covers.trans {a b c : List CgRange} (h : Covers a b) (h' : Covers b c) : Covers a c := by
  refine ⟨h'.1.trans h.1, fun v r hr => ?_⟩
  obtain ⟨r', hr', hs, he⟩ := h.2 v r hr
  obtain ⟨r'', hr'', hs', he'⟩ := h'.2 v r' hr'
  exact ⟨r'', hr'', hs'.trans hs, he.trans he'⟩

theorem covers_modify (ranges : List CgRange) (v : ℕ) (lo hi : ℤ) :
    Covers ranges (ranges.modify v fun r => r.extend lo hi) := by
  refine ⟨List.length_modify .., fun w r hr => ?_⟩
  rw [List.getElem?_modify, hr]
  by_cases hvw : v = w
  · refine ⟨r.extend lo hi, by simp [hvw], min_le_left _ _, le_max_left _ _⟩
  · exact ⟨r, by simp [hvw], le_rfl, le_rfl⟩

/-- The value is covered at the place, as far as the list has it. -/
def CoversAt (v t : ℕ) (ranges : List CgRange) : Prop :=
  ∀ r : CgRange, ranges[v]? = some r → r.start ≤ t ∧ t ≤ r.stop

theorem CoversAt.mono (h : CoversAt v t ranges) (hc : Covers ranges ranges') :
    CoversAt v t ranges' := by
  intro r' hr'
  have hlt : v < ranges.length := hc.1 ▸ (List.getElem?_eq_some_iff.mp hr').1
  obtain ⟨r'', hr'', hs, he⟩ := hc.2 v _ (List.getElem?_eq_getElem hlt)
  obtain rfl : r'' = r' := Option.some.inj (hr''.symm.trans hr')
  obtain ⟨hs', he'⟩ := h _ (List.getElem?_eq_getElem hlt)
  exact ⟨hs.trans hs', he'.trans he⟩

/-- What one node adds to the ranges. -/
def touchNode (ranges : List CgRange) (p : CgNode × ℕ) : List CgRange :=
  (p.1.ins ++ p.1.outs).foldl (fun r v => r.modify v fun r => r.extend p.2 p.2) ranges

theorem covers_touchNode (ranges : List CgRange) (p : CgNode × ℕ) :
    Covers ranges (touchNode ranges p) :=
  foldl_climbs Covers.refl Covers.trans (fun r v => covers_modify r v _ _) _ _

theorem touchNode_coversAt {n : CgNode} (hv : v ∈ n.ins ++ n.outs) (ranges : List CgRange) :
    CoversAt v t (touchNode ranges (n, t)) := by
  refine foldl_reaches (P := CoversAt v t)
    (fun r w h => h.mono (covers_modify r w _ _)) (fun r q hq => ?_) hv ranges
  rw [List.getElem?_modify] at hq
  obtain ⟨q', -, rfl⟩ := Option.map_eq_some_iff.mp hq
  rw [if_pos rfl]
  exact ⟨min_le_right _ _, le_max_right _ _⟩

theorem touchRanges_coversAt (h : g.Touches t v) : CoversAt v t g.touchRanges := by
  obtain ⟨n, hn, hv⟩ := h
  exact foldl_reaches (P := CoversAt v t) (f := touchNode)
    (fun r p hr => hr.mono (covers_touchNode r p)) (touchNode_coversAt hv)
    (List.mk_mem_zipIdx_iff_getElem?.mpr hn) _

theorem length_touchRanges (g : CgGraph) : g.touchRanges.length = g.values.length := by
  have h : Covers (List.replicate g.values.length .untouched) g.touchRanges :=
    foldl_climbs (f := touchNode) Covers.refl Covers.trans covers_touchNode _ _
  rw [h.1, List.length_replicate]

theorem covers_carryRanges (g : CgGraph) (ranges : List CgRange) :
    Covers ranges (g.carryRanges ranges) :=
  foldl_climbs Covers.refl Covers.trans
    (fun r _ => (covers_modify r _ _ _).trans (covers_modify _ _ _ _)) _ _

theorem covers_viewRange (g : CgGraph) (ranges : List CgRange) (v : ℕ) :
    Covers ranges (g.viewRange ranges v) := by
  unfold viewRange
  dsimp only
  split
  · split_ifs
    · exact covers_modify _ _ _ _
    · exact .refl _
  · exact .refl _

/-- The final range of a value covers what the section loop made of its touches. -/
theorem sectionRange_le_range (hv : v < g.values.length) :
    ∃ r : CgRange, g.touchRanges[v]? = some r ∧
      (g.range v).start ≤ (g.sectionRange (g.value v) r).start ∧
      (g.sectionRange (g.value v) r).stop ≤ (g.range v).stop := by
  have hlt : v < g.touchRanges.length := g.length_touchRanges ▸ hv
  have hzip : (List.zipWith g.sectionRange g.values g.touchRanges)[v]? =
      some (g.sectionRange (g.value v) (g.touchRanges[v])) := by
    rw [List.getElem?_zipWith, List.getElem?_eq_getElem hv, List.getElem?_eq_getElem hlt, value,
      List.getD_eq_getElem?_getD, List.getElem?_eq_getElem hv]
    rfl
  have hc : Covers (List.zipWith g.sectionRange g.values g.touchRanges) g.valueRanges :=
    (covers_carryRanges g _).trans (foldl_climbs Covers.refl Covers.trans (covers_viewRange g) _ _)
  obtain ⟨r', hr', hs, he⟩ := hc.2 v _ hzip
  refine ⟨_, List.getElem?_eq_getElem hlt, ?_⟩
  rw [range, List.getD_eq_getElem?_getD, hr']
  exact ⟨hs, he⟩

/-- A value that is touched is live there; one without a producer is live from the start; one from
before the layer section that the section touches is live to its end. -/
theorem range_of_touches (h : g.Touches t v) (hv : v < g.values.length) :
    (g.range v).start ≤ t ∧ t ≤ (g.range v).stop ∧
      ((g.value v).producer = none → (g.range v).start ≤ 0) ∧
      ((∀ p ∈ (g.value v).producer, p < g.layerBegin) → g.layerBegin ≤ t → t < g.postBegin →
        (g.postBegin : ℤ) - 1 ≤ (g.range v).stop) := by
  obtain ⟨r, hr, hs, he⟩ := sectionRange_le_range hv
  obtain ⟨hlo, hhi⟩ := touchRanges_coversAt h r hr
  have hpos : ¬ r.stop < 0 := by omega
  unfold sectionRange at hs he
  rw [if_neg hpos] at hs he
  dsimp only at hs he
  refine ⟨?_, ?_, fun hnone => ?_, fun hearly hlb hpb => ?_⟩
  · split_ifs at hs <;> dsimp only at hs <;> omega
  · split_ifs at he <;> dsimp only at he <;> omega
  · rw [if_pos hnone] at hs
    split_ifs at hs
    · exact hs
    · exact hs
  · by_cases hstop : r.stop < g.postBegin
    · rw [if_pos ⟨hearly, by omega, hstop⟩] at he
      exact he
    · rw [if_neg fun hall => hstop hall.2.2] at he
      dsimp only at he
      omega

end CgGraph

end Kappai
