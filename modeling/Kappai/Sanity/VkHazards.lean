import Kappai.Lib.Framing
import Kappai.Spec.CommandDispatch
import Mathlib.Data.List.Perm.Subperm

/-! What the dirty table and the read set know about the commands of a buffer: a buffer with a write or a
read that no barrier stands behind is in them, as long as the table has a slot for it. -/

namespace Kappai

theorem setAt_eq_update {α : Type} (f : ℕ → α) (i : ℕ) (v : α) :
    setAt f i v = Function.update f i v := by
  funext j
  simp only [setAt, Function.update_apply, Bool.cond_eq_ite, Nat.beq_eq]

/-- Between two dispatches that clash a barrier stands that orders them; if the first one writes, it
covers the buffer. -/
def VkOrdered (cmds : List VkCmd) : Prop := ∀ b,
  Parted (VkCmd.writes b) (fun c => c.writes b ∨ c.reads b) (VkCmd.covers b) cmds ∧
    Parted (VkCmd.reads b) (VkCmd.writes b) VkCmd.orders cmds

theorem VkOrdered.nil : VkOrdered [] := fun _ => ⟨parted_nil, parted_nil⟩

/-- A command that uses no buffer. -/
def VkCmd.Quiet (c : VkCmd) : Prop := ∀ b, ¬ c.writes b ∧ ¬ c.reads b

theorem VkOrdered.quiet {cmds cs : List VkCmd} (h : VkOrdered cmds) (hcs : ∀ c ∈ cs, c.Quiet) :
    VkOrdered (cmds ++ cs) := by
  induction cs generalizing cmds with
  | nil => rwa [List.append_nil]
  | cons c cs ih =>
    have hc := hcs c List.mem_cons_self
    have hone : VkOrdered (cmds ++ [c]) := fun b =>
      ⟨(h b).1.append fun hu => absurd hu (not_or.2 (hc b)), (h b).2.append fun hu => absurd hu (hc b).1⟩
    have hrest := ih hone fun c' hc' => hcs c' (List.mem_cons_of_mem _ hc')
    rwa [List.append_assoc, List.singleton_append] at hrest

theorem VkCmd.orders.quiet {c : VkCmd} (hc : c.orders) : c.Quiet := by
  cases c with
  | barrier => exact fun _ => ⟨id, id⟩
  | bufferBarriers bufs => exact fun _ => ⟨id, id⟩
  | bindPipeline pipeline => exact hc.elim
  | bindSet set => exact hc.elim
  | dispatch uses wants bound => exact hc.elim

namespace VkHazards

/-- `dirty_count` is the number of buffers in the table. -/
def Counted (h : VkHazards) : Prop :=
  h.dirtyCount = (ProbeTable.held 0 1 h.dirtyTable (Finset.range 256)).card

variable {h : VkHazards} {buf b : ℕ}

theorem mem_vkDirtyProbe {q : ℕ} : q ∈ vkDirtyProbe buf ↔ q < 256 := by
  rw [vkDirtyProbe, List.mem_map]
  constructor
  · rintro ⟨i, -, rfl⟩
    exact Nat.mod_lt _ (by decide)
  · intro hq
    refine ⟨(q + 256 - vkDirtyIndex buf % 256) % 256, List.mem_range.2 (Nat.mod_lt _ (by decide)), ?_⟩
    omega

theorem counted_vkDirtyClear : h.vkDirtyClear.Counted := by
  simp [Counted, vkDirtyClear, ProbeTable.held]

theorem lookup_clear : h.vkDirtyClear.vkDirtyLookup buf = false := by
  rw [vkDirtyLookup, vkDirtyProbe, List.range_succ_eq_map, List.map_cons, ProbeTable.lookup]
  exact if_pos rfl

theorem ne_zero_of_lookup (hb : h.vkDirtyLookup b = true) : b ≠ 0 := by
  obtain ⟨-, -, -, hne⟩ := ProbeTable.exists_of_lookup hb
  exact hne

theorem Counted.pos (hc : h.Counted) (hb : h.vkDirtyLookup b = true) (h1 : b ≠ 1) :
    0 < h.dirtyCount := by
  obtain ⟨q, hq, rfl, h0⟩ := ProbeTable.exists_of_lookup hb
  rw [hc]
  exact Finset.card_pos.2 ⟨q, Finset.mem_filter.2 ⟨Finset.mem_range.2 (mem_vkDirtyProbe.1 hq), h0, h1⟩⟩

section Insert

/-- A slot that was not used since the table was cleared. -/
def hasRoom (h : VkHazards) : Bool := (List.range 256).any fun q => h.dirtyTable q == 0

/-- The buffer gets the slot that is found for it, if there is one. -/
theorem vkDirtyInsert_cases (h : VkHazards) (buf : ℕ) :
    (∃ q, ProbeTable.insertSlot 0 1 h.dirtyTable buf none (vkDirtyProbe buf) = some q ∧
      h.vkDirtyInsert buf =
        { h with dirtyTable := Function.update h.dirtyTable q buf, dirtyCount := h.dirtyCount + 1 }) ∨
    ProbeTable.insertSlot 0 1 h.dirtyTable buf none (vkDirtyProbe buf) = none ∧
      h.vkDirtyInsert buf = h := by
  cases hq : ProbeTable.insertSlot 0 1 h.dirtyTable buf none (vkDirtyProbe buf) with
  | some q => exact Or.inl ⟨q, rfl, by rw [vkDirtyInsert, hq, ← setAt_eq_update]⟩
  | none => exact Or.inr ⟨rfl, by rw [vkDirtyInsert, hq]⟩

theorem vkDirtyInsert_lookup_ne (h0 : buf ≠ 0) (hb : h.vkDirtyLookup b = true) (hb1 : b ≠ 1) :
    (h.vkDirtyInsert buf).vkDirtyLookup b = true := by
  rcases vkDirtyInsert_cases h buf with ⟨q, hq, heq⟩ | ⟨-, heq⟩
  · have hold := (ProbeTable.insertSlot_start hq h0).1
    rw [heq]
    refine ProbeTable.lookup_update hb h0 fun hqb => ?_
    rcases hold with hq0 | hq1
    · exact absurd (hqb.symm.trans hq0) (ne_zero_of_lookup hb)
    · exact absurd (hqb.symm.trans hq1) hb1
  · rw [heq]
    exact hb

theorem vkDirtyInsert_lookup (h0 : buf ≠ 0) (hroom : h.hasRoom = true) :
    (h.vkDirtyInsert buf).vkDirtyLookup buf = true := by
  rcases vkDirtyInsert_cases h buf with ⟨q, hq, heq⟩ | ⟨hnone, heq⟩
  · rw [heq]
    exact (ProbeTable.insertSlot_start hq h0).2
  · rw [heq]
    rcases ProbeTable.insertSlot_none hnone h0 with hin | hall
    · exact hin
    · obtain ⟨q, hq, hz⟩ := List.any_eq_true.1 hroom
      exact absurd (beq_iff_eq.1 hz) (hall q (mem_vkDirtyProbe.2 (List.mem_range.1 hq)))

theorem counted_vkDirtyInsert (h0 : buf ≠ 0) (h1 : buf ≠ 1) (hc : h.Counted) :
    (h.vkDirtyInsert buf).Counted := by
  rcases vkDirtyInsert_cases h buf with ⟨q, hq, heq⟩ | ⟨-, heq⟩
  · have hold := (ProbeTable.insertSlot_start hq h0).1
    have hmem : q ∈ Finset.range 256 := by
      rcases ProbeTable.insertSlot_mem hq with hp | hp
      · exact Finset.mem_range.2 (mem_vkDirtyProbe.1 hp)
      · cases hp
    rw [heq]
    change h.dirtyCount + 1 = _
    rw [ProbeTable.card_held_insert hmem hold h0 h1, hc]
  · rw [heq]
    exact hc

@[simp] theorem vkReadsHas_vkDirtyInsert : (h.vkDirtyInsert buf).vkReadsHas b = h.vkReadsHas b := by
  rcases vkDirtyInsert_cases h buf with ⟨q, -, heq⟩ | ⟨-, heq⟩
  · rw [heq]
    rfl
  · rw [heq]

end Insert

section Remove

/-- The slot of the buffer is marked as removed, if it has one. -/
theorem vkDirtyRemove_cases (h : VkHazards) (buf : ℕ) :
    (∃ q, ProbeTable.removeSlot 0 h.dirtyTable buf (vkDirtyProbe buf) = some q ∧
      h.vkDirtyRemove buf =
        { h with dirtyTable := Function.update h.dirtyTable q 1, dirtyCount := h.dirtyCount - 1 }) ∨
    h.vkDirtyRemove buf = h := by
  cases hq : ProbeTable.removeSlot 0 h.dirtyTable buf (vkDirtyProbe buf) with
  | some q => exact Or.inl ⟨q, rfl, by rw [vkDirtyRemove, hq, ← setAt_eq_update]⟩
  | none => exact Or.inr (by rw [vkDirtyRemove, hq])

theorem counted_vkDirtyRemove (h1 : buf ≠ 1) (hc : h.Counted) : (h.vkDirtyRemove buf).Counted := by
  rcases vkDirtyRemove_cases h buf with ⟨q, hq, heq⟩ | heq
  · obtain ⟨hmem, rfl, h0⟩ := ProbeTable.removeSlot_spec hq
    have hcard := ProbeTable.card_held_remove
      (Finset.mem_range.2 (mem_vkDirtyProbe.1 hmem)) h0 h1
    rw [heq]
    change h.dirtyCount - 1 = (ProbeTable.held 0 1 (Function.update h.dirtyTable q 1) _).card
    rw [hc]
    omega
  · rw [heq]
    exact hc

theorem vkDirtyRemove_lookup (hne : b ≠ buf) (hb : h.vkDirtyLookup b = true) :
    (h.vkDirtyRemove buf).vkDirtyLookup b = true := by
  rcases vkDirtyRemove_cases h buf with ⟨q, hq, heq⟩ | heq
  · obtain ⟨-, hqb, -⟩ := ProbeTable.removeSlot_spec hq
    rw [heq]
    exact ProbeTable.lookup_update hb Nat.one_ne_zero fun hb' => absurd (hb'.symm.trans hqb) hne
  · rw [heq]
    exact hb

end Remove

/-- What is remembered of the commands: the buffers with a write that no barrier covers, but for those of
`W`, and the buffers with a read that no barrier stands behind, but for those of `R`. -/
structure Tracks (W R : List ℕ) (h : VkHazards) (cmds : List VkCmd) : Prop where
  count : h.Counted
  dirty : ∀ b, Unparted (VkCmd.writes b) (VkCmd.covers b) cmds →
    b ∈ W ∨ h.vkDirtyLookup b = true ∧ b ≠ 1
  read : ∀ b, Unparted (VkCmd.reads b) VkCmd.orders cmds → b ∈ R ∨ h.vkReadsHas b = true

namespace Tracks

variable {W R : List ℕ} {cmds : List VkCmd}

theorem of_nil (hc : h.Counted) : Tracks W R h [] :=
  ⟨hc, fun _ hu => absurd hu not_unparted_nil, fun _ hu => absurd hu not_unparted_nil⟩

/-- After a barrier over everything nothing has to be remembered. -/
theorem of_barrier (hc : h.Counted) : Tracks W R h (cmds ++ [.barrier]) where
  count := hc
  dirty b hu := by
    rcases unparted_append.1 hu with hf | ⟨-, hno⟩
    · exact False.elim hf
    · exact absurd trivial hno
  read b hu := by
    rcases unparted_append.1 hu with hf | ⟨-, hno⟩
    · exact False.elim hf
    · exact absurd trivial hno

/-- A command that is neither a dispatch nor a barrier. -/
theorem quiet (ht : Tracks W R h cmds) {c : VkCmd} (hc : c.Quiet) : Tracks W R h (cmds ++ [c]) where
  count := ht.count
  dirty b hu := by
    rcases unparted_append.1 hu with hf | ⟨hu, -⟩
    · exact absurd hf (hc b).1
    · exact ht.dirty b hu
  read b hu := by
    rcases unparted_append.1 hu with hf | ⟨hu, -⟩
    · exact absurd hf (hc b).2
    · exact ht.read b hu

end Tracks

section Before

variable {bufs : List ℕ} {cmds : List VkCmd} {d : VkDispatch}

theorem takeDirty_nil (hno : (h.takeDirty bufs).1 = []) : (h.takeDirty bufs).2 = h := by
  induction bufs with
  | nil => rfl
  | cons buf bufs ih =>
    rw [takeDirty] at hno ⊢
    split_ifs at hno ⊢ with hin
    exact ih hno

theorem counted_takeDirty (h1 : 1 ∉ bufs) (hc : h.Counted) : (h.takeDirty bufs).2.Counted := by
  induction bufs generalizing h with
  | nil => exact hc
  | cons buf bufs ih =>
    have h1' : 1 ∉ bufs := fun hm => h1 (List.mem_cons_of_mem _ hm)
    have hbuf : buf ≠ 1 := fun he => h1 (he ▸ List.mem_cons_self)
    rw [takeDirty]
    split_ifs with hin
    · exact ih h1' (counted_vkDirtyRemove hbuf hc)
    · exact ih h1' hc

/-- A buffer that is in the table is taken, if it is one of these, or it stays in the table. -/
theorem takeDirty_lookup (hb : h.vkDirtyLookup b = true) :
    b ∈ (h.takeDirty bufs).1 ∨ b ∉ bufs ∧ (h.takeDirty bufs).2.vkDirtyLookup b = true := by
  induction bufs generalizing h with
  | nil => exact Or.inr ⟨List.not_mem_nil, hb⟩
  | cons buf bufs ih =>
    rw [takeDirty]
    split_ifs with hin
    · by_cases heq : b = buf
      · exact Or.inl (heq ▸ List.mem_cons_self)
      · rcases ih (vkDirtyRemove_lookup heq hb) with htaken | ⟨hnot, hstays⟩
        · exact Or.inl (List.mem_cons_of_mem _ htaken)
        · exact Or.inr ⟨List.not_mem_cons_of_ne_of_not_mem heq hnot, hstays⟩
    · have heq : b ≠ buf := fun heq => hin (heq ▸ hb)
      rcases ih hb with htaken | ⟨hnot, hstays⟩
      · exact Or.inl htaken
      · exact Or.inr ⟨List.not_mem_cons_of_ne_of_not_mem heq hnot, hstays⟩

/-- What a dispatch must not find: a write of a buffer that it uses, a read of one that it writes. -/
def Clear (d : VkDispatch) (cmds : List VkCmd) : Prop :=
  (∀ b ∈ d.bufs, ¬ Unparted (VkCmd.writes b) (VkCmd.covers b) cmds) ∧
    ∀ b ∈ d.written, ¬ Unparted (VkCmd.reads b) VkCmd.orders cmds

theorem Clear.nil : Clear d [] := ⟨fun _ _ => not_unparted_nil, fun _ _ => not_unparted_nil⟩

theorem tracks_warBarrier (ht : Tracks [] [] h cmds) :
    Tracks [] [] (h.warBarrier d).2 (cmds ++ (h.warBarrier d).1) ∧
      ∀ b ∈ d.written, ¬ Unparted (VkCmd.reads b) VkCmd.orders (cmds ++ (h.warBarrier d).1) := by
  rw [warBarrier]
  split_ifs with hwar
  · refine ⟨Tracks.of_barrier counted_vkDirtyClear, fun b _ hu => ?_⟩
    rcases unparted_append.1 hu with hf | ⟨-, hno⟩
    · exact hf
    · exact hno trivial
  · rw [List.append_nil]
    refine ⟨ht, fun b hb hu => hwar (List.any_eq_true.2 ⟨b, hb, ?_⟩)⟩
    exact (ht.read b hu).resolve_left List.not_mem_nil

theorem tracks_dirtyBarriers (ht : Tracks [] [] h cmds) (h1 : 1 ∉ bufs) :
    Tracks [] [] (h.dirtyBarriers bufs).2 (cmds ++ (h.dirtyBarriers bufs).1) ∧
      ∀ b ∈ bufs, ¬ Unparted (VkCmd.writes b) (VkCmd.covers b) (cmds ++ (h.dirtyBarriers bufs).1) := by
  have hdirty := fun b hu => (ht.dirty b hu).resolve_left List.not_mem_nil
  rw [dirtyBarriers]
  split_ifs with hzero
  · rw [List.append_nil]
    refine ⟨ht, fun b _ hu => ?_⟩
    have := ht.count.pos (hdirty b hu).1 (hdirty b hu).2
    omega
  · by_cases hno : (h.takeDirty bufs).1 = []
    · simp only [hno, if_true, takeDirty_nil hno, List.append_nil, if_neg hzero]
      refine ⟨ht, fun b hb hu => ?_⟩
      rcases takeDirty_lookup (hdirty b hu).1 with htaken | ⟨hnot, -⟩
      · rw [hno] at htaken
        exact absurd htaken List.not_mem_nil
      · exact hnot hb
    · simp only [hno, if_false]
      set r := h.takeDirty bufs
      have hc : r.2.vkReadsClear.Counted := counted_takeDirty h1 ht.count
      -- a write that the barrier leaves is of a buffer that was not taken
      have hleft : ∀ b, Unparted (VkCmd.writes b) (VkCmd.covers b) (cmds ++ [.bufferBarriers r.1]) →
          b ∉ bufs ∧ r.2.vkDirtyLookup b = true ∧ b ≠ 1 := by
        intro b hu
        rcases unparted_append.1 hu with hf | ⟨hu, hnot⟩
        · exact False.elim hf
        · obtain ⟨hnot', hstays⟩ := (takeDirty_lookup (hdirty b hu).1).resolve_left hnot
          exact ⟨hnot', hstays, (hdirty b hu).2⟩
      have hread : ∀ b, ¬ Unparted (VkCmd.reads b) VkCmd.orders (cmds ++ [.bufferBarriers r.1]) := by
        intro b hu
        rcases unparted_append.1 hu with hf | ⟨-, hno⟩
        · exact hf
        · exact hno trivial
      refine ⟨?_, fun b hb hu => (hleft b hu).1 hb⟩
      split_ifs with hempty
      · refine ⟨counted_vkDirtyClear, fun b hu => ?_, fun b hu => absurd hu (hread b)⟩
        have := hc.pos (hleft b hu).2.1 (hleft b hu).2.2
        omega
      · exact ⟨hc, fun b hu => Or.inr (hleft b hu).2, fun b hu => absurd hu (hread b)⟩

theorem orders_warBarrier : ∀ c ∈ (h.warBarrier d).1, c.orders := by
  rw [warBarrier]
  split_ifs
  · exact List.forall_mem_singleton.2 trivial
  · exact fun _ hc => absurd hc List.not_mem_nil

theorem orders_dirtyBarriers : ∀ c ∈ (h.dirtyBarriers bufs).1, c.orders := by
  rw [dirtyBarriers]
  split_ifs
  · exact fun _ hc => absurd hc List.not_mem_nil
  · dsimp only
    split_ifs
    · exact fun _ hc => absurd hc List.not_mem_nil
    · exact List.forall_mem_singleton.2 trivial

theorem orders_before : ∀ c ∈ (h.before d).1, c.orders := fun c hc => by
  rcases List.mem_append.1 hc with hc | hc
  · exact orders_warBarrier c hc
  · exact orders_dirtyBarriers c hc

theorem unparted_quiet {b : ℕ} {cs : List VkCmd} (hcs : ∀ c ∈ cs, c.Quiet)
    (hu : Unparted (VkCmd.reads b) VkCmd.orders (cmds ++ cs)) :
    Unparted (VkCmd.reads b) VkCmd.orders cmds := by
  induction cs generalizing cmds with
  | nil => rwa [List.append_nil] at hu
  | cons c cs ih =>
    rw [← List.singleton_append, ← List.append_assoc] at hu
    rcases unparted_append.1 (ih (fun c' hc' => hcs c' (List.mem_cons_of_mem _ hc')) hu) with hf | ⟨hu, -⟩
    · exact absurd hf (hcs c List.mem_cons_self b).2
    · exact hu

theorem tracks_before (ht : Tracks [] [] h cmds) (h1 : 1 ∉ d.bufs) :
    Tracks [] [] (h.before d).2 (cmds ++ (h.before d).1) ∧ Clear d (cmds ++ (h.before d).1) := by
  obtain ⟨hwar, hread⟩ := tracks_warBarrier (d := d) ht
  obtain ⟨hdirty, hwrite⟩ := tracks_dirtyBarriers hwar h1
  rw [before, ← List.append_assoc]
  exact ⟨hdirty, hwrite, fun b hb hu => hread b hb (unparted_quiet (fun c hc => (orders_dirtyBarriers c hc).quiet) hu)⟩

end Before

section Record

variable {cmds : List VkCmd} {d : VkDispatch} {wants : List VkBinding}
  {bound : Option (List VkBinding)}

theorem mem_written : b ∈ d.written ↔ (b, true) ∈ d.uses := by
  simp [VkDispatch.written, VkDispatch.uses]

theorem mem_read : b ∈ d.read ↔ (b, false) ∈ d.uses := by
  simp [VkDispatch.read, VkDispatch.uses]

theorem mem_bufs_of_uses {w : Bool} (hb : (b, w) ∈ d.uses) : b ∈ d.bufs := by
  obtain ⟨e, he, heq⟩ := List.mem_map.1 hb
  obtain rfl : e.1 = b := congrArg Prod.fst heq
  exact List.fst_mem_of_mem_zipIdx he

theorem ordered_dispatch (ho : VkOrdered cmds) (hclear : Clear d cmds) :
    VkOrdered (cmds ++ [.dispatch d.uses wants bound]) := fun b =>
  ⟨(ho b).1.append fun hu => hclear.1 b (hu.elim mem_bufs_of_uses mem_bufs_of_uses),
    (ho b).2.append fun hu => hclear.2 b (mem_written.2 hu)⟩

theorem tracks_dispatch (ht : Tracks [] [] h cmds) :
    Tracks d.written d.read h (cmds ++ [.dispatch d.uses wants bound]) where
  count := ht.count
  dirty b hu := by
    rcases unparted_append.1 hu with hw | ⟨hu, -⟩
    · exact Or.inl (mem_written.2 hw)
    · exact Or.inr ((ht.dirty b hu).resolve_left List.not_mem_nil)
  read b hu := by
    rcases unparted_append.1 hu with hr | ⟨hu, -⟩
    · exact Or.inl (mem_read.2 hr)
    · exact Or.inr ((ht.read b hu).resolve_left List.not_mem_nil)

theorem Clear.quiet {c : VkCmd} (hclear : Clear d cmds) (hc : c.Quiet) : Clear d (cmds ++ [c]) := by
  constructor
  · intro b hb hu
    rcases unparted_append.1 hu with hf | ⟨hu, -⟩
    · exact (hc b).1 hf
    · exact hclear.1 b hb hu
  · intro b hb hu
    rcases unparted_append.1 hu with hf | ⟨hu, -⟩
    · exact (hc b).2 hf
    · exact hclear.2 b hb hu

end Record

section After

variable {W R : List ℕ} {cmds : List VkCmd} {d : VkDispatch}

/-- Each buffer that the dispatch writes finds a slot: it is in the table already, the table is emptied
before, or a slot was not used yet. -/
def dirtyFits (h : VkHazards) : List ℕ → Bool
  | [] => true
  | buf :: bufs =>
    (decide (128 ≤ h.dirtyCount) || h.vkDirtyLookup buf || h.hasRoom) &&
      (h.dirtyAddBuf buf).2.dirtyFits bufs

theorem hasRoom_clear : h.vkDirtyClear.hasRoom = true := by
  rw [hasRoom, List.any_eq_true]
  exact ⟨0, List.mem_range.2 (by decide), rfl⟩

/-- A buffer is put into the table, unless it is there. -/
theorem Tracks.insert (ht : Tracks (buf :: W) R h cmds) (h0 : buf ≠ 0) (h1 : buf ≠ 1)
    (hin : h.vkDirtyLookup buf = true ∨ h.hasRoom = true) :
    Tracks W R (if h.vkDirtyLookup buf then h else h.vkDirtyInsert buf) cmds := by
  split_ifs with hlook
  · refine ⟨ht.count, fun b hu => ?_, ht.read⟩
    rcases ht.dirty b hu with hb | hb
    · rcases List.mem_cons.1 hb with rfl | hb
      · exact Or.inr ⟨hlook, h1⟩
      · exact Or.inl hb
    · exact Or.inr hb
  · have hroom := hin.resolve_left hlook
    refine ⟨counted_vkDirtyInsert h0 h1 ht.count, fun b hu => ?_, fun b hu => ?_⟩
    · rcases ht.dirty b hu with hb | ⟨hb, hb1⟩
      · rcases List.mem_cons.1 hb with rfl | hb
        · exact Or.inr ⟨vkDirtyInsert_lookup h0 hroom, h1⟩
        · exact Or.inl hb
      · exact Or.inr ⟨vkDirtyInsert_lookup_ne h0 hb hb1, hb1⟩
    · rw [vkReadsHas_vkDirtyInsert]
      exact ht.read b hu

theorem tracks_dirtyAddBuf (ht : Tracks (buf :: W) R h cmds) (h0 : buf ≠ 0) (h1 : buf ≠ 1)
    (hfit : (decide (128 ≤ h.dirtyCount) || h.vkDirtyLookup buf || h.hasRoom) = true) :
    Tracks W R (h.dirtyAddBuf buf).2 (cmds ++ (h.dirtyAddBuf buf).1) := by
  rw [dirtyAddBuf]
  by_cases hfull : 128 ≤ h.dirtyCount
  · simp only [hfull, if_true]
    exact Tracks.insert (Tracks.of_barrier counted_vkDirtyClear) h0 h1 (Or.inr hasRoom_clear)
  · simp only [hfull, if_false, List.append_nil]
    refine Tracks.insert ht h0 h1 ?_
    simpa [hfull] using hfit

theorem tracks_vkDirtyAdd {bufs : List ℕ} (ht : Tracks bufs R h cmds) (h0 : 0 ∉ bufs) (h1 : 1 ∉ bufs)
    (hfit : h.dirtyFits bufs = true) :
    Tracks [] R (h.vkDirtyAdd bufs).2 (cmds ++ (h.vkDirtyAdd bufs).1) := by
  induction bufs generalizing h cmds with
  | nil => rwa [vkDirtyAdd, List.append_nil]
  | cons buf bufs ih =>
    rw [dirtyFits, Bool.and_eq_true] at hfit
    rw [List.mem_cons, not_or] at h0 h1
    have hone := tracks_dirtyAddBuf ht (Ne.symm h0.1) (Ne.symm h1.1) hfit.1
    rw [vkDirtyAdd, ← List.append_assoc]
    exact ih hone h0.2 h1.2 hfit.2

theorem orders_vkDirtyAdd {bufs : List ℕ} : ∀ c ∈ (h.vkDirtyAdd bufs).1, c.orders := by
  induction bufs generalizing h with
  | nil => exact fun _ hc => absurd hc List.not_mem_nil
  | cons buf bufs ih =>
    intro c hc
    rcases List.mem_append.1 hc with hc | hc
    · rw [dirtyAddBuf] at hc
      dsimp only at hc
      split_ifs at hc
      · obtain rfl := List.mem_singleton.1 hc
        exact trivial
      · exact absurd hc List.not_mem_nil
    · exact ih c hc

theorem tracks_vkReadsAdd (ht : Tracks W (buf :: R) h cmds) : Tracks W R (h.vkReadsAdd buf) cmds := by
  have hkeep : ∀ b, h.vkReadsHas b = true → (h.vkReadsAdd buf).vkReadsHas b = true := by
    intro b hb
    rw [vkReadsAdd]
    split_ifs
    · exact hb
    · rfl
    · simp only [vkReadsHas, Bool.or_eq_true, List.contains_iff_mem, List.mem_append] at hb ⊢
      exact hb.imp_right Or.inl
  have hnew : (h.vkReadsAdd buf).vkReadsHas buf = true := by
    rw [vkReadsAdd]
    split_ifs with hin
    · exact hin
    · rfl
    · simp [vkReadsHas]
  have htable : (h.vkReadsAdd buf).dirtyTable = h.dirtyTable ∧
      (h.vkReadsAdd buf).dirtyCount = h.dirtyCount := by
    rw [vkReadsAdd]
    split_ifs <;> exact ⟨rfl, rfl⟩
  refine ⟨?_, fun b hu => ?_, fun b hu => ?_⟩
  · rw [Counted, htable.1, htable.2]
    exact ht.count
  · rw [vkDirtyLookup, htable.1]
    exact ht.dirty b hu
  · rcases ht.read b hu with hb | hb
    · rcases List.mem_cons.1 hb with rfl | hb
      · exact Or.inr hnew
      · exact Or.inl hb
    · exact Or.inr (hkeep b hb)

theorem tracks_reads (ht : Tracks W R h cmds) : Tracks W [] (R.foldl vkReadsAdd h) cmds := by
  induction R generalizing h with
  | nil => exact ht
  | cons buf R ih => exact ih (tracks_vkReadsAdd ht)

/-- The dispatch is remembered. -/
theorem tracks_after (ht : Tracks d.written d.read h cmds) (h0 : 0 ∉ d.bufs) (h1 : 1 ∉ d.bufs)
    (hfit : h.dirtyFits d.written = true) :
    Tracks [] [] (h.after d).2 (cmds ++ (h.after d).1) := by
  have hsub : ∀ b ∈ d.written, b ∈ d.bufs := fun b hb => mem_bufs_of_uses (mem_written.1 hb)
  exact tracks_reads (tracks_vkDirtyAdd ht (fun hb => h0 (hsub 0 hb)) (fun hb => h1 (hsub 1 hb)) hfit)

end After

end VkHazards

end Kappai
