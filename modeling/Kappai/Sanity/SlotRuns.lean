import Kappai.Spec.RecipeExec

/-! What one op does to two banks that are alike in a set of slots. -/

namespace Kappai

open RecipeOp

variable {V S : Type*}

/-- The banks agree on the slots, and no two slots of either share a buffer. -/
def Alike (L : Set Slot) (m m' : CellBank Slot Slot V S) : Prop :=
  CellBank.Agree L m m' ∧ m.Respects id ∧ m'.Respects id

theorem Alike.mono {L L' : Set Slot} {m m' : CellBank Slot Slot V S} (h : Alike L m m')
    (hL : L' ⊆ L) : Alike L' m m' := ⟨h.1.mono hL, h.2⟩

theorem alike_private (L : Set Slot) (env : S) (mem : Slot → V) :
    Alike L (privateBank env mem) (privateBank env mem) :=
  ⟨⟨rfl, fun _ _ => rfl⟩, fun _ _ h => h, fun _ _ h => h⟩

/-- An op is a swap of two slots, or it loads and stores. -/
theorem instr_cases (K : Kernels V S) (layer : Option ℕ) (op : RecipeOp) :
    (∃ a b, op.kind = .swap ∧ op.in0 = some a ∧ op.in1 = some b ∧
      instr K layer op = .exchange a b) ∨
    instr K layer op = .op ⟨op.loads, op.stores, op.scratch, K.run layer op⟩ := by
  unfold instr
  split
  · rename_i a b hk ha hb
    exact Or.inl ⟨a, b, hk, ha, hb, rfl⟩
  · exact Or.inr rfl

theorem swap_touches {op : RecipeOp} {a b : Slot} (hk : op.kind = .swap) (ha : op.in0 = some a)
    (hb : op.in1 = some b) : op.loads = [a, b] ∧ op.stores = [a, b] ∧ op.scratch = [] := by
  simp [loads, stores, scratch, hk, OpKind.loads, OpKind.stores, OpKind.batchExtraMask, operand, ha,
    hb]

/-- What an op needs of the live sets about it. -/
theorem sound_id (K : Kernels V S) (layer : Option ℕ) {op : RecipeOp} {L L' : Set Slot}
    (hloads : ∀ s ∈ op.loads, s ∈ L) (hlive : ∀ c ∈ L', c ∈ L ∨ c ∈ op.stores) :
    (instr K layer op).Sound id L L' := by
  rcases instr_cases K layer op with ⟨a, b, hk, ha, hb, heq⟩ | heq
  · obtain ⟨hl, hs, -⟩ := swap_touches hk ha hb
    rw [hl] at hloads
    rw [hs] at hlive
    rw [heq]
    refine ⟨⟨hloads a (by simp), hloads b (by simp)⟩, fun c hc => ?_, fun c => ⟨id, id⟩⟩
    rcases hlive c hc with hL | hab
    · exact hL
    · exact hloads c hab
  · rw [heq]
    exact ⟨hloads, hlive, fun c _ w _ hne h => hne h⟩

/-- An op that both programs run. -/
theorem Alike.step (K : Kernels V S) (layer : Option ℕ) {op : RecipeOp} {L L' : Set Slot}
    (hloads : ∀ s ∈ op.loads, s ∈ L) (hlive : ∀ c ∈ L', c ∈ L ∨ c ∈ op.stores)
    {m m' : CellBank Slot Slot V S} (h : Alike L m m') :
    (instr K layer op).inputs m = (instr K layer op).inputs m' ∧
      Alike L' ((instr K layer op).step m) ((instr K layer op).step m') := by
  have hsound := sound_id K layer hloads hlive
  exact ⟨CellInstr.inputs_eq h.1 hsound.reads, hsound.step hsound h.2.1 h.2.2 h.1⟩

/-- An op leaves a slot that it does not touch. -/
theorem read_step_of_untouched {K : Kernels V S} {layer : Option ℕ} {op : RecipeOp} {c : Slot}
    (hs : c ∉ op.stores) (hx : c ∉ op.scratch) {m : CellBank Slot Slot V S} (h : m.Respects id) :
    ((instr K layer op).step m).read c = m.read c := by
  rcases instr_cases K layer op with ⟨a, b, hk, ha, hb, heq⟩ | heq
  · obtain ⟨-, hst, -⟩ := swap_touches hk ha hb
    rw [hst] at hs
    rw [heq]
    have hca : c ≠ a := fun hc => hs (by simp [hc])
    have hcb : c ≠ b := fun hc => hs (by simp [hc])
    simp only [CellInstr.step, CellBank.read, CellBank.exchange, if_neg hca, if_neg hcb]
  · rw [heq]
    refine CellBank.read_writes_of_ne fun p hp hbound => ?_
    have hmem := CellInstr.fst_mem_of_mem_pairs hp
    have hpc : p.1 = c := h _ _ hbound
    rw [hpc] at hmem
    rcases List.mem_append.mp hmem with hmem | hmem
    · exact hs hmem
    · exact hx hmem

/-- A step keeps every slot in a buffer of its own. -/
theorem respects_step {K : Kernels V S} {layer : Option ℕ} {op : RecipeOp}
    {m : CellBank Slot Slot V S} (h : m.Respects id) :
    ((instr K layer op).step m).Respects id := by
  have hself : Alike Set.univ m m := ⟨⟨rfl, fun _ _ => rfl⟩, h, h⟩
  have hnext : _ ∧ Alike Set.univ ((instr K layer op).step m) ((instr K layer op).step m) :=
    hself.step K layer (fun s _ => Set.mem_univ s) fun c _ => Or.inl (Set.mem_univ c)
  exact hnext.2.2.1

/-- A store of one value. -/
theorem step_op_single {o : CellOp Slot V S} {m : CellBank Slot Slot V S} {y : Slot}
    (hst : o.stores = [y]) (hx : o.scratch = []) (h : m.Respects id) (c : Slot) :
    ((CellInstr.op o).step m).read c =
      if c = y then (o.run m.env (o.reads.map m.read)).2.1 0 else m.read c := by
  simp only [CellInstr.step, CellInstr.pairs, hst, hx, List.zipIdx_singleton, List.map_cons,
    List.map_nil, List.zipIdx_nil, List.filterMap_nil, List.append_nil]
  split_ifs with hc
  · rw [hc]
    exact CellBank.read_write_self m y _
  · exact CellBank.read_write_of_ne _ fun hb => hc (h _ _ hb).symm

end Kappai
