import Kappai.Sanity.MoePaths

/-! The paths of `moe_experts_batch` on the host: the experts one by one, and the entries one by
one. -/

namespace Kappai

variable {B F : Type*} [Field F] {R : MoeRouting} {env : MoeBatchEnv B} {slots : ℕ → MoeSlotView}
  {v : MoeValues F}

/-! ### Experts one by one -/

/-- The contributions of entries, one place for each. -/
theorem sum_writePair {l : List MoePair} (hmem : ∀ p ∈ l, p ∈ R.routed) (hnodup : l.Nodup)
    (row d : ℕ) :
    ∑ k ∈ Finset.range R.topK, (l.foldl (writePair v.term) fun _ _ _ => 0) row k d =
      v.total l row d := by
  induction l using List.reverseRecOn with
  | nil => simp [MoeValues.total_nil]
  | append_singleton l p ih =>
    obtain ⟨hl, -, hdisj⟩ := List.nodup_append.mp hnodup
    have hp := hmem p (by simp)
    have hseen : ∀ q ∈ l, ¬(q.row = p.row ∧ q.k = p.k) := by
      intro q hq heq
      have hqp := R.routed_ext (hmem q (List.mem_append_left _ hq)) hp heq.1 heq.2
      exact hdisj q hq p (by simp) hqp
    have hstep : ∀ k, writePair v.term (l.foldl (writePair v.term) fun _ _ _ => 0) p row k d =
        (l.foldl (writePair v.term) fun _ _ _ => 0) row k d +
          if p.row = row ∧ p.k = k then v.term p d else 0 := by
      intro k
      split_ifs with heq
      · obtain ⟨rfl, rfl⟩ := heq
        rw [writePair_self, foldl_writePair_of_notMem hseen, zero_add]
      · rw [writePair_of_ne _ heq, add_zero]
    rw [List.foldl_append, List.foldl_cons, List.foldl_nil, MoeValues.total_append, Pi.add_apply,
      Pi.add_apply, ← ih (fun q hq => hmem q (List.mem_append_left _ hq)) hl,
      Finset.sum_congr rfl fun k _ => hstep k, Finset.sum_add_distrib, MoeValues.total_cons,
      MoeValues.total_nil, add_zero]
    congr 1
    by_cases hrow : p.row = row
    · subst hrow
      have hk : p.k < R.topK := (R.mem_routed.mp hp).2.1
      simp [hk]
    · simp [hrow]

theorem foldl_add_range (n : ℕ) (f : ℕ → F) (x : F) :
    (List.range n).foldl (fun o k => o + f k) x = x + ∑ k ∈ Finset.range n, f k := by
  induction n with
  | zero => simp
  | succ n ih =>
    rw [List.range_succ, List.foldl_append, ih, Finset.sum_range_succ, ← add_assoc]
    rfl

/-- An expert is run on the host unless its entries are done. -/
def groupedTakes (R : MoeRouting) (slots : ℕ → MoeSlotView) (count : ℕ → ℕ) (i : ℕ) : Bool :=
  decide (0 < count (R.orderAt i)) && (slots i).onHost

variable [DecidableEq F]

theorem groupedExpert_eq (hplaced : Placed R slots) {count : ℕ → ℕ} {i : ℕ} (hi : i < R.nUnion)
    (hcount : count (R.orderAt i) = 0 ∨ count (R.orderAt i) = R.union.count (R.orderAt i))
    (contrib : ℕ → ℕ → ℕ → F) :
    groupedExpert R env slots v count contrib i =
      if groupedTakes R slots count i then
        if (R.entriesAt i).all fun p => env.host p.row p.k then
          some ((R.entriesAt i).foldl (writePair v.term) contrib) else none
      else some contrib := by
  unfold groupedExpert groupedTakes
  dsimp only
  cases hcnt : count (R.orderAt i) with
  | zero => simp
  | succ cnt =>
    have hall : cnt + 1 = R.union.count (R.orderAt i) := by
      rw [← hcnt]
      refine hcount.resolve_left fun hzero => ?_
      rw [hzero] at hcnt
      cases hcnt
    rcases (slots i).onHost_cases with ⟨hno, hcase⟩ | ⟨e, w, d, hs, hon⟩
    · rw [hno, Bool.and_false, if_neg (by simp)]
      generalize slots i = s at hcase
      obtain ⟨eid, gateW, dev⟩ := s
      cases eid with
      | none => rfl
      | some e =>
        cases gateW with
        | none => rfl
        | some w => simp at hcase
    · rw [hon, hs, Bool.and_true, if_pos (by simp)]
      have hfold : ∀ l : List MoePair, (∀ p ∈ l, p ∈ R.entriesAt i) → ∀ contrib : ℕ → ℕ → ℕ → F,
          l.foldl (fun contrib p => Function.update contrib p.row
            (Function.update (contrib p.row) p.k (v.groupedEntry w p))) contrib =
          l.foldl (writePair v.term) contrib := by
        intro l hl
        induction l with
        | nil => exact fun _ => rfl
        | cons p l ih =>
          intro contrib
          obtain ⟨hrouted, hslot⟩ := (R.mem_entriesAt hi).mp (hl p List.mem_cons_self)
          have hw := hplaced.gateW hrouted (hslot.symm ▸ hs)
          rw [List.foldl_cons, List.foldl_cons, ih fun q hq => hl q (List.mem_cons_of_mem _ hq),
            hw, v.groupedEntry_eq]
          rfl
      have hentries : R.entries (cnt + 1) (R.orderAt i) = R.entriesAt i := by
        rw [hall]
        rfl
      simp only [hentries]
      split_ifs
      · rw [hfold _ fun p hp => hp]
      · rfl

/-- All the experts the loop takes, or none if one of them fails. -/
theorem foldlM_groupedExpert (hplaced : Placed R slots) {count : ℕ → ℕ}
    (hcount : ∀ i < R.nUnion, count (R.orderAt i) = 0 ∨
      count (R.orderAt i) = R.union.count (R.orderAt i)) {l : List ℕ} (hl : ∀ i ∈ l, i < R.nUnion)
    (contrib : ℕ → ℕ → ℕ → F) :
    l.foldlM (groupedExpert R env slots v count) contrib =
      if (l.flatMap fun i => if groupedTakes R slots count i then R.entriesAt i else []).all
          (fun p => env.host p.row p.k) then
        some ((l.flatMap fun i => if groupedTakes R slots count i then R.entriesAt i else []).foldl
          (writePair v.term) contrib)
      else none := by
  induction l generalizing contrib with
  | nil => rfl
  | cons i l ih =>
    have hi := hl i List.mem_cons_self
    have hrest := ih fun j hj => hl j (List.mem_cons_of_mem _ hj)
    rw [List.foldlM_cons, groupedExpert_eq hplaced hi (hcount i hi), List.flatMap_cons,
      List.all_append, List.foldl_append]
    by_cases htake : groupedTakes R slots count i = true
    · simp only [htake, if_true]
      by_cases hhost : ((R.entriesAt i).all fun p => env.host p.row p.k) = true
      · simp only [hhost, if_true, Bool.true_and]
        exact hrest _
      · rw [if_neg hhost, if_neg fun hand => hhost (Bool.and_eq_true_iff.mp hand).1]
        rfl
    · simp only [if_neg htake, List.all_nil, Bool.true_and, List.foldl_nil]
      exact hrest _

/-- `moe_experts_grouped` runs all the experts that are left to it, or none. -/
theorem moeExpertsGrouped_eq (hplaced : Placed R slots) {count : ℕ → ℕ}
    (hcount : ∀ i < R.nUnion, count (R.orderAt i) = 0 ∨
      count (R.orderAt i) = R.union.count (R.orderAt i)) (out : ℕ → ℕ → F) :
    moeExpertsGrouped R env slots v count out =
      if env.read && (R.routed.filter fun p => groupedTakes R slots count (R.slotOf p)).all
          (fun p => env.host p.row p.k) then
        out + v.total (R.routed.filter fun p => groupedTakes R slots count (R.slotOf p))
      else out := by
  have hperm := R.chosen_perm (groupedTakes R slots count)
  have hmem := fun p => hperm.mem_iff (a := p)
  rw [moeExpertsGrouped, foldlM_groupedExpert hplaced hcount fun i hi => List.mem_range.mp hi]
  cases env.read with
  | false => rfl
  | true =>
    rw [if_pos rfl, Bool.true_and, hperm.all_eq]
    split_ifs with hall
    · dsimp only
      funext row d
      have hsum := sum_writePair (v := v) (R := R)
        (fun p hp => (List.mem_filter.mp ((hmem p).mp hp)).1)
        (hperm.nodup_iff.mpr (R.routed_nodup.filter _)) row d
      rw [v.total_perm hperm] at hsum
      split_ifs with hrow
      · rw [foldl_add_range, hsum]
        rfl
      · rw [Pi.add_apply, Pi.add_apply, v.total_apply, List.filter_eq_nil_iff.mpr, List.map_nil,
          List.sum_nil, Pi.zero_apply, add_zero]
        intro p hp heq
        obtain ⟨hp, -⟩ := List.mem_filter.mp hp
        rw [beq_iff_eq] at heq
        exact hrow (heq ▸ (R.mem_routed.mp hp).1)
    · rfl

/-! ### Entries one by one -/

/-- An entry's place in `moe_router_ids`, if it is not -1. -/
def MoeRouting.pairAt (R : MoeRouting) (c : ℕ × ℕ) : Option MoePair :=
  (R.ids c.1 c.2).map fun e => ⟨c.1, c.2, e⟩

def MoeRouting.cells (R : MoeRouting) : List (ℕ × ℕ) :=
  (List.range R.nRows).flatMap fun row => (List.range R.topK).map fun k => (row, k)

theorem MoeRouting.filterMap_cells (R : MoeRouting) : R.cells.filterMap R.pairAt = R.routed := by
  rw [cells, List.filterMap_flatMap, routed]
  refine List.flatMap_congr fun row _ => ?_
  rw [List.filterMap_map]
  rfl

theorem MoeRouting.cells_eq (R : MoeRouting) :
    (List.range (R.nRows * R.topK)).map (fun idx => (idx / R.topK, idx % R.topK)) = R.cells := by
  unfold cells
  induction R.nRows with
  | zero => rw [Nat.zero_mul]; rfl
  | succ n ih =>
    rw [Nat.succ_mul, List.range_add, List.map_append, ih, List.range_succ, List.flatMap_append,
      List.flatMap_singleton, List.map_map]
    refine congrArg _ (List.map_congr_left fun k hk => ?_)
    have hk : k < R.topK := List.mem_range.mp hk
    have hpos : 0 < R.topK := Nat.zero_lt_of_lt hk
    rw [Function.comp_apply, Nat.mul_comm, Nat.mul_add_div hpos, Nat.div_eq_of_lt hk, Nat.add_zero,
      Nat.mul_add_mod, Nat.mod_eq_of_lt hk]

/-- The host can run an entry's expert. -/
def pairOnHost (R : MoeRouting) (slots : ℕ → MoeSlotView) (p : MoePair) : Bool :=
  (slots (R.slotOf p)).onHost

theorem perTokenSlots_eq : perTokenSlots R slots =
    ((List.range R.nUnion).flatMap R.entriesAt).foldl
      (writePair fun p => slots (R.slotOf p)) fun _ _ => ⟨none, none, none⟩ := by
  rw [List.foldl_flatMap]
  unfold perTokenSlots
  have hfold : ∀ l : List ℕ, (∀ i ∈ l, i < R.nUnion) → ∀ t : ℕ → ℕ → MoeSlotView,
      l.foldl (fun t i => (R.entriesAt i).foldl (fun t p => Function.update t p.row
        (Function.update (t p.row) p.k (slots i))) t) t =
      l.foldl (fun t i => (R.entriesAt i).foldl (writePair fun p => slots (R.slotOf p)) t) t := by
    intro l hl
    induction l with
    | nil => exact fun _ => rfl
    | cons i l ih =>
      intro t
      have hi := hl i List.mem_cons_self
      have hone : ∀ l : List MoePair, (∀ p ∈ l, p ∈ R.entriesAt i) → ∀ t : ℕ → ℕ → MoeSlotView,
          l.foldl (fun t p => Function.update t p.row
            (Function.update (t p.row) p.k (slots i))) t =
          l.foldl (writePair fun p => slots (R.slotOf p)) t := by
        intro l hl
        induction l with
        | nil => exact fun _ => rfl
        | cons p l ihl =>
          intro t
          rw [List.foldl_cons, List.foldl_cons, ihl fun q hq => hl q (List.mem_cons_of_mem _ hq),
            writePair, ((R.mem_entriesAt hi).mp (hl p List.mem_cons_self)).2]
      rw [List.foldl_cons, List.foldl_cons, hone _ fun p hp => hp]
      exact ih (fun j hj => hl j (List.mem_cons_of_mem _ hj)) _
  exact hfold _ (fun i hi => List.mem_range.mp hi) _

/-- The slot of a token's expert is that of the union. -/
theorem perTokenSlots_cell (c : ℕ × ℕ) (hc : c ∈ R.cells) :
    perTokenSlots R slots c.1 c.2 = match R.pairAt c with
      | some p => slots (R.slotOf p)
      | none => ⟨none, none, none⟩ := by
  rw [perTokenSlots_eq]
  have hmem := fun p => R.entriesAt_perm.mem_iff (a := p)
  cases hpair : R.pairAt c with
  | none =>
    refine foldl_writePair_of_notMem (fun p hp heq => ?_) _
    have hid := (R.mem_routed.mp ((hmem p).mp hp)).2.2
    rw [heq.1, heq.2] at hid
    rw [MoeRouting.pairAt, hid] at hpair
    cases hpair
  | some p =>
    have hp : p ∈ R.routed := by
      rw [← R.filterMap_cells]
      exact List.mem_filterMap.mpr ⟨c, hc, hpair⟩
    obtain ⟨e, -, rfl⟩ := Option.map_eq_some_iff.mp hpair
    exact foldl_writePair_of_mem ((hmem _).mpr hp)
      (fun q hq hrow hk => R.routed_ext ((hmem q).mp hq) hp hrow hk) _

theorem tokenStep_eq (hplaced : Placed R slots) {c : ℕ × ℕ} (hc : c ∈ R.cells)
    (out : ℕ → ℕ → F) :
    tokenStep R env slots v out c =
      if ((R.pairAt c).toList.filter (pairOnHost R slots)).all fun p => env.host p.row p.k then
        some (out + v.total ((R.pairAt c).toList.filter (pairOnHost R slots)))
      else none := by
  unfold tokenStep
  rw [perTokenSlots_cell c hc]
  cases hpair : R.pairAt c with
  | none => simp [v.total_nil]
  | some p =>
    have hp : p ∈ R.routed := by
      rw [← R.filterMap_cells]
      exact List.mem_filterMap.mpr ⟨c, hc, hpair⟩
    obtain ⟨e, -, hpe⟩ := Option.map_eq_some_iff.mp hpair
    have hrow : c.1 = p.row := congrArg MoePair.row hpe
    have hk : c.2 = p.k := congrArg MoePair.k hpe
    rw [Option.toList_some]
    rcases (slots (R.slotOf p)).onHost_cases with ⟨hno, hcase⟩ | ⟨e', w, d, hs, hon⟩
    · rw [List.filter_cons_of_neg (by simp [pairOnHost, hno]), List.filter_nil, v.total_nil, add_zero]
      dsimp only
      generalize slots (R.slotOf p) = s at hcase
      obtain ⟨eid, gateW, dev⟩ := s
      cases eid with
      | none => rfl
      | some e =>
        cases gateW with
        | none => rfl
        | some w => simp at hcase
    · have hw := hplaced.gateW hp hs
      rw [List.filter_cons_of_pos (by simpa [pairOnHost] using hon), List.filter_nil]
      dsimp only
      rw [hs]
      dsimp only
      rw [hrow, hk, hw, v.tokenEntry_eq, v.total_cons, v.total_nil, add_zero,
        MoeValues.update_add]
      simp

/-- Whether the loop over the tokens goes on does not depend on what the slots hold. -/
theorem tokenStep_isSome (env : MoeBatchEnv B) (slots : ℕ → MoeSlotView) (v : MoeValues F)
    {c : ℕ × ℕ} (hc : c ∈ R.cells) (out : ℕ → ℕ → F) :
    (tokenStep R env slots v out c).isSome =
      ((R.pairAt c).toList.filter (pairOnHost R slots)).all fun p => env.host p.row p.k := by
  unfold tokenStep
  rw [perTokenSlots_cell c hc]
  cases hpair : R.pairAt c with
  | none => rfl
  | some p =>
    obtain ⟨e, -, hpe⟩ := Option.map_eq_some_iff.mp hpair
    have hrow : c.1 = p.row := congrArg MoePair.row hpe
    have hk : c.2 = p.k := congrArg MoePair.k hpe
    rw [Option.toList_some]
    rcases (slots (R.slotOf p)).onHost_cases with ⟨hno, hcase⟩ | ⟨e', w, d, hs, hon⟩
    · rw [List.filter_cons_of_neg (by simp [pairOnHost, hno]), List.filter_nil]
      dsimp only
      generalize slots (R.slotOf p) = s at hcase
      obtain ⟨eid, gateW, dev⟩ := s
      cases eid with
      | none => rfl
      | some e =>
        cases gateW with
        | none => rfl
        | some w => simp at hcase
    · rw [List.filter_cons_of_pos (by simpa [pairOnHost] using hon), List.filter_nil]
      dsimp only
      rw [hs]
      dsimp only
      rw [hrow, hk, List.all_cons, List.all_nil, Bool.and_true]
      cases env.host p.row p.k with
      | true => rfl
      | false => rfl

theorem MoeRouting.filterMap_cons (R : MoeRouting) (c : ℕ × ℕ) (l : List (ℕ × ℕ)) :
    (c :: l).filterMap R.pairAt = (R.pairAt c).toList ++ l.filterMap R.pairAt := by
  cases hpair : R.pairAt c with
  | none =>
    rw [List.filterMap_cons_none hpair]
    rfl
  | some p =>
    rw [List.filterMap_cons_some hpair]
    rfl

theorem moeExpertsTokens_isSome (R : MoeRouting) (env : MoeBatchEnv B) (slots : ℕ → MoeSlotView)
    (v : MoeValues F) :
    (moeExpertsTokens R env slots v).isSome =
      (R.routed.filter (pairOnHost R slots)).all fun p => env.host p.row p.k := by
  have hrun : ∀ l : List (ℕ × ℕ), (∀ c ∈ l, c ∈ R.cells) → ∀ out : ℕ → ℕ → F,
      (l.foldlM (tokenStep R env slots v) out).isSome =
        ((l.filterMap R.pairAt).filter (pairOnHost R slots)).all fun p => env.host p.row p.k := by
    intro l hl
    induction l with
    | nil => exact fun _ => rfl
    | cons c l ih =>
      intro out
      have hstep := tokenStep_isSome env slots v (hl c List.mem_cons_self) out
      rw [List.foldlM_cons, R.filterMap_cons, List.filter_append, List.all_append, ← hstep]
      cases tokenStep R env slots v out c with
      | none => rfl
      | some out' => exact ih (fun c' hc' => hl c' (List.mem_cons_of_mem _ hc')) out'
  rw [← R.filterMap_cells]
  exact hrun R.cells (fun _ hc => hc) _

theorem moeExpertsTokens_eq (hplaced : Placed R slots) :
    moeExpertsTokens R env slots v =
      if (R.routed.filter (pairOnHost R slots)).all fun p => env.host p.row p.k then
        some (v.total (R.routed.filter (pairOnHost R slots))) else none := by
  have hrun : ∀ l : List (ℕ × ℕ), (∀ c ∈ l, c ∈ R.cells) → ∀ out : ℕ → ℕ → F,
      l.foldlM (tokenStep R env slots v) out =
        if ((l.filterMap R.pairAt).filter (pairOnHost R slots)).all
            fun p => env.host p.row p.k then
          some (out + v.total ((l.filterMap R.pairAt).filter (pairOnHost R slots)))
        else none := by
    intro l hl
    induction l with
    | nil => exact fun out => congrArg some (add_zero out).symm
    | cons c l ih =>
      intro out
      rw [List.foldlM_cons, tokenStep_eq hplaced (hl c List.mem_cons_self), R.filterMap_cons,
        List.filter_append, List.all_append, v.total_append]
      by_cases hall : ((R.pairAt c).toList.filter (pairOnHost R slots)).all
          (fun p => env.host p.row p.k) = true
      · rw [if_pos hall, hall, Bool.true_and, ← add_assoc]
        exact ih (fun c' hc' => hl c' (List.mem_cons_of_mem _ hc')) _
      · rw [if_neg hall, if_neg fun hand => hall (Bool.and_eq_true_iff.mp hand).1]
        rfl
  have hcells := hrun R.cells (fun _ hc => hc) fun _ _ => 0
  rw [R.filterMap_cells] at hcells
  have hzero : ∀ T : ℕ → ℕ → F, ((fun _ _ => 0) + T : ℕ → ℕ → F) = T := fun T => zero_add T
  rw [hzero] at hcells
  exact hcells

theorem allOuts_eq (hplaced : Placed R slots) {idx : ℕ}
    (hc : (idx / R.topK, idx % R.topK) ∈ R.cells) :
    allOuts R env slots v idx = v.total ((R.pairAt (idx / R.topK, idx % R.topK)).toList.filter
      fun p => pairOnHost R slots p && env.host p.row p.k) := by
  have hzero : (fun _ _ => 0 : ℕ → ℕ → F) = v.total [] := rfl
  unfold allOuts
  rw [perTokenSlots_cell _ hc]
  cases hpair : R.pairAt (idx / R.topK, idx % R.topK) with
  | none => rfl
  | some p =>
    have hp : p ∈ R.routed := by
      rw [← R.filterMap_cells]
      exact List.mem_filterMap.mpr ⟨_, hc, hpair⟩
    obtain ⟨e, -, hpe⟩ := Option.map_eq_some_iff.mp hpair
    have hrow : idx / R.topK = p.row := congrArg MoePair.row hpe
    have hk : idx % R.topK = p.k := congrArg MoePair.k hpe
    rw [Option.toList_some, hrow, hk]
    rcases (slots (R.slotOf p)).onHost_cases with ⟨hno, hcase⟩ | ⟨e', w, d, hs, hon⟩
    · rw [List.filter_cons_of_neg (by simp [pairOnHost, hno]), List.filter_nil]
      dsimp only
      generalize slots (R.slotOf p) = s at hcase
      obtain ⟨eid, gateW, dev⟩ := s
      cases eid with
      | none => rfl
      | some e =>
        cases gateW with
        | none => rfl
        | some w => simp at hcase
    · have hw := hplaced.gateW hp hs
      dsimp only
      rw [hs]
      dsimp only
      by_cases hhost : env.host p.row p.k = true
      · rw [if_pos hhost, List.filter_cons_of_pos (by simp [pairOnHost, hon, hhost]),
          List.filter_nil, hw, v.tokenEntry_eq, v.total_cons, v.total_nil, add_zero]
        rfl
      · rw [if_neg hhost, List.filter_cons_of_neg (by simp [hhost]), List.filter_nil, hzero]

theorem moeExpertsPooled_eq (hplaced : Placed R slots) :
    moeExpertsPooled R env slots v =
      v.total (R.routed.filter fun p => pairOnHost R slots p && env.host p.row p.k) := by
  have hrun : ∀ l : List ℕ, (∀ idx ∈ l, (idx / R.topK, idx % R.topK) ∈ R.cells) →
      ∀ out : ℕ → ℕ → F,
      l.foldl (fun out idx row d => out row d + allOuts R env slots v idx row d) out =
        out + v.total (((l.map fun idx => (idx / R.topK, idx % R.topK)).filterMap R.pairAt).filter
          fun p => pairOnHost R slots p && env.host p.row p.k) := by
    intro l hl
    induction l with
    | nil => exact fun out => (add_zero out).symm
    | cons idx l ih =>
      intro out
      rw [List.foldl_cons, ih fun idx' hidx' => hl idx' (List.mem_cons_of_mem _ hidx'),
        List.map_cons, R.filterMap_cons, List.filter_append, v.total_append, ← add_assoc,
        ← allOuts_eq hplaced (hl idx List.mem_cons_self)]
      rfl
  have hmem : ∀ idx ∈ List.range (R.nRows * R.topK), (idx / R.topK, idx % R.topK) ∈ R.cells := by
    intro idx hidx
    rw [← R.cells_eq]
    exact List.mem_map_of_mem hidx
  have hall := hrun _ hmem fun _ _ => 0
  rw [R.cells_eq, R.filterMap_cells] at hall
  have hzero : ∀ T : ℕ → ℕ → F, ((fun _ _ => 0) + T : ℕ → ℕ → F) = T := fun T => zero_add T
  rw [hzero] at hall
  exact hall

end Kappai
