import Kappai.Sanity.MoeUnion

/-! The paths of `moe_experts_batch` one by one: which entries each of them runs. -/

namespace Kappai

variable {B F : Type*}

/-- A slot of the union is empty or has its own expert, and its pointers lead to that expert. -/
def MoeSlotView.Of (s : MoeSlotView) (e : ℕ) : Prop :=
  s.eid = none ∨ s.eid = some e ∧ (∀ e' ∈ s.gateW, e' = e) ∧ ∀ e' ∈ s.dev, e' = e

/-- The slots as the resolve leaves them. -/
def Placed (R : MoeRouting) (slots : ℕ → MoeSlotView) : Prop :=
  ∀ i e, R.sortedIds[i]? = some e → (slots i).Of e

/-- The host can run the expert. -/
def MoeSlotView.onHost (s : MoeSlotView) : Bool := s.eid.isSome && s.gateW.isSome

def MoeSlotView.onDevice (s : MoeSlotView) : Bool := s.eid.isSome && s.dev.isSome

theorem MoeSlotView.onHost_cases (s : MoeSlotView) :
    (s.onHost = false ∧ (s.eid = none ∨ s.gateW = none)) ∨
      ∃ e w d, s = ⟨some e, some w, d⟩ ∧ s.onHost = true := by
  obtain ⟨eid, gateW, dev⟩ := s
  cases eid with
  | none => exact Or.inl ⟨rfl, Or.inl rfl⟩
  | some e =>
    cases gateW with
    | none => exact Or.inl ⟨rfl, Or.inr rfl⟩
    | some w => exact Or.inr ⟨e, w, dev, rfl, rfl⟩

section

variable [Field F] {R : MoeRouting} {env : MoeBatchEnv B} {slots : ℕ → MoeSlotView}
  {v : MoeValues F}

/-- The weights the host pointers of an entry's slot lead to. -/
theorem Placed.gateW (h : Placed R slots) {p : MoePair} (hp : p ∈ R.routed) {e w : ℕ}
    {d : Option ℕ} (hs : slots (R.slotOf p) = ⟨some e, some w, d⟩) : w = p.eid := by
  rcases h _ _ (R.slotOf_eid hp) with hnone | ⟨-, hgate, -⟩
  · rw [hs] at hnone
    cases hnone
  · rw [hs] at hgate
    exact hgate w rfl

theorem Placed.dev (h : Placed R slots) {i e : ℕ} (he : R.sortedIds[i]? = some e)
    (hdev : (slots i).onDevice = true) : (slots i).dev = some e := by
  simp only [MoeSlotView.onDevice, Bool.and_eq_true] at hdev
  obtain ⟨heid, hdev⟩ := hdev
  obtain ⟨w, hw⟩ := Option.isSome_iff_exists.mp hdev
  rcases h i e he with hnone | ⟨-, -, hown⟩
  · rw [hnone] at heid
    cases heid
  · rw [hw, hown w hw]

/-! ### The resident path -/

section

variable (R env slots) [DecidableEq B]

/-- The device call for the whole union is made, and goes through. -/
def residentTaken : Bool :=
  env.ownBuffers && decide (R.nUnion ≤ moeMaxPacked) &&
    ((List.range R.nUnion).all fun i => (slots i).onDevice && env.owner i == env.a) && env.residentOk

end

theorem mapM_eq_some {α β : Type*} {f : α → Option β} {g : α → β} {l : List α}
    (h : ∀ a ∈ l, f a = some (g a)) : l.mapM f = some (l.map g) := by
  induction l with
  | nil => rfl
  | cons a l ih =>
    rw [List.mapM_cons, h a List.mem_cons_self, ih fun b hb => h b (List.mem_cons_of_mem _ hb)]
    rfl

theorem mapM_eq_none {α β : Type*} {f : α → Option β} {l : List α} {a : α} (ha : a ∈ l)
    (h : f a = none) : l.mapM f = none := by
  induction l with
  | nil => exact absurd ha List.not_mem_nil
  | cons b l ih =>
    rw [List.mapM_cons]
    rcases List.mem_cons.mp ha with rfl | hmem
    · rw [h]
      rfl
    · rw [ih hmem]
      cases f b with
      | none => rfl
      | some c => rfl

/-- The device call of the resident path, if it is made and goes through. -/
theorem residentGrouped_taken [DecidableEq B] (R : MoeRouting) (env : MoeBatchEnv B)
    (slots : ℕ → MoeSlotView) (v : MoeValues F) :
    moeExpertsResidentGrouped R env slots v =
      if residentTaken R env slots then
        some (v.deviceExperts ((List.range R.nUnion).map fun i =>
          ((slots i).dev.getD 0, R.entriesAt i)) fun _ _ => 0)
      else none := by
  have hexpert : ∀ i ∈ List.range R.nUnion, residentExpert R env slots i =
      if (slots i).onDevice && env.owner i == env.a then
        some ((slots i).dev.getD 0, R.entriesAt i) else none := by
    intro i hi
    have hpos := R.count_pos (List.mem_range.mp hi)
    unfold residentExpert
    dsimp only
    rw [if_neg (Nat.ne_of_gt hpos)]
    obtain ⟨eid, gateW, dev⟩ := slots i
    cases eid with
    | none => rfl
    | some e =>
      cases dev with
      | none => rfl
      | some d =>
        by_cases how : env.owner i = env.a
        · simp [MoeSlotView.onDevice, how, MoeRouting.entriesAt]
        · simp [MoeSlotView.onDevice, how]
  unfold moeExpertsResidentGrouped residentTaken
  by_cases hlim : moeMaxPacked < R.nUnion
  · simp [hlim]
  · cases env.ownBuffers with
    | false => simp
    | true =>
      rw [if_neg (by simpa using Nat.not_lt.mp hlim)]
      by_cases hall : ∀ i ∈ List.range R.nUnion, ((slots i).onDevice && env.owner i == env.a) = true
      · have hmap := mapM_eq_some (g := fun i => ((slots i).dev.getD 0, R.entriesAt i))
          fun i hi => (hexpert i hi).trans (if_pos (hall i hi))
        rw [hmap, List.all_eq_true.mpr hall]
        cases env.residentOk with
        | false => simp
        | true => simp [Nat.not_lt.mp hlim]
      · have hsome := hall
        push Not at hsome
        obtain ⟨i, hi, hno⟩ := hsome
        rw [mapM_eq_none hi ((hexpert i hi).trans (if_neg (by simpa using hno)))]
        rw [if_neg]
        simp only [Bool.and_eq_true, List.all_eq_true]
        rintro ⟨⟨-, hyes⟩, -⟩
        exact hall fun i hi => by simpa using hyes i hi

/-- The resident path runs the whole union, or nothing. -/
theorem residentGrouped_eq [DecidableEq B] (h : Placed R slots) :
    moeExpertsResidentGrouped R env slots v =
      if residentTaken R env slots then some (v.total R.routed) else none := by
  rw [residentGrouped_taken]
  refine if_ctx_congr Iff.rfl (fun htaken => ?_) fun _ => rfl
  have hon : ∀ i ∈ List.range R.nUnion, (slots i).onDevice = true := by
    simp only [residentTaken, Bool.and_eq_true, List.all_eq_true] at htaken
    exact fun i hi => (htaken.1.2 i hi).1
  have hgroup : ∀ g ∈ (List.range R.nUnion).map fun i =>
      ((slots i).dev.getD 0, R.entriesAt i), ∀ p ∈ g.2, p.eid = g.1 := by
    intro g hg p hp
    obtain ⟨i, hi, rfl⟩ := List.mem_map.mp hg
    obtain ⟨e, he, -⟩ := R.sortedIds_get (List.mem_range.mp hi)
    rw [h.dev he (hon i hi)]
    exact R.entriesAt_eid he hp
  rw [v.deviceExperts_eq hgroup, List.flatMap_map, v.total_perm R.entriesAt_perm]
  exact congrArg some (zero_add _)

/-! ### The split over the devices -/

section

variable (R env slots) [DecidableEq B]

/-- The slots of the union that a backend owns fit into one call, and its calls go through. -/
def deviceRuns (b : B) : Bool :=
  decide (((List.range R.nUnion).filter fun i => splitOwners R env slots i == some b).length ≤
    moeMaxPacked) && env.device b

/-- The split runs the slot. -/
def splitRuns (i : ℕ) : Bool :=
  env.splitRead && (splitOwners R env slots i).any (deviceRuns R env slots)

/-- A slot before the `m`-th has the same owner. -/
def OwnerSeen (m i : ℕ) : Prop := ∃ j < m, splitOwners R env slots j = splitOwners R env slots i

open Classical in
/-- The split once it has been through the first `m` slots. -/
structure SplitAt (v : MoeValues F) (m : ℕ) (s : MoeSplit B F) : Prop where
  owners : ∀ i, s.owners i = if OwnerSeen R env slots m i then none else splitOwners R env slots i
  count : ∀ i < R.nUnion, s.count (R.orderAt i) =
    if (splitOwners R env slots i).any (deviceRuns R env slots) ∧ OwnerSeen R env slots m i then 0
    else R.union.count (R.orderAt i)
  out : s.out = ∑ i ∈ Finset.range R.nUnion,
    if (splitOwners R env slots i).any (deviceRuns R env slots) ∧ OwnerSeen R env slots m i then
      v.total (R.entriesAt i) else 0

end

theorem sum_map_filter_range {M : Type*} [AddCommMonoid M] (n : ℕ) (c : ℕ → Bool) (T : ℕ → M) :
    (((List.range n).filter c).map T).sum = ∑ i ∈ Finset.range n, if c i then T i else 0 := by
  induction n with
  | zero => rfl
  | succ n ih =>
    rw [List.range_succ, List.filter_append, List.map_append, List.sum_append, ih,
      Finset.sum_range_succ]
    by_cases hc : c n
    · simp [hc]
    · simp [hc]

theorem ownerSeen_succ {m i : ℕ} : OwnerSeen R env slots (m + 1) i ↔
    OwnerSeen R env slots m i ∨ splitOwners R env slots m = splitOwners R env slots i := by
  constructor
  · rintro ⟨j, hj, heq⟩
    rcases Nat.lt_succ_iff_lt_or_eq.mp hj with hlt | rfl
    · exact Or.inl ⟨j, hlt, heq⟩
    · exact Or.inr heq
  · rintro (⟨j, hj, heq⟩ | heq)
    · exact ⟨j, Nat.lt_succ_of_lt hj, heq⟩
    · exact ⟨m, Nat.lt_succ_self m, heq⟩

theorem splitOwners_some {i : ℕ} {b : B} (h : splitOwners R env slots i = some b) :
    (slots i).onDevice = true := by
  unfold splitOwners at h
  split_ifs at h with hif
  rw [MoeSlotView.onDevice, hif.2.1, hif.2.2]
  rfl

variable [DecidableEq B]

namespace SplitAt

variable {m : ℕ} {s : MoeSplit B F}

/-- A slot whose owner has been dealt with, or that has none. -/
theorem skip (h : SplitAt R env slots v m s)
    (hskip : OwnerSeen R env slots m m ∨ splitOwners R env slots m = none) :
    SplitAt R env slots v (m + 1) s := by
  classical
  have hseen : ∀ i, splitOwners R env slots i ≠ none →
      (OwnerSeen R env slots (m + 1) i ↔ OwnerSeen R env slots m i) := by
    intro i hi
    rw [ownerSeen_succ]
    refine ⟨fun hor => hor.elim (fun hs => hs) fun heq => ?_, Or.inl⟩
    rcases hskip with ⟨j, hj, hjm⟩ | hnone
    · exact ⟨j, hj, hjm.trans heq⟩
    · exact absurd (heq.symm.trans hnone) hi
  have hruns : ∀ i, ((splitOwners R env slots i).any (deviceRuns R env slots) = true ∧
      OwnerSeen R env slots (m + 1) i) ↔
      ((splitOwners R env slots i).any (deviceRuns R env slots) = true ∧
        OwnerSeen R env slots m i) := by
    intro i
    refine and_congr_right fun hany => hseen i fun hnone => ?_
    rw [hnone] at hany
    cases hany
  refine ⟨fun i => ?_, fun i hi => ?_, ?_⟩
  · rw [h.owners i]
    cases ho : splitOwners R env slots i with
    | none => simp
    | some b => simp only [hseen i (by simp [ho])]
  · rw [h.count i hi]
    simp only [hruns]
  · rw [h.out]
    simp only [hruns]

/-- The slots a backend is about to run. -/
theorem group (h : SplitAt R env slots v m s) {b : B} (hb : splitOwners R env slots m = some b)
    (hnew : ¬OwnerSeen R env slots m m) (i : ℕ) :
    (decide (m ≤ i) && s.owners i == some b) = (splitOwners R env slots i == some b) := by
  classical
  rw [h.owners i]
  by_cases ho : splitOwners R env slots i = some b
  · have hseen : ¬OwnerSeen R env slots m i := fun ⟨j, hj, heq⟩ =>
      hnew ⟨j, hj, heq.trans (ho.trans hb.symm)⟩
    have hle : m ≤ i := by
      by_contra hlt
      exact hnew ⟨i, Nat.lt_of_not_le hlt, ho.trans hb.symm⟩
    simp [hseen, hle]
  · by_cases hseen : OwnerSeen R env slots m i
    · simp [hseen, ho]
    · simp [hseen, ho]

theorem step (h : SplitAt R env slots v m s) (hplaced : Placed R slots) :
    SplitAt R env slots v (m + 1) (splitStep R env slots v s m) := by
  classical
  by_cases hskip : OwnerSeen R env slots m m ∨ splitOwners R env slots m = none
  · have hsame : splitStep R env slots v s m = s := by
      unfold splitStep
      rw [h.owners m]
      rcases hskip with hseen | hnone
      · rw [if_pos hseen]
      · rw [hnone, ite_self]
    rw [hsame]
    exact h.skip hskip
  · rw [not_or] at hskip
    obtain ⟨hnew, hne⟩ := hskip
    obtain ⟨b, hb⟩ := Option.ne_none_iff_exists'.mp hne
    have hgroup := h.group hb hnew
    have hfilter : ((List.range R.nUnion).filter fun i => decide (m ≤ i) && s.owners i == some b) =
        (List.range R.nUnion).filter fun i => splitOwners R env slots i == some b :=
      List.filter_congr fun i _ => hgroup i
    have howners : ∀ i, (if m ≤ i ∧ s.owners i = some b then none else s.owners i) =
        if OwnerSeen R env slots (m + 1) i then none else splitOwners R env slots i := by
      intro i
      have hiff : (m ≤ i ∧ s.owners i = some b) ↔ splitOwners R env slots i = some b := by
        have := hgroup i
        rw [Bool.eq_iff_iff] at this
        simpa using this
      by_cases ho : splitOwners R env slots i = some b
      · rw [if_pos (hiff.mpr ho), if_pos (ownerSeen_succ.mpr (Or.inr (hb.trans ho.symm)))]
      · rw [if_neg fun hand => ho (hiff.mp hand), h.owners i]
        simp only [ownerSeen_succ, hb, Ne.symm ho, or_false]
    have hseen : ∀ i, splitOwners R env slots i = some b → ¬OwnerSeen R env slots m i :=
      fun i ho ⟨j, hj, heq⟩ => hnew ⟨j, hj, heq.trans (ho.trans hb.symm)⟩
    unfold splitStep
    rw [h.owners m, if_neg hnew, hb]
    dsimp only
    rw [hfilter]
    have hruns : deviceRuns R env slots b = true ↔
        (((List.range R.nUnion).filter fun i => splitOwners R env slots i == some b).length ≤
          moeMaxPacked ∧ env.device b = true) := by
      simp [deviceRuns]
    by_cases hif : deviceRuns R env slots b = true
    · rw [if_pos (hruns.mp hif)]
      have hcond : ∀ i, ((splitOwners R env slots i).any (deviceRuns R env slots) = true ∧
          OwnerSeen R env slots (m + 1) i) ↔
          (((splitOwners R env slots i).any (deviceRuns R env slots) = true ∧
            OwnerSeen R env slots m i) ∨ splitOwners R env slots i = some b) := by
        intro i
        rw [ownerSeen_succ, hb]
        by_cases ho : splitOwners R env slots i = some b
        · simp [ho, hif]
        · simp [ho, Ne.symm ho]
      refine ⟨howners, fun i hi => ?_, ?_⟩
      · have hmem : R.orderAt i ∈ ((List.range R.nUnion).filter fun i =>
            splitOwners R env slots i == some b).map R.orderAt ↔
            splitOwners R env slots i = some b := by
          simp only [List.mem_map, List.mem_filter, List.mem_range, beq_iff_eq]
          constructor
          · rintro ⟨j, ⟨hj, ho⟩, heq⟩
            rw [← R.orderAt_inj hj hi heq]
            exact ho
          · exact fun ho => ⟨i, ⟨hi, ho⟩, rfl⟩
        dsimp only
        rw [h.count i hi]
        simp only [hmem, hcond]
        by_cases ho : splitOwners R env slots i = some b
        · simp [ho]
        · simp [ho]
      · have hentries : ((List.range R.nUnion).filter fun i =>
            splitOwners R env slots i == some b).map (fun i => ((slots i).dev.getD 0,
              R.entries (s.count (R.orderAt i)) (R.orderAt i))) =
            ((List.range R.nUnion).filter fun i => splitOwners R env slots i == some b).map
              fun i => ((slots i).dev.getD 0, R.entriesAt i) := by
          refine List.map_congr_left fun i hi => ?_
          obtain ⟨hi, ho⟩ := List.mem_filter.mp hi
          have hfresh := hseen i (by simpa using ho)
          rw [h.count i (List.mem_range.mp hi), if_neg fun hand => hfresh hand.2]
          rfl
        have hown : ∀ g ∈ ((List.range R.nUnion).filter fun i =>
            splitOwners R env slots i == some b).map (fun i => ((slots i).dev.getD 0,
              R.entriesAt i)), ∀ p ∈ g.2, p.eid = g.1 := by
          intro g hg p hp
          obtain ⟨i, hi, rfl⟩ := List.mem_map.mp hg
          obtain ⟨hi, ho⟩ := List.mem_filter.mp hi
          obtain ⟨e, he, -⟩ := R.sortedIds_get (List.mem_range.mp hi)
          rw [hplaced.dev he (splitOwners_some (by simpa using ho))]
          exact R.entriesAt_eid he hp
        dsimp only
        rw [hentries, v.deviceExperts_eq hown, List.flatMap_map, v.total_flatMap,
          sum_map_filter_range, h.out]
        have hzero : ∀ T : ℕ → ℕ → F, ((fun _ _ => 0) + T : ℕ → ℕ → F) = T := fun T => zero_add T
        rw [hzero]
        change (_ + _ : ℕ → ℕ → F) = _
        rw [← Finset.sum_add_distrib]
        refine Finset.sum_congr rfl fun i _ => ?_
        by_cases ho : splitOwners R env slots i = some b
        · have hfresh := hseen i ho
          rw [if_neg fun hand => hfresh hand.2, if_pos (by simp [ho]), if_pos ((hcond i).mpr (Or.inr ho)),
            zero_add]
        · simp [hcond, ho]
    · rw [if_neg fun hand => hif (hruns.mpr hand)]
      have hcond : ∀ i, ((splitOwners R env slots i).any (deviceRuns R env slots) = true ∧
          OwnerSeen R env slots (m + 1) i) ↔
          ((splitOwners R env slots i).any (deviceRuns R env slots) = true ∧
            OwnerSeen R env slots m i) := by
        intro i
        rw [ownerSeen_succ, hb]
        by_cases ho : splitOwners R env slots i = some b
        · simp [ho, hif]
        · simp [Ne.symm ho]
      refine ⟨howners, fun i hi => ?_, ?_⟩
      · simp only [hcond]
        exact h.count i hi
      · simp only [hcond]
        exact h.out

end SplitAt

/-- The split takes over the slots whose devices run them, and leaves the others as they are. -/
theorem moeExpertsBatchSplit_spec (env : MoeBatchEnv B) (v : MoeValues F)
    (hplaced : Placed R slots) :
    let s := moeExpertsBatchSplit R env slots v
    (∀ i < R.nUnion, s.count (R.orderAt i) =
      if splitRuns R env slots i then 0 else R.union.count (R.orderAt i)) ∧
    s.out = v.total (R.routed.filter fun p => splitRuns R env slots (R.slotOf p)) := by
  classical
  intro s
  have htotal : ∑ i ∈ Finset.range R.nUnion,
      (if splitRuns R env slots i then v.total (R.entriesAt i) else 0) =
        v.total (R.routed.filter fun p => splitRuns R env slots (R.slotOf p)) := by
    rw [← v.total_perm (R.chosen_perm (splitRuns R env slots)), v.total_flatMap]
    have hsum := sum_map_filter_range R.nUnion (fun _ => true)
      fun i => if splitRuns R env slots i then v.total (R.entriesAt i) else 0
    rw [List.filter_eq_self.mpr fun _ _ => rfl] at hsum
    simp only [if_true] at hsum
    rw [← hsum]
    refine congrArg List.sum (List.map_congr_left fun i _ => ?_)
    split_ifs
    · rfl
    · rfl
  rw [← htotal]
  have hinit : SplitAt R env slots v 0
      ⟨splitOwners R env slots, R.union.count, fun _ _ => 0⟩ := by
    have hseen : ∀ i, ¬OwnerSeen R env slots 0 i := fun i ⟨_, hj, _⟩ => Nat.not_lt_zero _ hj
    refine ⟨fun i => by simp [hseen], fun i _ => by simp [hseen], ?_⟩
    simp only [hseen, and_false, if_false, Finset.sum_const_zero]
    rfl
  have hrun : ∀ m, SplitAt R env slots v m ((List.range m).foldl (splitStep R env slots v)
      ⟨splitOwners R env slots, R.union.count, fun _ _ => 0⟩) := by
    intro m
    induction m with
    | zero => exact hinit
    | succ m ih =>
      rw [List.range_succ, List.foldl_append]
      exact ih.step hplaced
  by_cases hif : (((List.range R.nUnion).any fun i => (splitOwners R env slots i).isSome) &&
      env.splitRead) = true
  · have hs : s = (List.range R.nUnion).foldl (splitStep R env slots v)
        ⟨splitOwners R env slots, R.union.count, fun _ _ => 0⟩ := if_pos hif
    rw [Bool.and_eq_true] at hif
    have hend := hrun R.nUnion
    rw [← hs] at hend
    have hcond : ∀ i < R.nUnion, ((splitOwners R env slots i).any (deviceRuns R env slots) = true ∧
        OwnerSeen R env slots R.nUnion i) ↔ splitRuns R env slots i = true := by
      intro i hi
      rw [splitRuns, hif.2, Bool.true_and]
      exact and_iff_left ⟨i, hi, rfl⟩
    refine ⟨fun i hi => ?_, ?_⟩
    · rw [hend.count i hi]
      simp only [hcond i hi]
    · rw [hend.out]
      refine Finset.sum_congr rfl fun i hi => ?_
      simp only [hcond i (Finset.mem_range.mp hi)]
  · have hs : s = ⟨splitOwners R env slots, R.union.count, fun _ _ => 0⟩ := if_neg hif
    have hnone : ∀ i < R.nUnion, splitRuns R env slots i = false := by
      intro i hi
      rw [Bool.not_eq_true, Bool.and_eq_false_iff, List.any_eq_false] at hif
      rcases hif with hno | hread
      · have := hno i (List.mem_range.mpr hi)
        rw [Bool.not_eq_true, Option.isSome_eq_false_iff, Option.isNone_iff_eq_none] at this
        simp [splitRuns, this]
      · simp [splitRuns, hread]
    rw [hs]
    refine ⟨fun i hi => by simp [hnone i hi], ?_⟩
    refine (Finset.sum_eq_zero fun i hi => ?_).symm
    simp [hnone i (Finset.mem_range.mp hi)]

end

end Kappai
