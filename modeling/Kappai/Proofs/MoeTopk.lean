import Kappai.Sanity.MoeTopk
import Mathlib.Data.Finset.Union
import Mathlib.Data.List.GetD
import Mathlib.Data.Rat.Floor
import Mathlib.Tactic.Linarith

/-! What the grouped router chooses: the best experts of the groups whose two best scores are the
best. -/

namespace Kappai

variable {F : Type*} [LinearOrder F] [Field F] {scores : ℕ → F}

/-! ### The best of a list of candidates -/

omit [LinearOrder F] in
/-- The entries beyond the heap are the empty ones. -/
theorem padded_eq {h : TopkHeap F} {k : ℕ} (hn : h.n ≤ k)
    (hscore : ∀ p < h.n, h.score p = scores (h.idx p)) :
    (List.range k).map (fun k => if k < h.n then (some (h.idx k), h.score k) else (none, topkFloor)) =
      ((List.range h.n).map h.idx).map (fun e => (some e, scores e)) ++
        List.replicate (k - h.n) (none, topkFloor) := by
  obtain ⟨d, rfl⟩ := Nat.exists_eq_add_of_le hn
  rw [List.range_add, List.map_append, List.map_map, List.map_map, Nat.add_sub_cancel_left]
  congr 1
  · refine List.map_congr_left fun p hp => ?_
    have hp' := List.mem_range.1 hp
    simp only [Function.comp_apply, if_pos hp', hscore p hp']
  · refine List.eq_replicate_iff.2 ⟨by simp, fun x hx => ?_⟩
    obtain ⟨p, -, rfl⟩ := List.mem_map.1 hx
    simp

theorem moeTopkSelect_chooses (out : TopkHeap F) (scores : ℕ → F) (n : ℕ) (K : ℤ) :
    Chooses scores (Finset.range n) (min K moeMaxTopk).toNat (moeTopkSelect out scores n K) := by
  unfold moeTopkSelect
  by_cases hK : K ≤ 0
  · have hzero : (min K moeMaxTopk).toNat = 0 := by unfold moeMaxTopk; omega
    rw [if_pos hK, hzero]
    exact ⟨[], List.nodup_nil, (Nat.zero_min _).symm, fun e he => absurd he List.not_mem_nil, rfl,
      fun e _ _ e' he' => absurd he' List.not_mem_nil⟩
  · have hcap : (if K > moeMaxTopk then moeMaxTopk else K).toNat = (min K moeMaxTopk).toNat := by
      split_ifs <;> omega
    have hpos : 0 < (min K moeMaxTopk).toNat := by unfold moeMaxTopk; omega
    rw [if_neg hK, hcap]
    obtain ⟨hn, hnodup, hlt, hscore, hbest⟩ := topkHeapSelect_best out scores n hpos
    refine ⟨_, hnodup, ?_, fun e he => Finset.mem_range.2 (hlt e he), ?_, fun e he =>
      hbest e (Finset.mem_range.1 he)⟩
    · rw [List.length_map, List.length_range, hn, Finset.card_range, Nat.min_comm]
    · rw [List.length_map, List.length_range]
      exact padded_eq (by omega) hscore

/-- A choice among positions of a list of distinct experts is one among the experts. -/
theorem Chooses.remap {cands : List ℕ} (hnodup : cands.Nodup) {k : ℕ} {out : List (Option ℕ × F)}
    (hc : Chooses (fun p => scores (cands.getD p 0)) (Finset.range cands.length) k out) :
    Chooses scores cands.toFinset k
      (out.map fun o => (o.1.map fun p => cands.getD p 0, o.2)) := by
  obtain ⟨sel, hsel, hlen, hmem, rfl, hbest⟩ := hc
  have hget : ∀ p ∈ sel, p < cands.length := fun p hp => Finset.mem_range.1 (hmem p hp)
  refine ⟨sel.map fun p => cands.getD p 0, ?_, ?_, fun e he => ?_, ?_, fun e he hout e' he' => ?_⟩
  · refine List.Nodup.map_on (fun p hp q hq heq => ?_) hsel
    rw [List.getD_eq_getElem _ _ (hget p hp), List.getD_eq_getElem _ _ (hget q hq)] at heq
    exact (List.Nodup.getElem_inj_iff hnodup).1 heq
  · rw [List.length_map, hlen, Finset.card_range, List.toFinset_card_of_nodup hnodup]
  · obtain ⟨p, hp, rfl⟩ := List.mem_map.1 he
    rw [List.getD_eq_getElem _ _ (hget p hp)]
    exact List.mem_toFinset.2 (List.getElem_mem _)
  · simp
  · obtain ⟨p, hp, rfl⟩ := List.mem_iff_getElem.1 (List.mem_toFinset.1 he)
    obtain ⟨q, hq, rfl⟩ := List.mem_map.1 he'
    have hpsel : p ∉ sel := by
      intro hp'
      exact hout (List.mem_map.2 ⟨p, hp', List.getD_eq_getElem _ _ hp⟩)
    have hle : scores (cands.getD p 0) ≤ scores (cands.getD q 0) :=
      hbest p (Finset.mem_range.2 hp) hpsel q hq
    rwa [List.getD_eq_getElem _ _ hp] at hle

/-! ### The sum of a group -/

omit [Field F] in
/-- A list that grows at its end is sorted by insertion into the sorted list. -/
theorem insertionSort_concat (xs : List F) (s : F) :
    (xs ++ [s]).insertionSort (· ≥ ·) = (xs.insertionSort (· ≥ ·)).orderedInsert (· ≥ ·) s := by
  rw [← List.insertionSort_cons]
  refine List.Perm.eq_of_pairwise' (r := (· ≥ ·)) (List.pairwise_insertionSort ..)
    (List.pairwise_insertionSort ..) ?_
  exact ((List.perm_insertionSort _ _).trans (List.perm_append_singleton s xs)).trans
    (List.perm_insertionSort _ _).symm

/-- The two best so far are the first two of the sorted list. -/
theorem bestTwo_foldl (xs : List F) (hxs : ∀ s ∈ xs, topkFloor < s) :
    xs.foldl bestTwo (topkFloor, topkFloor) =
      ((xs.insertionSort (· ≥ ·)).getD 0 topkFloor, (xs.insertionSort (· ≥ ·)).getD 1 topkFloor) := by
  induction xs using List.reverseRecOn with
  | nil => rfl
  | append_singleton xs s ih =>
    have hs : topkFloor < s := hxs s (by simp)
    rw [List.foldl_append, ih fun t ht => hxs t (by simp [ht]), insertionSort_concat]
    have hsorted := List.pairwise_insertionSort (· ≥ ·) xs
    generalize xs.insertionSort (· ≥ ·) = sorted at hsorted
    match sorted with
    | [] => simp [bestTwo, hs]
    | [a] =>
      rcases lt_trichotomy s a with hlt | rfl | hlt
      · simp [bestTwo, hs, hlt.not_gt, hlt.not_ge]
      · simp [bestTwo, hs]
      · simp [bestTwo, hlt, hlt.le]
    | a :: b :: rest =>
      have hab : b ≤ a := List.rel_of_pairwise_cons hsorted List.mem_cons_self
      rcases lt_trichotomy s a with hlt | rfl | hlt
      · rcases lt_trichotomy s b with hltb | rfl | hltb
        · simp [bestTwo, hlt.not_gt, hlt.not_ge, hltb.not_gt, hltb.not_ge]
        · simp [bestTwo, hlt.not_gt, hlt.not_ge]
        · simp [bestTwo, hlt.not_gt, hlt.not_ge, hltb, hltb.le]
      · rcases hab.lt_or_eq with hltb | rfl
        · simp [bestTwo, hltb]
        · simp [bestTwo]
      · simp [bestTwo, hlt, hlt.le]

/-- The groups lie one after the other. -/
theorem groupStart_succ (E n g : ℕ) : groupStart E n (g + 1) = groupStart E n g + groupSize E n g := by
  unfold groupStart groupSize
  rw [Nat.add_mul, Nat.one_mul]
  split_ifs <;> omega

theorem groupStart_mono {E n g g' : ℕ} (hg : g < g') :
    groupStart E n g + groupSize E n g ≤ groupStart E n g' := by
  induction g', hg using Nat.le_induction with
  | base => rw [groupStart_succ]
  | succ g' _ ih => rw [groupStart_succ]; omega

/-- The last group ends with the last expert. -/
theorem groupStart_last (E : ℕ) {n : ℕ} (hn : 0 < n) : groupStart E n n = E := by
  have hrem : ¬n < E % n := (Nat.mod_lt E hn).not_gt
  rw [groupStart, if_neg hrem, Nat.div_add_mod]

theorem groupEnd_le {E n g : ℕ} (hg : g < n) : groupStart E n g + groupSize E n g ≤ E :=
  (groupStart_mono hg).trans_eq (groupStart_last E (Nat.zero_lt_of_lt hg))

/-- The first loop over the groups adds up the two best of each. -/
theorem groupSums_eq {E n : ℕ} (hfloor : ∀ e < E, topkFloor < scores e) {m : ℕ} (hm : m ≤ n) :
    let acc := (List.range m).foldl (fun (acc : ℕ × (ℕ → F)) g =>
      let b := ((List.range' acc.1 (groupSize E n g)).map scores).foldl bestTwo (topkFloor, topkFloor)
      (acc.1 + groupSize E n g, Function.update acc.2 g (b.1 + b.2))) (0, fun _ => 0)
    acc.1 = groupStart E n m ∧ ∀ g < m, acc.2 g =
      twoBest ((List.range' (groupStart E n g) (groupSize E n g)).map scores) := by
  induction m with
  | zero =>
    refine ⟨?_, fun g hg => absurd hg (Nat.not_lt_zero g)⟩
    rw [groupStart, Nat.zero_mul, Nat.zero_add]
    split_ifs with hrem
    · rfl
    · exact (Nat.eq_zero_of_not_pos hrem).symm
  | succ m ih =>
    obtain ⟨hstart, hsum⟩ := ih (Nat.le_of_succ_le hm)
    dsimp only at hstart hsum ⊢
    rw [List.range_succ, List.foldl_append, List.foldl_cons, List.foldl_nil]
    refine ⟨by rw [hstart, groupStart_succ], fun g hg => ?_⟩
    dsimp only
    rcases Nat.lt_succ_iff_lt_or_eq.1 hg with hlt | rfl
    · rw [Function.update_of_ne hlt.ne, hsum g hlt]
    · rw [Function.update_self, hstart, bestTwo_foldl]
      · rfl
      · intro s hs
        obtain ⟨e, he, rfl⟩ := List.mem_map.1 hs
        have hend := groupEnd_le (E := E) (Nat.lt_of_succ_le hm)
        exact hfloor e (by rw [List.mem_range'_1] at he; omega)

omit [LinearOrder F] [Field F] in
/-- Two groups have no expert in common. -/
theorem groupMembers_disjoint {E n g g' : ℕ} (hg : g ≠ g') {e : ℕ} (he : e ∈ groupMembers E n g) :
    e ∉ groupMembers E n g' := by
  unfold groupMembers at he ⊢
  rw [List.mem_toFinset, List.mem_range'_1] at he ⊢
  rcases Nat.lt_or_gt_of_ne hg with hlt | hlt
  · have := groupStart_mono (E := E) (n := n) hlt
    omega
  · have := groupStart_mono (E := E) (n := n) hlt
    omega

theorem groupCands_nodup (E n : ℕ) {kept : List ℕ} (hkept : kept.Nodup) :
    (groupCands E n kept).Nodup := by
  refine List.nodup_flatMap.2 ⟨fun g _ => List.nodup_range', hkept.imp fun {g g'} hne => ?_⟩
  intro e he he'
  exact groupMembers_disjoint hne (List.mem_toFinset.2 he) (List.mem_toFinset.2 he')

theorem groupCands_toFinset (E n : ℕ) (kept : List ℕ) :
    (groupCands E n kept).toFinset = kept.toFinset.biUnion (groupMembers E n) := by
  ext e
  simp [groupCands, groupMembers]

/-- The groups that are kept: as many as asked for, and no other group has a greater sum. -/
theorem keptGroups_best (out : TopkHeap F) {E n t : ℕ} (hfloor : ∀ e < E, topkFloor < scores e)
    (ht : 0 < t) (htn : t < n) :
    (keptGroups out scores E n t).Nodup ∧ (keptGroups out scores E n t).length = t ∧
      (∀ g ∈ keptGroups out scores E n t, g < n) ∧
      ∀ g < n, g ∉ keptGroups out scores E n t → ∀ g' ∈ keptGroups out scores E n t,
        groupBest scores E n g ≤ groupBest scores E n g' := by
  obtain ⟨hn, hnodup, hlt, -, hbest⟩ := topkHeapSelect_best out (groupSums scores E n).2 n ht
  have hsum : ∀ g < n, (groupSums scores E n).2 g = groupBest scores E n g :=
    (groupSums_eq hfloor (Nat.le_refl n)).2
  unfold keptGroups
  dsimp only at hnodup hlt hbest ⊢
  generalize topkHeapSelect out (groupSums scores E n).2 n t = h at *
  have hperm := List.perm_insertionSort (· ≤ ·) ((List.range h.n).map h.idx)
  refine ⟨hperm.nodup_iff.2 hnodup, ?_, fun g hg => hlt g (hperm.mem_iff.1 hg), ?_⟩
  · rw [List.length_insertionSort, List.length_map, List.length_range, hn]
    omega
  · intro g hg hout g' hg'
    rw [← hsum g hg, ← hsum g' (hlt g' (hperm.mem_iff.1 hg'))]
    exact hbest g hg (fun hmem => hout (hperm.mem_iff.2 hmem)) g' (hperm.mem_iff.1 hg')

/-! ### The choice -/

/-- In use, the grouping keeps as many groups as asked for, none with a smaller sum than a group
it leaves, and the choice is among their experts. Out of use, it is among all experts. -/
theorem moeGroupedTopkSelect_chooses (out groupOut : TopkHeap F) (scores : ℕ → F) (E : ℕ)
    (K nGroup topkGroup : ℤ) (hfloor : ∀ e < E, topkFloor < scores e) :
    (¬Grouped E nGroup topkGroup →
      Chooses scores (Finset.range E) (min K moeMaxTopk).toNat
        (moeGroupedTopkSelect out groupOut scores E K nGroup topkGroup)) ∧
    (Grouped E nGroup topkGroup →
      ∃ kept : Finset ℕ, kept ⊆ Finset.range nGroup.toNat ∧ kept.card = topkGroup.toNat ∧
        (∀ g < nGroup.toNat, g ∉ kept → ∀ g' ∈ kept,
          groupBest scores E nGroup.toNat g ≤ groupBest scores E nGroup.toNat g') ∧
        Chooses scores (kept.biUnion (groupMembers E nGroup.toNat)) (min K moeMaxTopk).toNat
          (moeGroupedTopkSelect out groupOut scores E K nGroup topkGroup)) := by
  refine ⟨fun hg => ?_, fun hg => ?_⟩
  · rw [moeGroupedTopkSelect, if_neg hg]
    exact moeTopkSelect_chooses out scores E K
  · have hcount : 0 < topkGroup.toNat ∧ topkGroup.toNat < nGroup.toNat := by
      unfold Grouped at hg
      omega
    obtain ⟨hnodup, hlen, hlt, hbest⟩ := keptGroups_best groupOut hfloor hcount.1 hcount.2
    rw [moeGroupedTopkSelect, if_pos hg]
    generalize keptGroups groupOut scores E nGroup.toNat topkGroup.toNat = kept at *
    refine ⟨kept.toFinset, fun g hg => ?_, ?_, fun g hg hout g' hg' => ?_, ?_⟩
    · exact Finset.mem_range.2 (hlt g (List.mem_toFinset.1 hg))
    · rw [List.toFinset_card_of_nodup hnodup, hlen]
    · exact hbest g hg (fun hmem => hout (List.mem_toFinset.2 hmem)) g' (List.mem_toFinset.1 hg')
    · rw [← groupCands_toFinset]
      exact (moeTopkSelect_chooses out _ _ K).remap (groupCands_nodup E _ hnodup)

theorem moeGroupedTopkSelect_five :
    Grouped 5 2 1 ∧ ∃ kept : Finset ℕ, kept ⊆ Finset.range 2 ∧ kept.card = 1 ∧
      (∀ g < 2, g ∉ kept → ∀ g' ∈ kept,
        groupBest (fun e => (e : ℚ)) 5 2 g ≤ groupBest (fun e => (e : ℚ)) 5 2 g') ∧
      Chooses (fun e => (e : ℚ)) (kept.biUnion (groupMembers 5 2)) 3
        (moeGroupedTopkSelect ⟨fun _ => 0, fun _ => 0, 0⟩ ⟨fun _ => 0, fun _ => 0, 0⟩ (fun e => (e : ℚ))
          5 3 2 1) := by
  have hg : Grouped 5 2 1 := by decide
  refine ⟨hg, (moeGroupedTopkSelect_chooses _ _ (fun e => (e : ℚ)) 5 3 2 1 fun e _ => ?_).2 hg⟩
  have he : (0 : ℚ) ≤ e := Nat.cast_nonneg e
  unfold topkFloor
  linarith

end Kappai
