import Kappai.Lib.IndexHeap
import Kappai.Spec.MoeTopk

/-! The heap of scores and indices is an index heap whose keys are the scores, so it holds the best
indices seen so far. -/

namespace Kappai

variable {F : Type*} [LinearOrder F] {scores : ℕ → F} {h : TopkHeap F} {ih : IndexHeap} {p : ℕ}

namespace TopkHeap

/-- The heap is the index heap with the scores beside the indices. -/
structure Shows (scores : ℕ → F) (h : TopkHeap F) (ih : IndexHeap) : Prop where
  n : h.n = ih.n
  idx : ∀ p < ih.n, h.idx p = ih.idx p
  score : ∀ p < ih.n, h.score p = scores (ih.idx p)

theorem Shows.pick (hs : h.Shows scores ih) {a c : ℕ} (ha : a < ih.n) :
    h.pick a c = ih.pick scores a c := by
  unfold TopkHeap.pick IndexHeap.pick
  rw [hs.n, hs.score a ha]
  by_cases hc : c < ih.n
  · rw [hs.score c hc]
  · rw [if_neg fun h => hc h.1, if_neg fun h => hc h.1]

theorem Shows.smallest (hs : h.Shows scores ih) (hp : p < ih.n) :
    h.smallest p = ih.smallest scores p := by
  have hlt : ih.pick scores p (2 * p + 1) < ih.n := by
    unfold IndexHeap.pick
    split_ifs with hc
    · exact hc.1
    · exact hp
  unfold TopkHeap.smallest IndexHeap.smallest
  rw [hs.pick hp, hs.pick hlt]

omit [LinearOrder F] in
theorem Shows.swap (hs : h.Shows scores ih) {a b : ℕ} (ha : a < ih.n) (hb : b < ih.n) :
    (h.swap a b).Shows scores (ih.swap a b) where
  n := hs.n
  idx q hq := by
    simp only [TopkHeap.swap, IndexHeap.swap, Function.update_apply]
    rw [hs.idx a ha, hs.idx b hb, hs.idx q hq]
  score q hq := by
    rw [IndexHeap.swap_idx]
    simp only [TopkHeap.swap, Function.update_apply]
    rw [hs.score a ha, hs.score b hb, hs.score q hq]
    split_ifs <;> rfl

theorem Shows.siftDown (hs : h.Shows scores ih) (hp : p < ih.n) :
    (h.siftDown p).Shows scores (ih.siftDown scores p) := by
  induction ih, p using IndexHeap.siftDown.induct scores generalizing h with
  | case1 ih p hstop =>
    rw [IndexHeap.siftDown, dif_pos hstop, TopkHeap.siftDown, dif_pos (by rw [hs.smallest hp, hstop])]
    exact hs
  | case2 ih p hstop hrec =>
    rcases ih.smallest_cases scores p with heq | hlt
    · exact absurd heq hstop
    · rw [IndexHeap.siftDown, dif_neg hstop, TopkHeap.siftDown, dif_neg (by rwa [hs.smallest hp]),
        hs.smallest hp]
      exact hrec (hs.swap hp hlt.2) hlt.2

theorem Shows.siftUp (hs : h.Shows scores ih) (hp : p < ih.n) :
    (h.siftUp p).Shows scores (ih.siftUp scores p) := by
  induction ih, p using IndexHeap.siftUp.induct scores generalizing h with
  | case1 ih p hpos hle =>
    rw [IndexHeap.siftUp, dif_pos hpos, if_pos hle, TopkHeap.siftUp, dif_pos hpos, if_pos]
    · exact hs
    · rwa [hs.score p hp, hs.score _ (by omega)]
  | case2 ih p hpos hle hrec =>
    rw [IndexHeap.siftUp, dif_pos hpos, if_neg hle, TopkHeap.siftUp, dif_pos hpos, if_neg]
    · exact hrec (hs.swap hp (by omega)) (by rw [IndexHeap.swap_n]; omega)
    · rwa [hs.score p hp, hs.score _ (by omega)]
  | case3 ih p hpos =>
    rw [IndexHeap.siftUp, dif_neg hpos, TopkHeap.siftUp, dif_neg hpos]
    exact hs

theorem Shows.push (hs : h.Shows scores ih) (e : ℕ) :
    (h.push (scores e) e).Shows scores (ih.push scores e) := by
  unfold TopkHeap.push IndexHeap.push
  rw [hs.n]
  refine Shows.siftUp ⟨rfl, fun p hp => ?_, fun p hp => ?_⟩ (Nat.lt_succ_self ih.n)
  · simp only [put, Function.update_apply]
    split_ifs with heq
    · rfl
    · exact hs.idx p (by dsimp only at hp; omega)
  · simp only [put, Function.update_apply]
    split_ifs with heq
    · rfl
    · exact hs.score p (by dsimp only at hp; omega)

theorem Shows.replaceRoot (hs : h.Shows scores ih) (hn : 0 < ih.n) (e : ℕ) :
    ((h.put 0 (scores e) e).siftDown 0).Shows scores ((ih.replaceRoot e).siftDown scores 0) := by
  refine Shows.siftDown ⟨hs.n, fun p hp => ?_, fun p hp => ?_⟩ hn
  · simp only [put, IndexHeap.replaceRoot, Function.update_apply]
    split_ifs
    · rfl
    · exact hs.idx p hp
  · simp only [put, IndexHeap.replaceRoot, Function.update_apply]
    split_ifs
    · rfl
    · exact hs.score p hp

/-- The heap holds the indices of `S`, in order. -/
def Holds (scores : ℕ → F) (S : Set ℕ) (h : TopkHeap F) : Prop :=
  ∃ ih : IndexHeap, h.Shows scores ih ∧ ih.Indexes S ∧ ih.Ordered scores

theorem Holds.push {S : Set ℕ} (hh : h.Holds scores S) {e : ℕ} (he : e ∉ S) :
    (h.push (scores e) e).Holds scores (insert e S) ∧ (h.push (scores e) e).n = h.n + 1 := by
  obtain ⟨ih, hs, hi, ho⟩ := hh
  have hpush := hs.push e
  exact ⟨⟨_, hpush, hi.push scores he, ho.push e⟩, by rw [hpush.n, IndexHeap.push_n, hs.n]⟩

/-- What a new index does that is offered to a heap with members. -/
theorem Holds.offer {S : Set ℕ} (hh : h.Holds scores S) (hn : 0 < h.n) {e : ℕ} (he : e ∉ S) :
    (h.offer (scores e) e).n = h.n ∧
      ((h.offer (scores e) e).Holds scores S ∧ (∀ x ∈ S, scores e ≤ scores x) ∨
        ∃ r ∈ S, (h.offer (scores e) e).Holds scores (insert e (S \ {r})) ∧
          scores r < scores e ∧ ∀ x ∈ S, scores r ≤ scores x) := by
  obtain ⟨ih, hs, hi, ho⟩ := hh
  have hn' : 0 < ih.n := hs.n ▸ hn
  have hroot : ∀ x ∈ S, scores (ih.idx 0) ≤ scores x := by
    intro x hx
    obtain ⟨p, hp, rfl⟩ := hi.idx_pos x hx
    exact ho.root_le hp
  unfold TopkHeap.offer
  rw [hs.score 0 hn']
  split_ifs with hlt
  · have hrepl := hs.replaceRoot hn' e
    refine ⟨by rw [hrepl.n, IndexHeap.siftDown_n, IndexHeap.replaceRoot_n, hs.n], Or.inr ?_⟩
    exact ⟨ih.idx 0, hi.mem 0 hn', ⟨_, hrepl, (hi.replaceRoot he hn').siftDown scores hn',
      ho.replaceRoot e⟩, hlt, hroot⟩
  · exact ⟨rfl, Or.inl ⟨⟨ih, hs, hi, ho⟩, fun x hx => (not_lt.1 hlt).trans (hroot x hx)⟩⟩

/-- The first loop of `topk_heap_select`. -/
def pushes (scores : ℕ → F) (out : TopkHeap F) (m : ℕ) : TopkHeap F :=
  (List.range m).foldl (fun h e => h.push (scores e) e) { out with n := 0 }

/-- The first loop puts every index in. -/
theorem holds_pushes (scores : ℕ → F) (out : TopkHeap F) (m : ℕ) :
    (pushes scores out m).Holds scores {e | e < m} ∧ (pushes scores out m).n = m := by
  induction m with
  | zero =>
    refine ⟨⟨.empty, ⟨rfl, fun p hp => ?_, fun p hp => ?_⟩, ?_, fun q _ hn => ?_⟩, rfl⟩
    · exact absurd hp (Nat.not_lt_zero p)
    · exact absurd hp (Nat.not_lt_zero p)
    · have hnone : {e : ℕ | e < 0} = ∅ := Set.eq_empty_of_forall_notMem fun e he => Nat.not_lt_zero e he
      rw [hnone]
      exact .empty
    · exact absurd hn (Nat.not_lt_zero q)
  | succ m hrec =>
    rw [pushes, List.range_succ, List.foldl_append, List.foldl_cons, List.foldl_nil, ← pushes]
    have hfresh : m ∉ {e | e < m} := Nat.lt_irrefl m
    have hset : insert m {e | e < m} = {e | e < m + 1} := by
      ext e
      simp only [Set.mem_insert_iff, Set.mem_ofPred_eq]
      omega
    obtain ⟨hholds, hn⟩ := hrec.1.push hfresh
    rw [hset] at hholds
    exact ⟨hholds, by rw [hn, hrec.2]⟩

/-- The heap holds `k` of the indices below `i`, and none of the others beats one it holds. -/
structure Best (scores : ℕ → F) (k i : ℕ) (S : Set ℕ) (h : TopkHeap F) : Prop where
  holds : h.Holds scores S
  n : h.n = k
  lt : ∀ e ∈ S, e < i
  best : ∀ e < i, e ∉ S → ∀ e' ∈ S, scores e ≤ scores e'

theorem Best.offer {k i : ℕ} {S : Set ℕ} (hb : h.Best scores k i S) (hk : 0 < k) :
    ∃ S', (h.offer (scores i) i).Best scores k (i + 1) S' := by
  have hfresh : i ∉ S := fun hmem => absurd (hb.lt i hmem) (Nat.lt_irrefl i)
  obtain ⟨hn, ⟨hholds, hle⟩ | ⟨r, hr, hholds, hlt, hmin⟩⟩ := hb.holds.offer (hb.n.symm ▸ hk) hfresh
  · refine ⟨S, hholds, hn.trans hb.n, fun e he => Nat.lt_succ_of_lt (hb.lt e he), fun e he hnot => ?_⟩
    rcases Nat.lt_succ_iff_lt_or_eq.1 he with he | rfl
    · exact hb.best e he hnot
    · exact hle
  · refine ⟨insert i (S \ {r}), hholds, hn.trans hb.n, fun e he => ?_, fun e he hnot e' he' => ?_⟩
    · rcases Set.mem_insert_iff.1 he with rfl | he
      · exact Nat.lt_succ_self e
      · exact Nat.lt_succ_of_lt (hb.lt e he.1)
    · -- an index that is out was out before, or is the root that has left
      have hie : e ≠ i := fun heq => hnot (heq ▸ Set.mem_insert _ _)
      have hout : scores e ≤ scores r ∨ e ∉ S := by
        by_cases heS : e ∈ S
        · have her : e = r := by_contra fun hne => hnot (Set.mem_insert_of_mem _ ⟨heS, hne⟩)
          exact Or.inl (le_of_eq (congrArg scores her))
        · exact Or.inr heS
      have hbelow : scores e ≤ scores r :=
        hout.elim id fun heS => hb.best e (by omega) heS r hr
      rcases Set.mem_insert_iff.1 he' with rfl | he'
      · exact hbelow.trans hlt.le
      · exact hbelow.trans (hmin e' he'.1)

/-- The second loop keeps the best. -/
theorem Best.offers {k i : ℕ} {S : Set ℕ} (hb : h.Best scores k i S) (hk : 0 < k) (m : ℕ) :
    ∃ S', ((List.range' i m).foldl (fun h e => h.offer (scores e) e) h).Best scores k (i + m) S' := by
  induction m generalizing h i S with
  | zero => exact ⟨S, hb⟩
  | succ m hrec =>
    obtain ⟨S₁, hb₁⟩ := hb.offer hk
    obtain ⟨S₂, hb₂⟩ := hrec hb₁
    rw [List.range'_succ, List.foldl_cons, show i + (m + 1) = i + 1 + m by omega]
    exact ⟨S₂, hb₂⟩

end TopkHeap

/-- `topk_heap_select` writes the best `k` indices of `nScores`, each with its score. -/
theorem topkHeapSelect_best (out : TopkHeap F) (scores : ℕ → F) (nScores : ℕ) {k : ℕ} (hk : 0 < k) :
    let h := topkHeapSelect out scores nScores k
    let sel := (List.range h.n).map h.idx
    h.n = min nScores k ∧ sel.Nodup ∧ (∀ e ∈ sel, e < nScores) ∧
      (∀ p < h.n, h.score p = scores (h.idx p)) ∧
      ∀ e < nScores, e ∉ sel → ∀ e' ∈ sel, scores e ≤ scores e' := by
  have hbest : ∃ S, (topkHeapSelect out scores nScores k).Best scores (min nScores k) nScores S := by
    obtain ⟨hholds, hn⟩ := TopkHeap.holds_pushes scores out (min nScores k)
    have hstart : TopkHeap.Best scores (min nScores k) (min nScores k) {e | e < min nScores k}
        (TopkHeap.pushes scores out (min nScores k)) :=
      ⟨hholds, hn, fun _ he => he, fun e he hnot => absurd he hnot⟩
    unfold topkHeapSelect
    dsimp only
    rw [← TopkHeap.pushes, hn]
    rcases Nat.eq_zero_or_pos nScores with rfl | hpos
    · exact ⟨_, by simpa using hstart⟩
    · obtain ⟨S, hb⟩ := hstart.offers (by omega) (nScores - min nScores k)
      rw [show min nScores k + (nScores - min nScores k) = nScores by omega] at hb
      exact ⟨S, hb⟩
  obtain ⟨S, ⟨ih, hs, hi, -⟩, hn, hlt, hout⟩ := hbest
  dsimp only
  generalize topkHeapSelect out scores nScores k = h at *
  have hmem : ∀ e, e ∈ (List.range h.n).map h.idx ↔ e ∈ S := by
    intro e
    rw [List.mem_map]
    constructor
    · rintro ⟨p, hp, rfl⟩
      have hp' : p < ih.n := hs.n ▸ List.mem_range.1 hp
      rw [hs.idx p hp']
      exact hi.mem p hp'
    · intro he
      obtain ⟨p, hp, rfl⟩ := hi.idx_pos e he
      exact ⟨p, List.mem_range.2 (hs.n.symm ▸ hp), hs.idx p hp⟩
  refine ⟨hn, ?_, fun e he => hlt e ((hmem e).1 he), fun p hp => ?_, fun e he hnot e' he' => ?_⟩
  · refine List.Nodup.map_on (fun p hp q hq heq => ?_) List.nodup_range
    have hp' : p < ih.n := hs.n ▸ List.mem_range.1 hp
    have hq' : q < ih.n := hs.n ▸ List.mem_range.1 hq
    rw [hs.idx p hp', hs.idx q hq'] at heq
    exact hi.idx_inj hp' hq' heq
  · have hp' : p < ih.n := hs.n ▸ hp
    rw [hs.score p hp', hs.idx p hp']
  · exact hout e he (fun hS => hnot ((hmem e).2 hS)) e' ((hmem e').1 he')

end Kappai
