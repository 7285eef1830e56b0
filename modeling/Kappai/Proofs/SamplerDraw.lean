import Kappai.Sanity.SamplerDraw
import Kappai.Lib.Softmax
import Mathlib.Analysis.Complex.Exponential
import Mathlib.Data.Finset.Card

/-! What the sampler can return: the tokens that survive the cuts, each with its share of the mass. The
order of equal logits is that of `qsort`. -/

namespace Kappai

variable {R : Type*}

/-! ### Candidates -/

section Candidates

variable [LinearOrder R] {logits : ℕ → R} {vocab K : ℕ} {cands : List ℕ}

/-- All tokens in some order. -/
theorem TopBy.perm_range (h : TopBy logits vocab vocab cands) : cands.Perm (List.range vocab) := by
  refine List.Subperm.perm_of_length_le ?_ (by simp [h.length])
  exact List.subperm_of_subset h.nodup fun t ht => List.mem_range.2 (h.lt t ht)

/-- The largest logit, and the first token that has it. -/
theorem samplerArgmax_spec (logits : ℕ → R) (hv : 0 < vocab) : TopBy logits vocab 1 [samplerArgmax logits vocab] := by
  have hfold : ∀ n, ∃ a, a ≤ n ∧ (∀ e ≤ n, logits e ≤ logits a) ∧ (List.range' 1 n).foldl
      (fun best i => if logits i > best.2 then (i, logits i) else best) (0, logits 0) =
        (a, logits a) := by
    intro n
    induction n with
    | zero => exact ⟨0, le_rfl, fun e he => by rw [Nat.le_zero.1 he], rfl⟩
    | succ n ih =>
      obtain ⟨a, hle, hmax, hfold⟩ := ih
      rw [List.range'_1_concat, List.foldl_append, hfold]
      simp only [List.foldl_cons, List.foldl_nil]
      split_ifs with hgt
      · refine ⟨1 + n, by omega, fun e he => ?_, rfl⟩
        rcases Nat.lt_or_ge e (n + 1) with hlt | hge
        · exact (hmax e (by omega)).trans hgt.le
        · rw [show e = 1 + n by omega]
      · refine ⟨a, by omega, fun e he => ?_, rfl⟩
        rcases Nat.lt_or_ge e (n + 1) with hlt | hge
        · exact hmax e (by omega)
        · rw [show e = 1 + n by omega]
          exact not_lt.1 hgt
  obtain ⟨a, hle, hmax, hfold⟩ := hfold (vocab - 1)
  have harg : samplerArgmax logits vocab = a := congrArg Prod.fst hfold
  rw [harg]
  refine ⟨by simp, rfl, fun t ht => ?_, by simp, fun e he _ t ht => ?_⟩
  · rw [List.mem_singleton.1 ht]
    omega
  · rw [List.mem_singleton.1 ht]
    exact hmax e (by omega)

/-- `qsort` puts what it is given in the order of `cmp_desc`. -/
structure IsQsort (qsort : List (SamplerTopKEntry R) → List (SamplerTopKEntry R)) : Prop where
  perm : ∀ arr, (qsort arr).Perm arr
  desc : ∀ arr, (qsort arr).Pairwise fun e f => f.v ≤ e.v

variable {qsort : List (SamplerTopKEntry R) → List (SamplerTopKEntry R)}

theorem topKSorted_eq (hsort : IsQsort qsort) (heap : TopkHeap R) (logits : ℕ → R) (vocab : ℕ) {k : ℕ}
    (hk : 0 < k) (hle : k ≤ vocab) :
    ∃ cands, TopBy logits vocab k cands ∧
      topKSorted qsort heap logits vocab k = entries logits cands := by
  obtain ⟨hn, hnodup, hlt, hscore, hbest⟩ := topkHeapSelect_best heap logits vocab hk
  set h := topkHeapSelect heap logits vocab k
  have hheap : topKHeap heap logits vocab k = entries logits ((List.range h.n).map h.idx) := by
    have hbig : ¬ (k : ℤ) > vocab := by omega
    have hpos : ¬ (k : ℤ) ≤ 0 := by omega
    simp only [topKHeap, hbig, hpos, if_false, Int.toNat_natCast]
    rw [entries, List.map_map]
    refine List.map_congr_left fun p hp => ?_
    have hp : p < h.n := List.mem_range.1 hp
    rw [Function.comp_apply, ← hscore p hp]
  have hperm := hsort.perm (entries logits ((List.range h.n).map h.idx))
  have hidx : ((topKSorted qsort heap logits vocab k).map (·.i)).Perm ((List.range h.n).map h.idx) := by
    rw [topKSorted, hheap]
    simpa [entries, Function.comp_def] using hperm.map (·.i)
  have hentries : topKSorted qsort heap logits vocab k =
      entries logits ((topKSorted qsort heap logits vocab k).map (·.i)) := by
    rw [entries, List.map_map]
    refine (List.map_id _).symm.trans (List.map_congr_left fun e he => ?_)
    have hmem : e ∈ entries logits ((List.range h.n).map h.idx) := by
      rw [topKSorted, hheap] at he
      exact hperm.subset he
    obtain ⟨t, -, rfl⟩ := List.mem_map.1 hmem
    rfl
  refine ⟨_, ⟨hidx.nodup_iff.2 hnodup, ?_, fun t ht => hlt t (hidx.subset ht), ?_, fun e he hnot t ht => ?_⟩,
    hentries⟩
  · rw [hidx.length_eq, List.length_map, List.length_range, hn, Nat.min_eq_right hle]
  · rw [List.pairwise_map]
    refine (hsort.desc _).imp_of_mem fun {e f} he hf hef => ?_
    have hval : ∀ e ∈ topKSorted qsort heap logits vocab k, e.v = logits e.i := by
      intro e he
      rw [hentries] at he
      obtain ⟨t, -, rfl⟩ := List.mem_map.1 he
      rfl
    rw [← hval e he, ← hval f hf]
    exact hef
  · exact hbest e he (fun hmem => hnot (hidx.symm.subset hmem)) t (hidx.subset ht)

end Candidates

namespace HostSampler

section Draws

variable [Field R] [LinearOrder R]

/-- How many candidates are collected. -/
def candCount (s : HostSampler R) (vocab : ℕ) : ℕ :=
  if s.topK > 0 ∧ s.topK < vocab then s.topK.toNat
  else if s.topP < 1 ∨ s.minP > 0 then min vocab samplerTopFilterCap else vocab

variable {s : HostSampler R} {logits : ℕ → R} {vocab : ℕ}

theorem candCount_pos (hv : 0 < vocab) : 0 < s.candCount vocab ∧ s.candCount vocab ≤ vocab := by
  unfold candCount samplerTopFilterCap
  split_ifs <;> omega

variable {qsort : List (SamplerTopKEntry R) → List (SamplerTopKEntry R)} {exp : R → R}

theorem collectCandidates_eq (hsort : IsQsort qsort) (heap : TopkHeap R) (logits : ℕ → R) (hv : 0 < vocab) :
    ∃ cands, TopBy logits vocab (s.candCount vocab) cands ∧
      s.collectCandidates qsort heap logits vocab = entries logits cands := by
  obtain ⟨hpos, hle⟩ := candCount_pos (s := s) hv
  obtain ⟨cands, htop, heq⟩ := topKSorted_eq hsort heap logits vocab hpos hle
  refine ⟨cands, htop, heq ▸ ?_⟩
  unfold collectCandidates candCount
  split_ifs with hk hcut
  · rw [Int.toNat_of_nonneg (by omega)]
  · unfold topAllDesc samplerTopFilterCap
    simp only
    rw [if_neg (by omega)]
    congr 1
    simp
  · unfold topAllDesc
    simp only
    rw [Nat.min_self, if_neg (by omega)]

/-- The mass of a token. -/
def mass (s : HostSampler R) (exp : R → R) (logits : ℕ → R) (t : ℕ) : R := exp (logits t / s.temperature)

/-- Weights relative to a logit are masses up to a factor. -/
theorem weight_eq (hexp : IsExp exp) (mx : R) (t : ℕ) :
    exp (logits t * (1 / s.temperature) - mx) = exp (-mx) * s.mass exp logits t := by
  rw [mass, ← hexp.add, mul_one_div, sub_eq_neg_add]

theorem mass_pos (hexp : IsExp exp) (t : ℕ) : 0 < s.mass exp logits t := hexp.pos _

variable [IsStrictOrderedRing R]

theorem mass_mono (hexp : Monotone exp) (hT : 0 < s.temperature) {i j : ℕ} (h : logits i ≤ logits j) :
    s.mass exp logits i ≤ s.mass exp logits j :=
  hexp (div_le_div_of_nonneg_right h hT.le)

/-- The fast path draws from all tokens. -/
theorem sampleFullVocab_draws (hexp : IsExp exp) (hv : 0 < vocab) :
    DrawsBy (s.mass exp logits) (List.range vocab) (s.sampleFullVocab exp logits vocab) := by
  set mx := (List.range' 1 (vocab - 1)).foldl
    (fun mx i => if logits i * (1 / s.temperature) > mx then logits i * (1 / s.temperature) else mx)
    (logits 0 * (1 / s.temperature)) with hmx
  refine DrawsBy.of_scale (c := exp (-mx)) (DrawsBy.of_loop List.nodup_range ?_
    (fun t => mul_pos (hexp.pos _) (mass_pos hexp t)) fun u j hj t ht => ?_) (hexp.pos _).ne'
  · simpa using hv.ne'
  · have hjt : j = t := by
      obtain ⟨hlen, hget⟩ := List.getElem?_eq_some_iff.1 ht
      simpa using hget
    have hws : (List.range vocab).map (fun i => exp (logits i * (1 / s.temperature) - mx)) =
        (List.range vocab).map fun t => exp (-mx) * s.mass exp logits t :=
      List.map_congr_left fun t _ => weight_eq hexp mx t
    simp only [sampleFullVocab, ← hmx, hws, hj, hjt]

/-- The filtered path draws from what the cuts leave. -/
theorem sampleFiltered_draws (hexp : IsExp exp) (hmono : Monotone exp) (hsort : IsQsort qsort)
    (heap : TopkHeap R) (logits : ℕ → R) (hv : 0 < vocab) (hT : 0 < s.temperature)
    (hP : 0 < s.topP) (hm : s.minP ≤ 1) :
    ∃ cands kept, TopBy logits vocab (s.candCount vocab) cands ∧
      Survives (s.mass exp logits) cands s.topP s.minP kept ∧
      DrawsBy (s.mass exp logits) kept (s.sampleFiltered qsort exp heap logits vocab) := by
  obtain ⟨cands, htop, harr⟩ := collectCandidates_eq (s := s) hsort heap logits hv
  have hlen := htop.length
  obtain ⟨top, rest, rfl⟩ : ∃ top rest, cands = top :: rest := by
    cases cands with
    | nil => exact absurd hlen.symm (candCount_pos (s := s) hv).1.ne'
    | cons top rest => exact ⟨top, rest, rfl⟩
  set mx := logits top * (1 / s.temperature) with hmx
  set w : ℕ → R := fun t => exp (-mx) * s.mass exp logits t with hw
  have hc : 0 < exp (-mx) := hexp.pos _
  have hpos : ∀ t, 0 < w t := fun t => mul_pos hc (mass_pos hexp t)
  have hweigh : applyTemperatureSoftmax exp (entries logits (top :: rest)) s.temperature =
      (entries w (top :: rest), ((top :: rest).map w).sum) := by
    have hout : (entries logits (top :: rest)).map
        (fun e => { e with v := exp (e.v * (1 / s.temperature) - mx) }) = entries w (top :: rest) := by
      simp only [entries, List.map_map]
      refine List.map_congr_left fun t _ => ?_
      simp only [Function.comp_apply, weight_eq hexp mx t, hw]
    have hsums : ((entries w (top :: rest)).map (·.v)).sum = ((top :: rest).map w).sum := by
      rw [entries_v]
    rw [← hsums, ← hout]
    rfl
  have hne : top :: rest ≠ [] := List.cons_ne_nil _ _
  have hsum := sum_mass_pos hpos hne
  have hnuc := applyTopP_spec hpos hne hP
  set n := applyTopP (entries w (top :: rest)) s.topP ((top :: rest).map w).sum
  obtain ⟨m, hm'⟩ : ∃ m, n = m + 1 := ⟨n - 1, by have := hnuc.pos hne hP; omega⟩
  have hdesc : (top :: rest).Pairwise fun i j => w j ≤ w i :=
    htop.desc.imp fun h => mul_le_mul_of_nonneg_left (mass_mono hmono hT h) hc.le
  have htake : (top :: rest).take n = top :: rest.take m := by rw [hm', List.take_succ_cons]
  obtain ⟨hkpos, hkle, hkmem⟩ := applyMinP_spec hsum hpos hm
    (htake ▸ hdesc.sublist (List.take_sublist n _))
  rw [← htake] at hkpos hkle hkmem
  set k := applyMinP (entries w ((top :: rest).take n)) s.minP ((top :: rest).map w).sum
  set kept := ((top :: rest).take n).take k with hkept
  have htopmax : ∀ j ∈ top :: rest, w j ≤ w top := by
    intro j hj
    rcases List.mem_cons.1 hj with rfl | hj
    · exact le_rfl
    · exact (List.pairwise_cons.1 hdesc).1 j hj
  have hkne : kept ≠ [] := by
    rw [hkept, htake]
    obtain ⟨k', hk'⟩ : ∃ k', k = k' + 1 := ⟨k - 1, by omega⟩
    simp [hk']
  refine ⟨_, kept, htop, Survives.of_scale (c := exp (-mx)) ⟨n, hnuc, List.take_prefix _ _, fun t => ?_⟩ hc,
    DrawsBy.of_scale (c := exp (-mx)) (DrawsBy.of_loop ?_ hkne hpos fun u j hj t ht => ?_) hc.ne'⟩
  · rw [hkmem t]
    refine and_congr_right fun _ => ⟨fun h j hj => ?_, fun h => h top List.mem_cons_self⟩
    rcases le_or_gt 0 s.minP with h0 | h0
    · exact (mul_le_mul_of_nonneg_left (htopmax j hj) h0).trans h
    · exact (mul_nonpos_of_nonpos_of_nonneg h0.le (hpos j).le).trans (hpos t).le
  · exact htop.nodup.sublist ((List.take_sublist _ _).trans (List.take_sublist _ _))
  · have harrlen : (entries logits (top :: rest)).length ≠ 0 := by simp
    have hk0 : k ≠ 0 := hkpos.ne'
    have hsample : s.sampleFiltered qsort exp heap logits vocab u =
        sampleFromCandidates (entries w kept) u := by
      unfold sampleFiltered
      simp only [harr, hweigh]
      have hkn : k ≤ n := hkle.trans (List.length_take_le n _)
      rw [if_neg harrlen, take_entries w _ n, if_neg hk0, take_entries, hkept, List.take_take,
        Nat.min_eq_left hkn]
    have hj : drawLoop (u * (kept.map w).sum) 0 0 (kept.map w) = some j := hj
    have hget : (entries w kept)[j]? = some ⟨w t, t⟩ := by simp [entries, ht]
    rw [hsample, sampleFromCandidates]
    simp only [entries_v, hj, Option.getD_some, hget]

/-- What a draw can give, and how often. -/
theorem sample_draws (hexp : IsExp exp) (hmono : Monotone exp) (hsort : IsQsort qsort)
    (heap : TopkHeap R) (logitsIn : ℕ → R) (hv : 0 < vocab) (hT : 0 < s.temperature)
    (hP : 0 < s.topP) (hm : s.minP ≤ 1) :
    ∃ cands kept, TopBy (s.drawnLogits logitsIn vocab) vocab (s.candCount vocab) cands ∧
      Survives (s.mass exp (s.drawnLogits logitsIn vocab)) cands s.topP s.minP kept ∧
      DrawsBy (s.mass exp (s.drawnLogits logitsIn vocab)) kept
        (s.sample qsort exp heap logitsIn vocab) := by
  unfold sample
  simp only
  generalize s.drawnLogits logitsIn vocab = logits
  have hpos : ∀ t, 0 < s.mass exp logits t := mass_pos hexp
  by_cases hgreedy : s.topK = 1
  · have htop := samplerArgmax_spec logits hv
    have hcount : s.candCount vocab = 1 := by
      unfold candCount samplerTopFilterCap
      split_ifs <;> omega
    set a := samplerArgmax logits vocab with ha
    have hshare : s.mass exp logits a / s.mass exp logits a = 1 := div_self (hpos a).ne'
    refine ⟨[a], [a], hcount ▸ htop, ⟨1, ⟨le_rfl, fun m hm => ?_, Or.inr rfl⟩, List.prefix_rfl,
      fun t => ?_⟩, ⟨by simp, by simp, fun u _ _ => ⟨a, by simp, ?_⟩, fun t ht => ⟨0, le_rfl, ?_, ?_⟩⟩⟩
    · obtain rfl : m = 0 := by omega
      simpa using hP.le
    · have hself : s.minP * s.mass exp logits a ≤ s.mass exp logits a := by nlinarith [hpos a]
      simp only [List.take_succ_cons, List.take_zero, List.mem_singleton, forall_eq]
      exact ⟨fun h => ⟨h, h ▸ hself⟩, fun h => h.1⟩
    · rw [if_pos (Or.inr hgreedy)]
      rfl
    · rw [List.mem_singleton.1 ht]
      simp [hshare]
    · intro u h0 h1
      rw [List.mem_singleton.1 ht, if_pos (Or.inr hgreedy)]
      simp [hshare, sampleGreedy, ← ha, h0, h1]
  simp only [if_neg (not_or.2 ⟨not_le.2 hT, hgreedy⟩)]
  by_cases hfull : (s.topK ≤ 0 ∨ s.topK ≥ vocab) ∧ s.topP ≥ 1 ∧ s.minP ≤ 0
  · simp only [if_pos hfull]
    obtain ⟨cands, htop, -⟩ := topKSorted_eq hsort heap logits vocab hv le_rfl
    have hcount : s.candCount vocab = vocab := by
      unfold candCount
      rw [if_neg (by omega), if_neg (not_or.2 ⟨not_lt.2 hfull.2.1, not_lt.2 hfull.2.2⟩)]
    have hne : cands ≠ [] := fun hnil => by
      have hlen := htop.length
      rw [hnil, List.length_nil] at hlen
      omega
    have hnuc := applyTopP_spec hpos hne hP
    rw [applyTopP, if_pos hfull.2.1, length_entries] at hnuc
    refine ⟨cands, cands, by rwa [hcount], ⟨_, hnuc, by simp, fun t => ?_⟩,
      (sampleFullVocab_draws hexp hv).perm htop.perm_range.symm⟩
    rw [List.take_length]
    refine ⟨fun h => ⟨h, fun j _ => ?_⟩, fun h => h.1⟩
    exact (mul_nonpos_of_nonpos_of_nonneg hfull.2.2 (hpos j).le).trans (hpos t).le
  · simp only [if_neg hfull]
    exact sampleFiltered_draws hexp hmono hsort heap logits hv hT hP hm

/-- Filters that leave every token draw by all masses. -/
theorem sampleFiltered_all (hexp : IsExp exp) (hmono : Monotone exp) (hsort : IsQsort qsort)
    (heap : TopkHeap R) (hv : 0 < vocab) (hT : 0 < s.temperature) (hP : 0 < s.topP) (hm : s.minP ≤ 1)
    (hall : ∀ t < vocab, ∃ u, 0 ≤ u ∧ u < 1 ∧ s.sampleFiltered qsort exp heap logits vocab u = (t : ℤ)) :
    DrawsBy (s.mass exp logits) (List.range vocab) (s.sampleFiltered qsort exp heap logits vocab) := by
  obtain ⟨cands, kept, htop, hsurvives, hdraws⟩ :=
    sampleFiltered_draws hexp hmono hsort heap logits hv hT hP hm
  obtain ⟨n, -, hpre, -⟩ := hsurvives.cut
  have hlt : ∀ t ∈ kept, t < vocab := fun t ht =>
    htop.lt t (List.mem_of_mem_take (hpre.subset ht))
  refine hdraws.perm ((List.perm_ext_iff_of_nodup hdraws.nodup List.nodup_range).2 fun t => ?_)
  rw [List.mem_range]
  refine ⟨hlt t, fun ht => ?_⟩
  obtain ⟨u, h0, h1, hu⟩ := hall t ht
  obtain ⟨t', ht', hu'⟩ := hdraws.returns u h0 h1
  obtain rfl : t' = t := by exact_mod_cast hu'.symm.trans hu
  exact ht'

end Draws

/-! ### Over the reals -/

theorem isExp_real : IsExp Real.exp := ⟨Real.exp_pos, Real.exp_add⟩

/-- The sampler returns exactly the tokens that survive the two cuts of its candidates, each with
probability proportional to its mass; and filters that remove nothing give the distribution of the fast
path. -/
theorem sample_distribution {qsort : List (SamplerTopKEntry ℝ) → List (SamplerTopKEntry ℝ)}
    (hsort : IsQsort qsort) (s : HostSampler ℝ) (heap : TopkHeap ℝ) (logitsIn : ℕ → ℝ) (vocab : ℕ)
    (hv : 0 < vocab) (hT : 0 < s.temperature) (hP : 0 < s.topP) (hm : s.minP ≤ 1) :
    let logits := s.drawnLogits logitsIn vocab
    (∃ cands kept, TopBy logits vocab (s.candCount vocab) cands ∧
      Survives (s.mass Real.exp logits) cands s.topP s.minP kept ∧
      DrawsBy (s.mass Real.exp logits) kept (s.sample qsort Real.exp heap logitsIn vocab)) ∧
    DrawsBy (s.mass Real.exp logits) (List.range vocab) (s.sampleFullVocab Real.exp logits vocab) ∧
    ∀ topK topP minP, 0 < topP → minP ≤ 1 →
      let filters := { s with topK := topK, topP := topP, minP := minP }
      (∀ t < vocab, ∃ u, 0 ≤ u ∧ u < 1 ∧
        filters.sampleFiltered qsort Real.exp heap logits vocab u = (t : ℤ)) →
      DrawsBy (s.mass Real.exp logits) (List.range vocab)
        (filters.sampleFiltered qsort Real.exp heap logits vocab) := by
  intro logits
  refine ⟨sample_draws isExp_real Real.exp_monotone hsort heap logitsIn hv hT hP hm,
    sampleFullVocab_draws isExp_real hv, fun topK topP minP hP' hm' hall => ?_⟩
  exact sampleFiltered_all (s := { s with topK := topK, topP := topP, minP := minP }) isExp_real
    Real.exp_monotone hsort heap hv hT hP' hm' hall

/-! ### The limit on candidates -/

noncomputable def byLogit (arr : List (SamplerTopKEntry ℝ)) : List (SamplerTopKEntry ℝ) :=
  arr.insertionSort fun e f => f.v ≤ e.v

theorem byLogit_isQsort : IsQsort byLogit where
  perm arr := List.perm_insertionSort _ arr
  desc arr :=
    haveI : Std.Total fun e f : SamplerTopKEntry ℝ => f.v ≤ e.v := ⟨fun e f => le_total f.v e.v⟩
    haveI : IsTrans (SamplerTopKEntry ℝ) fun e f => f.v ≤ e.v := ⟨fun _ _ _ h h' => h'.trans h⟩
    List.pairwise_insertionSort _ arr

/-- A sampler with `min_p` one half and no `top_k`. -/
noncomputable def halfMinP : HostSampler ℝ :=
  (init fun _ => 0).setParams 1 0 1 (1 / 2) 1 0 fun _ => 0

/-- Of 1025 equal logits all are to be returned, and one is not. -/
theorem sample_distribution_capped :
    ¬ ∃ cands kept, TopBy (fun _ => (0 : ℝ)) 1025 1025 cands ∧
      Survives (halfMinP.mass Real.exp fun _ => 0) cands 1 (1 / 2) kept ∧
      DrawsBy (halfMinP.mass Real.exp fun _ => 0) kept
        (halfMinP.sample byLogit Real.exp ⟨fun _ => 0, fun _ => 0, 0⟩ (fun _ => 0) 1025) := by
  rintro ⟨cands, kept, htop, hsurvives, hdraws⟩
  have hlogits : halfMinP.drawnLogits (fun _ => 0) 1025 = fun _ => 0 := by
    simp [HostSampler.drawnLogits, halfMinP, HostSampler.setParams, HostSampler.init]
  obtain ⟨cands', kept', htop', hsurvives', hdraws'⟩ :=
    sample_draws (s := halfMinP) isExp_real Real.exp_monotone byLogit_isQsort
      ⟨fun _ => 0, fun _ => 0, 0⟩ (fun _ => 0) (by norm_num : 0 < 1025)
      (by simp [halfMinP, HostSampler.setParams]) (by simp [halfMinP, HostSampler.setParams])
      (by norm_num [halfMinP, HostSampler.setParams])
  rw [hlogits] at htop' hsurvives' hdraws'
  have hmass : ∀ t, halfMinP.mass Real.exp (fun _ => 0) t = 1 := by simp [HostSampler.mass]
  have hcount : halfMinP.candCount 1025 = 1024 := by
    norm_num [HostSampler.candCount, samplerTopFilterCap, halfMinP, HostSampler.setParams]
  -- every candidate survives the claimed cuts
  have hall : ∀ t ∈ cands, t ∈ kept := by
    obtain ⟨n, hn, -, hmem⟩ := hsurvives.cut
    have hlen : n = cands.length := by
      refine hn.exceeds.resolve_left fun hgt => ?_
      simp only [funext hmass, List.map_const', List.sum_replicate, nsmul_eq_mul, mul_one] at hgt
      rw [htop.length, List.length_take, htop.length, lt_div_iff₀ (by norm_num)] at hgt
      norm_num at hgt
    intro t ht
    rw [hmem, hlen, List.take_length]
    exact ⟨ht, fun j _ => by norm_num [hmass]⟩
  have hsub : kept ⊆ kept' := by
    intro t ht
    obtain ⟨a, h0, h1, hint⟩ := hdraws.interval t ht
    have hshare : 0 < halfMinP.mass Real.exp (fun _ => 0) t /
        (kept.map (halfMinP.mass Real.exp fun _ => 0)).sum :=
      div_pos (by rw [hmass]; norm_num)
        (sum_mass_pos (fun t => by rw [hmass]; norm_num) hdraws.nonempty)
    have hdraw := (hint a h0 (by linarith)).2 ⟨le_rfl, by linarith⟩
    obtain ⟨t', ht', hdraw'⟩ := hdraws'.returns a h0 (by linarith)
    obtain rfl : t' = t := by exact_mod_cast hdraw'.symm.trans hdraw
    exact ht'
  have hkept' : kept'.length ≤ 1024 := by
    obtain ⟨n, -, hpre, -⟩ := hsurvives'.cut
    have hle := hpre.length_le
    rw [List.length_take, htop'.length, hcount] at hle
    omega
  have hlong := (List.subperm_of_subset htop.nodup fun t ht => hsub (hall t ht)).length_le
  rw [htop.length] at hlong
  omega

theorem sample_distribution_single :
    IsQsort byLogit ∧ ∃ cands kept, TopBy (halfMinP.drawnLogits (fun _ => 0) 1) 1
      (halfMinP.candCount 1) cands ∧
      Survives (halfMinP.mass Real.exp (halfMinP.drawnLogits (fun _ => 0) 1)) cands halfMinP.topP
        halfMinP.minP kept ∧
      DrawsBy (halfMinP.mass Real.exp (halfMinP.drawnLogits (fun _ => 0) 1)) kept
        (halfMinP.sample byLogit Real.exp ⟨fun _ => 0, fun _ => 0, 0⟩ (fun _ => 0) 1) :=
  ⟨byLogit_isQsort, (sample_distribution byLogit_isQsort halfMinP ⟨fun _ => 0, fun _ => 0, 0⟩
    (fun _ => 0) 1 (by norm_num) (by simp [halfMinP, HostSampler.setParams])
    (by simp [halfMinP, HostSampler.setParams])
    (by norm_num [halfMinP, HostSampler.setParams])).1⟩

end HostSampler

end Kappai
