import Kappai.Sanity.MoeTopk
import Kappai.Spec.Sampler
import Mathlib.Algebra.Order.BigOperators.Group.List
import Mathlib.Algebra.BigOperators.Ring.List
import Mathlib.Algebra.Order.Field.Basic
import Mathlib.Tactic.Linarith

/-! The parts of a draw: which candidates are collected, where the two cuts fall, and which draws of the
generator give which candidate. -/

namespace Kappai

open TopkHeap

variable {R : Type*}

/-- `draw` gives the tokens of a list, each in an interval of draws as long as its share of the mass. -/
structure DrawsBy [Field R] [LinearOrder R] (mass : ℕ → R) (kept : List ℕ) (draw : R → ℤ) : Prop where
  nodup : kept.Nodup
  nonempty : kept ≠ []
  returns : ∀ u, 0 ≤ u → u < 1 → ∃ t ∈ kept, draw u = t
  interval : ∀ t ∈ kept, ∃ a, 0 ≤ a ∧ a + mass t / (kept.map mass).sum ≤ 1 ∧
    ∀ u, 0 ≤ u → u < 1 → (draw u = t ↔ a ≤ u ∧ u < a + mass t / (kept.map mass).sum)

/-- The `K` tokens with the largest logits, from the largest on. -/
structure TopBy [LinearOrder R] (logits : ℕ → R) (vocab K : ℕ) (cands : List ℕ) : Prop where
  nodup : cands.Nodup
  length : cands.length = K
  lt : ∀ t ∈ cands, t < vocab
  desc : cands.Pairwise fun i j => logits j ≤ logits i
  top : ∀ e < vocab, e ∉ cands → ∀ t ∈ cands, logits e ≤ logits t

/-- The first `n` candidates are the shortest prefix whose share of the mass exceeds `topP`, or all where
none does. -/
structure Nucleus [Field R] [LinearOrder R] (mass : ℕ → R) (cands : List ℕ) (topP : R) (n : ℕ) : Prop where
  le : n ≤ cands.length
  within : ∀ m < n, ((cands.take m).map mass).sum / (cands.map mass).sum ≤ topP
  exceeds : topP < ((cands.take n).map mass).sum / (cands.map mass).sum ∨ n = cands.length

/-- The tokens that are left of the candidates after the two cuts. -/
structure Survives [Field R] [LinearOrder R] (mass : ℕ → R) (cands : List ℕ) (topP minP : R)
    (kept : List ℕ) : Prop where
  cut : ∃ n, Nucleus mass cands topP n ∧ kept <+: cands.take n ∧
    ∀ t, t ∈ kept ↔ t ∈ cands.take n ∧ ∀ j ∈ cands, minP * mass j ≤ mass t

/-! ### The loop of a draw -/

section Loop

variable [Field R] [LinearOrder R]

theorem drawLoop_ge {rnd acc : R} {i n : ℕ} {ws : List R} (h : drawLoop rnd acc i ws = some n) :
    i ≤ n := by
  induction ws generalizing acc i with
  | nil => simp [drawLoop] at h
  | cons w ws ih =>
    rw [drawLoop] at h
    split_ifs at h
    · exact (Option.some.inj h).le
    · exact (Nat.le_succ i).trans (ih h)

theorem drawLoop_isSome {rnd acc : R} {i : ℕ} {ws : List R} (h : rnd < acc + ws.sum)
    (hne : ws ≠ []) : (drawLoop rnd acc i ws).isSome := by
  induction ws generalizing acc i with
  | nil => exact absurd rfl hne
  | cons w ws ih =>
    rw [drawLoop]
    split_ifs with hlt
    · rfl
    · cases ws with
      | nil => simp at h; exact absurd h hlt
      | cons v ws => exact ih (by simpa [add_assoc] using h) (by simp)

variable [IsStrictOrderedRing R]

theorem drawLoop_eq_some {rnd acc : R} {i j : ℕ} {ws : List R} (hpos : ∀ w ∈ ws, 0 < w)
    (hacc : acc ≤ rnd) : drawLoop rnd acc i ws = some (i + j) ↔
      j < ws.length ∧ acc + (ws.take j).sum ≤ rnd ∧ rnd < acc + (ws.take (j + 1)).sum := by
  induction ws generalizing acc i j with
  | nil => simp [drawLoop]
  | cons w ws ih =>
    have hw : 0 < w := hpos w (by simp)
    rw [drawLoop]
    split_ifs with hlt
    · cases j with
      | zero => simp [hacc, hlt]
      | succ j =>
        have hsum : 0 ≤ (ws.take j).sum :=
          List.sum_nonneg fun x hx => (hpos x (by simp [List.mem_of_mem_take hx])).le
        simp only [List.take_succ_cons, List.sum_cons]
        refine ⟨fun h => absurd h (by simp), fun h => ?_⟩
        linarith [h.2.1]
    · rw [not_lt] at hlt
      cases j with
      | zero =>
        refine ⟨fun h => ?_, fun h => ?_⟩
        · have := drawLoop_ge h
          omega
        · have hrnd := h.2.2
          simp at hrnd
          linarith
      | succ j =>
        rw [show i + (j + 1) = i + 1 + j by omega,
          ih (fun x hx => hpos x (by simp [hx])) hlt]
        simp [add_assoc]

variable {mass : ℕ → R} {toks : List ℕ} {draw : R → ℤ}

theorem sum_mass_pos (hpos : ∀ t, 0 < mass t) (hne : toks ≠ []) : 0 < (toks.map mass).sum :=
  List.sum_pos _ (by simpa using fun t _ => hpos t) (by simpa using hne)

/-- A draw that takes the token at the index that the loop gives. -/
theorem DrawsBy.of_loop (hnodup : toks.Nodup) (hne : toks ≠ []) (hpos : ∀ t, 0 < mass t)
    (hdraw : ∀ u j, drawLoop (u * (toks.map mass).sum) 0 0 (toks.map mass) = some j →
      ∀ t, toks[j]? = some t → draw u = t) : DrawsBy mass toks draw := by
  have hsum := sum_mass_pos hpos hne
  have hws : ∀ w ∈ toks.map mass, 0 < w := by simpa using fun t _ => hpos t
  have hindex : ∀ u, 0 ≤ u → u < 1 → ∃ j t : ℕ, toks[j]? = some t ∧ draw u = t ∧
      drawLoop (u * (toks.map mass).sum) 0 0 (toks.map mass) = some j := by
    intro u h0 h1
    have hlt : u * (toks.map mass).sum < 0 + (toks.map mass).sum := by nlinarith
    obtain ⟨j, hj⟩ := Option.isSome_iff_exists.1 (drawLoop_isSome (i := 0) hlt (by simpa using hne))
    have hacc : 0 ≤ u * (toks.map mass).sum := mul_nonneg h0 hsum.le
    have hlen := ((drawLoop_eq_some (i := 0) hws hacc).1 (by rw [Nat.zero_add]; exact hj)).1
    rw [List.length_map] at hlen
    exact ⟨j, toks[j], by simp [hlen], hdraw u j hj _ (by simp [hlen]), hj⟩
  refine ⟨hnodup, hne, fun u h0 h1 => ?_, fun t ht => ?_⟩
  · obtain ⟨j, t, hj, hdrawn, -⟩ := hindex u h0 h1
    exact ⟨t, List.mem_of_getElem? hj, hdrawn⟩
  obtain ⟨j, hj⟩ := List.getElem?_of_mem ht
  obtain ⟨hlen, hget⟩ := List.getElem?_eq_some_iff.1 hj
  have hnext : ((toks.map mass).take (j + 1)).sum = ((toks.map mass).take j).sum + mass t := by
    rw [List.take_succ_eq_append_getElem (by simpa using hlen), List.sum_append]
    simp [hget]
  have hparts := List.sum_take_add_sum_drop (toks.map mass) (j + 1)
  have hrest : 0 ≤ ((toks.map mass).drop (j + 1)).sum :=
    List.sum_nonneg fun w hw => (hws w (List.mem_of_mem_drop hw)).le
  have hfirst : 0 ≤ ((toks.map mass).take j).sum :=
    List.sum_nonneg fun w hw => (hws w (List.mem_of_mem_take hw)).le
  refine ⟨((toks.map mass).take j).sum / (toks.map mass).sum, div_nonneg hfirst hsum.le, ?_,
    fun u h0 h1 => ?_⟩
  · rw [← add_div, ← hnext, div_le_one hsum]
    linarith
  have hacc : 0 ≤ u * (toks.map mass).sum := mul_nonneg h0 hsum.le
  have hloop : drawLoop (u * (toks.map mass).sum) 0 0 (toks.map mass) = some j ↔
      ((toks.map mass).take j).sum / (toks.map mass).sum ≤ u ∧
        u < ((toks.map mass).take j).sum / (toks.map mass).sum + mass t / (toks.map mass).sum := by
    have hiff := drawLoop_eq_some (i := 0) (j := j) hws hacc
    rw [Nat.zero_add] at hiff
    rw [hiff, ← add_div, ← hnext, div_le_iff₀ hsum, lt_div_iff₀ hsum, zero_add, zero_add]
    simp [hlen]
  rw [← hloop]
  constructor
  · intro hdrawn
    obtain ⟨k, t', hk, hdrawn', hfound⟩ := hindex u h0 h1
    have htt : t' = t := by
      have := hdrawn'.symm.trans hdrawn
      exact_mod_cast this
    obtain ⟨hklen, hkget⟩ := List.getElem?_eq_some_iff.1 hk
    have hkj : k = j := (List.Nodup.getElem_inj_iff hnodup).1 (by rw [hkget, hget, htt])
    rw [← hkj]
    exact hfound
  · intro hfound
    exact hdraw u j hfound t hj

end Loop

/-! ### Masses up to a factor -/

section Scale

variable [Field R] {mass : ℕ → R} {toks : List ℕ} {draw : R → ℤ} {c : R}

theorem sum_scale (c : R) (mass : ℕ → R) (toks : List ℕ) :
    (toks.map fun t => c * mass t).sum = c * (toks.map mass).sum :=
  List.sum_map_mul_left ..

variable [LinearOrder R]

theorem DrawsBy.of_scale (h : DrawsBy (fun t => c * mass t) toks draw) (hc : c ≠ 0) :
    DrawsBy mass toks draw := by
  refine ⟨h.nodup, h.nonempty, h.returns, fun t ht => ?_⟩
  have hint := h.interval t ht
  rw [sum_scale, mul_div_mul_left _ _ hc] at hint
  exact hint

theorem Survives.of_scale [IsStrictOrderedRing R] {cands : List ℕ} {topP minP : R}
    (h : Survives (fun t => c * mass t) cands topP minP toks) (hc : 0 < c) :
    Survives mass cands topP minP toks := by
  obtain ⟨n, hn, hpre, hmem⟩ := h.cut
  refine ⟨n, ⟨hn.le, fun m hm => ?_, ?_⟩, hpre, fun t => ?_⟩
  · have hwithin := hn.within m hm
    rwa [sum_scale, sum_scale, mul_div_mul_left _ _ hc.ne'] at hwithin
  · have hexceeds := hn.exceeds
    rwa [sum_scale, sum_scale, mul_div_mul_left _ _ hc.ne'] at hexceeds
  · rw [hmem]
    simp only [mul_left_comm _ c, mul_le_mul_iff_right₀ hc]

theorem DrawsBy.perm {toks' : List ℕ} (h : DrawsBy mass toks draw) (hperm : toks.Perm toks') :
    DrawsBy mass toks' draw where
  nodup := hperm.nodup_iff.1 h.nodup
  nonempty := fun hnil => h.nonempty (by rw [hnil] at hperm; exact hperm.eq_nil)
  returns u h0 h1 := by
    obtain ⟨t, ht, hdraw⟩ := h.returns u h0 h1
    exact ⟨t, hperm.subset ht, hdraw⟩
  interval t ht := by
    rw [← (hperm.map mass).sum_eq]
    exact h.interval t (hperm.symm.subset ht)

end Scale

/-! ### The cuts -/

section Cuts

/-- Candidates with their masses. -/
def entries (mass : ℕ → R) (cands : List ℕ) : List (SamplerTopKEntry R) :=
  cands.map fun t => ⟨mass t, t⟩

@[simp] theorem entries_v (mass : ℕ → R) (cands : List ℕ) :
    (entries mass cands).map (·.v) = cands.map mass := by simp [entries]

@[simp] theorem length_entries (mass : ℕ → R) (cands : List ℕ) :
    (entries mass cands).length = cands.length := by simp [entries]

theorem take_entries (mass : ℕ → R) (cands : List ℕ) (n : ℕ) :
    (entries mass cands).take n = entries mass (cands.take n) := by simp [entries, List.map_take]

/-- In a descending list what is at least a bound is a prefix. -/
theorem mem_takeWhile_desc [LinearOrder R] {mass : ℕ → R} {toks : List ℕ} {bound : R}
    (hdesc : toks.Pairwise fun i j => mass j ≤ mass i) (t : ℕ) :
    t ∈ toks.takeWhile (fun t => decide (bound ≤ mass t)) ↔ t ∈ toks ∧ bound ≤ mass t := by
  induction toks with
  | nil => simp
  | cons x toks ih =>
    rw [List.pairwise_cons] at hdesc
    rw [List.takeWhile_cons]
    split_ifs with hx
    · rw [List.mem_cons, ih hdesc.2, List.mem_cons]
      simp only [decide_eq_true_eq] at hx
      constructor
      · rintro (rfl | h)
        · exact ⟨Or.inl rfl, hx⟩
        · exact ⟨Or.inr h.1, h.2⟩
      · rintro ⟨rfl | h, hb⟩
        · exact Or.inl rfl
        · exact Or.inr ⟨h, hb⟩
    · simp only [decide_eq_true_eq, not_le] at hx
      refine ⟨fun h => absurd h List.not_mem_nil, fun ⟨ht, hb⟩ => ?_⟩
      rcases List.mem_cons.1 ht with rfl | ht
      · exact absurd hb (not_le.2 hx)
      · exact absurd (hb.trans (hdesc.1 t ht)) (not_le.2 hx)

variable [Field R] [LinearOrder R] {mass : ℕ → R} {cands : List ℕ} {topP minP : R}

theorem topPLoop_spec (mass : ℕ → R) (sum : R) {cum : R} (i : ℕ) (rest : List ℕ) (hcum : cum ≤ topP) :
    ∃ k ≤ rest.length, topPLoop topP sum cum i (entries mass rest) = i + k ∧
      (∀ m < k, cum + ((rest.take m).map mass).sum / sum ≤ topP) ∧
      (topP < cum + ((rest.take k).map mass).sum / sum ∨ k = rest.length) := by
  induction rest generalizing cum i with
  | nil => exact ⟨0, le_rfl, rfl, by simp, Or.inr rfl⟩
  | cons t rest ih =>
    rw [entries, List.map_cons, topPLoop]
    split_ifs with hcross
    · refine ⟨1, by simp, rfl, fun m hm => ?_, Or.inl (by simpa using hcross)⟩
      obtain rfl : m = 0 := by omega
      simpa using hcum
    · obtain ⟨k, hk, hloop, hwithin, hexceeds⟩ := ih (i + 1) (not_lt.1 hcross)
      refine ⟨k + 1, by simpa using hk, ?_, fun m hm => ?_, ?_⟩
      · rw [entries] at hloop
        rw [hloop]
        omega
      · cases m with
        | zero => simpa using hcum
        | succ m =>
          have := hwithin m (by omega)
          simpa [add_div, add_assoc] using this
      · rcases hexceeds with hexceeds | hall
        · exact Or.inl (by simpa [add_div, add_assoc] using hexceeds)
        · exact Or.inr (by simp [hall])

theorem Nucleus.pos {n : ℕ} (h : Nucleus mass cands topP n) (hne : cands ≠ []) (htop : 0 < topP) :
    0 < n := by
  rcases Nat.eq_zero_or_pos n with rfl | hpos
  · rcases h.exceeds with hexceeds | hall
    · simp at hexceeds
      exact absurd hexceeds (not_lt.2 htop.le)
    · exact absurd (List.length_eq_zero_iff.1 hall.symm) hne
  · exact hpos

variable [IsStrictOrderedRing R]

theorem applyTopP_spec (hpos : ∀ t, 0 < mass t) (hne : cands ≠ []) (htop : 0 < topP) :
    Nucleus mass cands topP (applyTopP (entries mass cands) topP (cands.map mass).sum) := by
  have hsum : 0 < (cands.map mass).sum := sum_mass_pos hpos hne
  unfold applyTopP
  split_ifs with hone
  · rw [length_entries]
    refine ⟨le_rfl, fun m _ => le_trans ?_ hone, Or.inr rfl⟩
    rw [div_le_one hsum]
    have hparts := List.sum_take_add_sum_drop (cands.map mass) m
    have hrest : 0 ≤ ((cands.map mass).drop m).sum := List.sum_nonneg fun w hw => by
      obtain ⟨t, -, rfl⟩ := List.mem_map.1 (List.mem_of_mem_drop hw)
      exact (hpos t).le
    rw [List.map_take]
    linarith
  · obtain ⟨k, hk, hloop, hwithin, hexceeds⟩ :=
      topPLoop_spec mass (cands.map mass).sum 0 cands htop.le
    rw [hloop, Nat.zero_add]
    exact ⟨hk, fun m hm => by simpa using hwithin m hm, by simpa using hexceeds⟩

/-- What the second cut leaves of `top :: toks`. -/
theorem applyMinP_spec {sum : R} {top : ℕ} {toks : List ℕ} (hsum : 0 < sum)
    (hpos : ∀ t, 0 < mass t) (hmin : minP ≤ 1)
    (hdesc : (top :: toks).Pairwise fun i j => mass j ≤ mass i) :
    let n := applyMinP (entries mass (top :: toks)) minP sum
    0 < n ∧ n ≤ (top :: toks).length ∧ ∀ t, t ∈ (top :: toks).take n ↔ t ∈ top :: toks ∧ minP * mass top ≤ mass t := by
  intro n
  have hself : minP * mass top ≤ mass top := by
    have := hpos top
    nlinarith
  have hn : n = applyMinP (entries mass (top :: toks)) minP sum := rfl
  unfold applyMinP at hn
  split_ifs at hn with hzero
  · rw [length_entries] at hn
    rw [hn]
    refine ⟨by simp, le_rfl, fun t => ?_⟩
    have hle : minP * mass top ≤ mass t :=
      (mul_nonpos_of_nonpos_of_nonneg hzero (hpos top).le).trans (hpos t).le
    simp [hle]
  · have htest : ∀ t, (minP * (mass top / sum) ≤ mass t / sum) = (minP * mass top ≤ mass t) := by
      intro t
      rw [← mul_div_assoc, div_le_div_iff_of_pos_right hsum]
    have hlen : (((entries mass (top :: toks)).takeWhile fun e =>
        e.v / sum ≥ minP * (mass top / sum)).length) =
        ((top :: toks).takeWhile fun t => decide (minP * mass top ≤ mass t)).length := by
      rw [entries, List.takeWhile_map, List.length_map]
      simp only [Function.comp_def, ge_iff_le, htest]
    have hfirst : 0 < ((top :: toks).takeWhile fun t => decide (minP * mass top ≤ mass t)).length := by
      simp [hself]
    have hn : n = ((top :: toks).takeWhile fun t => decide (minP * mass top ≤ mass t)).length := by
      rw [hn]
      simp only [entries, List.map_cons]
      rw [show (⟨mass top, top⟩ :: toks.map fun t => ⟨mass t, t⟩ : List (SamplerTopKEntry R)) =
        entries mass (top :: toks) from rfl, hlen, if_pos hfirst]
    rw [hn]
    refine ⟨hfirst, (List.takeWhile_prefix _).length_le, fun t => ?_⟩
    rw [← List.prefix_iff_eq_take.1 (List.takeWhile_prefix _)]
    exact mem_takeWhile_desc hdesc t

end Cuts

end Kappai
