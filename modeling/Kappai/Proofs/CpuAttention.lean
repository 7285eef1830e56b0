import Kappai.Spec.CpuAttention
import Mathlib.Algebra.BigOperators.Intervals
import Mathlib.Algebra.Order.Field.Rat
import Mathlib.Order.Interval.Finset.Nat
import Kappai.Lib.Lanes

/-! What the loops of the scalar attention compute over one row and one head. -/

namespace Kappai

open Finset

variable {R : Type*} [Field R]

/-- A loop that adds a term for each index. -/
theorem foldl_range_add (f : ℕ → R) (n : ℕ) (a : R) :
    (List.range n).foldl (fun s j => s + f j) a = a + ∑ j ∈ range n, f j := by
  induction n with
  | zero => simp
  | succ n ih =>
    rw [List.range_succ, List.foldl_append, ih, List.foldl_cons, List.foldl_nil, sum_range_succ,
      add_assoc]

theorem dot8F16Main_sum (a b : ℕ → R) (k : ℕ) :
    let s := dot8F16Main a b k
    (s.1 + s.2.1) + (s.2.2.1 + s.2.2.2) = ∑ d ∈ range (8 * k), a d * b d := by
  induction k with
  | zero => simp [dot8F16Main]
  | succ k ih =>
    rw [dot8F16Main, List.range_succ, List.foldl_append, List.foldl_cons, List.foldl_nil,
      ← dot8F16Main, Nat.mul_succ]
    simp only [sum_range_succ, ← ih]
    ring

theorem dot8F16_eq (a b : ℕ → R) (n : ℕ) : dot8F16 a b n = ∑ d ∈ range n, a d * b d := by
  have hn : 8 * (n / 8) + n % 8 = n := Nat.div_add_mod n 8
  have hsum := sum_range_add (fun d => a d * b d) (8 * (n / 8)) (n % 8)
  rw [hn] at hsum
  unfold dot8F16
  dsimp only
  rw [hsum, ← dot8F16Main_sum, foldl_range_add]
  ring

/-! ### Rows of blocks -/

namespace Q8Block

/-- A column of a row of blocks. -/
def value (blocks : ℕ → Q8Block R) (d : ℕ) : R :=
  ((blocks (d / 32)).qs (d % 32) : R) * (blocks (d / 32)).d

theorem value_add (blocks : ℕ → Q8Block R) {b j : ℕ} (hj : j < 32) :
    value blocks (b * 32 + j) = ((blocks b).qs j : R) * (blocks b).d := by
  have hdiv : (b * 32 + j) / 32 = b := by omega
  have hmod : (b * 32 + j) % 32 = j := by omega
  rw [value, hdiv, hmod]

end Q8Block

/-- The first blocks of a row. -/
def blockList (n k : ℕ) : List (ℕ × ℕ) :=
  (List.range k).map fun b => (b, min (n - b * 32) 32)

theorem blockList_succ (n k : ℕ) :
    blockList n (k + 1) = blockList n k ++ [(k, min (n - k * 32) 32)] := by
  rw [blockList, List.range_succ, List.map_append]
  rfl

theorem blockList_columns (n k : ℕ) :
    min n ((k + 1) * 32) = min n (k * 32) + min (n - k * 32) 32 := by omega

theorem dot8Q8_0_eq (a : ℕ → R) (blocks : ℕ → Q8Block R) (n : ℕ) :
    dot8Q8_0 a blocks n = ∑ d ∈ range n, a d * Q8Block.value blocks d := by
  have hblocks : ∀ k, (blockList n k).foldl (fun sum b =>
      let part := (List.range b.2).foldl (fun part j =>
        part + a (b.1 * 32 + j) * ((blocks b.1).qs j : R)) 0
      sum + part * (blocks b.1).d) 0 =
        ∑ d ∈ range (min n (k * 32)), a d * Q8Block.value blocks d := by
    intro k
    induction k with
    | zero => simp [blockList]
    | succ k ih =>
      rw [blockList_succ, List.foldl_append, ih, List.foldl_cons, List.foldl_nil,
        blockList_columns, sum_range_add]
      refine congrArg (_ + ·) ?_
      rw [foldl_range_add, zero_add, sum_mul]
      refine sum_congr rfl fun j hj => ?_
      have hj := mem_range.mp hj
      rcases Nat.le_total n (k * 32) with hle | hle
      · omega
      · rw [min_eq_right hle, Q8Block.value_add blocks (by omega), mul_assoc]
  have hall : min n ((n + 31) / 32 * 32) = n := by omega
  have := hblocks ((n + 31) / 32)
  rwa [hall] at this

omit [Field R] in
theorem foldl_update_range (g : ℕ → R → R) (base n : ℕ) (out : ℕ → R) (d : ℕ) :
    (List.range n).foldl (fun out j => Function.update out (base + j) (g j (out (base + j)))) out d =
      if base ≤ d ∧ d < base + n then g (d - base) (out d) else out d := by
  induction n with
  | zero => rw [if_neg (by omega)]; rfl
  | succ n ih =>
    rw [List.range_succ, List.foldl_append, List.foldl_cons, List.foldl_nil,
      Function.update_apply]
    by_cases hd : d = base + n
    · subst hd
      rw [if_neg (by omega)] at ih
      rw [if_pos rfl, if_pos (by omega), ih, Nat.add_sub_cancel_left]
    · rw [if_neg hd, ih]
      exact if_congr (by omega) rfl rfl

theorem accumVQ8_0_apply (out : ℕ → R) (blocks : ℕ → Q8Block R) (w : R) (n d : ℕ) :
    accumVQ8_0 out blocks w n d =
      if d < n then Q8Block.value blocks d * w + out d else out d := by
  have hblocks : ∀ k d, (blockList n k).foldl (fun out b =>
      let dw := (blocks b.1).d * w
      (List.range b.2).foldl (fun out j =>
        Function.update out (b.1 * 32 + j) (((blocks b.1).qs j : R) * dw + out (b.1 * 32 + j)))
          out) out d =
        if d < min n (k * 32) then Q8Block.value blocks d * w + out d else out d := by
    intro k
    induction k with
    | zero => simp [blockList]
    | succ k ih =>
      intro d
      rw [blockList_succ, List.foldl_append, List.foldl_cons, List.foldl_nil]
      have hupdate := fun out : ℕ → R => foldl_update_range
        (fun j x => ((blocks k).qs j : R) * ((blocks k).d * w) + x) (k * 32) (min (n - k * 32) 32)
        out d
      rw [hupdate, ih]
      by_cases hnew : k * 32 ≤ d ∧ d < k * 32 + min (n - k * 32) 32
      · obtain ⟨j, rfl⟩ := Nat.exists_eq_add_of_le hnew.1
        rw [if_pos hnew, if_neg (by omega), if_pos (by omega), Nat.add_sub_cancel_left,
          Q8Block.value_add blocks (by omega), mul_assoc]
      · rw [if_neg hnew]
        exact if_congr (by omega) rfl rfl
  have hall : min n ((n + 31) / 32 * 32) = n := by omega
  have := hblocks ((n + 31) / 32) d
  rwa [hall] at this

omit [Field R] in
theorem eachCol_apply {n d : ℕ} (hd : d < n) (f out : ℕ → R) : eachCol n f out d = f d :=
  if_pos hd

/-! ### The weights -/

/-- V rows added one after the other. -/
theorem foldl_accum {accum : (ℕ → R) → ℕ → ℕ → R} {w : ℕ → R} {v : ℕ → ℕ → R} {n : ℕ}
    (h : ∀ out t, ∀ d < n, accum out t d = out d + w t * v t d) (k : ℕ) (out : ℕ → R) {d : ℕ}
    (hd : d < n) :
    (List.range k).foldl accum out d = out d + ∑ t ∈ range k, w t * v t d := by
  induction k with
  | zero => simp
  | succ k ih =>
    rw [List.range_succ, List.foldl_append, List.foldl_cons, List.foldl_nil, h _ _ d hd, ih,
      sum_range_succ, add_assoc]

omit [Field R] in
theorem zipIdx_map_range (f : ℕ → R) (n k : ℕ) :
    ((List.range n).map f).zipIdx k = (List.range n).map fun t => (f t, k + t) := by
  refine List.ext_getElem (by simp) fun i hi hi' => ?_
  simp

variable [LinearOrder R] {e : R → R}

/-- The weights of `softmax_masked` -/
theorem softmaxMasked_eq (e : R → R) (x : ℕ → R) (n : ℕ) :
    softmaxMasked e ((List.range n).map x) = (List.range n).map fun t =>
      e (x t - scoreMax ((List.range n).map x)) *
        (1 / ∑ t ∈ range n, e (x t - scoreMax ((List.range n).map x))) := by
  unfold softmaxMasked
  simp only [List.map_map, List.foldl_map, Function.comp_apply, foldl_range_add, zero_add]
  rfl

section

variable [IsStrictOrderedRing R] {n k : ℕ} {x : ℕ → R} {v : ℕ → ℕ → R}

omit [IsStrictOrderedRing R] in
/-- One position keeps the sums. -/
theorem flashStep_sums (he : IsExp e) {accum : (ℕ → R) → R → ℕ → R} {st : OnlineSum R}
    (haccum : ∀ out w, ∀ d < n, accum out w d = v k d * w + out d) (h : st.Sums e x v n k) :
    (flashStep e n accum st (x k)).Sums e x v n (k + 1) := by
  unfold flashStep
  cases htop : st.top with
  | none =>
    refine h.raise he 0 (fun m hm => ?_) fun d hd => ?_
    · rw [htop] at hm
      cases hm
    · rw [haccum _ _ d hd, eachCol_apply hd, mul_one]
  | some top =>
    dsimp only
    split_ifs with hlt
    · refine h.raise he _ (fun m hm => ?_) fun d hd => ?_
      · rw [htop] at hm
        rw [Option.some.inj hm]
      · rw [haccum _ _ d hd, eachCol_apply hd, mul_one]
    · rw [mul_one]
      exact h.keep htop fun d hd => haccum _ _ d hd

/-- The loop with a running maximum takes the mean. -/
theorem flash_mean (he : IsExp e) {accum : ℕ → (ℕ → R) → R → ℕ → R}
    (haccum : ∀ t out w, ∀ d < n, accum t out w d = v t d * w + out d) (hk : 0 < k) (out : ℕ → R)
    {d : ℕ} (hd : d < n) :
    flashOut n ((List.range k).foldl (fun st t => flashStep e n (accum t) st (x t)) .empty) out d =
      softmaxMean e (range k) x (v · d) := by
  have hsums : ∀ k, ((List.range k).foldl (fun st t => flashStep e n (accum t) st (x t))
      .empty).Sums e x v n k := by
    intro k
    induction k with
    | zero => exact OnlineSum.empty_sums
    | succ k ih =>
      rw [List.range_succ, List.foldl_append, List.foldl_cons, List.foldl_nil]
      exact flashStep_sums he (haccum k) ih
  obtain ⟨hne, hmean⟩ := (hsums k).mean he hk hd
  unfold flashOut
  rw [eachCol_apply hd, if_neg hne, ← hmean, mul_one_div]

omit [IsStrictOrderedRing R] in
/-- The two passes take the mean. -/
theorem twoPass_mean (he : IsExp e) (c : R) (d : ℕ) :
    ∑ t ∈ range k, e (x t - c) * (1 / ∑ t ∈ range k, e (x t - c)) * v t d =
      softmaxMean e (range k) x (v · d) := by
  rw [← softmaxMean_shift he _ _ _ c, softmaxMean, sum_div]
  exact sum_congr rfl fun t _ => by rw [mul_one_div, div_mul_eq_mul_div]

theorem cpuAttentionInner_mean (he : IsExp e) (keys vals : ℕ → ℕ → R) (qh : ℕ → R) (scale : R)
    (flash : Bool) (out : ℕ → R) (hk : 0 < k) {d : ℕ} (hd : d < n) :
    cpuAttentionInner e keys vals qh n k scale flash out d =
      softmaxMean e (range k) (fun t => (∑ j ∈ range n, qh j * keys t j) * scale) (vals · d) := by
  unfold cpuAttentionInner
  simp only [dot8F16_eq]
  cases flash with
  | true => exact flash_mean he (fun t out w d hd => eachCol_apply hd _ _) hk out hd
  | false =>
    generalize (fun t => (∑ j ∈ range n, qh j * keys t j) * scale) = x
    rw [if_neg (by simp), softmaxMasked_eq]
    generalize scoreMax ((List.range k).map x) = c
    rw [← twoPass_mean he c d]
    generalize 1 / ∑ t ∈ range k, e (x t - c) = inv
    obtain ⟨k, rfl⟩ := Nat.exists_eq_succ_of_ne_zero hk.ne'
    rw [List.range_succ_eq_map, List.map_cons, List.map_map]
    simp only [zipIdx_map_range, List.foldl_map]
    rw [foldl_accum (v := fun t => vals (1 + t)) (fun out t d hd => eachCol_apply hd _ _) k _ hd,
      eachCol_apply hd, sum_range_succ', add_comm]
    simp only [Function.comp_apply, Nat.add_comm 1]

theorem cpuAttentionInnerQ8_0_mean (he : IsExp e) (keys vals : ℕ → ℕ → Q8Block R) (qh : ℕ → R)
    (scale : R) (flash : Bool) (out : ℕ → R) (hk : 0 < k) {d : ℕ} (hd : d < n) :
    cpuAttentionInnerQ8_0 e keys vals qh n k scale flash out d =
      softmaxMean e (range k)
        (fun t => (∑ j ∈ range n, qh j * Q8Block.value (keys t) j) * scale)
        (fun t => Q8Block.value (vals t) d) := by
  have haccum : ∀ t (out : ℕ → R) w, ∀ d < n,
      accumVQ8_0 out (vals t) w n d = Q8Block.value (vals t) d * w + out d :=
    fun t out w d hd => (accumVQ8_0_apply out (vals t) w n d).trans (if_pos hd)
  unfold cpuAttentionInnerQ8_0
  simp only [dot8Q8_0_eq]
  cases flash with
  | true => exact flash_mean he haccum hk out hd
  | false =>
    generalize (fun t => (∑ j ∈ range n, qh j * Q8Block.value (keys t) j) * scale) = x
    rw [if_neg (by simp), softmaxMasked_eq]
    generalize scoreMax ((List.range k).map x) = c
    simp only [zipIdx_map_range, List.foldl_map, Nat.zero_add]
    rw [foldl_accum (v := fun t => Q8Block.value (vals t))
      (fun out t d hd => by rw [haccum t _ _ d hd, add_comm, mul_comm]) k _ hd, eachCol_apply hd,
      zero_add, twoPass_mean he c d]

end

/-! Every path of the scalar attention takes the mean of the V rows of the window, weighted by the
exponential of their scores. -/

open Finset

variable {R : Type*} [Field R] [LinearOrder R] {e : R → R}

/-- The columns of K and V, by KV head and slot. -/
def KvStore.key : KvStore R → ℕ → ℕ → ℕ → R
  | .f16 k _, kvh, s, d => k kvh s d
  | .q8_0 k _, kvh, s, d => Q8Block.value (k kvh s) d

def KvStore.val : KvStore R → ℕ → ℕ → ℕ → R
  | .f16 _ v, kvh, s, d => v kvh s d
  | .q8_0 _ v, kvh, s, d => Q8Block.value (v kvh s) d

namespace AttnCall

variable (c : AttnCall R)

/-- The first position that the query at `pos` attends to. -/
def firstPos (pos : ℕ) : ℕ := if 0 < c.slidingWindow then pos + 1 - c.slidingWindow else 0

/-- The rows of the window are in the cache, as they always are (`attention_reads_window`). -/
def Held (pos : ℕ) : Prop := c.kvBase ≤ c.firstPos pos

instance (pos : ℕ) : Decidable (c.Held pos) := inferInstanceAs (Decidable (_ ≤ _))

/-- Column `d` of the mean over the positions up to `pos`, for the query at `start`. -/
def mean (e : R → R) (q : ℕ → R) (pos start kvh d : ℕ) : R :=
  softmaxMean e (Icc (c.firstPos pos) pos)
    (fun t => (∑ j ∈ range c.headDim, q (start + j) * c.store.key kvh (t - c.kvBase) j) * c.scale)
    (fun t => c.store.val kvh (t - c.kvBase) d)

variable {c}

omit [Field R] [LinearOrder R] in
/-- The slots of the window are those of its positions. -/
theorem Held.slots {pos : ℕ} (h : c.Held pos) :
    c.slots pos = (c.firstPos pos - c.kvBase, pos + 1 - c.firstPos pos) := by
  have hwindow : attnWindow c.slidingWindow pos = (c.firstPos pos, pos + 1 - c.firstPos pos) := by
    unfold attnWindow firstPos
    split_ifs <;> rw [Prod.mk.injEq] <;> omega
  unfold Held at h
  unfold AttnCall.slots
  rw [hwindow]
  unfold cpuKvWindowToSlots
  dsimp only
  split_ifs <;> rw [Prod.mk.injEq] <;> omega

omit [LinearOrder R] in
/-- A mean over slots is one over positions. -/
theorem Held.mean_slots {pos : ℕ} (h : c.Held pos) (x v : ℕ → R) :
    softmaxMean e (range (pos + 1 - c.firstPos pos))
        (fun t => x (c.firstPos pos - c.kvBase + t)) (fun t => v (c.firstPos pos - c.kvBase + t)) =
      softmaxMean e (Icc (c.firstPos pos) pos) (fun t => x (t - c.kvBase))
        (fun t => v (t - c.kvBase)) := by
  have hslot : ∀ t, c.firstPos pos + t - c.kvBase = c.firstPos pos - c.kvBase + t := fun t => by
    unfold Held at h
    omega
  have hicc : Icc (c.firstPos pos) pos = Ico (c.firstPos pos) (pos + 1) := rfl
  unfold softmaxMean
  rw [hicc, sum_Ico_eq_sum_range, sum_Ico_eq_sum_range]
  simp only [hslot]

omit [Field R] [LinearOrder R] in
theorem firstPos_le (c : AttnCall R) (pos : ℕ) : c.firstPos pos ≤ pos := by
  unfold firstPos
  split_ifs <;> omega

variable [IsStrictOrderedRing R]

/-- One head of one row. -/
theorem head_apply (he : IsExp e) {pos : ℕ} (h : c.Held pos) (q : ℕ → R) (start kvh : ℕ)
    (out : ℕ → R) {d : ℕ} (hd : d < c.headDim) :
    c.head e q pos start kvh out (start + d) = c.mean e q pos start kvh d := by
  have hpos : 0 < pos + 1 - c.firstPos pos := by
    have := c.firstPos_le pos
    omega
  unfold head mean
  rw [if_pos ⟨Nat.le_add_right _ _, Nat.add_lt_add_left hd _⟩, Nat.add_sub_cancel_left, h.slots]
  refine Eq.trans ?_ (h.mean_slots
    (fun s => (∑ j ∈ range c.headDim, q (start + j) * c.store.key kvh s j) * c.scale)
    fun s => c.store.val kvh s d)
  cases c.store with
  | f16 k v => exact cpuAttentionInner_mean he _ _ _ _ _ _ hpos hd
  | q8_0 k v => exact cpuAttentionInnerQ8_0_mean he _ _ _ _ _ _ hpos hd

omit [IsStrictOrderedRing R] in
/-- A head touches its own columns only. -/
theorem head_other (q : ℕ → R) (pos kvh : ℕ) (out : ℕ → R) {h k d : ℕ} (hd : d < c.headDim)
    (hne : k ≠ h) :
    c.head e q pos (h * c.headDim) kvh out (k * c.headDim + d) = out (k * c.headDim + d) := by
  unfold head
  rw [if_neg fun hin => ?_]
  rcases row_disjoint hd hne with h | h <;> omega

omit [Field R] [LinearOrder R] [IsStrictOrderedRing R] in
/-- Rounding up, so that every head has an active KV head. -/
theorem kvh_lt {h : ℕ} (hh : h < c.nHeads) (hg : 1 < c.nGroups) : h / c.nGroups < c.nActive := by
  rcases Nat.eq_zero_or_pos c.nActive with hz | hpos
  · rw [nGroups, hz, Nat.div_zero] at hg
    omega
  · have hceil : c.nHeads + c.nActive - 1 < c.nGroups * c.nActive + c.nActive :=
      Nat.lt_div_mul_add hpos
    rw [Nat.div_lt_iff_lt_mul (by omega), Nat.mul_comm]
    omega

/-- A head item of the pool leaves the mean in its own columns, and the others alone. -/
theorem attnHead_apply (he : IsExp e) {pos : ℕ} (h : c.Held pos) (q out : ℕ → R) {k d : ℕ}
    (hd : d < c.headDim) (j : ℕ) :
    c.attnHead e q pos out j (k * c.headDim + d) =
      if k = j then c.mean e q pos (k * c.headDim) (k / c.nGroups) d
      else out (k * c.headDim + d) := by
  unfold attnHead
  split_ifs with hkj
  · rw [hkj]
    exact head_apply he h q _ _ out hd
  · exact head_other q pos _ out hd hkj

/-- A KV head item leaves the mean in the columns of the heads of its group. -/
theorem attnKvh_apply (he : IsExp e) {pos : ℕ} (h : c.Held pos) (q : ℕ → R) {k d : ℕ}
    (hk : k < c.nHeads) (hg : 1 < c.nGroups) (hd : d < c.headDim) (out : ℕ → R) (kvh : ℕ) :
    (c.attnKvh e q pos out kvh (k * c.headDim + d) =
        c.mean e q pos (k * c.headDim) (k / c.nGroups) d ∨
      c.attnKvh e q pos out kvh (k * c.headDim + d) = out (k * c.headDim + d)) ∧
    (kvh = k / c.nGroups → c.attnKvh e q pos out kvh (k * c.headDim + d) =
      c.mean e q pos (k * c.headDim) (k / c.nGroups) d) := by
  have hmem : ∀ j, j ∈ List.range' (kvh * c.nGroups)
      (min (kvh * c.nGroups + c.nGroups) c.nHeads - kvh * c.nGroups) ↔
        j < c.nHeads ∧ j / c.nGroups = kvh := by
    intro j
    have hdiv : j / c.nGroups = kvh ↔ kvh * c.nGroups ≤ j ∧ j < (kvh + 1) * c.nGroups := by
      rw [Nat.div_eq_iff (by omega)]
      rw [Nat.add_mul, Nat.one_mul]
      omega
    rw [List.mem_range'_1, hdiv, Nat.add_mul, Nat.one_mul]
    omega
  have hkeep : ∀ j ∈ List.range' (kvh * c.nGroups)
      (min (kvh * c.nGroups + c.nGroups) c.nHeads - kvh * c.nGroups), ∀ out : ℕ → R,
      c.head e q pos (j * c.headDim) kvh out (k * c.headDim + d) =
          c.mean e q pos (k * c.headDim) (k / c.nGroups) d ∨
        c.head e q pos (j * c.headDim) kvh out (k * c.headDim + d) = out (k * c.headDim + d) := by
    intro j hj out
    rcases eq_or_ne k j with rfl | hne
    · left
      rw [((hmem k).mp hj).2]
      exact head_apply he h q _ _ out hd
    · exact Or.inr (head_other q pos _ out hd hne)
  refine ⟨foldl_keeps hkeep out, fun hkvh => foldl_fills hkeep ⟨k, ?_, fun out => ?_⟩ out⟩
  · exact (hmem k).mpr ⟨hk, hkvh.symm⟩
  · rw [hkvh]
    exact head_apply he h q _ _ out hd

/-- An item of a batch leaves the mean in the columns of its row and head, and the others alone. -/
theorem attnBatch_apply (he : IsExp e) {posStart m : ℕ} (h : ∀ r < m, c.Held (posStart + r))
    (q out : ℕ → R) (perm : Option (ℕ → ℕ)) {r k d : ℕ} (hr : r < m) (hk : k < c.nHeads)
    (hd : d < c.headDim) (idx : ℕ) :
    c.attnBatch e q posStart m perm out idx ((r * c.nHeads + k) * c.headDim + d) =
      if (perm.map (· (idx / c.nHeads))).getD (idx / c.nHeads) = r ∧ idx % c.nHeads = k then
        c.mean e q (posStart + r) ((r * c.nHeads + k) * c.headDim) (k / c.nGroups) d
      else out ((r * c.nHeads + k) * c.headDim + d) := by
  unfold attnBatch
  generalize (perm.map (· (idx / c.nHeads))).getD (idx / c.nHeads) = row
  have hmod : idx % c.nHeads < c.nHeads := Nat.mod_lt _ (by omega)
  by_cases hrow : m ≤ row
  · rw [if_pos hrow, if_neg (by omega)]
  · rw [if_neg hrow]
    split_ifs with hmine
    · obtain ⟨rfl, rfl⟩ := hmine
      exact head_apply he (h _ hr) q _ _ out hd
    · refine head_other q _ _ out hd fun heq => hmine ?_
      rcases eq_or_ne r row with rfl | hne
      · exact ⟨rfl, by omega⟩
      · rcases row_disjoint hk hne with hlt | hlt <;> omega

end AttnCall

variable [IsStrictOrderedRing R]

/-- Three heads on two KV heads, with a window of two positions. -/
def threeHeads : AttnCall ℚ where
  store := .f16 (fun kvh s d => kvh + s + d) fun kvh s d => 10 * kvh + 3 * s + d
  kvBase := 1
  nHeads := 3
  nKvHeads := 2
  nKvHeadsActive := 0
  headDim := 2
  flashAttn := true
  scale := 1 / 2
  slidingWindow := 2

end Kappai
