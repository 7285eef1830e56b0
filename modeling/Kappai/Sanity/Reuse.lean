import Kappai.Spec.Feed
import Kappai.Sanity.Feed

/-! The chunks `kv_reuse_plan_build` finds, and what `context_reuse_prefix` leaves in the
cache: the shared prefix, and every planned chunk at its destination. -/

namespace Kappai

/-- What the chunks of a plan satisfy. -/
structure PlanSound (fed ids : List Token) (reuse : ℕ) (plan : List KvShiftChunk) : Prop where
  downward : RowMove.Downward plan
  ascending : RowMove.Ascending plan
  above : ∀ m ∈ plan, reuse ≤ m.dst
  inCache : ∀ m ∈ plan, m.src + m.n ≤ fed.length
  sparesLast : ∀ m ∈ plan, m.dst + m.n < ids.length
  agree : ∀ m ∈ plan, ∀ t < m.n, fed[m.src + t]? = ids[m.dst + t]?

theorem PlanSound.nil (fed ids : List Token) (reuse : ℕ) : PlanSound fed ids reuse [] where
  downward := by simp [RowMove.Downward]
  ascending := List.Pairwise.nil
  above := by simp
  inCache := by simp
  sparesLast := by simp
  agree := by simp

/-- A chunk that starts where the plan has ended, on both sides, can be added. -/
theorem PlanSound.concat {fed ids : List Token} {reuse : ℕ} {plan : List KvShiftChunk}
    (h : PlanSound fed ids reuse plan) {m : KvShiftChunk}
    (hafter : ∀ a ∈ plan, a.src + a.n ≤ m.src ∧ a.dst + a.n ≤ m.dst) (hdown : m.dst ≤ m.src)
    (hreuse : reuse ≤ m.dst) (hsrc : m.src + m.n ≤ fed.length) (hdst : m.dst + m.n < ids.length)
    (hagree : ∀ t < m.n, fed[m.src + t]? = ids[m.dst + t]?) :
    PlanSound fed ids reuse (plan ++ [m]) where
  downward a ha := by
    rcases List.mem_append.1 ha with ha | ha
    · exact h.downward a ha
    · rw [List.mem_singleton.1 ha]; exact hdown
  ascending := by
    refine List.pairwise_append.2 ⟨h.ascending, List.pairwise_singleton _ _, fun a ha b hb => ?_⟩
    rw [List.mem_singleton.1 hb]
    exact hafter a ha
  above a ha := by
    rcases List.mem_append.1 ha with ha | ha
    · exact h.above a ha
    · rw [List.mem_singleton.1 ha]; exact hreuse
  inCache a ha := by
    rcases List.mem_append.1 ha with ha | ha
    · exact h.inCache a ha
    · rw [List.mem_singleton.1 ha]; exact hsrc
  sparesLast a ha := by
    rcases List.mem_append.1 ha with ha | ha
    · exact h.sparesLast a ha
    · rw [List.mem_singleton.1 ha]; exact hdst
  agree a ha := by
    rcases List.mem_append.1 ha with ha | ha
    · exact h.agree a ha
    · rw [List.mem_singleton.1 ha]; exact hagree

/-- The tokens one step of the plan loop matched. -/
theorem matched_agree {fed ids : List Token} {headC headP t : ℕ}
    (ht : t < commonPrefix (fed.drop headC) ((ids.drop headP).take (ids.length - 1 - headP))) :
    fed[headC + t]? = ids[headP + t]? := by
  have hlen := commonPrefix_le_right (fed.drop headC)
    ((ids.drop headP).take (ids.length - 1 - headP))
  rw [List.length_take] at hlen
  have := getElem?_of_lt_commonPrefix ht
  rwa [List.getElem?_drop, List.getElem?_take_of_lt (by omega), List.getElem?_drop] at this

theorem kvReusePlanLoop_sound {fed ids : List Token} {reuse : ℕ} (fuel headC headP : ℕ)
    (plan : List KvShiftChunk) (h : PlanSound fed ids reuse plan) (hle : headP ≤ headC)
    (hreuse : reuse ≤ headP)
    (hbefore : ∀ a ∈ plan, a.src + a.n ≤ headC ∧ a.dst + a.n ≤ headP) :
    PlanSound fed ids reuse (kvReusePlanLoop fed ids fuel headC headP plan) := by
  induction fuel generalizing headC headP plan with
  | zero => exact h
  | succ fuel ih =>
    simp only [kvReusePlanLoop]
    set matched := commonPrefix (fed.drop headC) ((ids.drop headP).take (ids.length - 1 - headP))
      with hmatched
    split_ifs with hhead hshort
    · exact ih _ _ _ h (by omega) hreuse fun a ha => ⟨(hbefore a ha).1.trans (by omega),
        (hbefore a ha).2⟩
    · have hC := commonPrefix_le_left (fed.drop headC)
        ((ids.drop headP).take (ids.length - 1 - headP))
      have hP := commonPrefix_le_right (fed.drop headC)
        ((ids.drop headP).take (ids.length - 1 - headP))
      rw [← hmatched, List.length_drop] at hC
      rw [← hmatched, List.length_take] at hP
      refine ih _ _ _ ?_ (by omega) (by omega) fun a ha => ?_
      · exact h.concat hbefore hle hreuse (by simp only; omega) (by simp only; omega)
          fun t ht => matched_agree ht
      · rcases List.mem_append.1 ha with ha | ha
        · have := hbefore a ha
          omega
        · rw [List.mem_singleton.1 ha]
          exact ⟨le_rfl, le_rfl⟩
    · exact h

theorem kvReusePlanBuild_sound (fed ids : List Token) (reuse : ℕ) :
    PlanSound fed ids reuse (kvReusePlanBuild fed ids reuse) :=
  kvReusePlanLoop_sound _ _ _ _ (PlanSound.nil fed ids reuse) le_rfl le_rfl (by simp)

theorem kvReusePlanBuild_of_le (fed ids : List Token) (reuse : ℕ) (h : fed.length ≤ reuse) :
    kvReusePlanBuild fed ids reuse = [] := by
  unfold kvReusePlanBuild
  cases fed.length with
  | zero => rfl
  | succ n => exact if_neg (by omega)

/-- The fuel of the plan loop is no bound on it: every step moves `headC` up. -/
theorem kvReusePlanLoop_stable (fed ids : List Token) (fuel headC headP : ℕ)
    (plan : List KvShiftChunk) (hfuel : fed.length ≤ headC + fuel) :
    kvReusePlanLoop fed ids (fuel + 1) headC headP plan =
      kvReusePlanLoop fed ids fuel headC headP plan := by
  induction fuel generalizing headC headP plan with
  | zero => exact if_neg (by omega)
  | succ fuel ih =>
    change (if _ then _ else _) = (if _ then _ else _)
    split_ifs with hhead
    · simp only
      split_ifs with hshort
      · exact ih _ _ _ (by omega)
      · refine ih _ _ _ ?_
        have : 0 < kvShiftMinChunk := by decide
        omega
    · rfl

/-- Gathering all source rows first and moving row by row over the live cache come to the
same: no row of a plan is overwritten before it is moved. -/
theorem PlanSound.inPlace_eq_kvShift {fed ids : List Token} {reuse : ℕ}
    {plan : List KvShiftChunk} (h : PlanSound fed ids reuse plan) (rows : ℕ → Option Row) :
    RowMove.inPlace (fun m r => r.map (Row.rotate m)) plan rows = kvShift plan rows :=
  RowMove.inPlace_eq_gatherPut _ plan h.ascending h.downward rows

theorem PlanSound.filter {fed ids : List Token} {reuse : ℕ} {plan : List KvShiftChunk}
    (h : PlanSound fed ids reuse plan) (keep : KvShiftChunk → Bool) :
    PlanSound fed ids reuse (plan.filter keep) where
  downward m hm := h.downward m (List.mem_of_mem_filter hm)
  ascending := h.ascending.filter keep
  above m hm := h.above m (List.mem_of_mem_filter hm)
  inCache m hm := h.inCache m (List.mem_of_mem_filter hm)
  sparesLast m hm := h.sparesLast m (List.mem_of_mem_filter hm)
  agree m hm := h.agree m (List.mem_of_mem_filter hm)

variable (M : Model) (E : Env M)

/-- Only rows at the destinations of `chunks` have changed, and the clock. -/
structure Shifted (chunks : List KvShiftChunk) (c c' : Core) : Prop where
  same : c' = { c with kv := c'.kv, clock := c'.clock }
  outside : ∀ l p, (∀ m ∈ chunks, ¬ m.Covers p) → c'.kv l p = c.kv l p

variable {M} in
theorem Shifted.refl (chunks : List KvShiftChunk) (c : Core) : Shifted chunks c c :=
  ⟨rfl, fun _ _ _ => rfl⟩

theorem Shifted.trans {chunks : List KvShiftChunk} {a b c : Core} (h1 : Shifted chunks a b)
    (h2 : Shifted chunks b c) : Shifted chunks a c :=
  ⟨by rw [h2.same, h1.same], fun l p hp => (h2.outside l p hp).trans (h1.outside l p hp)⟩

/-- Rows of one store changed at the destinations only. -/
theorem Shifted.store {chunks : List KvShiftChunk} (c : Core) (l : ℕ) {rows : ℕ → Option Row}
    (h : ∀ p, (∀ m ∈ chunks, ¬ m.Covers p) → rows p = c.kv l p) :
    Shifted chunks c { c.tick with kv := Function.update c.kv l rows } := by
  refine ⟨rfl, fun l' p hp => ?_⟩
  change Function.update c.kv l rows l' p = c.kv l' p
  by_cases hl : l' = l
  · subst hl
    rw [Function.update_self, h p hp]
  · rw [Function.update_of_ne hl]

theorem tearDestinations_of_not_covers {chunks : List KvShiftChunk} {rows torn : ℕ → Option Row}
    {p : ℕ} (h : ∀ m ∈ chunks, ¬ m.Covers p) : tearDestinations chunks rows torn p = rows p := by
  refine if_neg fun hany => ?_
  obtain ⟨m, hm, hc⟩ := List.any_eq_true.1 hany
  exact h m hm (of_decide_eq_true hc)

theorem kvcacheShiftFrom_shifted (chunks : List KvShiftChunk) (left : ℕ) (c : Core) (l : ℕ) :
    Shifted chunks c (kvcacheShiftFrom M E chunks left c l).1 := by
  induction left generalizing c l with
  | zero => exact Shifted.refl chunks c
  | succ left ih =>
    simp only [kvcacheShiftFrom]
    cases E.shift c.clock with
    | ok =>
      exact (Shifted.store c l fun p hp => RowMove.gatherPut_of_not_covers _ _ _ hp).trans (ih _ _)
    | fail e torn => exact Shifted.store c l fun p hp => tearDestinations_of_not_covers hp

theorem kvcacheShiftFrom_ok (chunks : List KvShiftChunk) (left : ℕ) (c : Core) (l : ℕ)
    (hok : (kvcacheShiftFrom M E chunks left c l).2 = none) (l' : ℕ) :
    (kvcacheShiftFrom M E chunks left c l).1.kv l' =
      if l ≤ l' ∧ l' < l + left then kvShift chunks (c.kv l') else c.kv l' := by
  induction left generalizing c l with
  | zero => rw [if_neg (by omega)]; rfl
  | succ left ih =>
    simp only [kvcacheShiftFrom] at hok ⊢
    cases hout : E.shift c.clock with
    | fail e torn => rw [hout] at hok; cases hok
    | ok =>
      simp only [hout] at hok ⊢
      rw [ih _ _ hok]
      simp only
      by_cases hl : l' = l
      · subst hl
        rw [if_neg (by omega), if_pos (by omega), Function.update_self]
      · rw [Function.update_of_ne hl]
        by_cases hin : l + 1 ≤ l' ∧ l' < l + 1 + left
        · rw [if_pos hin, if_pos (by omega)]
        · rw [if_neg hin, if_neg (by omega)]

theorem kvcacheShift_shifted (chunks : List KvShiftChunk) (c : Core) :
    Shifted chunks c (kvcacheShift M E c chunks).1 :=
  kvcacheShiftFrom_shifted M E chunks _ c 0

theorem kvcacheShift_ok {chunks : List KvShiftChunk} {c : Core}
    (hok : (kvcacheShift M E c chunks).2 = none) {l : ℕ} (hl : l < M.nStores) :
    (kvcacheShift M E c chunks).1.kv l = kvShift chunks (c.kv l) := by
  have := kvcacheShiftFrom_ok M E chunks M.nStores c 0 hok l
  rwa [if_pos (by omega)] at this

/-- The cache holds exactly `ids`: they are the fed ids, and row `p` of each of the first
`stores` stores is the row of the token at `p`. With no store it is the alignment of the
two counters alone. -/
structure Core.Holds (c : Core) (stores : ℕ) (ids : List Token) : Prop where
  fedIds : c.fedIds.ids = ids
  nPos : c.nPos = ids.length
  rows : ∀ l < stores, ∀ p < ids.length, c.kv l p = ids[p]?.map fun t => ⟨t, p⟩

variable {M} {S : ℕ}

theorem Core.Holds.n_eq {c : Core} {ids : List Token} (h : c.Holds S ids) : c.fedIds.n = c.nPos := by
  rw [h.nPos, ← h.fedIds, FedIds.ids_length]

theorem Core.Holds.fed {c c' : Core} {ids tokens : List Token} {k : ℕ} (hS : S ≤ M.nStores)
    (h : c.Holds S ids) (hfed : Fed M c c' tokens k) :
    c'.Holds S (ids ++ tokens.take k) := by
  have hlen : (ids ++ tokens.take k).length = ids.length + k := by
    rw [List.length_append, List.length_take, Nat.min_eq_left hfed.le]
  refine ⟨by rw [hfed.fedIds, FedIds.ids_appendAll, h.fedIds], by rw [hfed.nPos, h.nPos, hlen],
    fun l hl p hp => ?_⟩
  by_cases hold : p < ids.length
  · rw [hfed.below l p (by rw [h.nPos]; exact hold), h.rows l hl p hold,
      List.getElem?_append_left hold]
  · obtain ⟨i, rfl⟩ : ∃ i, p = ids.length + i := ⟨p - ids.length, by omega⟩
    have hi : i < k := by omega
    have hrow := hfed.rows l (hl.trans_le hS) i hi
    rw [h.nPos] at hrow
    rw [hrow, List.getElem?_append_right (by omega), Nat.add_sub_cancel_left,
      List.getElem?_take_of_lt hi]

theorem Core.holding_holds (S : ℕ) (ids : List Token) : (Core.holding ids).Holds S ids where
  fedIds := by simp [holding, FedIds.ids_mk_zero]
  nPos := rfl
  rows _ _ _ _ := rfl

theorem Core.holding_self (S : ℕ) (ids : List Token) :
    (Core.holding ids).Holds S (Core.holding ids).fedIds.ids := by
  rw [(Core.holding_holds S ids).fedIds]
  exact Core.holding_holds S ids

/-- Planned chunks lie at their destinations. -/
def Core.Planned (c : Core) (stores : ℕ) (ids : List Token) (plan : List KvShiftChunk) : Prop :=
  ∀ m ∈ plan, ∀ l < stores, ∀ t < m.n,
    c.kv l (m.dst + t) = ids[m.dst + t]?.map fun tok => ⟨tok, (m.dst + t : ℕ)⟩

theorem Shifted.mono {moves chunks : List KvShiftChunk} {c c' : Core} (h : Shifted moves c c')
    (hsub : moves ⊆ chunks) : Shifted chunks c c' :=
  ⟨h.same, fun l p hp => h.outside l p fun m hm => hp m (hsub hm)⟩

variable (M)

theorem kvReusePlanShift_shifted (c : Core) (plan : List KvShiftChunk) :
    Shifted plan c (kvReusePlanShift M E c plan).1 := by
  unfold kvReusePlanShift
  simp only
  split_ifs
  · exact Shifted.refl plan c
  · exact (kvcacheShift_shifted M E _ c).mono (List.filter_subset_self _)

/-- The row of a moved token, re-positioned by its chunk. -/
theorem rotate_moved {m : KvShiftChunk} {fed ids : List Token} {t : ℕ}
    (hagree : fed[m.src + t]? = ids[m.dst + t]?) :
    (fed[m.src + t]?.map fun tok => (⟨tok, (m.src + t : ℕ)⟩ : Row)).map (Row.rotate m) =
      ids[m.dst + t]?.map fun tok => ⟨tok, (m.dst + t : ℕ)⟩ := by
  rw [hagree, Option.map_map]
  congr 1
  funext tok
  simp only [Function.comp_apply, Row.rotate, Row.mk.injEq, true_and]
  push_cast
  omega

/-- A shift that succeeds puts every chunk of the plan in place, moved or not. -/
theorem kvReusePlanShift_planned {c : Core} {fed ids : List Token} {reuse : ℕ}
    {plan : List KvShiftChunk} (hS : S ≤ M.nStores) (hplan : PlanSound fed ids reuse plan)
    (h : c.Holds S fed) (hok : (kvReusePlanShift M E c plan).2 = true) :
    (kvReusePlanShift M E c plan).1.Planned S ids plan := by
  intro m hm l hl t ht
  have hin := hplan.inCache m hm
  have hsrc := h.rows l hl (m.src + t) (by omega)
  have hrow := rotate_moved (hplan.agree m hm t ht)
  have hcov : m.Covers (m.dst + t) := ⟨by omega, by omega⟩
  by_cases hmove : m.src ≠ m.dst
  · have hmem : m ∈ plan.filter fun m => m.src ≠ m.dst := List.mem_filter.2 ⟨hm, by simpa⟩
    unfold kvReusePlanShift at hok ⊢
    simp only [if_neg (List.ne_nil_of_mem hmem)] at hok ⊢
    rw [kvcacheShift_ok M E (Option.isNone_iff_eq_none.1 hok) (hl.trans_le hS), kvShift,
      RowMove.gatherPut_of_mem _ _ (hplan.filter _).ascending _ hmem ht, hsrc, hrow]
  · -- a chunk in place is no destination of another chunk
    have hstay : (kvReusePlanShift M E c plan).1.kv l (m.dst + t) = c.kv l (m.dst + t) := by
      unfold kvReusePlanShift
      simp only
      split_ifs
      · rfl
      · refine (kvcacheShift_shifted M E _ c).outside l _ fun m' hm' hc => ?_
        obtain ⟨hmem', hne⟩ := List.mem_filter.1 hm'
        rw [hplan.ascending.eq_of_covers hmem' hm hc hcov] at hne
        exact hmove (by simpa using hne)
    rw [hstay, ← hplan.agree m hm t ht, ← not_ne_iff.1 hmove, hsrc]

/-- The plan the context goes on with: the one built if its move succeeded, else none. -/
theorem contextReusePlan_plan (c : Core) (ids : List Token) (reuse : ℕ) :
    (contextReusePlan M E c ids reuse).2 =
      if kvcacheCanShift M E c ∧
          (kvReusePlanShift M E c.tick (kvReusePlanBuild c.fedIds.ids ids reuse)).2 then
        kvReusePlanBuild c.fedIds.ids ids reuse
      else [] := by
  unfold contextReusePlan
  by_cases hcan : kvcacheCanShift M E c
  · by_cases hnil : kvReusePlanBuild c.fedIds.ids ids reuse = []
    · simp [hcan, hnil]
    · simp only [hcan, hnil, if_true, if_false, true_and]
      split
      · next heq => rw [heq]; rfl
      · next heq => rw [heq]; rfl
  · simp [hcan]

theorem contextReusePlan_shifted (c : Core) (ids : List Token) (reuse : ℕ) :
    Shifted (kvReusePlanBuild c.fedIds.ids ids reuse) c (contextReusePlan M E c ids reuse).1 := by
  have htick : Shifted (kvReusePlanBuild c.fedIds.ids ids reuse) c c.tick :=
    ⟨rfl, fun _ _ _ => rfl⟩
  unfold contextReusePlan
  simp only
  split_ifs
  · exact htick
  · have hshift := htick.trans (kvReusePlanShift_shifted M E c.tick _)
    split
    · next heq => rw [heq] at hshift; exact hshift
    · next heq => rw [heq] at hshift; exact hshift
  · exact htick

theorem contextReusePlan_planned {c : Core} {fed : List Token} (hS : S ≤ M.nStores)
    (h : c.Holds S fed) (ids : List Token) (reuse : ℕ) :
    (contextReusePlan M E c ids reuse).1.Planned S ids (contextReusePlan M E c ids reuse).2 := by
  have hnone : ∀ c' : Core, c'.Planned S ids [] := fun c' m hm => absurd hm (List.not_mem_nil)
  have hplan := kvReusePlanBuild_sound fed ids reuse
  have htick : c.tick.Holds S fed := ⟨h.fedIds, h.nPos, h.rows⟩
  unfold contextReusePlan
  simp only [h.fedIds]
  split_ifs
  · exact hnone _
  · split
    · next c' heq =>
      have hput := kvReusePlanShift_planned M E hS hplan htick (by rw [heq])
      rwa [heq] at hput
    · exact hnone _
  · exact hnone _

theorem reusedPrefix_le_commonPrefix (fed ids : List Token) :
    reusedPrefix fed ids ≤ commonPrefix fed ids := by
  unfold reusedPrefix
  simp only
  split_ifs <;> omega

theorem reusedPrefix_le_left (fed ids : List Token) : reusedPrefix fed ids ≤ fed.length :=
  (reusedPrefix_le_commonPrefix fed ids).trans (commonPrefix_le_left fed ids)

theorem reusedPrefix_le_right (fed ids : List Token) : reusedPrefix fed ids ≤ ids.length :=
  (reusedPrefix_le_commonPrefix fed ids).trans (commonPrefix_le_right fed ids)

theorem take_reusedPrefix (fed ids : List Token) :
    fed.take (reusedPrefix fed ids) = ids.take (reusedPrefix fed ids) :=
  take_eq_of_le_commonPrefix (reusedPrefix_le_commonPrefix fed ids)

/-- The whole cache is kept exactly when the prompt extends it. -/
theorem reusedPrefix_eq_length {fed ids : List Token} :
    reusedPrefix fed ids = fed.length ↔ fed <+: ids := by
  rw [← commonPrefix_eq_length_left]
  have hle := reusedPrefix_le_commonPrefix fed ids
  have hleft := commonPrefix_le_left fed ids
  unfold reusedPrefix at hle ⊢
  simp only at hle ⊢
  split_ifs with h <;> omega

namespace Core

theorem rewind_of_le {c : Core} {pos : ℕ} (hfed : pos ≤ c.fedIds.n) (hpos : pos ≤ c.nPos) :
    c.rewind pos = { c with fedIds := { c.fedIds with n := pos }, nPos := pos } := by
  simp only [rewind, Nat.min_eq_left hfed, Nat.min_eq_left hpos]

/-- The rows below the rewind position stay. -/
theorem Holds.rewind {c : Core} {ids : List Token} (h : c.Holds S ids) {pos : ℕ}
    (hpos : pos ≤ ids.length) : (c.rewind pos).Holds S (ids.take pos) := by
  have hfed : pos ≤ c.fedIds.n := by rw [h.n_eq, h.nPos]; exact hpos
  rw [rewind_of_le hfed (by rw [h.nPos]; exact hpos)]
  have hlen : (ids.take pos).length = pos := by rw [List.length_take, Nat.min_eq_left hpos]
  refine ⟨by rw [FedIds.ids_truncate _ hfed, h.fedIds], hlen.symm, fun l hl p hp => ?_⟩
  rw [hlen] at hp
  rw [List.getElem?_take_of_lt hp]
  exact h.rows l hl p (by omega)

end Core

/-- What `context_reuse_prefix` leaves alone, whatever the cache holds. -/
theorem contextReusePrefix_same (c : Core) (ids : List Token) :
    let c' := (contextReusePrefix M E c ids).1
    c'.passes = c.passes ∧ c'.recurrent = c.recurrent ∧ c'.logitsHost = c.logitsHost ∧
      c'.logitsDevice = c.logitsDevice ∧ c'.fedIds.p = c.fedIds.p := by
  unfold contextReusePrefix
  simp only
  split_ifs
  · exact ⟨rfl, rfl, rfl, rfl, rfl⟩
  · simp only [Core.rewind]
    rw [(contextReusePlan_shifted M E c ids _).same]
    exact ⟨rfl, rfl, rfl, rfl, rfl⟩

theorem contextReusePrefix_plan (c : Core) (ids : List Token) :
    let built := kvReusePlanBuild c.fedIds.ids ids (reusedPrefix c.fedIds.ids ids)
    (contextReusePrefix M E c ids).2.2 =
      if kvcacheCanShift M E c ∧ (kvReusePlanShift M E c.tick built).2 then built else [] := by
  unfold contextReusePrefix
  simp only
  by_cases hall : c.fedIds.n ≤ reusedPrefix c.fedIds.ids ids
  · rw [if_pos hall, kvReusePlanBuild_of_le _ _ _ (by rwa [FedIds.ids_length]), ite_self]
  · rw [if_neg hall, contextReusePlan_plan]

/-- The state and the plan the prefill goes on with. -/
structure Reused (stores : ℕ) (c c' : Core) (ids : List Token) (plan : List KvShiftChunk) : Prop where
  holds : c'.Holds stores (ids.take (reusedPrefix c.fedIds.ids ids))
  sound : PlanSound c.fedIds.ids ids (reusedPrefix c.fedIds.ids ids) plan
  planned : c'.Planned stores ids plan

theorem contextReusePrefix_reused {c : Core} (hS : S ≤ M.nStores) (h : c.Holds S c.fedIds.ids)
    (ids : List Token) :
    Reused S c (contextReusePrefix M E c ids).1 ids (contextReusePrefix M E c ids).2.2 := by
  have hleft := reusedPrefix_le_left c.fedIds.ids ids
  have htake := take_reusedPrefix c.fedIds.ids ids
  unfold contextReusePrefix
  simp only
  split_ifs with hall
  · have hfull : c.fedIds.ids.take (reusedPrefix c.fedIds.ids ids) = c.fedIds.ids :=
      List.take_of_length_le (by rw [FedIds.ids_length]; exact hall)
    exact ⟨by rw [← htake, hfull]; exact h, PlanSound.nil _ _ _,
      fun m hm => absurd hm (List.not_mem_nil)⟩
  · set reuse := reusedPrefix c.fedIds.ids ids
    have hplan := kvReusePlanBuild_sound c.fedIds.ids ids reuse
    have hshift := contextReusePlan_shifted M E c ids reuse
    have hsound : PlanSound c.fedIds.ids ids reuse (contextReusePlan M E c ids reuse).2 := by
      rw [contextReusePlan_plan]
      split_ifs
      · exact hplan
      · exact PlanSound.nil _ _ _
    refine ⟨?_, hsound, fun m hm l hl t ht =>
      contextReusePlan_planned M E hS h ids reuse m hm l hl t ht⟩
    rw [hshift.same]
    have hkeep := h.rewind hleft
    rw [htake] at hkeep
    refine ⟨hkeep.fedIds, hkeep.nPos, fun l hl p hp => ?_⟩
    rw [← hkeep.rows l hl p hp]
    refine hshift.outside l p fun m hm hc => ?_
    have habove := hplan.above m hm
    have hlow := hc.1
    rw [List.length_take] at hp
    omega

end Kappai
