import Mathlib.Data.List.GetD
import Kappai.Spec.MoeExperts
import Mathlib.Algebra.BigOperators.Pi
import Mathlib.Data.List.Flatten

/-! The union of the routed experts: every entry is in the lists of its expert once, and nowhere
else. -/

namespace Kappai

/-- The union of the ids seen so far. -/
structure MoeUnion.Of (u : MoeUnion) (seen : List ℕ) : Prop where
  idx : ∀ e i, u.idx e = some i ↔ u.ids[i]? = some e
  mem : ∀ e, e ∈ u.ids ↔ e ∈ seen
  count : ∀ i e, u.ids[i]? = some e → u.count i = seen.count e
  rest : ∀ i, u.ids[i]? = none → u.count i = 0

namespace MoeUnion.Of

variable {u : MoeUnion} {seen : List ℕ}

theorem nodup (h : u.Of seen) : u.ids.Nodup := by
  refine List.nodup_iff_getElem?_ne_getElem?.mpr fun i j hij hj heq => ?_
  have hi := List.getElem?_eq_getElem (Nat.lt_trans hij hj)
  have hidx := (h.idx _ i).mpr hi
  have hidx' := (h.idx _ j).mpr (heq.symm.trans hi)
  exact Nat.ne_of_lt hij (Option.some.inj (hidx.symm.trans hidx'))

theorem see (h : u.Of seen) (e : ℕ) : (u.see e).Of (seen ++ [e]) := by
  unfold MoeUnion.see
  cases hidx : u.idx e with
  | some i =>
    have hi := (h.idx e i).mp hidx
    refine ⟨h.idx, fun e' => ?_, fun j e' hj => ?_, fun j hj => ?_⟩
    · rw [List.mem_append, List.mem_singleton, h.mem]
      refine ⟨Or.inl, fun hmem => hmem.elim (fun hmem => hmem) fun heq => ?_⟩
      rw [heq, ← h.mem]
      exact List.mem_of_getElem? hi
    · rw [List.count_append, List.count_singleton]
      rcases eq_or_ne j i with rfl | hne
      · obtain rfl : e = e' := Option.some.inj (hi.symm.trans hj)
        simp [h.count j e hj]
      · have hne' : e ≠ e' := by
          rintro rfl
          exact hne (Option.some.inj (((h.idx e j).mpr hj).symm.trans hidx))
        simp [Function.update_of_ne hne, h.count j e' hj, hne']
    · have hne : j ≠ i := by
        rintro rfl
        cases hi.symm.trans hj
      simp only [Function.update_of_ne hne]
      exact h.rest j hj
  | none =>
    have hnew : e ∉ u.ids := by
      intro hmem
      obtain ⟨i, hi⟩ := List.mem_iff_getElem?.mp hmem
      cases hidx.symm.trans ((h.idx e i).mpr hi)
    have hseen : e ∉ seen := fun hmem => hnew ((h.mem e).mpr hmem)
    refine ⟨fun e' i => ?_, fun e' => ?_, fun i e' hi => ?_, fun i hi => ?_⟩
    · dsimp only
      rcases eq_or_ne e' e with rfl | hne
      · rw [Function.update_self]
        refine ⟨fun hi => ?_, fun hi => ?_⟩
        · rw [← Option.some.inj hi, List.getElem?_concat_length]
        · rcases Nat.lt_or_ge i u.ids.length with hlt | hge
          · rw [List.getElem?_append_left hlt] at hi
            exact absurd (List.mem_of_getElem? hi) hnew
          · obtain ⟨hlt, -⟩ := List.getElem?_eq_some_iff.mp hi
            rw [List.length_append, List.length_singleton] at hlt
            exact congrArg some (by omega)
      · rw [Function.update_of_ne hne, h.idx]
        rcases Nat.lt_trichotomy i u.ids.length with hlt | rfl | hgt
        · rw [List.getElem?_append_left hlt]
        · rw [List.getElem?_concat_length, List.getElem?_eq_none (Nat.le_refl _)]
          simp [Ne.symm hne]
        · rw [List.getElem?_eq_none (by omega), List.getElem?_eq_none]
          rw [List.length_append, List.length_singleton]
          exact hgt
    · rw [List.mem_append, List.mem_append, h.mem]
    · dsimp only at hi ⊢
      rw [List.count_append, List.count_singleton]
      rcases Nat.lt_or_ge i u.ids.length with hlt | hge
      · rw [List.getElem?_append_left hlt] at hi
        have hne : e ≠ e' := by
          rintro rfl
          exact hnew (List.mem_of_getElem? hi)
        rw [Function.update_of_ne (Nat.ne_of_lt hlt), h.count i e' hi]
        simp [hne]
      · obtain ⟨hlt, -⟩ := List.getElem?_eq_some_iff.mp hi
        rw [List.length_append, List.length_singleton] at hlt
        obtain rfl : i = u.ids.length := by omega
        rw [List.getElem?_concat_length] at hi
        obtain rfl : e = e' := Option.some.inj hi
        simp [List.count_eq_zero.mpr hseen]
    · dsimp only at hi ⊢
      rw [List.getElem?_eq_none_iff, List.length_append, List.length_singleton] at hi
      rw [Function.update_of_ne (by omega)]
      exact h.rest i (List.getElem?_eq_none (by omega))

end MoeUnion.Of

namespace MoeRouting

variable (R : MoeRouting)

theorem union_of : R.union.Of (R.routed.map (·.eid)) := by
  unfold union
  induction R.routed using List.reverseRecOn with
  | nil => exact ⟨by simp, by simp, by simp, by simp⟩
  | append_singleton seen p ih =>
    rw [List.foldl_append, List.map_append]
    exact ih.see p.eid

/-- The place of an entry's expert in the union. -/
theorem union_idx {p : MoePair} (hp : p ∈ R.routed) :
    ∃ u, R.union.idx p.eid = some u ∧ R.union.ids[u]? = some p.eid := by
  have hmem := (R.union_of.mem p.eid).mpr (List.mem_map_of_mem hp)
  obtain ⟨u, hu⟩ := List.mem_iff_getElem?.mp hmem
  exact ⟨u, (R.union_of.idx p.eid u).mpr hu, hu⟩

theorem filter_key {u e : ℕ} (hu : R.union.ids[u]? = some e) :
    R.routed.filter (fun p => (R.union.idx p.eid).getD 0 == u) =
      R.routed.filter (fun p => p.eid == e) := by
  refine List.filter_congr fun p hp => ?_
  obtain ⟨u', hidx, hu'⟩ := R.union_idx hp
  rw [hidx, Option.getD_some]
  rcases eq_or_ne u' u with rfl | hne
  · rw [Option.some.inj (hu'.symm.trans hu)]
    simp
  · have hne' : p.eid ≠ e := by
      rintro rfl
      exact hne (Option.some.inj (hidx.symm.trans ((R.union_of.idx p.eid u).mpr hu)))
    simp [hne, hne']

theorem count_eq {u e : ℕ} (hu : R.union.ids[u]? = some e) :
    R.union.count u = (R.routed.filter (fun p => p.eid == e)).length := by
  rw [R.union_of.count u e hu, List.count, List.countP_map, List.countP_eq_length_filter]
  rfl

/-- The lists of an expert of the union hold its entries, in their order. -/
theorem entries_eq {u e : ℕ} (hu : R.union.ids[u]? = some e) :
    R.entries (R.union.count u) u = R.routed.filter (fun p => p.eid == e) := by
  have hcount : ∀ u, (R.routed.filter fun p => (R.union.idx p.eid).getD 0 == u).length ≤
      R.union.count u := by
    intro u
    cases hu : R.union.ids[u]? with
    | some e => rw [R.filter_key hu, R.count_eq hu]
    | none =>
      have hnone : (R.routed.filter fun p => (R.union.idx p.eid).getD 0 == u) = [] := by
        refine List.filter_eq_nil_iff.mpr fun p hp heq => ?_
        obtain ⟨u', hidx, hu'⟩ := R.union_idx hp
        rw [hidx, Option.getD_some, beq_iff_eq] at heq
        rw [heq] at hu'
        cases hu.symm.trans hu'
      rw [hnone]
      exact Nat.zero_le _
  have hmap := map_scatter hcount (fun _ => ⟨0, 0, 0⟩) u
  rw [R.filter_key hu, ← R.count_eq hu] at hmap
  exact hmap

theorem order_perm : R.order.Perm (List.range R.nUnion) := List.perm_insertionSort _ _

theorem order_length : R.order.length = R.nUnion := by
  rw [R.order_perm.length_eq, List.length_range]

theorem sortedIds_length : R.sortedIds.length = R.nUnion := by
  rw [sortedIds, List.length_map, order_length]

theorem orderAt_lt {i : ℕ} (hi : i < R.nUnion) : R.orderAt i < R.nUnion := by
  have hlen : i < R.order.length := by rwa [order_length]
  rw [orderAt, List.getD_eq_getElem _ _ hlen]
  exact List.mem_range.mp (R.order_perm.mem_iff.mp (List.getElem_mem hlen))

/-- The id of a slot of the union. -/
theorem sortedIds_get {i : ℕ} (hi : i < R.nUnion) :
    ∃ e, R.sortedIds[i]? = some e ∧ R.union.ids[R.orderAt i]? = some e := by
  have hlen : i < R.order.length := by rwa [order_length]
  have hget : R.order[i] = R.orderAt i := (List.getD_eq_getElem _ _ hlen).symm
  have hu := List.getElem?_eq_getElem (R.orderAt_lt hi)
  refine ⟨_, ?_, hu⟩
  rw [sortedIds, List.getElem?_map, List.getElem?_eq_getElem hlen, Option.map_some, hget,
    List.getD_eq_getElem?_getD, hu, Option.getD_some]

theorem orderAt_inj {i j : ℕ} (hi : i < R.nUnion) (hj : j < R.nUnion)
    (h : R.orderAt i = R.orderAt j) : i = j := by
  have hi' : i < R.order.length := by rwa [order_length]
  have hj' : j < R.order.length := by rwa [order_length]
  rw [orderAt, orderAt, List.getD_eq_getElem _ _ hi', List.getD_eq_getElem _ _ hj'] at h
  exact (R.order_perm.nodup_iff.mpr List.nodup_range).getElem_inj_iff.mp h

theorem sortedIds_perm : R.sortedIds.Perm R.union.ids := by
  have hself : (List.range R.nUnion).map (fun u => R.union.ids.getD u 0) = R.union.ids := by
    refine List.ext_getElem (by simp [nUnion]) fun i hi hi' => ?_
    rw [List.getElem_map, List.getElem_range, List.getD_eq_getElem _ _ hi']
  have hperm := R.order_perm.map fun u => R.union.ids.getD u 0
  rw [hself] at hperm
  exact hperm

theorem sortedIds_nodup : R.sortedIds.Nodup :=
  R.sortedIds_perm.nodup_iff.mpr R.union_of.nodup

theorem mem_sortedIds {p : MoePair} (hp : p ∈ R.routed) : p.eid ∈ R.sortedIds := by
  rw [R.sortedIds_perm.mem_iff, R.union_of.mem]
  exact List.mem_map_of_mem hp

/-- The entries of a slot of the union. -/
def entriesAt (i : ℕ) : List MoePair := R.entries (R.union.count (R.orderAt i)) (R.orderAt i)

theorem entriesAt_eq {i e : ℕ} (he : R.sortedIds[i]? = some e) :
    R.entriesAt i = R.routed.filter (fun p => p.eid == e) := by
  obtain ⟨hlt, -⟩ := List.getElem?_eq_some_iff.mp he
  rw [sortedIds_length] at hlt
  obtain ⟨e', he', hu⟩ := R.sortedIds_get hlt
  obtain rfl : e = e' := Option.some.inj (he.symm.trans he')
  exact R.entries_eq hu

/-- Every entry is in the lists of the union once. -/
theorem entriesAt_perm : ((List.range R.nUnion).flatMap R.entriesAt).Perm R.routed := by
  have hids : (List.range R.nUnion).flatMap R.entriesAt =
      R.sortedIds.flatMap fun e => R.routed.filter (fun p => p.eid == e) := by
    rw [← R.sortedIds_length, List.flatMap_def, List.flatMap_def]
    congr 1
    refine List.ext_getElem (by simp) fun i hi hi' => ?_
    have hlt : i < R.sortedIds.length := by simpa using hi
    simp only [List.getElem_map, List.getElem_range]
    exact R.entriesAt_eq (List.getElem?_eq_getElem hlt)
  rw [hids]
  exact flatMap_filter_perm R.sortedIds_nodup fun p hp => R.mem_sortedIds hp

theorem count_pos {i : ℕ} (hi : i < R.nUnion) : 0 < R.union.count (R.orderAt i) := by
  obtain ⟨e, -, hu⟩ := R.sortedIds_get hi
  have hmem := (R.union_of.mem e).mp (List.mem_of_getElem? hu)
  rw [R.union_of.count _ e hu]
  exact List.count_pos_iff.mpr hmem

/-- The slot of the union an entry's expert is in. -/
def slotOf (p : MoePair) : ℕ := R.sortedIds.idxOf p.eid

theorem slotOf_lt {p : MoePair} (hp : p ∈ R.routed) : R.slotOf p < R.nUnion := by
  rw [← R.sortedIds_length]
  exact List.idxOf_lt_length_iff.mpr (R.mem_sortedIds hp)

theorem slotOf_eid {p : MoePair} (hp : p ∈ R.routed) :
    R.sortedIds[R.slotOf p]? = some p.eid := List.getElem?_idxOf (R.mem_sortedIds hp)

theorem mem_entriesAt {i : ℕ} (hi : i < R.nUnion) {p : MoePair} :
    p ∈ R.entriesAt i ↔ p ∈ R.routed ∧ R.slotOf p = i := by
  obtain ⟨e, he, -⟩ := R.sortedIds_get hi
  rw [R.entriesAt_eq he, List.mem_filter, beq_iff_eq]
  refine and_congr_right fun hp => ⟨?_, ?_⟩
  · rintro rfl
    obtain ⟨hlt, hget⟩ := List.getElem?_eq_some_iff.mp he
    rw [slotOf, ← hget]
    exact R.sortedIds_nodup.idxOf_getElem i hlt
  · rintro rfl
    exact Option.some.inj ((R.slotOf_eid hp).symm.trans he)

theorem mem_routed {p : MoePair} :
    p ∈ R.routed ↔ p.row < R.nRows ∧ p.k < R.topK ∧ R.ids p.row p.k = some p.eid := by
  simp only [routed, List.mem_flatMap, List.mem_filterMap, List.mem_range, Option.map_eq_some_iff]
  constructor
  · rintro ⟨row, hrow, k, hk, e, he, rfl⟩
    exact ⟨hrow, hk, he⟩
  · rintro ⟨hrow, hk, he⟩
    exact ⟨p.row, hrow, p.k, hk, p.eid, he, rfl⟩

/-- An entry is known by its row and its place in it. -/
theorem routed_ext {p q : MoePair} (hp : p ∈ R.routed) (hq : q ∈ R.routed) (hrow : p.row = q.row)
    (hk : p.k = q.k) : p = q := by
  have hp := (R.mem_routed.mp hp).2.2
  have hq := (R.mem_routed.mp hq).2.2
  rw [hrow, hk] at hp
  have heid := Option.some.inj (hp.symm.trans hq)
  cases p
  cases q
  simp_all

end MoeRouting

/-! What each path of `moe_experts_batch` adds to the output, as a sum over the entries it reaches. -/

variable {B F : Type*}

/-! ### Entries written to their places -/

section

variable {α : Type*} (val : MoePair → α)

/-- An array with a place for every entry. -/
def writePair (t : ℕ → ℕ → α) (p : MoePair) : ℕ → ℕ → α :=
  Function.update t p.row (Function.update (t p.row) p.k (val p))

variable {val}

theorem writePair_self (t : ℕ → ℕ → α) (p : MoePair) : writePair val t p p.row p.k = val p := by
  rw [writePair, Function.update_self, Function.update_self]

theorem writePair_of_ne (t : ℕ → ℕ → α) {p : MoePair} {row k : ℕ} (h : ¬(p.row = row ∧ p.k = k)) :
    writePair val t p row k = t row k := by
  unfold writePair
  by_cases hrow : p.row = row
  · subst hrow
    rw [Function.update_self, Function.update_of_ne fun hk => h ⟨rfl, hk.symm⟩]
  · rw [Function.update_of_ne (Ne.symm hrow)]

theorem foldl_writePair_of_notMem {l : List MoePair} {row k : ℕ}
    (h : ∀ p ∈ l, ¬(p.row = row ∧ p.k = k)) (t : ℕ → ℕ → α) :
    l.foldl (writePair val) t row k = t row k := by
  induction l generalizing t with
  | nil => rfl
  | cons p l ih =>
    rw [List.foldl_cons, ih fun q hq => h q (List.mem_cons_of_mem _ hq),
      writePair_of_ne t (h p List.mem_cons_self)]

theorem foldl_writePair_of_mem {l : List MoePair} {p : MoePair} (hp : p ∈ l)
    (h : ∀ q ∈ l, q.row = p.row → q.k = p.k → q = p) (t : ℕ → ℕ → α) :
    l.foldl (writePair val) t p.row p.k = val p := by
  induction l generalizing t with
  | nil => exact absurd hp List.not_mem_nil
  | cons q l ih =>
    rw [List.foldl_cons]
    by_cases hmem : p ∈ l
    · exact ih hmem (fun q' hq' => h q' (List.mem_cons_of_mem _ hq')) _
    · obtain rfl : p = q := (List.mem_cons.mp hp).resolve_right hmem
      rw [foldl_writePair_of_notMem fun q' hq' heq => ?_, writePair_self]
      exact hmem (h q' (List.mem_cons_of_mem _ hq') heq.1 heq.2 ▸ hq')

end

/-! ### Sums over entries -/

namespace MoeValues

variable [Field F] (v : MoeValues F)

/-- What an entry is to add to its row. -/
def term (p : MoePair) : ℕ → F := fun d => v.weight p.row p.k * v.ffn p.eid (v.x p.row) d

/-- What entries add to the output. -/
def total (l : List MoePair) : ℕ → ℕ → F := (l.map fun p => Pi.single p.row (v.term p)).sum

theorem total_nil : v.total [] = 0 := rfl

theorem total_cons (p : MoePair) (l : List MoePair) :
    v.total (p :: l) = Pi.single p.row (v.term p) + v.total l := by
  rw [total, List.map_cons, List.sum_cons, total]

theorem total_append (l l' : List MoePair) : v.total (l ++ l') = v.total l + v.total l' := by
  rw [total, List.map_append, List.sum_append, total, total]

theorem total_perm {l l' : List MoePair} (h : l.Perm l') : v.total l = v.total l' :=
  (h.map _).sum_eq

theorem total_flatMap {ι : Type*} (l : List ι) (f : ι → List MoePair) :
    v.total (l.flatMap f) = (l.map fun i => v.total (f i)).sum := by
  induction l with
  | nil => rfl
  | cons i l ih => rw [List.flatMap_cons, total_append, ih, List.map_cons, List.sum_cons]

theorem update_add (out : ℕ → ℕ → F) (row : ℕ) (f : ℕ → F) :
    Function.update out row (fun d => out row d + f d) = out + Pi.single row f := by
  funext r
  by_cases hr : r = row
  · subst hr
    rw [Function.update_self, Pi.add_apply, Pi.single_eq_same]
    rfl
  · rw [Function.update_of_ne hr, Pi.add_apply, Pi.single_eq_of_ne hr, add_zero]

/-- The rows of the output, each by its own entries. -/
theorem total_apply (l : List MoePair) (row : ℕ) :
    v.total l row = ((l.filter (·.row == row)).map v.term).sum := by
  induction l with
  | nil => rfl
  | cons p l ih =>
    rw [total_cons, Pi.add_apply, ih]
    by_cases hrow : p.row = row
    · subst hrow
      rw [Pi.single_eq_same, List.filter_cons_of_pos (by simp), List.map_cons, List.sum_cons]
    · rw [Pi.single_eq_of_ne (Ne.symm hrow), zero_add, List.filter_cons_of_neg (by simpa using hrow)]

theorem deviceExperts_eq {group : List (ℕ × List MoePair)}
    (h : ∀ g ∈ group, ∀ p ∈ g.2, p.eid = g.1) (out : ℕ → ℕ → F) :
    v.deviceExperts group out = out + v.total (group.flatMap (·.2)) := by
  have hexpert : ∀ (e : ℕ) (l : List MoePair) (out : ℕ → ℕ → F), (∀ p ∈ l, p.eid = e) →
      l.foldl (fun (out : ℕ → ℕ → F) p => Function.update out p.row fun d =>
        out p.row d + v.weight p.row p.k * v.ffn e (v.x p.row) d) out = out + v.total l := by
    intro e l
    induction l with
    | nil => exact fun out _ => (add_zero out).symm
    | cons p l ih =>
      intro out hl
      rw [List.foldl_cons, ih _ fun q hq => hl q (List.mem_cons_of_mem _ hq), total_cons,
        ← hl p List.mem_cons_self, ← add_assoc]
      exact congrArg (· + v.total l) (update_add out p.row (v.term p))
  unfold deviceExperts
  induction group generalizing out with
  | nil => exact (add_zero out).symm
  | cons g group ih =>
    rw [List.foldl_cons, ih fun g' hg' => h g' (List.mem_cons_of_mem _ hg'),
      hexpert g.1 g.2 out (h g List.mem_cons_self), List.flatMap_cons, total_append, add_assoc]

variable [DecidableEq F]

theorem groupedEntry_eq (p : MoePair) : v.groupedEntry p.eid p = v.term p := by
  unfold groupedEntry
  funext d
  split_ifs with hs
  · rw [term, ffn, hs, one_mul]
  · rfl

theorem tokenEntry_eq (p : MoePair) : v.tokenEntry p.eid p.row p.k = v.term p := by
  unfold tokenEntry
  funext d
  dsimp only [term, ffn]
  split_ifs with hs
  · rw [mul_comm ((v.experts p.eid).downScale)]
  · rw [not_not.mp hs, one_mul]

end MoeValues

/-- The sum the output row is to be. -/
def MoeRouting.expected [Field F] (R : MoeRouting) (v : MoeValues F) (row : ℕ) : ℕ → F :=
  ∑ k ∈ Finset.range R.topK, match R.ids row k with
    | some e => fun d => v.weight row k * v.ffn e (v.x row) d
    | none => 0

namespace MoeRouting

variable (R : MoeRouting)

theorem flatMap_range_single {α : Type*} (n row : ℕ) (l : List α) :
    ((List.range n).flatMap fun i => if i = row then l else []) = if row < n then l else [] := by
  induction n with
  | zero => rfl
  | succ n ih =>
    rw [List.range_succ, List.flatMap_append, ih, List.flatMap_singleton]
    rcases Nat.lt_trichotomy row n with hlt | rfl | hgt
    · rw [if_pos hlt, if_neg (Nat.ne_of_gt hlt), if_pos (Nat.lt_succ_of_lt hlt), List.append_nil]
    · rw [if_neg (Nat.lt_irrefl row), if_pos rfl, if_pos (Nat.lt_succ_self row), List.nil_append]
    · rw [if_neg (Nat.lt_asymm hgt), if_neg (Nat.ne_of_lt hgt), if_neg (Nat.not_lt.mpr hgt)]
      rfl

theorem routed_row {row : ℕ} (hrow : row < R.nRows) :
    R.routed.filter (·.row == row) =
      (List.range R.topK).filterMap fun k => (R.ids row k).map fun eid => ⟨row, k, eid⟩ := by
  have hat : ∀ r, ((List.range R.topK).filterMap fun k =>
        (R.ids r k).map fun eid => (⟨r, k, eid⟩ : MoePair)).filter (·.row == row) =
      if r = row then (List.range R.topK).filterMap fun k =>
        (R.ids row k).map fun eid => ⟨row, k, eid⟩ else [] := by
    intro r
    have hr : ∀ p ∈ (List.range R.topK).filterMap fun k =>
        (R.ids r k).map fun eid => (⟨r, k, eid⟩ : MoePair), p.row = r := by
      intro p hp
      obtain ⟨k, -, hk⟩ := List.mem_filterMap.mp hp
      obtain ⟨e, -, rfl⟩ := Option.map_eq_some_iff.mp hk
      rfl
    split_ifs with heq
    · subst heq
      exact List.filter_eq_self.mpr fun p hp => by simp [hr p hp]
    · exact List.filter_eq_nil_iff.mpr fun p hp => by simp [hr p hp, heq]
  rw [routed, List.filter_flatMap, List.flatMap_congr fun r _ => hat r, flatMap_range_single,
    if_pos hrow]

/-- All the entries together add up to the output. -/
theorem total_routed [Field F] (v : MoeValues F) {row : ℕ} (hrow : row < R.nRows) :
    v.total R.routed row = R.expected v row := by
  rw [MoeValues.total_apply, R.routed_row hrow, expected]
  induction R.topK with
  | zero => rfl
  | succ n ih =>
    rw [List.range_succ, List.filterMap_append, List.map_append, List.sum_append, ih,
      Finset.sum_range_succ]
    cases hid : R.ids row n with
    | none => simp [hid]
    | some e =>
      simp only [List.filterMap_cons, List.filterMap_nil, hid, Option.map_some, List.map_cons,
        List.map_nil, List.sum_cons, List.sum_nil, add_zero]
      rfl

theorem routed_nodup : R.routed.Nodup := by
  refine List.nodup_flatMap.mpr ⟨fun row _ => ?_, ?_⟩
  · refine List.Nodup.filterMap (fun k k' p hp hp' => ?_) List.nodup_range
    obtain ⟨_, -, rfl⟩ := Option.map_eq_some_iff.mp hp
    obtain ⟨_, -, heq⟩ := Option.map_eq_some_iff.mp hp'
    exact (congrArg MoePair.k heq).symm
  · refine List.nodup_range.imp fun hne p hp hp' => ?_
    obtain ⟨_, -, hk⟩ := List.mem_filterMap.mp hp
    obtain ⟨_, -, hk'⟩ := List.mem_filterMap.mp hp'
    obtain ⟨_, -, rfl⟩ := Option.map_eq_some_iff.mp hk
    obtain ⟨_, -, heq⟩ := Option.map_eq_some_iff.mp hk'
    exact hne (congrArg MoePair.row heq).symm

/-- The entries of the slots that are chosen. -/
theorem chosen_perm (c : ℕ → Bool) :
    ((List.range R.nUnion).flatMap fun i => if c i then R.entriesAt i else []).Perm
      (R.routed.filter fun p => c (R.slotOf p)) := by
  have hfilter : ∀ i ∈ List.range R.nUnion, (if c i then R.entriesAt i else []) =
      (R.entriesAt i).filter fun p => c (R.slotOf p) := by
    intro i hi
    have hslot : ∀ p ∈ R.entriesAt i, R.slotOf p = i := fun p hp =>
      ((R.mem_entriesAt (List.mem_range.mp hi)).mp hp).2
    split_ifs with hc
    · exact (List.filter_eq_self.mpr fun p hp => by rw [hslot p hp, hc]).symm
    · exact (List.filter_eq_nil_iff.mpr fun p hp => by rw [hslot p hp]; exact hc).symm
  rw [List.flatMap_congr hfilter, ← List.filter_flatMap]
  exact R.entriesAt_perm.filter _

theorem entriesAt_eid {i e : ℕ} (he : R.sortedIds[i]? = some e)
    {p : MoePair} (hp : p ∈ R.entriesAt i) : p.eid = e := by
  rw [R.entriesAt_eq he] at hp
  simpa using (List.mem_filter.mp hp).2

end MoeRouting

end Kappai
