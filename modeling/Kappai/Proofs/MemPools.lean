import Mathlib.Data.List.NodupEquivFin
import Mathlib.Data.List.Sort
import Kappai.Spec.MemPools
import Mathlib.Data.List.ReduceOption

/-! The classes of backends that share an identity, and the pools made of them. -/

namespace Kappai

namespace MemPools

section Labels

/-! The labels the two loops over pairs give: the first index of a class. -/

variable (n : ℕ) (same : ℕ → ℕ → Bool)

/-- The first index that shares an identity, of those before `i`. -/
def root (i : ℕ) : ℕ := ((List.range i).find? (same i)).getD i

theorem root_le (i : ℕ) : root same i ≤ i := by
  cases h : (List.range i).find? (same i) with
  | none => simp [root, h]
  | some j =>
    have := List.mem_range.1 (List.mem_of_find?_eq_some h)
    simp [root, h]
    omega

theorem root_eq_or (i : ℕ) : root same i = i ∨ same i (root same i) = true := by
  cases h : (List.range i).find? (same i) with
  | none => exact Or.inl (by simp [root, h])
  | some j => exact Or.inr (by simpa [root, h] using List.find?_some h)

private theorem not_same_of_lt_root {i j : ℕ} (hj : j < root same i) : same i j = false := by
  have hi := root_le same i
  cases h : (List.range i).find? (same i) with
  | none =>
    have := List.find?_eq_none.1 h j (List.mem_range.2 (by omega))
    simpa using this
  | some k =>
    rw [List.find?_range_eq_some] at h
    have hk : root same i = k := by
      simp [root, List.find?_range_eq_some.2 h]
    simpa using h.2.2 j (by omega)

private theorem foldl_joinStep_of_ne {poolOf : ℕ → ℕ} {i : ℕ} (h : poolOf i ≠ i) (js : List ℕ) :
    js.foldl (joinStep n same i) poolOf = poolOf := by
  induction js with
  | nil => rfl
  | cons j js ih =>
    rw [List.foldl_cons, joinStep, if_pos (by simp [h])]
    exact ih

/-- The inner loop gives `i` the label of the first index that shares its identity. -/
private theorem foldl_joinStep {poolOf : ℕ → ℕ} {i : ℕ} (hi : i < n) (hself : poolOf i = i)
    (honly : ∀ k < n, poolOf k = i → k = i) (js : List ℕ) (hjs : ∀ j ∈ js, j < i) :
    js.foldl (joinStep n same i) poolOf =
      Function.update poolOf i ((js.find? (same i)).elim i poolOf) := by
  induction js with
  | nil =>
    rw [List.find?_nil, Option.elim_none, List.foldl_nil, eq_comm, Function.update_eq_self_iff]
    exact hself.symm
  | cons j js ih =>
    rw [List.foldl_cons]
    cases hs : same i j with
    | false =>
      rw [joinStep, if_pos (by simp [hs]), List.find?_cons_of_neg (by simp [hs])]
      exact ih fun k hk => hjs k (List.mem_cons_of_mem j hk)
    | true =>
      have hji := hjs j List.mem_cons_self
      have hstep : joinStep n same i poolOf j = Function.update poolOf i (poolOf j) := by
        rw [joinStep, if_neg (by simp [hself, hs])]
        funext k
        by_cases hk : k = i
        · rw [hk, if_pos ⟨hi, hself⟩, Function.update_self]
        · rw [if_neg fun h => hk (honly k h.1 h.2), Function.update_of_ne hk]
      have hne : poolOf j ≠ i := fun h => by
        have := honly j (by omega) h
        omega
      rw [hstep, List.find?_cons_of_pos hs,
        foldl_joinStep_of_ne n same (by rw [Function.update_self]; exact hne)]
      rfl

section Trans

variable (htrans : ∀ i j k, same i j = true → same j k = true → same i k = true)
include htrans

private theorem root_root {i j : ℕ} (h : (List.range i).find? (same i) = some j) :
    root same j = j := by
  rcases root_eq_or same j with hr | hr
  · exact hr
  · rw [List.find?_range_eq_some] at h
    by_contra hne
    have hlt : root same j < j := lt_of_le_of_ne (root_le same j) hne
    have := h.2.2 _ hlt
    rw [htrans i j _ h.1 hr] at this
    cases this

/-- After the turns below `m` the labels below `m` are the first indices of their classes. -/
private theorem foldl_join (m : ℕ) (hm : m ≤ n) :
    (List.range m).foldl (fun poolOf i => (List.range i).foldl (joinStep n same i) poolOf) id =
      fun k => if k < m then root same k else k := by
  induction m with
  | zero => simp; rfl
  | succ m ih =>
    rw [List.range_succ, List.foldl_append, ih (by omega), List.foldl_cons, List.foldl_nil,
      foldl_joinStep n same (by omega) (by simp) ?_ _ (by simp)]
    · funext k
      by_cases hk : k = m
      · rw [hk, Function.update_self, if_pos (by omega), root]
        cases h : (List.range m).find? (same m) with
        | none => rfl
        | some j =>
          have hj := List.mem_range.1 (List.mem_of_find?_eq_some h)
          simp only [Option.elim_some, Option.getD_some]
          rw [if_pos hj]
          exact root_root same htrans h
      · rw [Function.update_of_ne hk]
        by_cases hlt : k < m
        · rw [if_pos hlt, if_pos (by omega)]
        · rw [if_neg hlt, if_neg (by omega)]
    · intro k _ hk
      by_cases hlt : k < m
      · rw [if_pos hlt] at hk
        have := root_le same k
        omega
      · rwa [if_neg hlt] at hk

theorem joinAll_of_lt {k : ℕ} (hk : k < n) : joinAll n same k = root same k := by
  rw [joinAll, foldl_join n same htrans n le_rfl]
  exact if_pos hk

variable (hsymm : ∀ i j, same i j = true → same j i = true)
include hsymm

private theorem root_le_root {i j : ℕ} (h : same i j = true) : root same i ≤ root same j := by
  by_contra hlt
  have hj : same j (root same j) = true := by
    rcases root_eq_or same j with hr | hr
    · rw [hr]
      exact htrans j i j (hsymm i j h) h
    · exact hr
  have := not_same_of_lt_root same (i := i) (j := root same j) (by omega)
  rw [htrans i j _ h hj] at this
  cases this

/-- Two indices have one label when they share an identity. -/
theorem root_eq_root {i j : ℕ} : root same i = root same j ↔ i = j ∨ same i j = true := by
  constructor
  · intro h
    rcases root_eq_or same i with hi | hi <;> rcases root_eq_or same j with hj | hj
    · exact Or.inl (by omega)
    · exact Or.inr (hsymm j i (by rw [hi] at h; rwa [← h] at hj))
    · exact Or.inr (by rwa [h, hj] at hi)
    · exact Or.inr (htrans i _ j hi (h ▸ hsymm j _ hj))
  · rintro (rfl | h)
    · rfl
    · exact le_antisymm (root_le_root same htrans hsymm h) (root_le_root same htrans hsymm (hsymm i j h))

theorem root_idem (i : ℕ) : root same (root same i) = root same i := by
  rw [root_eq_root same htrans hsymm]
  rcases root_eq_or same i with hi | hi
  · exact Or.inl hi
  · exact Or.inr (hsymm i _ hi)

end Trans

/-- The indices that keep their label. -/
def rootsBelow (n : ℕ) (poolOf : ℕ → ℕ) : List ℕ := (List.range n).filter fun i => decide (poolOf i = i)

/-- The labels that are left are numbered in order. -/
theorem reindexAll_spec (poolOf : ℕ → ℕ) :
    (rootsBelow n poolOf).map (reindexAll n poolOf).1 = List.range (reindexAll n poolOf).2 := by
  have hrun : ∀ m, (rootsBelow m poolOf).map
        ((List.range m).foldl (reindexStep poolOf) (fun _ => 0, 0)).1 =
      List.range ((List.range m).foldl (reindexStep poolOf) (fun _ => 0, 0)).2 := by
    intro m
    induction m with
    | zero => rfl
    | succ m ih =>
      rw [rootsBelow, List.range_succ, List.filter_append, List.foldl_append, List.foldl_cons,
        List.foldl_nil]
      by_cases hm : poolOf m = m
      · have hold : ∀ i ∈ rootsBelow m poolOf, i ≠ m := fun i hi => by
          have := List.mem_range.1 (List.mem_of_mem_filter hi)
          omega
        rw [reindexStep, if_neg (by simpa using hm), List.filter_cons_of_pos (by simpa using hm),
          List.filter_nil, List.map_append, List.range_succ, ← ih]
        simp only [List.map_cons, List.map_nil, Function.update_self]
        congr 1
        exact List.map_congr_left fun i hi => Function.update_of_ne (hold i hi) _ _
      · rw [reindexStep, if_pos hm, List.filter_cons_of_neg (by simpa using hm), List.filter_nil,
          List.append_nil]
        exact ih
  exact hrun n

theorem reindexAll_inj (poolOf : ℕ → ℕ) {i j : ℕ} (hi : i ∈ rootsBelow n poolOf)
    (hj : j ∈ rootsBelow n poolOf) (h : (reindexAll n poolOf).1 i = (reindexAll n poolOf).1 j) : i = j := by
  have hnd : ((rootsBelow n poolOf).map (reindexAll n poolOf).1).Nodup := by
    rw [reindexAll_spec]
    exact List.nodup_range
  exact List.inj_on_of_nodup_map hnd hi hj h

end Labels

variable {β : Type} (info : β → Info)

section Identity

theorem identityMatch_iff {x y : Info} :
    identityMatch x y = true ↔ ∃ t, t ≠ [] ∧ x.identity = some t ∧ y.identity = some t := by
  unfold identityMatch
  rcases x.identity with _ | a <;> rcases y.identity with _ | b <;> simp
  rintro rfl
  rfl

theorem identityMatch_symm {x y : Info} (h : identityMatch x y = true) : identityMatch y x = true := by
  obtain ⟨t, ht, hx, hy⟩ := identityMatch_iff.1 h
  exact identityMatch_iff.2 ⟨t, ht, hy, hx⟩

theorem identityMatch_trans {x y z : Info} (h : identityMatch x y = true) (h' : identityMatch y z = true) :
    identityMatch x z = true := by
  obtain ⟨t, ht, hx, hy⟩ := identityMatch_iff.1 h
  obtain ⟨u, -, hy', hz⟩ := identityMatch_iff.1 h'
  have htu : t = u := Option.some.inj (hy.symm.trans hy')
  exact identityMatch_iff.2 ⟨t, ht, hx, htu ▸ hz⟩

theorem identityMatch_self {x : Info} : identityMatch x x = true ↔ ∃ t ∈ x.identity, t ≠ [] := by
  rw [identityMatch_iff]
  constructor
  · rintro ⟨t, ht, hx, -⟩
    exact ⟨t, hx, ht⟩
  · rintro ⟨t, hx, ht⟩
    exact ⟨t, ht, hx, hx⟩

variable (d : List β)

theorem sameIdentity_iff {i j : ℕ} : sameIdentity info d i j = true ↔
    ∃ a b, d[i]? = some a ∧ d[j]? = some b ∧ identityMatch (info a) (info b) = true := by
  simp [sameIdentity, Option.any_eq_true]

theorem sameIdentity_symm (i j : ℕ) (h : sameIdentity info d i j = true) :
    sameIdentity info d j i = true := by
  obtain ⟨a, b, ha, hb, hm⟩ := (sameIdentity_iff info d).1 h
  exact (sameIdentity_iff info d).2 ⟨b, a, hb, ha, identityMatch_symm hm⟩

theorem sameIdentity_trans (i j k : ℕ) (h : sameIdentity info d i j = true)
    (h' : sameIdentity info d j k = true) : sameIdentity info d i k = true := by
  obtain ⟨a, b, ha, hb, hm⟩ := (sameIdentity_iff info d).1 h
  obtain ⟨b', c, hb', hc, hm'⟩ := (sameIdentity_iff info d).1 h'
  obtain rfl : b = b' := Option.some.inj (hb.symm.trans hb')
  exact (sameIdentity_iff info d).2 ⟨a, c, ha, hc, identityMatch_trans hm hm'⟩

end Identity

section Classes

variable (d : List β)

/-- The first index of the class of an index. -/
def leader (i : ℕ) : ℕ := root (sameIdentity info d) i

def leaders : List ℕ := rootsBelow d.length (leader info d)

/-- The backends of a class, as `mem_topology_build` adds them. -/
def classAt (i : ℕ) : List β := (d.zipIdx.filter fun x => decide (leader info d x.2 = i)).map (·.1)

theorem leader_eq_leader {i j : ℕ} :
    leader info d i = leader info d j ↔ i = j ∨ sameIdentity info d i j = true :=
  root_eq_root _ (sameIdentity_trans info d) (sameIdentity_symm info d)

theorem leader_le (i : ℕ) : leader info d i ≤ i := root_le _ i

theorem mem_leaders {i : ℕ} : i ∈ leaders info d ↔ i < d.length ∧ leader info d i = i := by
  simp [leaders, rootsBelow]

theorem leader_mem_leaders {i : ℕ} (hi : i < d.length) : leader info d i ∈ leaders info d :=
  (mem_leaders info d).2 ⟨lt_of_le_of_lt (leader_le info d i) hi,
    root_idem _ (sameIdentity_trans info d) (sameIdentity_symm info d) i⟩

theorem nodup_leaders : (leaders info d).Nodup := List.nodup_range.filter _

/-- The pools are those of the classes, in the order of their first indices. -/
theorem discretePools_eq [DecidableEq β] : discretePools info d = (leaders info d).map fun i => fillPool info (classAt info d i) := by
  have hlab : ∀ i < d.length, joinAll d.length (sameIdentity info d) i = leader info d i := fun i hi =>
    joinAll_of_lt _ _ (sameIdentity_trans info d) hi
  have hroots : rootsBelow d.length (joinAll d.length (sameIdentity info d)) = leaders info d :=
    List.filter_congr fun i hi => by rw [hlab i (List.mem_range.1 hi)]
  simp only [discretePools]
  rw [← reindexAll_spec, hroots, List.map_map]
  refine List.map_congr_left fun i hi => ?_
  simp only [Function.comp_apply, classAt]
  congr 2
  refine List.filter_congr fun x hx => decide_eq_decide.2 ?_
  have hx2 : x.2 < d.length := by
    have := List.snd_lt_of_mem_zipIdx hx
    omega
  rw [hlab x.2 hx2]
  constructor
  · intro h
    refine reindexAll_inj d.length _ ?_ ?_ h
    · rw [hroots]
      exact leader_mem_leaders info d hx2
    · rwa [hroots]
  · intro h
    rw [h]

theorem mem_classAt {b : β} {i : ℕ} : b ∈ classAt info d i ↔ ∃ x, d[x]? = some b ∧ leader info d x = i := by
  simp only [classAt, List.mem_map, List.mem_filter, decide_eq_true_eq]
  constructor
  · rintro ⟨⟨a, x⟩, ⟨hx, hi⟩, rfl⟩
    exact ⟨x, List.mem_zipIdx_iff_getElem?.1 hx, hi⟩
  · rintro ⟨x, hx, hi⟩
    exact ⟨(b, x), ⟨List.mem_zipIdx_iff_getElem?.2 hx, hi⟩, rfl⟩

theorem mem_classAt_leader {a b : β} {i : ℕ} (hi : i ∈ leaders info d) (ha : d[i]? = some a) :
    b ∈ classAt info d i ↔ b = a ∨ b ∈ d ∧ identityMatch (info b) (info a) = true := by
  have hself := ((mem_leaders info d).1 hi).2
  rw [mem_classAt]
  constructor
  · rintro ⟨x, hx, hxi⟩
    rcases (leader_eq_leader info d).1 (hxi.trans hself.symm) with rfl | hs
    · exact Or.inl (Option.some.inj (hx.symm.trans ha))
    · obtain ⟨b', a', hb', ha', hm⟩ := (sameIdentity_iff info d).1 hs
      obtain rfl : b = b' := Option.some.inj (hx.symm.trans hb')
      obtain rfl : a = a' := Option.some.inj (ha.symm.trans ha')
      exact Or.inr ⟨List.mem_of_getElem? hx, hm⟩
  · rintro (rfl | ⟨hb, hm⟩)
    · exact ⟨i, ha, hself⟩
    · obtain ⟨x, hx⟩ := List.mem_iff_getElem?.1 hb
      refine ⟨x, hx, ?_⟩
      rw [← hself, leader_eq_leader]
      exact Or.inr ((sameIdentity_iff info d).2 ⟨b, a, hx, ha, hm⟩)

theorem classAt_sublist (i : ℕ) : (classAt info d i).Sublist d := by
  have h := List.Sublist.map (·.1) (List.filter_sublist (l := d.zipIdx)
    (p := fun x => decide (leader info d x.2 = i)))
  simpa [classAt] using h

end Classes

section Fill

/-- The first backend of a list that has the most memory. -/
def FirstMax (bs : List β) (c : β) : Prop :=
  ∃ pre post, bs = pre ++ c :: post ∧ (∀ x ∈ pre, (info x).memTotal < (info c).memTotal) ∧
    ∀ x ∈ post, (info x).memTotal ≤ (info c).memTotal

theorem FirstMax.mem {bs : List β} {c : β} (h : FirstMax info bs c) : c ∈ bs := by
  obtain ⟨pre, post, rfl, -, -⟩ := h
  simp

theorem FirstMax.le {bs : List β} {c x : β} (h : FirstMax info bs c) (hx : x ∈ bs) :
    (info x).memTotal ≤ (info c).memTotal := by
  obtain ⟨pre, post, rfl, hpre, hpost⟩ := h
  rcases List.mem_append.1 hx with hx | hx
  · exact (hpre x hx).le
  · rcases List.mem_cons.1 hx with rfl | hx
    · exact le_rfl
    · exact hpost x hx

private theorem FirstMax.snoc {bs : List β} {b c : β} (h : FirstMax info bs c)
    (hb : (info b).memTotal ≤ (info c).memTotal) : FirstMax info (bs ++ [b]) c := by
  obtain ⟨pre, post, rfl, hpre, hpost⟩ := h
  refine ⟨pre, post ++ [b], by simp, hpre, fun x hx => ?_⟩
  rcases List.mem_append.1 hx with hx | hx
  · exact hpost x hx
  · rwa [List.mem_singleton.1 hx]

private theorem FirstMax.last {bs : List β} {b c : β} (h : FirstMax info bs c)
    (hb : (info c).memTotal < (info b).memTotal) : FirstMax info (bs ++ [b]) b :=
  ⟨bs, [], rfl, fun _ hx => lt_of_le_of_lt (h.le info hx) hb, by simp⟩

section Turns

variable [DecidableEq β]

theorem mem_addMember {p : MemPool β} {b c : β} :
    c ∈ (addMember p b).members ↔ c ∈ p.members ∨ c = b := by
  unfold addMember
  split_ifs with h
  · constructor
    · exact Or.inl
    · rintro (hc | rfl)
      · exact hc
      · exact h
  · simp

@[simp] theorem addMember_capacitySource (p : MemPool β) (b : β) :
    (addMember p b).capacitySource = p.capacitySource := by
  unfold addMember
  split_ifs <;> rfl

@[simp] theorem addMember_isHost (p : MemPool β) (b : β) : (addMember p b).isHost = p.isHost := by
  unfold addMember
  split_ifs <;> rfl

/-- What the turns have made of the pool: its members, and the first of the largest with its number. -/
private structure Filled (bs : List β) (s : MemPool β × ℕ) : Prop where
  members : ∀ c, c ∈ s.1.members ↔ c ∈ bs
  isHost : s.1.isHost = false
  source : ∀ c, s.1.capacitySource = some c → FirstMax info bs c ∧ s.2 = (info c).memTotal
  empty : s.1.capacitySource = none → bs = []

private theorem filled_foldl (bs : List β) :
    Filled info bs (bs.foldl (fillStep info) (⟨[], none, false⟩, 0)) := by
  induction bs using List.reverseRecOn with
  | nil => exact ⟨by simp, rfl, by simp, by simp⟩
  | append_singleton bs b ih =>
    rw [List.foldl_append, List.foldl_cons, List.foldl_nil]
    generalize bs.foldl (fillStep info) (⟨[], none, false⟩, 0) = s at ih
    have hmem : ∀ c, c ∈ (addMember s.1 b).members ↔ c ∈ bs ++ [b] := fun c => by
      rw [mem_addMember, ih.members c]
      simp
    unfold fillStep
    cases hsrc : s.1.capacitySource with
    | none =>
      have hbs := ih.empty hsrc
      rw [if_pos (by simp [hsrc])]
      refine ⟨hmem, by simpa using ih.isHost, fun c hc => ?_, by simp⟩
      obtain rfl : b = c := Option.some.inj hc
      exact ⟨⟨[], [], by simp [hbs], by simp, by simp⟩, rfl⟩
    | some c =>
      obtain ⟨hmax, hbest⟩ := ih.source c hsrc
      by_cases hlt : (info c).memTotal < (info b).memTotal
      · rw [if_pos (by simp [hbest, hlt])]
        refine ⟨hmem, by simpa using ih.isHost, fun c' hc => ?_, by simp⟩
        obtain rfl : b = c' := Option.some.inj hc
        exact ⟨hmax.last info hlt, rfl⟩
      · rw [if_neg (by simp [hsrc, hbest, Nat.le_of_not_lt hlt])]
        refine ⟨hmem, by simpa using ih.isHost, fun c' hc => ?_, by simp [hsrc]⟩
        obtain rfl : c = c' := Option.some.inj (hsrc.symm.trans (by simpa using hc))
        exact ⟨hmax.snoc info (Nat.le_of_not_lt hlt), hbest⟩

theorem mem_fillPool {bs : List β} {b : β} : b ∈ (fillPool info bs).members ↔ b ∈ bs :=
  (filled_foldl info bs).members b

@[simp] theorem fillPool_isHost (bs : List β) : (fillPool info bs).isHost = false :=
  (filled_foldl info bs).isHost

theorem fillPool_source {bs : List β} (h : bs ≠ []) :
    ∃ c, (fillPool info bs).capacitySource = some c ∧ FirstMax info bs c := by
  cases hsrc : (fillPool info bs).capacitySource with
  | none => exact absurd ((filled_foldl info bs).empty hsrc) h
  | some c => exact ⟨c, rfl, ((filled_foldl info bs).source c hsrc).1⟩

end Turns

end Fill

section Pools

variable [DecidableEq β] (d : List β)

/-- How many of the pools have a backend among their members. -/
def poolsOf (pools : List (MemPool β)) (b : β) : ℕ := (pools.filter fun p => decide (b ∈ p.members)).length

theorem poolsOf_discrete (b : β) :
    poolsOf (discretePools info d) b = ((leaders info d).filter fun i => decide (b ∈ classAt info d i)).length := by
  rw [poolsOf, discretePools_eq, List.filter_map, List.length_map]
  congr 2
  funext i
  simp [mem_fillPool]

theorem mem_discretePools {b : β} : (∃ p ∈ discretePools info d, b ∈ p.members) ↔ b ∈ d := by
  rw [discretePools_eq]
  constructor
  · rintro ⟨p, hp, hb⟩
    obtain ⟨i, -, rfl⟩ := List.mem_map.1 hp
    exact (classAt_sublist info d i).mem ((mem_fillPool info).1 hb)
  · intro hb
    obtain ⟨x, hx⟩ := List.mem_iff_getElem?.1 hb
    exact ⟨_, List.mem_map_of_mem (leader_mem_leaders info d (List.getElem?_eq_some_iff.1 hx).1),
      (mem_fillPool info).2 ((mem_classAt info d).2 ⟨x, hx, rfl⟩)⟩

/-- A backend with an identity is in the pool of its class alone. -/
theorem poolsOf_named {b : β} (hb : b ∈ d) (hid : identityMatch (info b) (info b) = true) :
    poolsOf (discretePools info d) b = 1 := by
  obtain ⟨x, hx⟩ := List.mem_iff_getElem?.1 hb
  have hone : ((leaders info d).filter fun i => decide (b ∈ classAt info d i)).Perm [leader info d x] := by
    rw [List.perm_ext_iff_of_nodup ((nodup_leaders info d).filter _) (List.nodup_singleton _)]
    intro i
    simp only [List.mem_filter, decide_eq_true_eq, List.mem_singleton, mem_classAt]
    constructor
    · rintro ⟨-, y, hy, rfl⟩
      exact (leader_eq_leader info d).2 (Or.inr ((sameIdentity_iff info d).2 ⟨b, b, hy, hx, hid⟩))
    · rintro rfl
      exact ⟨leader_mem_leaders info d (List.getElem?_eq_some_iff.1 hx).1, x, hx, rfl⟩
  rw [poolsOf_discrete, hone.length_eq, List.length_singleton]

private theorem length_filter_getElem? (b : β) :
    ((List.range d.length).filter fun i => decide (d[i]? = some b)).length = d.count b := by
  induction d using List.reverseRecOn with
  | nil => rfl
  | append_singleton d a ih =>
    have hold : (List.range d.length).filter (fun i => decide ((d ++ [a])[i]? = some b)) =
        (List.range d.length).filter fun i => decide (d[i]? = some b) :=
      List.filter_congr fun i hi => by rw [List.getElem?_append_left (List.mem_range.1 hi)]
    rw [List.length_append, List.length_singleton, List.range_succ, List.filter_append, List.length_append,
      hold, ih, List.count_append]
    by_cases hab : a = b <;> simp [hab]

/-- A backend without an identity is in a pool of its own for each time it is listed. -/
theorem poolsOf_unnamed {b : β} (hid : identityMatch (info b) (info b) = false) :
    poolsOf (discretePools info d) b = d.count b := by
  have halone : ∀ x, d[x]? = some b → ∀ y, sameIdentity info d x y = false := by
    intro x hx y
    by_contra hs
    obtain ⟨a, c, ha, -, hm⟩ := (sameIdentity_iff info d).1 (by simpa using hs)
    obtain rfl : b = a := Option.some.inj (hx.symm.trans ha)
    rw [identityMatch_trans hm (identityMatch_symm hm)] at hid
    cases hid
  have hself : ∀ x, d[x]? = some b → leader info d x = x := fun x hx => by
    rcases root_eq_or (sameIdentity info d) x with h | h
    · exact h
    · rw [halone x hx] at h
      cases h
  have hfilter : (leaders info d).filter (fun i => decide (b ∈ classAt info d i)) =
      (List.range d.length).filter fun i => decide (d[i]? = some b) := by
    rw [leaders, rootsBelow, List.filter_filter]
    refine List.filter_congr fun i _ => ?_
    rw [← Bool.decide_and, decide_eq_decide, mem_classAt]
    constructor
    · rintro ⟨⟨x, hx, rfl⟩, -⟩
      rwa [hself x hx]
    · intro hi
      exact ⟨⟨i, hi, hself i hi⟩, hself i hi⟩
  rw [poolsOf_discrete, hfilter, length_filter_getElem?]

/-- Two backends are together in a pool when they are one or share an identity. -/
theorem discretePools_share {a b : β} : (∃ p ∈ discretePools info d, a ∈ p.members ∧ b ∈ p.members) ↔
    (a ∈ d ∧ b ∈ d) ∧ (a = b ∨ identityMatch (info a) (info b) = true) := by
  rw [discretePools_eq]
  constructor
  · rintro ⟨p, hp, ha, hb⟩
    obtain ⟨i, -, rfl⟩ := List.mem_map.1 hp
    rw [mem_fillPool] at ha hb
    refine ⟨⟨(classAt_sublist info d i).mem ha, (classAt_sublist info d i).mem hb⟩, ?_⟩
    obtain ⟨x, hx, hxi⟩ := (mem_classAt info d).1 ha
    obtain ⟨y, hy, hyi⟩ := (mem_classAt info d).1 hb
    rcases (leader_eq_leader info d).1 (hxi.trans hyi.symm) with rfl | hs
    · exact Or.inl (Option.some.inj (hx.symm.trans hy))
    · obtain ⟨a', b', ha', hb', hm⟩ := (sameIdentity_iff info d).1 hs
      obtain rfl : a = a' := Option.some.inj (hx.symm.trans ha')
      obtain rfl : b = b' := Option.some.inj (hy.symm.trans hb')
      exact Or.inr hm
  · rintro ⟨⟨ha, hb⟩, hab⟩
    obtain ⟨x, hx⟩ := List.mem_iff_getElem?.1 ha
    refine ⟨_, List.mem_map_of_mem (leader_mem_leaders info d (List.getElem?_eq_some_iff.1 hx).1), ?_, ?_⟩
    · exact (mem_fillPool info).2 ((mem_classAt info d).2 ⟨x, hx, rfl⟩)
    · rcases hab with rfl | hm
      · exact (mem_fillPool info).2 ((mem_classAt info d).2 ⟨x, hx, rfl⟩)
      · obtain ⟨y, hy⟩ := List.mem_iff_getElem?.1 hb
        refine (mem_fillPool info).2 ((mem_classAt info d).2 ⟨y, hy, ?_⟩)
        exact (leader_eq_leader info d).2
          (Or.inr ((sameIdentity_iff info d).2 ⟨b, a, hy, hx, identityMatch_symm hm⟩))

end Pools

section Views

variable [DecidableEq β]

/-- The backends of a set that belong with one of them. -/
def classOf (S : Finset β) (b : β) : Finset β :=
  S.filter fun c => c = b ∨ identityMatch (info c) (info b) = true

/-- The pool of a class as a set with its capacity. -/
def classView (S : Finset β) (b : β) : Finset β × Bool × ℕ :=
  (classOf info S b, false, (classOf info S b).sup fun c => (info c).memTotal)

variable (d : List β)

theorem classAt_toFinset {b : β} {i : ℕ} (hi : i ∈ leaders info d) (hb : d[i]? = some b) :
    (classAt info d i).toFinset = classOf info d.toFinset b := by
  ext c
  rw [List.mem_toFinset, mem_classAt_leader info d hi hb, classOf, Finset.mem_filter, List.mem_toFinset]
  constructor
  · rintro (rfl | ⟨hc, hm⟩)
    · exact ⟨List.mem_of_getElem? hb, Or.inl rfl⟩
    · exact ⟨hc, Or.inr hm⟩
  · rintro ⟨hc, rfl | hm⟩
    · exact Or.inl rfl
    · exact Or.inr ⟨hc, hm⟩

theorem classAt_source {i : ℕ} (hi : i ∈ leaders info d) :
    ∃ c, (fillPool info (classAt info d i)).capacitySource = some c ∧ FirstMax info (classAt info d i) c := by
  obtain ⟨hlt, hself⟩ := (mem_leaders info d).1 hi
  refine fillPool_source info (List.ne_nil_of_mem (a := d[i]) ?_)
  exact (mem_classAt info d).2 ⟨i, List.getElem?_eq_getElem hlt, hself⟩

theorem view_classAt {b : β} {i : ℕ} (hi : i ∈ leaders info d) (hb : d[i]? = some b) :
    (fillPool info (classAt info d i)).view info = classView info d.toFinset b := by
  obtain ⟨c, hc, hmax⟩ := classAt_source info d hi
  have hset : (fillPool info (classAt info d i)).members.toFinset = (classAt info d i).toFinset := by
    ext a
    simp [mem_fillPool]
  have htotal : (info c).memTotal = (classAt info d i).toFinset.sup fun c => (info c).memTotal := by
    apply le_antisymm
    · exact Finset.le_sup (f := fun c => (info c).memTotal) (List.mem_toFinset.2 (hmax.mem info))
    · exact Finset.sup_le fun a ha => hmax.le info (List.mem_toFinset.1 ha)
  simp only [MemPool.view, MemPool.total, hset, hc, Option.map_some, Option.getD_some, fillPool_isHost,
    classView, ← classAt_toFinset info d hi hb, htotal]

/-- The class of a backend is that of the first of its class. -/
theorem classView_leader {a b : β} {x : ℕ} (hx : d[x]? = some b) (ha : d[leader info d x]? = some a) :
    classView info d.toFinset b = classView info d.toFinset a := by
  have hclass : classOf info d.toFinset b = classOf info d.toFinset a := by
    have hlead : x = leader info d x ∨ sameIdentity info d x (leader info d x) = true :=
      (leader_eq_leader info d).1 (root_idem _ (sameIdentity_trans info d) (sameIdentity_symm info d) x).symm
    rcases hlead with h | hs
    · rw [← h, hx] at ha
      rw [Option.some.inj ha]
    · obtain ⟨b', a', hb', ha', hm⟩ := (sameIdentity_iff info d).1 hs
      obtain rfl : b = b' := Option.some.inj (hx.symm.trans hb')
      obtain rfl : a = a' := Option.some.inj (ha.symm.trans ha')
      refine Finset.filter_congr fun c _ => ?_
      constructor
      · rintro (rfl | hc)
        · exact Or.inr hm
        · exact Or.inr (identityMatch_trans hc hm)
      · rintro (rfl | hc)
        · exact Or.inr (identityMatch_symm hm)
        · exact Or.inr (identityMatch_trans hc (identityMatch_symm hm))
  rw [classView, classView, hclass]

theorem mem_views {v : Finset β × Bool × ℕ} : v ∈ (discretePools info d).map (·.view info) ↔
    ∃ b ∈ d, v = classView info d.toFinset b := by
  rw [discretePools_eq, List.map_map, List.mem_map]
  constructor
  · rintro ⟨i, hi, rfl⟩
    have hlt := ((mem_leaders info d).1 hi).1
    exact ⟨d[i], List.getElem_mem hlt, view_classAt info d hi (List.getElem?_eq_getElem hlt)⟩
  · rintro ⟨b, hb, rfl⟩
    obtain ⟨x, hx⟩ := List.mem_iff_getElem?.1 hb
    have hlead := leader_mem_leaders info d (List.getElem?_eq_some_iff.1 hx).1
    have hlt := ((mem_leaders info d).1 hlead).1
    refine ⟨leader info d x, hlead, ?_⟩
    rw [Function.comp_apply, view_classAt info d hlead (List.getElem?_eq_getElem hlt)]
    exact (classView_leader info d hx (List.getElem?_eq_getElem hlt)).symm

/-- No backend without an identity is listed twice. -/
def Distinct : Prop := ∀ b, 2 ≤ d.count b → identityMatch (info b) (info b) = true

/-- The leaders of different classes are different, and have no identity in common. -/
theorem leaders_inj (hd : Distinct info d) {i j : ℕ} (hi : i ∈ leaders info d) (hj : j ∈ leaders info d)
    {a b : β} (ha : d[i]? = some a) (hb : d[j]? = some b)
    (h : a = b ∨ identityMatch (info a) (info b) = true) : i = j := by
  by_contra hne
  have hself : ∀ k, k ∈ leaders info d → leader info d k = k := fun k hk => ((mem_leaders info d).1 hk).2
  have hm : identityMatch (info a) (info b) = true := by
    rcases h with rfl | h
    · refine hd a (List.duplicate_iff_two_le_count.1 (List.duplicate_iff_exists_distinct_get.2 ?_))
      obtain ⟨hil, hia⟩ := List.getElem?_eq_some_iff.1 ha
      obtain ⟨hjl, hja⟩ := List.getElem?_eq_some_iff.1 hb
      rcases lt_or_gt_of_ne hne with hlt | hlt
      · exact ⟨⟨i, hil⟩, ⟨j, hjl⟩, hlt, hia.symm, hja.symm⟩
      · exact ⟨⟨j, hjl⟩, ⟨i, hil⟩, hlt, hja.symm, hia.symm⟩
    · exact h
  have := (leader_eq_leader info d).2 (Or.inr ((sameIdentity_iff info d).2 ⟨a, b, ha, hb, hm⟩))
  rw [hself i hi, hself j hj] at this
  exact hne this

theorem nodup_views (hd : Distinct info d) : ((discretePools info d).map (·.view info)).Nodup := by
  rw [discretePools_eq, List.map_map]
  refine List.Nodup.map_on (fun i hi j hj hij => ?_) (nodup_leaders info d)
  have hil := ((mem_leaders info d).1 hi).1
  have hjl := ((mem_leaders info d).1 hj).1
  simp only [Function.comp_apply] at hij
  rw [view_classAt info d hi (List.getElem?_eq_getElem hil),
    view_classAt info d hj (List.getElem?_eq_getElem hjl)] at hij
  have hmem : d[i] ∈ classOf info d.toFinset d[j] := by
    rw [← (Prod.mk.inj hij).1, classOf, Finset.mem_filter]
    exact ⟨List.mem_toFinset.2 (List.getElem_mem hil), Or.inl rfl⟩
  exact leaders_inj info d hd hi hj (List.getElem?_eq_getElem hil) (List.getElem?_eq_getElem hjl)
    (Finset.mem_filter.1 hmem).2

/-- Two lists of the same backends have the same pools. -/
theorem views_perm {d d' : List β} (hd : Distinct info d) (hd' : Distinct info d')
    (hset : d.toFinset = d'.toFinset) :
    ((discretePools info d).map (·.view info)).Perm ((discretePools info d').map (·.view info)) := by
  rw [List.perm_ext_iff_of_nodup (nodup_views info d hd) (nodup_views info d' hd')]
  intro v
  rw [mem_views, mem_views, hset]
  have hmem : ∀ b, b ∈ d ↔ b ∈ d' := fun b => by rw [← List.mem_toFinset, hset, List.mem_toFinset]
  simp only [hmem]

end Views

section Order

/-- The order of `compare_discrete` where no difference overflows. -/
def before (x y : β) : Bool := decide ((info y).priority < (info x).priority ∨
  (info x).priority = (info y).priority ∧ (info x).deviceIndex ≤ (info y).deviceIndex)

theorem before_total (x y : β) : (before info x y || before info y x) = true := by
  simp only [before, Bool.or_eq_true, decide_eq_true_eq]
  omega

theorem before_trans (x y z : β) (h : before info x y = true) (h' : before info y z = true) :
    before info x z = true := by
  simp only [before, decide_eq_true_eq] at h h' ⊢
  omega

theorem before_refl (x : β) : before info x x = true := by simp [before]

variable (d : List β)

/-- The backends have places of their own in the order. -/
def Placed : Prop := ∀ a ∈ d, ∀ b ∈ d, before info a b = true → before info b a = true → a = b

/-- The first backend of each class. -/
def firsts : List β := (leaders info d).filterMap fun i => d[i]?

private theorem filterMap_getElem? : (List.range d.length).filterMap (fun i => d[i]?) = d := by
  induction d using List.reverseRecOn with
  | nil => rfl
  | append_singleton d a ih =>
    have hold : (List.range d.length).filterMap (fun i => (d ++ [a])[i]?) =
        (List.range d.length).filterMap fun i => d[i]? :=
      List.filterMap_congr fun i hi => List.getElem?_append_left (List.mem_range.1 hi)
    rw [List.length_append, List.length_singleton, List.range_succ, List.filterMap_append, hold, ih]
    simp

theorem firsts_sublist : (firsts info d).Sublist d := by
  have h := (List.filter_sublist (l := List.range d.length)
    (p := fun i => decide (leader info d i = i))).filterMap fun i => d[i]?
  rwa [filterMap_getElem?] at h

theorem mem_firsts {b : β} : b ∈ firsts info d ↔ ∃ i ∈ leaders info d, d[i]? = some b := by
  simp [firsts, List.mem_filterMap]

/-- A first backend comes before all that share its identity. -/
theorem mem_firsts_iff (hplaced : Placed info d) (hsorted : d.Pairwise fun x y => before info x y = true)
    {b : β} : b ∈ firsts info d ↔
      b ∈ d ∧ ∀ c ∈ d, identityMatch (info c) (info b) = true → before info b c = true := by
  have hbefore : ∀ {i j : ℕ} {a c : β}, i ≤ j → d[i]? = some a → d[j]? = some c → before info a c = true := by
    intro i j a c hij ha hc
    obtain ⟨hi, rfl⟩ := List.getElem?_eq_some_iff.1 ha
    obtain ⟨hj, rfl⟩ := List.getElem?_eq_some_iff.1 hc
    rcases lt_or_eq_of_le hij with hlt | rfl
    · exact List.pairwise_iff_getElem.1 hsorted i j hi hj hlt
    · exact before_refl info _
  rw [mem_firsts]
  constructor
  · rintro ⟨i, hi, hb⟩
    refine ⟨List.mem_of_getElem? hb, fun c hc hm => ?_⟩
    obtain ⟨x, hx⟩ := List.mem_iff_getElem?.1 hc
    have hlead : leader info d x = i := by
      rw [(leader_eq_leader info d).2 (Or.inr ((sameIdentity_iff info d).2 ⟨c, b, hx, hb, hm⟩))]
      exact ((mem_leaders info d).1 hi).2
    exact hbefore (hlead ▸ leader_le info d x) hb hx
  · rintro ⟨hb, hall⟩
    obtain ⟨x, hx⟩ := List.mem_iff_getElem?.1 hb
    have hxl := (List.getElem?_eq_some_iff.1 hx).1
    have hlead := leader_mem_leaders info d hxl
    refine ⟨leader info d x, hlead, ?_⟩
    rcases root_eq_or (sameIdentity info d) x with h | h
    · rwa [leader, h]
    · obtain ⟨b', a, hb', ha, hm⟩ := (sameIdentity_iff info d).1 h
      obtain rfl : b = b' := Option.some.inj (hx.symm.trans hb')
      have hab := hbefore (leader_le info d x) ha hx
      have hba := hall a (List.mem_of_getElem? ha) (identityMatch_symm hm)
      rw [hplaced b hb a (List.mem_of_getElem? ha) hba hab]
      exact ha

variable [DecidableEq β]

/-- The backends of a set that have the most memory, and come first of those. -/
def sourcesOf (S : Finset β) : Finset β :=
  S.filter fun c => ∀ a ∈ S, (info a).memTotal < (info c).memTotal ∨
    (info a).memTotal = (info c).memTotal ∧ before info c a = true

/-- The pool of a class with what it has available. -/
def fullView (S : Finset β) (b : β) : (Finset β × Bool × ℕ) × ℕ :=
  (classView info S b, (sourcesOf info (classOf info S b)).sup fun c => (info c).memAvailable)

theorem sourcesOf_classAt (hplaced : Placed info d) (hsorted : d.Pairwise fun x y => before info x y = true)
    {i : ℕ} {c : β} (hmax : FirstMax info (classAt info d i) c) :
    sourcesOf info (classAt info d i).toFinset = {c} := by
  have hsub := classAt_sublist info d i
  have hc := hmax.mem info
  have hfirst : ∀ a ∈ classAt info d i, (info a).memTotal < (info c).memTotal ∨
      (info a).memTotal = (info c).memTotal ∧ before info c a = true := by
    intro a ha
    have hpair := hsorted.sublist hsub
    obtain ⟨pre, post, heq, hpre, hpost⟩ := hmax
    rw [heq] at ha hpair
    rcases List.mem_append.1 ha with ha | ha
    · exact Or.inl (hpre a ha)
    · rcases List.mem_cons.1 ha with rfl | ha
      · exact Or.inr ⟨rfl, before_refl info a⟩
      · rcases lt_or_eq_of_le (hpost a ha) with h | h
        · exact Or.inl h
        · exact Or.inr ⟨h, (List.pairwise_cons.1 (List.pairwise_append.1 hpair).2.1).1 a ha⟩
  ext a
  simp only [sourcesOf, Finset.mem_filter, List.mem_toFinset, Finset.mem_singleton]
  constructor
  · rintro ⟨ha, hall⟩
    have h₁ := hall c hc
    have h₂ := hfirst a ha
    have hac : before info a c = true ∧ before info c a = true := by
      rcases h₁ with h₁ | ⟨e₁, h₁⟩ <;> rcases h₂ with h₂ | ⟨e₂, h₂⟩
      · omega
      · omega
      · omega
      · exact ⟨h₁, h₂⟩
    exact hplaced a (hsub.mem ha) c (hsub.mem hc) hac.1 hac.2
  · rintro rfl
    exact ⟨hc, hfirst⟩

theorem map_discretePools (hplaced : Placed info d)
    (hsorted : d.Pairwise fun x y => before info x y = true) :
    (discretePools info d).map (fun p => (p.view info, p.available info)) =
      (firsts info d).map (fullView info d.toFinset) := by
  rw [discretePools_eq, List.map_map, firsts, List.map_filterMap, ← List.filterMap_eq_map]
  refine List.filterMap_congr fun i hi => ?_
  have hlt := ((mem_leaders info d).1 hi).1
  have hget := List.getElem?_eq_getElem hlt
  obtain ⟨c, hc, hmax⟩ := classAt_source info d hi
  have hsrc := sourcesOf_classAt info d hplaced hsorted hmax
  rw [classAt_toFinset info d hi hget] at hsrc
  simp only [Function.comp_apply, hget, Option.map_some, fullView, view_classAt info d hi hget, hsrc,
    Finset.sup_singleton, MemPool.available, hc, Option.getD_some]

theorem nodup_firsts (hd : Distinct info d) : (firsts info d).Nodup := by
  rw [firsts, List.Nodup, List.pairwise_filterMap]
  refine (nodup_leaders info d).imp_of_mem fun {i j} hi hj hij a ha b hb hab => ?_
  exact hij (leaders_inj info d hd hi hj ha hb (Or.inl hab))

/-- Where the places are different, the pools come in one order. -/
theorem ordered_pools {d d' : List β} (hd : Distinct info d) (hd' : Distinct info d')
    (hset : d.toFinset = d'.toFinset) (hplaced : Placed info d)
    (hsorted : d.Pairwise fun x y => before info x y = true)
    (hsorted' : d'.Pairwise fun x y => before info x y = true) :
    (discretePools info d).map (fun p => (p.view info, p.available info)) =
      (discretePools info d').map fun p => (p.view info, p.available info) := by
  have hmem : ∀ b, b ∈ d ↔ b ∈ d' := fun b => by rw [← List.mem_toFinset, hset, List.mem_toFinset]
  have hplaced' : Placed info d' := fun a ha b hb => hplaced a ((hmem a).2 ha) b ((hmem b).2 hb)
  have hperm : (firsts info d).Perm (firsts info d') := by
    rw [List.perm_ext_iff_of_nodup (nodup_firsts info d hd) (nodup_firsts info d' hd')]
    intro b
    rw [mem_firsts_iff info d hplaced hsorted, mem_firsts_iff info d' hplaced' hsorted']
    simp only [hmem]
  have heq : firsts info d = firsts info d' := by
    refine hperm.eq_of_pairwise (fun a b ha hb => ?_) (hsorted.sublist (firsts_sublist info d))
      (hsorted'.sublist (firsts_sublist info d'))
    exact hplaced a ((firsts_sublist info d).mem ha) b ((hmem b).2 ((firsts_sublist info d').mem hb))
  rw [map_discretePools info d hplaced hsorted, map_discretePools info d' hplaced' hsorted', heq, hset]

end Order

end MemPools

/-! When the memory pools count every backend once and do not depend on the order of the list. -/

namespace MemPools

variable {β : Type} (info : β → Info)

section Scan

/-- The backends that are kept, as many as the array holds. -/
def kept (l : List (Option β)) : List β := (discreteOf info l).take (backendMax - 1)

/-- The kept backends as the pools are made of them. -/
def sorted (l : List (Option β)) : List β := sortDiscrete info (kept info l)

theorem sorted_perm (l : List (Option β)) : (sorted info l).Perm (kept info l) :=
  List.mergeSort_perm _ _

theorem mem_discreteOf {l : List (Option β)} {b : β} :
    b ∈ discreteOf info l ↔ some b ∈ l ∧ (info b).sharesHostMemory = false := by
  simp [discreteOf, List.reduceOption_mem_iff]

theorem mem_hostsOf {l : List (Option β)} {b : β} :
    b ∈ hostsOf info l ↔ some b ∈ l ∧ (info b).sharesHostMemory = true := by
  simp [hostsOf, List.reduceOption_mem_iff]

theorem discreteOf_of_mem_sorted {l : List (Option β)} {b : β} (h : b ∈ sorted info l) :
    b ∈ discreteOf info l := List.mem_of_mem_take ((sorted_perm info l).mem_iff.1 h)

variable [DecidableEq β]

/-- The pool of the backends with host memory. -/
def hostPool (hs : List β) : MemPool β := hs.foldl (addHost info) ⟨[], none, true⟩

/-- The first of a list that is a host, or else the first. -/
def firstHost (hs : List β) : Option β := (hs.find? fun b => (info b).isHost).or hs.head?

private theorem hostPool_facts (hs : List β) : (∀ b, b ∈ (hostPool info hs).members ↔ b ∈ hs) ∧
    (hostPool info hs).isHost = true ∧ (hostPool info hs).capacitySource = firstHost info hs := by
  induction hs using List.reverseRecOn with
  | nil => simp [hostPool, firstHost]
  | append_singleton hs b ih =>
    obtain ⟨hmem, hhost, hsrc⟩ := ih
    have hrun : hostPool info (hs ++ [b]) = addHost info (hostPool info hs) b := by
      simp [hostPool, List.foldl_append]
    rw [hrun]
    generalize hostPool info hs = p at hmem hhost hsrc
    have hmem' : ∀ c, c ∈ (addMember p b).members ↔ c ∈ hs ++ [b] := fun c => by
      rw [mem_addMember, hmem c]
      simp
    have hsrc' : (addMember p b).capacitySource = firstHost info hs := by simpa using hsrc
    simp only [addHost]
    rw [hsrc']
    cases hf : hs.find? fun c => (info c).isHost with
    | some c =>
      have hc : (info c).isHost = true := by simpa using List.find?_some hf
      rw [if_neg (by simp [firstHost, hf, hc])]
      exact ⟨hmem', by simpa using hhost, by simp [hsrc, firstHost, List.find?_append, hf]⟩
    | none =>
      cases hs with
      | nil =>
        rw [if_pos (by simp [firstHost])]
        refine ⟨hmem', by simpa using hhost, ?_⟩
        cases hb : (info b).isHost <;> simp [firstHost, hb]
      | cons c cs =>
        have hc : (info c).isHost = false := by
          have := List.find?_eq_none.1 hf c List.mem_cons_self
          simpa using this
        cases hb : (info b).isHost with
        | true =>
          rw [if_pos (by simp [firstHost, hf, hc])]
          refine ⟨hmem', by simpa using hhost, ?_⟩
          rw [firstHost, List.find?_append, hf]
          simp [hb]
        | false =>
          rw [if_neg (by simp [firstHost, hf])]
          refine ⟨hmem', by simpa using hhost, ?_⟩
          rw [hsrc', firstHost, firstHost, List.find?_append, hf]
          simp [hb]

theorem mem_hostPool {hs : List β} {b : β} : b ∈ (hostPool info hs).members ↔ b ∈ hs :=
  (hostPool_facts info hs).1 b

@[simp] theorem hostPool_isHost (hs : List β) : (hostPool info hs).isHost = true :=
  (hostPool_facts info hs).2.1

theorem hostPool_source (hs : List β) : (hostPool info hs).capacitySource = firstHost info hs :=
  (hostPool_facts info hs).2.2

theorem scan_spec (l : List (Option β)) : (scan info l).discrete = kept info l ∧
    (scan info l).host = if hostsOf info l = [] then none else some (hostPool info (hostsOf info l)) := by
  induction l using List.reverseRecOn with
  | nil => simp [scan, kept, discreteOf, hostsOf, List.reduceOption]
  | append_singleton l o ih =>
    obtain ⟨hd, hh⟩ := ih
    have hrun : scan info (l ++ [o]) = scanStep info (scan info l) o := by simp [scan, List.foldl_append]
    rw [hrun]
    generalize scan info l = s at hd hh
    cases o with
    | none =>
      have hhosts : hostsOf info (l ++ [none]) = hostsOf info l := by
        simp [hostsOf, List.reduceOption_append]
      have hdisc : discreteOf info (l ++ [none]) = discreteOf info l := by
        simp [discreteOf, List.reduceOption_append]
      rw [scanStep, kept, hdisc, hhosts]
      exact ⟨hd, hh⟩
    | some b =>
      cases hb : (info b).sharesHostMemory with
      | true =>
        have hhosts : hostsOf info (l ++ [some b]) = hostsOf info l ++ [b] := by
          simp [hostsOf, List.reduceOption_append, hb]
        have hdisc : discreteOf info (l ++ [some b]) = discreteOf info l := by
          simp [discreteOf, List.reduceOption_append, hb]
        rw [scanStep, if_pos hb, kept, hdisc, hhosts]
        refine ⟨hd, ?_⟩
        have hold : s.host.getD ⟨[], none, true⟩ = hostPool info (hostsOf info l) := by
          rw [hh]
          split_ifs with h
          · rw [h]
            rfl
          · rfl
        rw [if_neg (by simp)]
        simp only [hold]
        simp [hostPool, List.foldl_append]
      | false =>
        have hhosts : hostsOf info (l ++ [some b]) = hostsOf info l := by
          simp [hostsOf, List.reduceOption_append, hb]
        have hdisc : discreteOf info (l ++ [some b]) = discreteOf info l ++ [b] := by
          simp [discreteOf, List.reduceOption_append, hb]
        have hlen : s.discrete.length = min (backendMax - 1) (discreteOf info l).length := by
          rw [hd, kept, List.length_take]
        rw [scanStep, if_neg (by simp [hb]), kept, hdisc, hhosts]
        by_cases hlt : s.discrete.length < backendMax - 1
        · rw [if_pos hlt]
          refine ⟨?_, hh⟩
          have hall : (discreteOf info l).length < backendMax - 1 := by omega
          rw [List.take_of_length_le (by simp; omega)]
          simp only [hd, kept]
          rw [List.take_of_length_le (by omega)]
        · rw [if_neg hlt]
          refine ⟨?_, hh⟩
          rw [hd, kept, List.take_append_of_le_length (by omega)]

theorem memTopologyBuild_eq (l : List (Option β)) : memTopologyBuild info l =
    (if hostsOf info l = [] then [] else [hostPool info (hostsOf info l)]) ++
      discretePools info (sorted info l) := by
  obtain ⟨hd, hh⟩ := scan_spec info l
  simp only [memTopologyBuild, hd, hh, sorted]
  split_ifs <;> rfl

theorem mem_pools {l : List (Option β)} {p : MemPool β} : p ∈ memTopologyBuild info l ↔
    (hostsOf info l ≠ [] ∧ p = hostPool info (hostsOf info l)) ∨ p ∈ discretePools info (sorted info l) := by
  rw [memTopologyBuild_eq]
  by_cases h : hostsOf info l = [] <;> simp [h]

theorem discretePools_isHost {d : List β} {p : MemPool β} (h : p ∈ discretePools info d) :
    p.isHost = false := by
  rw [discretePools_eq] at h
  obtain ⟨i, -, rfl⟩ := List.mem_map.1 h
  exact fillPool_isHost info _

theorem poolsOf_build (l : List (Option β)) (b : β) : poolsOf (memTopologyBuild info l) b =
    (if b ∈ hostsOf info l then 1 else 0) + poolsOf (discretePools info (sorted info l)) b := by
  rw [memTopologyBuild_eq, poolsOf, List.filter_append, List.length_append]
  congr 1
  by_cases h : hostsOf info l = []
  · simp [h]
  · by_cases hb : b ∈ hostsOf info l <;> simp [h, hb, mem_hostPool]

theorem poolsOf_of_notMem {d : List β} {b : β} (h : b ∉ d) : poolsOf (discretePools info d) b = 0 := by
  rw [poolsOf, List.length_eq_zero_iff, List.filter_eq_nil_iff]
  intro p hp
  have := fun hb => h ((mem_discretePools info d).1 ⟨p, hp, hb⟩)
  simpa using this

end Scan

section Order

variable {l l' : List (Option β)}

theorem discreteOf_perm (h : l'.Perm l) : (discreteOf info l').Perm (discreteOf info l) :=
  (h.filterMap id).filter _

theorem hostsOf_perm (h : l'.Perm l) : (hostsOf info l').Perm (hostsOf info l) :=
  (h.filterMap id).filter _

theorem hostsOf_eq_nil (h : l'.Perm l) : hostsOf info l' = [] ↔ hostsOf info l = [] := by
  have hp := hostsOf_perm info h
  constructor
  · intro he
    rw [he] at hp
    exact List.nil_perm.1 hp
  · intro he
    rw [he] at hp
    exact List.perm_nil.1 hp

theorem firstHost_source {c : β} (h : firstHost info (hostsOf info l) = some c) : HostSource info l c := by
  unfold firstHost at h
  cases hf : (hostsOf info l).find? fun b => (info b).isHost with
  | some b =>
    rw [hf, Option.some_or] at h
    obtain rfl := Option.some.inj h
    exact ⟨List.mem_of_find?_eq_some hf, Or.inl (by simpa using List.find?_some hf)⟩
  | none =>
    rw [hf, Option.none_or] at h
    refine ⟨List.mem_of_mem_head? h, Or.inr fun a ha => ?_⟩
    simpa using List.find?_eq_none.1 hf a ha

theorem firstHost_isSome (h : hostsOf info l ≠ []) : ∃ c, firstHost info (hostsOf info l) = some c := by
  cases hh : hostsOf info l with
  | nil => exact absurd hh h
  | cons a as => cases hf : (a :: as).find? fun b => (info b).isHost <;> simp [firstHost, hf]

theorem intDiff_of_small {x y : ℤ} (h : x - y < 2 ^ 31) (h' : y - x < 2 ^ 31) : intDiff x y = x - y := by
  rw [intDiff, Int.bmod_eq_of_le] <;> omega

/-- Without overflow the comparison is that of the places. -/
theorem compareDiscrete_le (ht : Tieless info l) {a b : β} (ha : a ∈ discreteOf info l)
    (hb : b ∈ discreteOf info l) :
    decide (compareDiscrete (info a) (info b) ≤ 0) = before info a b := by
  obtain ⟨hp, hi⟩ := ht.small a ha b hb
  obtain ⟨hp', hi'⟩ := ht.small b hb a ha
  rw [before, decide_eq_decide, compareDiscrete]
  split_ifs with h
  · rw [intDiff_of_small hp' hp]
    omega
  · rw [intDiff_of_small hi hi']
    omega

theorem placed_sorted (ht : Tieless info l) : Placed info (sorted info l) := by
  intro a ha b hb hab hba
  simp only [before, decide_eq_true_eq] at hab hba
  exact ht.place a (discreteOf_of_mem_sorted info ha) b (discreteOf_of_mem_sorted info hb) (by omega)
    (by omega)

theorem Tieless.perm (ht : Tieless info l) (h : l'.Perm l) : Tieless info l' := by
  have hd := discreteOf_perm info h
  exact ⟨fun a ha b hb => ht.place a (hd.mem_iff.1 ha) b (hd.mem_iff.1 hb),
    fun a ha b hb => ht.small a (hd.mem_iff.1 ha) b (hd.mem_iff.1 hb)⟩

theorem memTopologyAvailable_congr {ps qs : List (MemPool β)}
    (h : (ps.map (·.available info)).Perm (qs.map (·.available info))) :
    memTopologyAvailable info ps = memTopologyAvailable info qs := by
  rw [memTopologyAvailable, memTopologyAvailable, h.sum_nat]

theorem sorted_pairwise (ht : Tieless info l) : (sorted info l).Pairwise fun x y => before info x y = true := by
  have hmap : sorted info l = (kept info l).mergeSort (before info) := by
    have h := List.map_mergeSort (f := id) (l := kept info l) (s := before info)
      (r := fun x y => decide (compareDiscrete (info x) (info y) ≤ 0)) fun a ha b hb =>
        compareDiscrete_le info ht (List.mem_of_mem_take ha) (List.mem_of_mem_take hb)
    simpa [sorted, sortDiscrete] using h
  rw [hmap]
  exact List.pairwise_mergeSort (before_trans info) (before_total info) _

variable [DecidableEq β]

/-- A backend for which there is room is kept, wherever it is listed. -/
theorem mem_sorted (hroom : ∀ b ∈ discreteOf info l, ((discreteOf info l).filter (· ≠ b)).length < backendMax - 1)
    (b : β) : b ∈ sorted info l ↔ b ∈ discreteOf info l := by
  refine ⟨discreteOf_of_mem_sorted info, fun hb => (sorted_perm info l).mem_iff.2 ?_⟩
  by_contra hnot
  have hlt := hroom b hb
  have hsub : (kept info l).Sublist ((discreteOf info l).filter (· ≠ b)) := by
    have h := (List.take_sublist (backendMax - 1) (discreteOf info l)).filter fun c => decide (c ≠ b)
    rwa [List.filter_eq_self.2 fun c hc => ?_] at h
    simp only [ne_eq, decide_eq_true_eq]
    rintro rfl
    exact hnot hc
  have hlen := hsub.length_le
  rw [kept, List.length_take] at hlen
  have hshort : (discreteOf info l).length < backendMax - 1 := by omega
  rw [kept, List.take_of_length_le hshort.le] at hnot
  exact hnot hb

theorem distinct_sorted (hnamed : ∀ b, 2 ≤ (discreteOf info l).count b → ∃ t ∈ (info b).identity, t ≠ []) :
    Distinct info (sorted info l) := by
  intro b hb
  rw [(sorted_perm info l).count_eq] at hb
  refine identityMatch_self.2 (hnamed b (hb.trans ?_))
  exact (List.take_sublist _ _).count_le b

theorem Listed.perm (hl : Listed info l) (h : l'.Perm l) : Listed info l' := by
  have hd := discreteOf_perm info h
  have hsrc : ∀ a, HostSource info l' a → HostSource info l a := by
    rintro a ⟨ha, hor⟩
    refine ⟨(hostsOf_perm info h).mem_iff.1 ha, hor.imp_right fun hall c hc => ?_⟩
    exact hall c ((hostsOf_perm info h).mem_iff.2 hc)
  refine ⟨fun b hb => hl.named b (hd.count_eq b ▸ hb), fun b hb => ?_, fun a b ha hb => ?_⟩
  · rw [(hd.filter _).length_eq]
    exact hl.room b (hd.mem_iff.1 hb)
  · exact hl.capacity a b (hsrc a ha) (hsrc b hb)

/-- The pool with host memory does not depend on the order of the list. -/
theorem hostPool_perm (hl : Listed info l) (h : l'.Perm l) (hne : hostsOf info l ≠ []) :
    ((hostPool info (hostsOf info l')).view info, (hostPool info (hostsOf info l')).available info) =
      ((hostPool info (hostsOf info l)).view info, (hostPool info (hostsOf info l)).available info) := by
  have hp := hostsOf_perm info h
  have hne' : hostsOf info l' ≠ [] := fun he => hne (by rw [he] at hp; exact List.nil_perm.1 hp)
  obtain ⟨c, hc⟩ := firstHost_isSome info hne
  obtain ⟨c', hc'⟩ := firstHost_isSome info hne'
  have hsrc' : HostSource info l c' := by
    obtain ⟨ha, hor⟩ := firstHost_source info hc'
    exact ⟨hp.mem_iff.1 ha, hor.imp_right fun hall c hc => hall c (hp.mem_iff.2 hc)⟩
  obtain ⟨ht, hav⟩ := hl.capacity c' c hsrc' (firstHost_source info hc)
  have hset : (hostPool info (hostsOf info l')).members.toFinset =
      (hostPool info (hostsOf info l)).members.toFinset := by
    ext b
    simp [mem_hostPool, hp.mem_iff]
  simp [MemPool.view, MemPool.total, MemPool.available, hostPool_source, hc, hc', ht, hav, hset]

theorem toFinset_sorted (hl : Listed info l) (h : l'.Perm l) :
    (sorted info l').toFinset = (sorted info l).toFinset := by
  ext b
  rw [List.mem_toFinset, List.mem_toFinset, mem_sorted info (hl.perm info h).room, mem_sorted info hl.room,
    (discreteOf_perm info h).mem_iff]

theorem memTopologyTotal_congr {ps qs : List (MemPool β)}
    (h : (ps.map (·.view info)).Perm (qs.map (·.view info))) :
    memTopologyTotal info ps = memTopologyTotal info qs := by
  have ht := h.map fun v => v.2.2
  rw [List.map_map, List.map_map] at ht
  rw [memTopologyTotal, memTopologyTotal]
  exact congrArg (· % 2 ^ 64) ht.sum_nat

theorem views_build_perm (hl : Listed info l) (h : l'.Perm l) :
    ((memTopologyBuild info l').map (·.view info)).Perm ((memTopologyBuild info l).map (·.view info)) := by
  rw [memTopologyBuild_eq, memTopologyBuild_eq, List.map_append, List.map_append]
  refine List.Perm.append ?_ (views_perm info (distinct_sorted info (hl.perm info h).named)
    (distinct_sorted info hl.named) (toFinset_sorted info hl h))
  by_cases hne : hostsOf info l = []
  · rw [if_pos hne, if_pos ((hostsOf_eq_nil info h).2 hne)]
  · rw [if_neg hne, if_neg fun he => hne ((hostsOf_eq_nil info h).1 he)]
    simp [(Prod.mk.inj (hostPool_perm info hl h hne)).1]

theorem available_build (hl : Listed info l) (h : l'.Perm l)
    (hsort : sortDiscrete info (scan info l').discrete = sortDiscrete info (scan info l).discrete) :
    (memTopologyBuild info l').map (·.available info) = (memTopologyBuild info l).map (·.available info) := by
  rw [(scan_spec info l').1, (scan_spec info l).1] at hsort
  rw [memTopologyBuild_eq, memTopologyBuild_eq, List.map_append, List.map_append, sorted, sorted, hsort]
  by_cases hne : hostsOf info l = []
  · rw [if_pos hne, if_pos ((hostsOf_eq_nil info h).2 hne)]
  · rw [if_neg hne, if_neg fun he => hne ((hostsOf_eq_nil info h).1 he)]
    simp [(Prod.mk.inj (hostPool_perm info hl h hne)).2]

theorem ordered_build (hl : Listed info l) (ht : Tieless info l) (h : l'.Perm l) :
    (memTopologyBuild info l').map (fun p => (p.view info, p.available info)) =
      (memTopologyBuild info l).map fun p => (p.view info, p.available info) := by
  have hdisc := ordered_pools info (distinct_sorted info (hl.perm info h).named)
    (distinct_sorted info hl.named) (toFinset_sorted info hl h) (placed_sorted info (ht.perm info h))
    (sorted_pairwise info (ht.perm info h)) (sorted_pairwise info ht)
  rw [memTopologyBuild_eq, memTopologyBuild_eq, List.map_append, List.map_append, hdisc]
  by_cases hne : hostsOf info l = []
  · rw [if_pos hne, if_pos ((hostsOf_eq_nil info h).2 hne)]
  · rw [if_neg hne, if_neg fun he => hne ((hostsOf_eq_nil info h).1 he)]
    rw [List.map_singleton, List.map_singleton, hostPool_perm info hl h hne]

end Order

section Grouped

variable {l : List (Option β)}

theorem hostsOf_of_notMem_discrete {b : β} (hb : some b ∈ l) (h : b ∉ discreteOf info l) :
    b ∈ hostsOf info l := by
  rw [mem_discreteOf] at h
  rw [mem_hostsOf]
  exact ⟨hb, by simpa [hb] using h⟩

theorem notMem_hostsOf {b : β} (h : b ∈ discreteOf info l) : b ∉ hostsOf info l := by
  rw [mem_discreteOf] at h
  rw [mem_hostsOf, h.2]
  simp

private theorem reduceOption_filter (q : Option β → Bool) :
    (l.filter q).reduceOption = l.reduceOption.filter fun b => q (some b) := by
  induction l with
  | nil => rfl
  | cons o l ih =>
    cases o with
    | none => cases hq : q none <;> simp [hq, ih]
    | some b => cases hq : q (some b) <;> simp [hq, ih]

private theorem discreteOf_filter (q : Option β → Bool) :
    discreteOf info (l.filter q) = (discreteOf info l).filter fun b => q (some b) := by
  rw [discreteOf, reduceOption_filter, List.filter_comm]
  rfl

private theorem hostsOf_filter (q : Option β → Bool) :
    hostsOf info (l.filter q) = (hostsOf info l).filter fun b => q (some b) := by
  rw [hostsOf, reduceOption_filter, List.filter_comm]
  rfl

private theorem discreteOf_append (l' : List (Option β)) :
    discreteOf info (l ++ l') = discreteOf info l ++ discreteOf info l' := by
  rw [discreteOf, List.reduceOption_append, List.filter_append]
  rfl

private theorem hostsOf_append (l' : List (Option β)) :
    hostsOf info (l ++ l') = hostsOf info l ++ hostsOf info l' := by
  rw [hostsOf, List.reduceOption_append, List.filter_append]
  rfl

variable [DecidableEq β]

theorem once_of_listed (hl : Listed info l) {b : β} (hb : some b ∈ l) :
    poolsOf (memTopologyBuild info l) b = 1 := by
  rw [poolsOf_build]
  by_cases hd : b ∈ discreteOf info l
  · have hs := (mem_sorted info hl.room b).2 hd
    rw [if_neg (notMem_hostsOf info hd), zero_add]
    cases hid : identityMatch (info b) (info b) with
    | true => exact poolsOf_named info _ hs hid
    | false =>
      rw [poolsOf_unnamed info _ hid]
      have hpos := List.count_pos_iff.2 hs
      by_contra hne
      have := distinct_sorted info hl.named b (by omega)
      rw [hid] at this
      cases this
  · rw [if_pos (hostsOf_of_notMem_discrete info hb hd),
      poolsOf_of_notMem info fun hs => hd (discreteOf_of_mem_sorted info hs)]

theorem share_of_listed (hl : Listed info l) {a b : β} (ha : a ∈ discreteOf info l)
    (hb : b ∈ discreteOf info l) : (∃ p ∈ memTopologyBuild info l, a ∈ p.members ∧ b ∈ p.members) ↔
      a = b ∨ identityMatch (info a) (info b) = true := by
  have hdisc := discretePools_share info (sorted info l) (a := a) (b := b)
  rw [mem_sorted info hl.room, mem_sorted info hl.room] at hdisc
  constructor
  · rintro ⟨p, hp, hap, hbp⟩
    rcases (mem_pools info).1 hp with ⟨-, rfl⟩ | hp
    · exact absurd ((mem_hostPool info).1 hap) (notMem_hostsOf info ha)
    · exact (hdisc.1 ⟨p, hp, hap, hbp⟩).2
  · intro h
    obtain ⟨p, hp, hab⟩ := hdisc.2 ⟨⟨ha, hb⟩, h⟩
    exact ⟨p, (mem_pools info).2 (Or.inr hp), hab⟩

theorem host_pool (l : List (Option β)) {p : MemPool β} (hp : p ∈ memTopologyBuild info l)
    (hhost : p.isHost = true) : (∀ b, b ∈ p.members ↔ b ∈ hostsOf info l) ∧
      ((∃ b ∈ hostsOf info l, (info b).isHost = true) →
        ∃ c ∈ p.capacitySource, (info c).isHost = true) := by
  rcases (mem_pools info).1 hp with ⟨hne, rfl⟩ | hp
  · refine ⟨fun b => mem_hostPool info, fun ⟨b, hb, hbh⟩ => ?_⟩
    obtain ⟨c, hc⟩ := firstHost_isSome info hne
    refine ⟨c, by rw [hostPool_source]; exact hc, ?_⟩
    rcases (firstHost_source info hc).2 with h | h
    · exact h
    · rw [h b hb] at hbh
      cases hbh
  · rw [discretePools_isHost info hp] at hhost
    cases hhost

theorem one_host (l : List (Option β)) : ((memTopologyBuild info l).filter fun p => p.isHost).length =
    if hostsOf info l = [] then 0 else 1 := by
  have hdisc : (discretePools info (sorted info l)).filter (fun p => p.isHost) = [] := by
    rw [List.filter_eq_nil_iff]
    intro p hp
    simp [discretePools_isHost info hp]
  rw [memTopologyBuild_eq, List.filter_append, hdisc, List.append_nil]
  split_ifs <;> simp

theorem Listed.grouped (hl : Listed info l) : Grouped info l where
  once _ hb := once_of_listed info hl hb
  share _ ha _ hb := share_of_listed info hl ha hb
  host _ hp hhost := host_pool info l hp hhost
  oneHost := one_host info l
  order _ h := ⟨views_build_perm info hl h, memTopologyTotal_congr info (views_build_perm info hl h)⟩
  ordered ht _ h := ordered_build info hl ht h
  available _ h hsort := by
    have hav := List.Perm.of_eq (available_build info hl h hsort)
    exact ⟨hav, memTopologyAvailable_congr info hav⟩

/-- A backend is in as many pools, however the list is ordered. -/
theorem Grouped.once_perm (hg : Grouped info l) {l' : List (Option β)} (h : l'.Perm l) {b : β}
    (hb : some b ∈ l) : poolsOf (memTopologyBuild info l') b = 1 := by
  have hview : ∀ ps : List (MemPool β),
      ((ps.map (·.view info)).filter fun v => decide (b ∈ v.1)).length = poolsOf ps b := by
    intro ps
    rw [List.filter_map, List.length_map, poolsOf]
    congr 2
    funext p
    simp [MemPool.view]
  rw [← hview, ((hg.order l' h).1.filter _).length_eq, hview]
  exact hg.once b hb

/-- The list with the places of one backend first. -/
def front (l : List (Option β)) (b : β) : List (Option β) :=
  l.filter (fun o => decide (o = some b)) ++ l.filter fun o => !decide (o = some b)

/-- The list with the places of one backend last. -/
def back (l : List (Option β)) (b : β) : List (Option β) :=
  l.filter (fun o => !decide (o = some b)) ++ l.filter fun o => decide (o = some b)

theorem front_perm (l : List (Option β)) (b : β) : (front l b).Perm l := List.filter_append_perm _ l

theorem back_perm (l : List (Option β)) (b : β) : (back l b).Perm l :=
  List.perm_append_comm.trans (front_perm l b)

theorem discreteOf_front (b : β) : discreteOf info (front l b) =
    List.replicate ((discreteOf info l).count b) b ++ (discreteOf info l).filter (· ≠ b) := by
  rw [front, discreteOf_append, discreteOf_filter, discreteOf_filter]
  congr 1
  · simp [← List.filter_eq]
  · simp

theorem discreteOf_back (b : β) : discreteOf info (back l b) =
    (discreteOf info l).filter (· ≠ b) ++ List.replicate ((discreteOf info l).count b) b := by
  rw [back, discreteOf_append, discreteOf_filter, discreteOf_filter]
  congr 1
  · simp
  · simp [← List.filter_eq]

theorem hostsOf_front (b : β) : hostsOf info (front l b) =
    List.replicate ((hostsOf info l).count b) b ++ (hostsOf info l).filter (· ≠ b) := by
  rw [front, hostsOf_append, hostsOf_filter, hostsOf_filter]
  congr 1
  · simp [← List.filter_eq]
  · simp

theorem Grouped.named (hg : Grouped info l) {b : β} (hb : 2 ≤ (discreteOf info l).count b) :
    ∃ t ∈ (info b).identity, t ≠ [] := by
  rw [← identityMatch_self]
  by_contra hid
  rw [Bool.not_eq_true] at hid
  have hmem : b ∈ discreteOf info l := List.count_pos_iff.1 (by omega)
  have hone := hg.once_perm info (front_perm l b) ((mem_discreteOf info).1 hmem).1
  have hkept : 2 ≤ (kept info (front l b)).count b := by
    rw [kept, discreteOf_front, List.take_append, List.count_append, List.take_replicate,
      List.count_replicate_self, backendMax]
    omega
  rw [poolsOf_build, poolsOf_unnamed info _ hid, (sorted_perm info _).count_eq] at hone
  omega

theorem Grouped.room (hg : Grouped info l) {b : β} (hb : b ∈ discreteOf info l) :
    ((discreteOf info l).filter (· ≠ b)).length < backendMax - 1 := by
  by_contra hlen
  have hone := hg.once_perm info (back_perm l b) ((mem_discreteOf info).1 hb).1
  have hnot : b ∉ sorted info (back l b) := by
    rw [(sorted_perm info _).mem_iff, kept, discreteOf_back, List.take_append_of_le_length (by omega)]
    intro h
    simpa using List.of_mem_filter (List.mem_of_mem_take h)
  have hhost : b ∉ hostsOf info (back l b) := by
    rw [(hostsOf_perm info (back_perm l b)).mem_iff]
    exact notMem_hostsOf info hb
  rw [poolsOf_build, if_neg hhost, poolsOf_of_notMem info hnot] at hone
  omega

theorem firstHost_front {a : β} (h : HostSource info l a) :
    firstHost info (hostsOf info (front l a)) = some a := by
  obtain ⟨ha, hor⟩ := h
  obtain ⟨n, hn⟩ := Nat.exists_eq_add_of_lt (List.count_pos_iff.2 ha)
  rw [hostsOf_front, hn, zero_add, List.replicate_succ, List.cons_append, firstHost]
  rcases hor with hhost | hnone
  · rw [List.find?_cons_of_pos (by simpa using hhost)]
    rfl
  · have hfind : (a :: (List.replicate n a ++ (hostsOf info l).filter (· ≠ a))).find?
        (fun b => (info b).isHost) = none := by
      rw [List.find?_eq_none]
      intro b hb
      have hbl : b ∈ hostsOf info l := by
        rcases List.mem_cons.1 hb with rfl | hb
        · exact ha
        · rcases List.mem_append.1 hb with hb | hb
          · rwa [List.eq_of_mem_replicate hb]
          · exact List.mem_of_mem_filter hb
      simp [hnone b hbl]
    rw [hfind]
    rfl

/-- Each backend that can give the capacity gives the same. -/
theorem Grouped.capacity (hg : Grouped info l) {a : β} (ha : HostSource info l a) :
    (info a).memTotal = (hostPool info (hostsOf info l)).total info ∧
      (info a).memAvailable = (hostPool info (hostsOf info l)).available info := by
  have hne : hostsOf info l ≠ [] := List.ne_nil_of_mem ha.1
  have hne' : hostsOf info (front l a) ≠ [] := fun h => hne ((hostsOf_eq_nil info (front_perm l a)).1 h)
  have hsrc := firstHost_front info ha
  have hdisc : discreteOf info (front l a) = discreteOf info l := by
    have hnot : a ∉ discreteOf info l := fun h => notMem_hostsOf info h ha.1
    rw [discreteOf_front, List.count_eq_zero_of_not_mem hnot, List.replicate_zero, List.nil_append,
      List.filter_eq_self]
    intro b hb
    simp only [ne_eq, decide_eq_true_eq]
    rintro rfl
    exact hnot hb
  have htotal : (hostPool info (hostsOf info (front l a))).total info = (info a).memTotal := by
    simp [MemPool.total, hostPool_source, hsrc]
  have hav : (hostPool info (hostsOf info (front l a))).available info = (info a).memAvailable := by
    simp [MemPool.available, hostPool_source, hsrc]
  constructor
  · have hin : (hostPool info (hostsOf info (front l a))).view info ∈
        (memTopologyBuild info (front l a)).map (·.view info) :=
      List.mem_map_of_mem ((mem_pools info).2 (Or.inl ⟨hne', rfl⟩))
    obtain ⟨p, hp, hview⟩ := List.mem_map.1 ((hg.order _ (front_perm l a)).1.mem_iff.1 hin)
    simp only [MemPool.view, Prod.mk.injEq, hostPool_isHost, htotal] at hview
    rcases (mem_pools info).1 hp with ⟨-, rfl⟩ | hp
    · exact hview.2.2.symm
    · rw [discretePools_isHost info hp] at hview
      cases hview.2.1
  · have hsort : sortDiscrete info (scan info (front l a)).discrete =
        sortDiscrete info (scan info l).discrete := by
      rw [(scan_spec info _).1, (scan_spec info _).1, kept, kept, hdisc]
    have hsum := (hg.available _ (front_perm l a) hsort).1.sum_nat
    rw [memTopologyBuild_eq, memTopologyBuild_eq, if_neg hne, if_neg hne', sorted, sorted, kept, kept,
      hdisc] at hsum
    simp only [List.singleton_append, List.map_cons, List.sum_cons, hav] at hsum
    omega

theorem Grouped.listed (hg : Grouped info l) : Listed info l where
  named _ hb := hg.named info hb
  room _ hb := hg.room info hb
  capacity a b ha hb := by
    obtain ⟨hat, haa⟩ := hg.capacity info ha
    obtain ⟨hbt, hba⟩ := hg.capacity info hb
    exact ⟨hat.trans hbt.symm, haa.trans hba.symm⟩

/-- The pools are right for the lists that name what they repeat, leave room and have one host capacity. -/
theorem memTopologyBuild_spec (info : β → Info) (l : List (Option β)) : Grouped info l ↔ Listed info l :=
  ⟨fun hg => hg.listed info, fun hl => hl.grouped info⟩

/-- A backend without host memory that has no identity. -/
def unnamed (_ : ℕ) : Info := ⟨false, false, 0, 0, none, 5, 3⟩

/-- It makes two pools when it is listed twice, and its memory counts twice. -/
theorem memTopologyBuild_twice :
    (memTopologyBuild unnamed [some 0, some 0]).map (·.members) = [[0], [0]] ∧
      memTopologyTotal unnamed (memTopologyBuild unnamed [some 0, some 0]) = 10 ∧
      ¬ Grouped unnamed [some 0, some 0] := by
  have hsorted : sorted unnamed [some 0, some 0] = [0, 0] := by
    have hperm : (sorted unnamed [some 0, some 0]).Perm (List.replicate 2 0) := sorted_perm unnamed _
    exact List.perm_replicate.1 hperm
  have hbuild : memTopologyBuild unnamed [some 0, some 0] = discretePools unnamed [0, 0] := by
    rw [memTopologyBuild_eq, hsorted]
    rfl
  refine ⟨?_, ?_, fun hg => ?_⟩
  · rw [hbuild]
    decide
  · rw [hbuild]
    decide
  · obtain ⟨t, ht, -⟩ := hg.named unnamed (b := 0) (by decide)
    cases ht

end Grouped

end MemPools

end Kappai
