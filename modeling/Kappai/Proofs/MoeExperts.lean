import Mathlib.Algebra.Field.Rat
import Kappai.Sanity.MoeHost

/-! The output of `moe_experts_batch` against the sum over the routed experts. -/

namespace Kappai

variable {B F : Type*} [DecidableEq B] [Field F]

section

variable (R : MoeRouting) (env : MoeBatchEnv B) (slots : ℕ → MoeSlotView)

/-- The layer's backend runs the whole union. -/
def residentRuns : Bool := env.capResident && env.expertsResident && residentTaken R env slots

/-- A device of the split runs an entry. -/
def pairOnDevice (p : MoePair) : Bool :=
  env.expertsResident && splitRuns R env slots (R.slotOf p)

/-- The batch goes by experts, not by tokens. -/
def byExperts : Bool := decide (1 < R.nRows) && env.matmulBatch

/-- The calls whose status is looked at go through. -/
def MoeBatchOk : Bool :=
  if byExperts R env then residentRuns R env slots || env.write
  else env.read && env.write &&
    (env.pooled || (R.routed.filter (pairOnHost R slots)).all fun p => env.host p.row p.k)

/-- An entry is run by a device whose calls go through, or by the host, which can read the input,
has the weights, and whose kernels go through. -/
def PairReached (p : MoePair) : Prop :=
  (byExperts R env = true ∧ (residentRuns R env slots = true ∨ pairOnDevice R env slots p = true)) ∨
    (env.read = true ∧ pairOnHost R slots p = true ∧ env.host p.row p.k = true)

/-- The entries left to `moe_experts_grouped`. -/
def pairLeft (p : MoePair) : Bool := !pairOnDevice R env slots p && pairOnHost R slots p

/-- The entries that `moe_experts_batch` runs where it returns `OK`. -/
def pairServed (p : MoePair) : Bool :=
  if byExperts R env then
    residentRuns R env slots || pairOnDevice R env slots p ||
      (env.read && (R.routed.filter (pairLeft R env slots)).all (fun q => env.host q.row q.k) &&
        pairLeft R env slots p)
  else pairOnHost R slots p && env.host p.row p.k

end

variable {R : MoeRouting} {env : MoeBatchEnv B} {slots : ℕ → MoeSlotView} {v : MoeValues F}

theorem MoeValues.total_filter_or {c c' : MoePair → Bool} (h : ∀ p, c p = true → c' p = false)
    (l : List MoePair) :
    v.total (l.filter c) + v.total (l.filter c') = v.total (l.filter fun p => c p || c' p) := by
  rw [← v.total_append]
  refine v.total_perm ?_
  induction l with
  | nil => exact .refl _
  | cons p l ih =>
    by_cases hc : c p = true
    · rw [List.filter_cons_of_pos hc, List.filter_cons_of_neg (by simp [h p hc]),
        List.filter_cons_of_pos (by simp [hc])]
      exact ih.cons p
    · by_cases hc' : c' p = true
      · rw [List.filter_cons_of_neg hc, List.filter_cons_of_pos hc',
          List.filter_cons_of_pos (by simp [hc'])]
        exact List.perm_middle.trans (ih.cons p)
      · rw [List.filter_cons_of_neg hc, List.filter_cons_of_neg hc',
          List.filter_cons_of_neg (by simp [hc, hc'])]
        exact ih

/-- All entries are served exactly if all are reached. -/
theorem served_iff_reached (hok : MoeBatchOk R env slots = true) :
    (∀ p ∈ R.routed, pairServed R env slots p = true) ↔
      ∀ p ∈ R.routed, PairReached R env slots p := by
  unfold pairServed PairReached
  by_cases hby : byExperts R env = true
  · simp only [hby, if_true, true_and, Bool.or_eq_true, Bool.and_eq_true, List.all_eq_true]
    constructor
    · intro h p hp
      rcases h p hp with hdev | ⟨⟨hread, hall⟩, hleft⟩
      · exact Or.inl hdev
      · have hon := hleft
        simp only [pairLeft, Bool.and_eq_true] at hon
        exact Or.inr ⟨hread, hon.2, hall p (List.mem_filter.mpr ⟨hp, hleft⟩)⟩
    · intro h p hp
      rcases h p hp with hdev | ⟨hread, hon, -⟩
      · exact Or.inl hdev
      · by_cases hdev : residentRuns R env slots = true ∨ pairOnDevice R env slots p = true
        · exact Or.inl hdev
        · rw [not_or, Bool.not_eq_true, Bool.not_eq_true] at hdev
          refine Or.inr ⟨⟨hread, fun q hq => ?_⟩, by simp [pairLeft, hdev.2, hon]⟩
          obtain ⟨hq, hleft⟩ := List.mem_filter.mp hq
          simp only [pairLeft, Bool.and_eq_true, Bool.not_eq_true'] at hleft
          rcases h q hq with (hres | hdevq) | ⟨-, -, hhost⟩
          · cases hdev.1.symm.trans hres
          · cases hleft.1.symm.trans hdevq
          · exact hhost
  · have hread : env.read = true := by
      rw [MoeBatchOk, if_neg hby] at hok
      simp only [Bool.and_eq_true] at hok
      exact hok.1.1
    simp [hby, hread]

/-- Weights that are one at a place of the router's output and zero elsewhere, and experts that
answer one. -/
def markedValues (p : MoePair) : MoeValues F where
  inter := 0
  activate := fun _ _ _ _ _ => 0
  experts := fun _ => ⟨false, fun _ _ => 0, fun _ _ => 0, fun _ _ => 1, 1, 1, 1⟩
  weight := fun row k => if row = p.row ∧ k = p.k then 1 else 0
  x := fun _ _ => 0

/-- An entry that is not served is missing from the output. -/
theorem served_of_total {c : MoePair → Bool}
    (h : ∀ v : MoeValues F, ∀ row < R.nRows, v.total (R.routed.filter c) row = R.expected v row)
    {p : MoePair} (hp : p ∈ R.routed) : c p = true := by
  by_contra hno
  have hrow := (R.mem_routed.mp hp).1
  have hsum := h (markedValues p) p.row hrow
  rw [← R.total_routed _ hrow] at hsum
  have hterm : ∀ q ∈ R.routed, q ≠ p → q.row = p.row → (markedValues (F := F) p).term q 0 = 0 := by
    intro q hq hne hqrow
    have hk : q.k ≠ p.k := fun hk => hne (R.routed_ext hq hp hqrow hk)
    simp [MoeValues.term, markedValues, hk]
  have hself : (markedValues (F := F) p).term p 0 = 1 := by
    simp [MoeValues.term, MoeValues.ffn, markedValues]
  have happly : ∀ l : List MoePair, (∀ q ∈ l, q ∈ R.routed) →
      (markedValues (F := F) p).total l p.row 0 = (l.count p : F) := by
    intro l hl
    induction l with
    | nil => rw [MoeValues.total_nil, List.count_nil, Nat.cast_zero]; rfl
    | cons q l ih =>
      rw [MoeValues.total_cons, Pi.add_apply, Pi.add_apply,
        ih fun q' hq' => hl q' (List.mem_cons_of_mem _ hq'), List.count_cons]
      by_cases hq : q = p
      · subst hq
        simp [Pi.single_eq_same, hself, add_comm]
      · by_cases hqrow : q.row = p.row
        · rw [← hqrow, Pi.single_eq_same, hterm q (hl q List.mem_cons_self) hq hqrow]
          simp [hq]
        · rw [Pi.single_eq_of_ne (Ne.symm hqrow)]
          simp [hq]
  have hat := congrFun hsum 0
  rw [happly _ fun q hq => (List.mem_filter.mp hq).1, happly _ fun q hq => hq,
    List.count_eq_zero.mpr fun hmem => hno (List.mem_filter.mp hmem).2,
    List.count_eq_one_of_mem R.routed_nodup hp] at hat
  simp at hat

variable [DecidableEq F]

/-- The devices, and the host for what is left. -/
theorem splitThenGrouped_eq (hplaced : Placed R slots) (hno : residentRuns R env slots = false)
    (hby : byExperts R env = true) :
    let s : MoeSplit B F :=
      if env.expertsResident then moeExpertsBatchSplit R env slots v
      else ⟨fun _ => none, R.union.count, fun _ _ => 0⟩
    moeExpertsGrouped R env slots v s.count s.out =
      v.total (R.routed.filter (pairServed R env slots)) := by
  intro s
  have hs : (∀ i < R.nUnion, s.count (R.orderAt i) =
        if env.expertsResident && splitRuns R env slots i then 0
        else R.union.count (R.orderAt i)) ∧
      s.out = v.total (R.routed.filter (pairOnDevice R env slots)) := by
    unfold pairOnDevice
    cases hres : env.expertsResident with
    | true =>
      have hsplit : s = moeExpertsBatchSplit R env slots v := if_pos hres
      rw [hsplit]
      simpa only [Bool.true_and] using moeExpertsBatchSplit_spec env v hplaced
    | false =>
      have hsplit : s = ⟨fun _ => none, R.union.count, fun _ _ => 0⟩ := if_neg (by simp [hres])
      rw [hsplit]
      refine ⟨fun i _ => rfl, ?_⟩
      rw [List.filter_eq_nil_iff.mpr fun p _ => by simp]
      rfl
  obtain ⟨hcount, hout⟩ := hs
  have htakes : ∀ p ∈ R.routed, groupedTakes R slots s.count (R.slotOf p) = pairLeft R env slots p := by
    intro p hp
    have hlt := R.slotOf_lt hp
    have hpos := R.count_pos hlt
    unfold groupedTakes pairLeft pairOnDevice pairOnHost
    rw [hcount _ hlt]
    cases env.expertsResident && splitRuns R env slots (R.slotOf p) with
    | true => simp
    | false => simp [hpos]
  have hkeep : ∀ i < R.nUnion, s.count (R.orderAt i) = 0 ∨
      s.count (R.orderAt i) = R.union.count (R.orderAt i) := by
    intro i hi
    rw [hcount i hi]
    split_ifs
    · exact Or.inl rfl
    · exact Or.inr rfl
  rw [moeExpertsGrouped_eq hplaced hkeep, List.filter_congr htakes, hout]
  have hserved : ∀ p, pairServed R env slots p = (pairOnDevice R env slots p ||
      (env.read && (R.routed.filter (pairLeft R env slots)).all (fun q => env.host q.row q.k) &&
        pairLeft R env slots p)) := by
    intro p
    rw [pairServed, if_pos hby, hno, Bool.false_or]
  simp only [funext hserved]
  split_ifs with hgroup
  · rw [MoeValues.total_filter_or fun p hp => by simp [pairLeft, hp]]
    simp only [hgroup, Bool.true_and]
  · rw [Bool.not_eq_true] at hgroup
    simp only [hgroup, Bool.false_and, Bool.or_false]

/-- `moe_experts_batch` runs each of the entries it serves once. -/
theorem moeExpertsBatch_eq (hplaced : Placed R slots) :
    moeExpertsBatch R env slots v =
      if MoeBatchOk R env slots then some (v.total (R.routed.filter (pairServed R env slots)))
      else none := by
  unfold moeExpertsBatch MoeBatchOk
  have hif : (1 < R.nRows ∧ env.matmulBatch = true) ↔ byExperts R env = true := by
    simp [byExperts]
  by_cases hby : byExperts R env = true
  · rw [if_pos (hif.mpr hby), if_pos hby, residentGrouped_eq hplaced]
    cases hres : residentRuns R env slots with
    | true =>
      have hcap := hres
      simp only [residentRuns, Bool.and_eq_true] at hcap
      have hall : ∀ p ∈ R.routed, pairServed R env slots p = true := fun p _ => by
        simp [pairServed, hby, hres]
      rw [List.filter_eq_self.mpr hall]
      simp [hcap.1, hcap.2]
    | false =>
      have hnone : (if (env.capResident && env.expertsResident) = true then
          if residentTaken R env slots = true then some (v.total R.routed) else none
          else none) = none := by
        simp only [residentRuns, Bool.and_eq_false_iff] at hres
        split_ifs with hcap htaken
        · simp only [Bool.and_eq_true] at hcap
          simp [hcap, htaken] at hres
        · rfl
        · rfl
      rw [hnone]
      dsimp only
      rw [splitThenGrouped_eq hplaced hres hby, Bool.false_or]
  · rw [if_neg (mt hif.mp hby), if_neg hby]
    have hserved : ∀ p ∈ R.routed, pairServed R env slots p =
        (pairOnHost R slots p && env.host p.row p.k) := by
      intro p _
      rw [pairServed, if_neg hby]
    rw [List.filter_congr hserved]
    cases env.read with
    | false => rfl
    | true =>
      cases env.pooled with
      | true =>
        rw [moeExpertsPooled_eq hplaced]
        cases env.write with
        | true => rfl
        | false => rfl
      | false =>
        rw [moeExpertsTokens_eq hplaced]
        cases hall : (R.routed.filter (pairOnHost R slots)).all fun p => env.host p.row p.k with
        | true =>
          have hhost : R.routed.filter (fun p => pairOnHost R slots p && env.host p.row p.k) =
              R.routed.filter (pairOnHost R slots) := by
            refine List.filter_congr fun p hp => ?_
            cases hon : pairOnHost R slots p with
            | false => rfl
            | true => exact List.all_eq_true.mp hall p (List.mem_filter.mpr ⟨hp, hon⟩)
          rw [hhost]
          cases env.write with
          | true => rfl
          | false => rfl
        | false =>
          cases env.write with
          | true => rfl
          | false => rfl

/-- The lists of the union hold every routed entry once. What `moe_experts_batch` writes, where it
returns `OK`, is the sum over the routed experts for all weights, experts and inputs exactly if
every entry is reached. -/
theorem moeExpertsBatch_iff (F : Type*) [Field F] [DecidableEq F] (R : MoeRouting)
    (env : MoeBatchEnv B) (slots : ℕ → MoeSlotView) (hplaced : Placed R slots) :
    ((List.range R.nUnion).flatMap R.entriesAt).Perm R.routed ∧
      ((∀ (v : MoeValues F) (out : ℕ → ℕ → F), moeExpertsBatch R env slots v = some out →
          ∀ row < R.nRows, out row = R.expected v row) ↔
        (MoeBatchOk R env slots = true → ∀ p ∈ R.routed, PairReached R env slots p)) := by
  refine ⟨R.entriesAt_perm, ?_⟩
  constructor
  · intro h hok
    rw [← served_iff_reached hok]
    intro p hp
    refine served_of_total (F := F) (fun v row hrow => h v _ ?_ row hrow) hp
    rw [moeExpertsBatch_eq hplaced, if_pos hok]
  · intro h v out hout row hrow
    rw [moeExpertsBatch_eq hplaced] at hout
    split_ifs at hout with hok
    rw [← Option.some.inj hout, List.filter_eq_self.mpr ((served_iff_reached hok).mpr (h hok)),
      R.total_routed v hrow]

/-- Two rows, routed to one expert that a tier holds. -/
def twoTokens : MoeRouting := ⟨2, 1, fun _ _ => some 3⟩

def tierView : MoeSlotView := ⟨some 3, none, some 3⟩

/-- A layer on the host whose experts are on one device. -/
def splitEnv (device : Bool) : MoeBatchEnv Unit where
  a := ()
  matmulBatch := true
  capResident := false
  expertsResident := true
  ownBuffers := false
  pooled := false
  owner := fun _ => ()
  residentOk := false
  splitRead := true
  device := fun _ => device
  read := true
  host := fun _ _ => true
  write := true

theorem moeExpertsBatch_device :
    MoeBatchOk twoTokens (splitEnv true) (fun _ => tierView) = true ∧
      ∀ (v : MoeValues ℚ) (out : ℕ → ℕ → ℚ),
        moeExpertsBatch twoTokens (splitEnv true) (fun _ => tierView) v = some out →
          ∀ row < 2, out row = twoTokens.expected v row := by
  have hids : twoTokens.sortedIds = [3] := by decide
  have hplaced : Placed twoTokens fun _ => tierView := by
    intro i e he
    rw [hids] at he
    obtain rfl : e = 3 := List.mem_singleton.mp (List.mem_of_getElem? he)
    exact Or.inr ⟨rfl, by simp [tierView], by simp [tierView]⟩
  have hreached : ∀ p ∈ twoTokens.routed,
      pairOnDevice twoTokens (splitEnv true) (fun _ => tierView) p = true := by decide
  exact ⟨by decide, (moeExpertsBatch_iff ℚ twoTokens (splitEnv true) _ hplaced).2.mpr
    fun _ p hp => Or.inl ⟨by decide, Or.inr (hreached p hp)⟩⟩

/-- The device fails, the experts are not in host memory, and the batch returns `OK` without them. -/
theorem moeExpertsBatch_device_fails :
    let v : MoeValues ℚ := markedValues ⟨0, 0, 3⟩
    (moeExpertsBatch twoTokens (splitEnv false) (fun _ => tierView) v).map (fun out => out 0 0) =
        some 0 ∧
      twoTokens.expected v 0 0 = 1 := by
  decide +kernel

end Kappai
