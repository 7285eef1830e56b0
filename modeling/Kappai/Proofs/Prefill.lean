import Kappai.Sanity.Reuse

/-! A prompt prefilled over a reused cache leaves exactly the prompt in the cache. The gap
before each planned chunk is fed, the chunk itself is only counted, and the rest of the
prompt follows. -/

namespace Kappai

variable (M : Model) (E : Env M)

theorem fedPositions_append (ps qs : List Pass) :
    fedPositions (ps ++ qs) = fedPositions ps ++ fedPositions qs := List.flatMap_append

/-- The passes of `c'` are those of `c` and passes over exactly the positions `l`. -/
def FedAt (c c' : Core) (l : List ℕ) : Prop :=
  ∃ ps, c'.passes = c.passes ++ ps ∧ fedPositions ps = l

theorem FedAt.nil (c : Core) : FedAt c c [] := ⟨[], by simp, rfl⟩

theorem FedAt.trans {a b c : Core} {l k : List ℕ} (h1 : FedAt a b l) (h2 : FedAt b c k) :
    FedAt a c (l ++ k) := by
  obtain ⟨ps, hps, rfl⟩ := h1
  obtain ⟨qs, hqs, rfl⟩ := h2
  exact ⟨ps ++ qs, by rw [hqs, hps, List.append_assoc], fedPositions_append ps qs⟩

theorem FedAt.forward {c : Core} (out : PassOutcome) (cached tokens : List Token) (pos : ℕ)
    (want : Bool) :
    FedAt c (c.forward M out cached tokens pos want).1 (List.range' pos tokens.length) :=
  ⟨_, Core.forward_passes M c out cached tokens pos want, by simp [fedPositions]⟩

/-- A batch that succeeds ran over each of its positions once. -/
theorem contextFeedTokensBatch_fedAt {c : Core} (hc : c.fedIds.n ≤ c.nPos) {tokens : List Token}
    {rc : ℕ} (hok : (contextFeedTokensBatch M E c tokens).2 = .ok rc) :
    FedAt c (contextFeedTokensBatch M E c tokens).1 (List.range' c.nPos tokens.length) := by
  have rule : ChunkRule M tokens
      (fun c' off => c'.nPos = c.nPos ∧ FedAt c c' (List.range' c.nPos off)) (fun _ _ => True) :=
    { leave := fun _ _ _ _ => trivial
      ok := fun chunk c' off batch want _ h _ _ _ => by
        refine ⟨(Core.forward_nPos ..).trans h.1, ?_⟩
        have hpass := h.2.trans (FedAt.forward M (c := c'.tick.tick) .ok
          (c'.fedIds.ids ++ tokens.take off) batch (c'.nPos + off) want)
        rw [h.1] at hpass ⊢
        rwa [List.range'_append_1] at hpass
      fail := fun _ _ _ _ _ _ _ _ _ _ _ => trivial }
  rcases rule.contextFeedTokensBatch E hc ⟨rfl, FedAt.nil c⟩ with
    ⟨hsame, rfl | ⟨e, he⟩⟩ | ⟨-, c', _, ⟨-, h⟩, heq⟩ | ⟨c', off, e, -, -, heq⟩
  · rw [hsame]
    exact FedAt.nil c
  · rw [he] at hok
    cases hok
  · rw [heq]
    exact h
  · rw [heq] at hok
    cases hok

/-- The positions from `a` up to `n` that no chunk of `plan` covers. -/
def uncovered (plan : List KvShiftChunk) (a n : ℕ) : List ℕ :=
  (List.range' a (n - a)).filter fun p => decide (∀ m ∈ plan, ¬ m.Covers p)

theorem uncovered_nil (a n : ℕ) : uncovered [] a n = List.range' a (n - a) := by
  simp [uncovered]

/-- The gap before the first chunk, then what the other chunks leave. -/
theorem uncovered_cons {fed ids : List Token} {a : ℕ} {m : KvShiftChunk}
    {plan : List KvShiftChunk} (h : PlanSound fed ids a (m :: plan)) :
    uncovered (m :: plan) a ids.length =
      List.range' a (m.dst - a) ++ uncovered plan (m.dst + m.n) ids.length := by
  have habove := h.above m (by simp)
  have hlast := h.sparesLast m (by simp)
  have hnext : ∀ b ∈ plan, m.dst + m.n ≤ b.dst := fun b hb =>
    ((List.pairwise_cons.1 h.ascending).1 b hb).2
  have hsplit : List.range' a (ids.length - a) = List.range' a (m.dst - a) ++
      (List.range' m.dst m.n ++ List.range' (m.dst + m.n) (ids.length - (m.dst + m.n))) := by
    have hdst : m.dst = a + (m.dst - a) := by omega
    rw [List.range'_append_1]
    nth_rewrite 2 [hdst]
    rw [List.range'_append_1]
    congr 1
    omega
  unfold uncovered
  rw [hsplit, List.filter_append, List.filter_append]
  congr 1
  · refine List.filter_eq_self.2 fun p hp => decide_eq_true fun b hb hc => ?_
    have hp' := List.mem_range'_1.1 hp
    have hlow := hc.1
    rcases List.mem_cons.1 hb with rfl | hb
    · omega
    · have := hnext b hb
      omega
  · have hnone : (List.range' m.dst m.n).filter
        (fun p => decide (∀ b ∈ m :: plan, ¬ b.Covers p)) = [] := by
      refine List.filter_eq_nil_iff.2 fun p hp hfree => ?_
      have hp' := List.mem_range'_1.1 hp
      exact of_decide_eq_true hfree m (by simp) ⟨hp'.1, hp'.2⟩
    rw [hnone, List.nil_append]
    refine List.filter_congr fun p hp => decide_eq_decide.2 ⟨fun h b hb => h b (by simp [hb]), ?_⟩
    intro hfree b hb hc
    rcases List.mem_cons.1 hb with rfl | hb
    · have hp' := List.mem_range'_1.1 hp
      have hhigh := hc.2
      omega
    · exact hfree b hb hc

theorem PlanSound.tail {fed ids : List Token} {a : ℕ} {m : KvShiftChunk}
    {plan : List KvShiftChunk} (h : PlanSound fed ids a (m :: plan)) :
    PlanSound fed ids (m.dst + m.n) plan where
  downward b hb := h.downward b (by simp [hb])
  ascending := (List.pairwise_cons.1 h.ascending).2
  above b hb := ((List.pairwise_cons.1 h.ascending).1 b hb).2
  inCache b hb := h.inCache b (by simp [hb])
  sparesLast b hb := h.sparesLast b (by simp [hb])
  agree b hb := h.agree b (by simp [hb])

/-- The state between two chunks of the plan: the cache holds the prompt up to `nPos` and
the chunks still to come are in place. -/
structure Between (S : ℕ) (fed ids : List Token) (c : Core) (plan : List KvShiftChunk) :
    Prop where
  holds : c.Holds S (ids.take c.nPos)
  sound : PlanSound fed ids c.nPos plan
  planned : c.Planned S ids plan

variable {M} {S : ℕ}

theorem Between.nPos_le {fed ids : List Token} {c : Core} {plan : List KvShiftChunk}
    (h : Between S fed ids c plan) : c.nPos ≤ ids.length := by
  have := h.holds.nPos
  rw [List.length_take] at this
  omega

/-- Feeding the next `n` tokens of the prompt, or the first `k` of them, leaves the chunks
above them alone. -/
theorem Between.fed {fed ids : List Token} {c c' : Core} {plan : List KvShiftChunk} {n k : ℕ}
    (hS : S ≤ M.nStores) (h : Between S fed ids c plan)
    (hfed : Fed M c c' ((ids.drop c.nPos).take n) k) (hn : ∀ m ∈ plan, c.nPos + n ≤ m.dst) :
    c'.Holds S (ids.take c'.nPos) ∧ c'.Planned S ids plan := by
  have hk : k ≤ n := hfed.le.trans (by rw [List.length_take]; exact Nat.min_le_left _ _)
  have hnext := h.holds.fed hS hfed
  rw [List.take_take, Nat.min_eq_left hk, ← List.take_add] at hnext
  refine ⟨by rw [hfed.nPos]; exact hnext, fun m hm l hl t ht => ?_⟩
  have hdst := hn m hm
  have hlen : ((ids.drop c.nPos).take n).length ≤ n := by
    rw [List.length_take]; exact Nat.min_le_left _ _
  rw [hfed.above l _ (by omega)]
  exact h.planned m hm l hl t ht

/-- Counting the tokens of a chunk in place. -/
theorem Between.counted {fed ids : List Token} {c : Core} {m : KvShiftChunk}
    {plan : List KvShiftChunk} (h : Between S fed ids c (m :: plan)) (hnPos : c.nPos = m.dst) :
    Between S fed ids { c with
      fedIds := c.fedIds.appendAll ((ids.drop m.dst).take m.n)
      nPos := m.dst + m.n } plan := by
  have hlast := h.sound.sparesLast m (by simp)
  refine ⟨⟨?_, ?_, fun l hl p hp => ?_⟩, h.sound.tail, fun b hb => h.planned b (by simp [hb])⟩
  · simp only
    rw [FedIds.ids_appendAll, h.holds.fedIds, hnPos, List.take_add]
  · simp only [List.length_take]
    omega
  · simp only [List.length_take] at hp ⊢
    rw [List.getElem?_take_of_lt (by omega)]
    by_cases hold : p < m.dst
    · have := h.holds.rows l hl p (by rw [List.length_take]; omega)
      rwa [List.getElem?_take_of_lt (by omega)] at this
    · have := h.planned m (by simp) l hl (p - m.dst) (by omega)
      rwa [Nat.add_sub_cancel' (by omega)] at this

theorem Between.le_dst {fed ids : List Token} {c : Core} {m : KvShiftChunk}
    {plan : List KvShiftChunk} (h : Between S fed ids c (m :: plan)) :
    ∀ b ∈ m :: plan, m.dst ≤ b.dst := fun b hb => by
  rcases List.mem_cons.1 hb with rfl | hb
  · exact le_rfl
  · have := ((List.pairwise_cons.1 h.sound.ascending).1 b hb).2
    omega

/-- The gap before the next chunk, fed or empty. -/
theorem Between.gap (hS : S ≤ M.nStores) {fed ids : List Token} {c : Core} {m : KvShiftChunk}
    {plan : List KvShiftChunk} (h : Between S fed ids c (m :: plan)) :
    let gap := m.dst - c.nPos
    let r := if 0 < gap then contextFeedTokensBatch M E c ((ids.drop c.nPos).take gap)
      else (c, .ok 0)
    c.nPos ≤ r.1.nPos ∧ r.1.Holds S (ids.take r.1.nPos) ∧ r.1.Planned S ids (m :: plan) ∧
      ((∃ rc, r.2 = .ok rc) → r.1.nPos = m.dst ∧ FedAt c r.1 (List.range' c.nPos gap)) := by
  have habove := h.sound.above m (by simp)
  have hlast := h.sound.sparesLast m (by simp)
  intro gap
  have hgap : c.nPos + gap = m.dst := Nat.add_sub_cancel' habove
  by_cases hpos : 0 < gap
  · simp only [if_pos hpos]
    obtain ⟨k, hfed, hall⟩ := contextFeedTokensBatch_fed M E c h.holds.n_eq.le
      ((ids.drop c.nPos).take gap)
    have hlen : ((ids.drop c.nPos).take gap).length = gap := by
      rw [List.length_take, List.length_drop]
      omega
    obtain ⟨hholds, hplanned⟩ := h.fed hS hfed fun b hb => by rw [hgap]; exact h.le_dst b hb
    refine ⟨by rw [hfed.nPos]; omega, hholds, hplanned, fun ⟨rc, hrc⟩ => ?_⟩
    have hat := contextFeedTokensBatch_fedAt M E h.holds.n_eq.le hrc
    rw [hlen] at hat
    exact ⟨by rw [hfed.nPos, hall ⟨rc, hrc⟩, hlen, hgap], hat⟩
  · simp only [if_neg hpos]
    have h0 : gap = 0 := by omega
    exact ⟨le_rfl, h.holds, h.planned, fun _ => ⟨by omega, by rw [h0]; exact FedAt.nil c⟩⟩

/-- The chunk loop keeps the cache a prefix of the prompt, also when it breaks off. When it
comes through, it ran over the positions of the gaps. -/
theorem prefillPlanned_spec (hS : S ≤ M.nStores) {fed ids : List Token} {base : ℕ}
    (plan : List KvShiftChunk) (c : Core) (hbase : base ≤ c.nPos) (h : Between S fed ids c plan) :
    let r := prefillPlanned M E (ids.drop base) base plan c
    c.nPos ≤ r.1.nPos ∧ r.1.nPos ≤ ids.length ∧ r.1.Holds S (ids.take r.1.nPos) ∧
      (r.2 = none → ∃ l, FedAt c r.1 l ∧
        l ++ List.range' r.1.nPos (ids.length - r.1.nPos) = uncovered plan c.nPos ids.length) := by
  induction plan generalizing c with
  | nil =>
    exact ⟨le_rfl, h.nPos_le, h.holds, fun _ =>
      ⟨[], FedAt.nil c, by rw [List.nil_append, uncovered_nil]; rfl⟩⟩
  | cons m plan ih =>
    have habove := h.sound.above m (by simp)
    have hdrop : (ids.drop base).drop (c.nPos - base) = ids.drop c.nPos := by
      rw [List.drop_drop, Nat.add_sub_cancel' hbase]
    have hdrop' : (ids.drop base).drop (m.dst - base) = ids.drop m.dst := by
      rw [List.drop_drop, Nat.add_sub_cancel' (hbase.trans habove)]
    have hgap := h.gap E hS
    simp only [prefillPlanned, hdrop, hdrop']
    simp only at hgap
    generalize (if 0 < m.dst - c.nPos then
      contextFeedTokensBatch M E c ((ids.drop c.nPos).take (m.dst - c.nPos)) else (c, .ok 0)) = r
      at hgap ⊢
    obtain ⟨c₁, st⟩ := r
    obtain ⟨hup, hholds, hplanned, hdone⟩ := hgap
    simp only at hup hholds hplanned hdone
    cases st with
    | error e =>
      have hle := hholds.nPos
      rw [List.length_take] at hle
      exact ⟨hup, by simp only; omega, hholds, fun hnone => by cases hnone⟩
    | ok rc =>
      obtain ⟨hdst, hat⟩ := hdone ⟨rc, rfl⟩
      have hsound : PlanSound fed ids c₁.nPos (m :: plan) :=
        { h.sound with above := fun b hb => by rw [hdst]; exact h.le_dst b hb }
      have hcount := (Between.mk hholds hsound hplanned).counted hdst
      obtain ⟨hup', hend, hlast, hpositions⟩ := ih _ (by simp only; omega) hcount
      simp only at hup' ⊢
      refine ⟨by omega, hend, hlast, fun hnone => ?_⟩
      obtain ⟨l, hl, heq⟩ := hpositions hnone
      refine ⟨List.range' c.nPos (m.dst - c.nPos) ++ l, hat.trans hl, ?_⟩
      rw [List.append_assoc, heq, uncovered_cons h.sound]

/-- `context_prefill_with_plan` over the rest of the prompt. -/
theorem contextPrefillWithPlan_spec (hS : S ≤ M.nStores) {fed ids : List Token} {c : Core}
    {plan : List KvShiftChunk} (h : Between S fed ids c plan) :
    let r := contextPrefillWithPlan M E c (ids.drop c.nPos) plan
    c.nPos ≤ r.1.nPos ∧ r.1.nPos ≤ ids.length ∧ r.1.Holds S (ids.take r.1.nPos) ∧
      ((∃ rc, r.2 = .ok rc) →
        r.1.nPos = ids.length ∧ FedAt c r.1 (uncovered plan c.nPos ids.length)) := by
  obtain ⟨hup, hle, hholds, hpositions⟩ := prefillPlanned_spec E hS plan c le_rfl h
  unfold contextPrefillWithPlan
  generalize prefillPlanned M E (ids.drop c.nPos) c.nPos plan c = r at hup hle hholds hpositions
  obtain ⟨c₁, st⟩ := r
  simp only at hup hle hholds hpositions
  cases st with
  | some e => exact ⟨hup, hle, hholds, fun ⟨rc, hrc⟩ => by cases hrc⟩
  | none =>
    have hdrop : (ids.drop c.nPos).drop (c₁.nPos - c.nPos) = ids.drop c₁.nPos := by
      rw [List.drop_drop, Nat.add_sub_cancel' hup]
    simp only [hdrop]
    obtain ⟨k, hfed, hall⟩ := contextFeedTokensBatch_fed M E c₁ hholds.n_eq.le (ids.drop c₁.nPos)
    have hk := hfed.le
    rw [List.length_drop] at hk hall
    have hnext := hholds.fed hS hfed
    rw [← List.take_add] at hnext
    refine ⟨by rw [hfed.nPos]; omega, by rw [hfed.nPos]; omega, by rw [hfed.nPos]; exact hnext,
      fun ⟨rc, hrc⟩ => ⟨by rw [hfed.nPos, hall ⟨rc, hrc⟩]; omega, ?_⟩⟩
    obtain ⟨l, hl, heq⟩ := hpositions rfl
    have hat := contextFeedTokensBatch_fedAt M E hholds.n_eq.le hrc
    rw [List.length_drop] at hat
    rw [← heq]
    exact hl.trans hat

theorem contextReusePrefix_between (hS : S ≤ M.nStores) {c : Core} (h : c.Holds S c.fedIds.ids)
    (ids : List Token) :
    let r := contextReusePrefix M E c ids
    r.2.1 = reusedPrefix c.fedIds.ids ids ∧ r.1.nPos = r.2.1 ∧
      Between S c.fedIds.ids ids r.1 r.2.2 := by
  have hr := contextReusePrefix_reused M E hS h ids
  have hreuse : (contextReusePrefix M E c ids).2.1 = reusedPrefix c.fedIds.ids ids := by
    unfold contextReusePrefix
    simp only
    split_ifs <;> rfl
  have hnPos : (contextReusePrefix M E c ids).1.nPos = reusedPrefix c.fedIds.ids ids := by
    rw [hr.holds.nPos, List.length_take, Nat.min_eq_left (reusedPrefix_le_right _ _)]
  exact ⟨hreuse, hnPos.trans hreuse.symm,
    by rw [hnPos]; exact hr.holds, by rw [hnPos]; exact hr.sound, hr.planned⟩

/-- A prefill, however it ends, leaves a prefix of the prompt in the cache. -/
theorem contextPrefillPrompt_holds (hS : S ≤ M.nStores) {c : Core} (h : c.Holds S c.fedIds.ids)
    (ids : List Token) :
    let r := contextPrefillPrompt M E c ids
    r.1.nPos ≤ ids.length ∧ r.1.Holds S (ids.take r.1.nPos) ∧
      ((∃ rc, r.2 = .ok rc) → r.1.nPos = ids.length ∧
        FedAt c r.1 (uncovered (contextReusePrefix M E c ids).2.2
          (reusedPrefix c.fedIds.ids ids) ids.length)) := by
  obtain ⟨hreuse, hnPos, hbetween⟩ := contextReusePrefix_between E hS h ids
  have hpasses := (contextReusePrefix_same M E c ids).1
  unfold contextPrefillPrompt
  rw [Core.fedIdsSync_of_le h.n_eq.le]
  simp only [← hnPos]
  obtain ⟨hup, hle, hholds, hdone⟩ := contextPrefillWithPlan_spec E hS hbetween
  refine ⟨hle, hholds, fun hok => ⟨(hdone hok).1, ?_⟩⟩
  obtain ⟨ps, hps, hat⟩ := (hdone hok).2
  exact ⟨ps, by rw [hps, hpasses], by rw [hat, hnPos, hreuse]⟩

variable (M)

/-- A prefill that succeeds leaves exactly the prompt in the cache, every row computed for
the token at its position. The chunks that are moved instead of fed go down, ascend, hold
the tokens of their destinations and spare the last position; positions outside them, and
all of them if a store could not move, are fed again. -/
theorem contextPrefillPrompt_correct {c : Core} (h : c.Holds M.nStores c.fedIds.ids)
    (ids : List Token) {rc : ℕ} (hok : (contextPrefillPrompt M E c ids).2 = .ok rc) :
    let c' := (contextPrefillPrompt M E c ids).1
    let reuse := reusedPrefix c.fedIds.ids ids
    let built := kvReusePlanBuild c.fedIds.ids ids reuse
    let plan := (contextReusePrefix M E c ids).2.2
    c'.Holds M.nStores ids ∧
      PlanSound c.fedIds.ids ids reuse built ∧
      (∀ moves, moves = built.filter (fun m => m.src ≠ m.dst) → ∀ rows,
        RowMove.inPlace (fun m r => r.map (Row.rotate m)) moves rows = kvShift moves rows) ∧
      plan = (if kvcacheCanShift M E c ∧ (kvReusePlanShift M E c.tick built).2 then built else []) ∧
      FedAt c c' (uncovered plan reuse ids.length) := by
  obtain ⟨-, hholds, hdone⟩ := contextPrefillPrompt_holds E le_rfl h ids
  obtain ⟨hnPos, hat⟩ := hdone ⟨rc, hok⟩
  intro c' reuse built plan
  have hbuilt : PlanSound c.fedIds.ids ids reuse built := kvReusePlanBuild_sound _ _ _
  refine ⟨?_, hbuilt, ?_, contextReusePrefix_plan M E c ids, hat⟩
  · rwa [hnPos, List.take_length] at hholds
  · rintro moves rfl rows
    exact (hbuilt.filter _).inPlace_eq_kvShift rows

/-- 34 tokens that move down by one when the token before them is dropped. -/
def movedTail : List Token := (List.range 34).map fun i => (i : Token) + 2

theorem contextPrefillPrompt_correct_moved :
    let c' := (contextPrefillPrompt (.small false) (.calm _) (.holding (9 :: movedTail))
      (movedTail ++ [7])).1
    c'.Holds 1 (movedTail ++ [7]) ∧ fedPositions c'.passes = [34] := by
  have hok : (contextPrefillPrompt (.small false) (.calm _) (.holding (9 :: movedTail))
      (movedTail ++ [7])).2 = .ok 35 := by decide +kernel
  exact ⟨(contextPrefillPrompt_correct (.small false) (.calm _) (Core.holding_self 1 _) _ hok).1,
    by decide +kernel⟩

end Kappai
