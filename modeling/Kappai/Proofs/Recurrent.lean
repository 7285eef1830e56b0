import Kappai.Sanity.Session

/-! Recurrent state. It has no rows, so it cannot be cut back with the cache: it stands where
the last forward pass ended, and a feed is right if it goes on from there or from position 0,
where a pass starts over. -/

namespace Kappai

variable (M : Model) (E : Env M) (F : Front) (P : Sampling)

/-- The pass starts from the state of the tokens cached before it, and from nothing else. -/
def Pass.StartsFolded (p : Pass) : Prop :=
  p.start = .folded p.cached ∧ p.cached.length = p.pos

instance (p : Pass) : Decidable p.StartsFolded := inferInstanceAs (Decidable (_ ∧ _))

/-- The position after the last forward pass. -/
def Core.lastEnd (c : Core) : ℕ :=
  (c.passes.getLast?.map fun p => p.pos + p.tokens.length).getD 0

/-- A feed that starts at `pos` goes on from the last pass, or starts over. -/
def Core.resumesAt (c : Core) (pos : ℕ) : Bool := pos = 0 || c.lastEnd = pos

/-- The operations that feed from a position where the recurrent state stands. -/
def Session.resumes (s : Session) : Op → Bool
  | .warmup _ => s.resumesAt s.nPos
  | .idlePrefill =>
    match idleStart M E F s with
    | (_, none) => true
    | (s, some _) => s.resumesAt s.nPos
  | op =>
    match s.prompt M F op with
    | none => true
    | some ids => s.resumesAt (min (reusedPrefix s.fedIds.ids ids) s.nPos)

/-- The next pass may go on from here. -/
structure Core.Resumable (c : Core) : Prop where
  aligned : c.Aligned
  good : ∀ p ∈ c.passes, p.StartsFolded
  here : c.nPos = 0 ∨ c.lastEnd = c.nPos ∧ c.recurrent = .folded c.fedIds.ids

/-- Every pass so far was right, and if the context stands where the last one ended, the
recurrent state is that of its tokens. -/
structure Core.Resumed (c : Core) : Prop where
  aligned : c.Aligned
  good : ∀ p ∈ c.passes, p.StartsFolded
  le : c.nPos ≤ c.lastEnd
  here : c.lastEnd = c.nPos → c.nPos = 0 ∨ c.recurrent = .folded c.fedIds.ids

namespace Core

theorem lastEnd_append {c : Core} {passes : List Pass} {p : Pass}
    (h : c.passes = passes ++ [p]) : c.lastEnd = p.pos + p.tokens.length := by
  simp [lastEnd, h]

theorem Resumable.resumed {c : Core} (h : c.Resumable) : c.Resumed where
  aligned := h.aligned
  good := h.good
  le := by rcases h.here with h0 | ⟨h1, -⟩ <;> omega
  here _ := h.here.imp_right And.right

theorem Resumed.resumable {c : Core} (h : c.Resumed) (hat : c.resumesAt c.nPos) :
    c.Resumable where
  aligned := h.aligned
  good := h.good
  here := by
    simp only [resumesAt, Bool.or_eq_true, decide_eq_true_eq] at hat
    rcases hat with h0 | h1
    · exact Or.inl h0
    · exact (h.here h1).imp_right fun h2 => ⟨h1, h2⟩

theorem Resumable.congr {c c' : Core} (h : c.Resumable) (hfed : c'.fedIds = c.fedIds)
    (hpos : c'.nPos = c.nPos) (hpasses : c'.passes = c.passes)
    (hrec : c'.recurrent = c.recurrent) : c'.Resumable where
  aligned := by rw [Aligned, hfed, hpos]; exact h.aligned
  good := by rw [hpasses]; exact h.good
  here := by rw [lastEnd, hfed, hpos, hpasses, hrec]; exact h.here

theorem Resumed.congr {c c' : Core} (h : c.Resumed) (hfed : c'.fedIds = c.fedIds)
    (hpos : c'.nPos = c.nPos) (hpasses : c'.passes = c.passes)
    (hrec : c'.recurrent = c.recurrent) : c'.Resumed where
  aligned := by rw [Aligned, hfed, hpos]; exact h.aligned
  good := by rw [hpasses]; exact h.good
  le := by rw [lastEnd, hpos, hpasses]; exact h.le
  here := by rw [lastEnd, hfed, hpos, hpasses, hrec]; exact h.here

/-- A rewind drops tokens that the recurrent state keeps. -/
theorem Resumed.rewind {c : Core} (h : c.Resumed) (pos : ℕ) : (c.rewind pos).Resumed where
  aligned := rewind_aligned c pos
  good := h.good
  le := (Nat.min_le_right _ _).trans h.le
  here hend := by
    have hle : (c.rewind pos).nPos ≤ c.nPos := Nat.min_le_right _ _
    have hsame : (c.rewind pos).nPos = c.nPos := by
      have := h.le
      change c.lastEnd = (c.rewind pos).nPos at hend
      omega
    have hids : (c.rewind pos).fedIds.ids = c.fedIds.ids := by
      rw [rewind_ids, hsame, ← h.aligned, List.take_of_length_le (by rw [FedIds.ids_length])]
    rw [hsame] at hend ⊢
    rw [hids]
    exact h.here hend

theorem reset_resumed {c : Core} (h : ∀ p ∈ c.passes, p.StartsFolded) : c.reset.Resumed where
  aligned := rfl
  good := h
  le := Nat.zero_le _
  here _ := Or.inl rfl

end Core

/-- The chunk loop at offset `off`, started in `c` on tokens that are not counted yet. -/
structure ChunksResumed (c : Core) (tokens : List Token) (c' : Core) (off : ℕ) : Prop where
  fedIds : c'.fedIds = c.fedIds
  nPos : c'.nPos = c.nPos
  good : ∀ p ∈ c'.passes, p.StartsFolded
  here : c.nPos + off = 0 ∨
    c'.lastEnd = c.nPos + off ∧ c'.recurrent = .folded (c.fedIds.ids ++ tokens.take off)

/-- The chunk loop left at offset `off`, maybe in the middle of a pass. -/
structure ChunksLeft (c : Core) (tokens : List Token) (c' : Core) (off : ℕ) : Prop where
  fedIds : c'.fedIds = c.fedIds
  nPos : c'.nPos = c.nPos
  good : ∀ p ∈ c'.passes, p.StartsFolded
  le : c.nPos + off ≤ c'.lastEnd
  here : c'.lastEnd = c.nPos + off → c.nPos + off = 0 ∨
    c'.recurrent = .folded (c.fedIds.ids ++ tokens.take off)

variable {M}

theorem ChunksResumed.left {c c' : Core} {tokens : List Token} {off : ℕ}
    (h : ChunksResumed c tokens c' off) : ChunksLeft c tokens c' off where
  fedIds := h.fedIds
  nPos := h.nPos
  good := h.good
  le := by rcases h.here with h0 | ⟨h1, -⟩ <;> omega
  here _ := h.here.imp_right And.right

theorem ChunksResumed.tick {c c' : Core} {tokens : List Token} {off : ℕ}
    (h : ChunksResumed c tokens c' off) : ChunksResumed c tokens c'.tick off :=
  ⟨h.fedIds, h.nPos, h.good, h.here⟩

/-- The state a pass at `pos` starts from is that of the tokens before it. -/
theorem start_folded {cached : List Token} {pos last : ℕ} {r : Recurrent}
    (hlen : cached.length = pos) (h : pos = 0 ∨ last = pos ∧ r = .folded cached) :
    (if pos = 0 then Recurrent.folded [] else r) = .folded cached := by
  split_ifs with h0
  · rw [List.eq_nil_of_length_eq_zero (hlen.trans h0)]
  · exact (h.resolve_left h0).2

variable (M) in
theorem chunksResumed_rule {c : Core} (haligned : c.Aligned) (tokens : List Token) :
    ChunkRule M tokens (ChunksResumed c tokens) (ChunksLeft c tokens) := by
  have hlen : ∀ off < tokens.length, (c.fedIds.ids ++ tokens.take off).length = c.nPos + off := by
    intro off hoff
    rw [List.length_append, FedIds.ids_length, List.length_take, haligned, min_eq_left hoff.le]
  have hpass : ∀ {c' : Core} {off : ℕ}, ChunksResumed c tokens c' off → off < tokens.length →
      (if c'.nPos + off = 0 then Recurrent.folded [] else c'.recurrent) =
        .folded (c'.fedIds.ids ++ tokens.take off) := by
    intro c' off h hoff
    rw [h.nPos, h.fedIds]
    exact start_folded (hlen off hoff) h.here
  have hgood : ∀ {c' : Core} {off : ℕ} {batch : List Token}, ChunksResumed c tokens c' off →
      off < tokens.length → ∀ p ∈ c'.passes ++ [⟨c'.nPos + off, batch,
        c'.fedIds.ids ++ tokens.take off,
        if c'.nPos + off = 0 then .folded [] else c'.recurrent⟩], p.StartsFolded := by
    intro c' off batch h hoff p hp
    rcases List.mem_append.1 hp with hp | hp
    · exact h.good p hp
    · rw [List.mem_singleton.1 hp]
      exact ⟨hpass h hoff, by rw [h.fedIds, h.nPos]; exact hlen off hoff⟩
  refine ⟨fun c' off h _ => h.tick.left, fun chunk c' off batch want _ h hoff hb _ => ?_,
    fun chunk c' off batch want f hchunk h hoff hb _ => ?_⟩
  · have h := h.tick.tick
    have hpasses := Core.forward_passes M c'.tick.tick .ok (c'.fedIds.ids ++ tokens.take off) batch
      (c'.nPos + off) want
    refine ⟨(Core.forward_fedIds ..).trans h.fedIds, (Core.forward_nPos ..).trans h.nPos, ?_, ?_⟩
    · rw [hpasses]
      exact hgood h hoff
    · right
      rw [Core.lastEnd_append hpasses]
      refine ⟨?_, ?_⟩
      · have := h.nPos
        simp only [Core.tick_nPos] at this
        simp only [this, Nat.add_assoc]
      · have hbatch : tokens.take (off + batch.length) = tokens.take off ++ batch := by
          rw [hb, take_append_chunk]
        rw [hbatch, ← List.append_assoc]
        refine (congrArg (Recurrent.feed · batch) (hpass h hoff)).trans ?_
        rw [Recurrent.feed, h.fedIds]
  · have h := h.tick.tick
    have hpasses := Core.forward_passes M c'.tick.tick (.fail f) (c'.fedIds.ids ++ tokens.take off)
      batch (c'.nPos + off) want
    have hnonempty : 0 < batch.length := by
      rw [hb, List.length_take, List.length_drop]
      omega
    have hpos : c'.nPos = c.nPos := h.nPos
    refine ⟨(Core.forward_fedIds ..).trans h.fedIds, (Core.forward_nPos ..).trans h.nPos, ?_, ?_, ?_⟩
    · rw [hpasses]
      exact hgood h hoff
    · rw [Core.lastEnd_append hpasses]
      simp only [hpos]
      omega
    · rw [Core.lastEnd_append hpasses]
      simp only [hpos]
      omega

theorem ChunksLeft.count {c c' : Core} {tokens : List Token} {off : ℕ} (haligned : c.Aligned)
    (h : ChunksLeft c tokens c' off) (hle : off ≤ tokens.length) :
    (c'.count tokens off).Resumed where
  aligned := by
    change (c'.fedIds.appendAll (tokens.take off)).n = c'.nPos + off
    rw [FedIds.appendAll_n, h.fedIds, h.nPos, haligned, List.length_take, min_eq_left hle]
  good := h.good
  le := by
    change c'.nPos + off ≤ c'.lastEnd
    rw [h.nPos]
    exact h.le
  here hend := by
    change c'.lastEnd = c'.nPos + off at hend
    change c'.nPos + off = 0 ∨ c'.recurrent = .folded (c'.fedIds.appendAll (tokens.take off)).ids
    rw [h.nPos] at hend ⊢
    rw [h.fedIds, FedIds.ids_appendAll]
    exact h.here hend

theorem ChunksResumed.count {c c' : Core} {tokens : List Token} {off : ℕ} (haligned : c.Aligned)
    (h : ChunksResumed c tokens c' off) (hle : off ≤ tokens.length) :
    (c'.count tokens off).Resumable := by
  refine (h.left.count haligned hle).resumable ?_
  change (decide (c'.nPos + off = 0) || decide (c'.lastEnd = c'.nPos + off)) = true
  rw [h.nPos, Bool.or_eq_true, decide_eq_true_eq, decide_eq_true_eq]
  exact h.here.imp_right And.left

/-- A feed that resumes runs right passes only, and if it comes through the next one may
resume after it. -/
theorem contextFeedTokensBatch_resumed {c : Core} (h : c.Resumable) (tokens : List Token) :
    let r := contextFeedTokensBatch M E c tokens
    r.1.Resumed ∧ ((∃ rc, r.2 = .ok rc) → r.1.Resumable) := by
  have hstart : ChunksResumed c tokens c 0 :=
    ⟨rfl, rfl, h.good, h.here.imp id fun h => ⟨h.1, by simpa using h.2⟩⟩
  rcases (chunksResumed_rule M h.aligned tokens).contextFeedTokensBatch E h.aligned.le hstart with
    ⟨hsame, -⟩ | ⟨-, c', rc, hdone, heq⟩ | ⟨c', off, e, hle, hleft, heq⟩
  · simp only [hsame]
    exact ⟨h.resumed, fun _ => h⟩
  · simp only [heq]
    have := hdone.count h.aligned le_rfl
    exact ⟨this.resumed, fun _ => this⟩
  · simp only [heq]
    exact ⟨hleft.count h.aligned hle, fun ⟨rc, hrc⟩ => (by cases hrc)⟩

/-- One token's pass is run, or is refused before it starts; nothing is counted yet. -/
inductive Core.RanOne (c c' : Core) (tok : Token) (done : Prop) : Prop
  | refused (fedIds : c'.fedIds = c.fedIds) (nPos : c'.nPos = c.nPos)
      (passes : c'.passes = c.passes) (recurrent : c'.recurrent = c.recurrent) (hdone : ¬ done)
  | ran (fedIds : c'.fedIds = c.fedIds) (nPos : c'.nPos = c.nPos)
      (passes : c'.passes = c.passes ++
        [⟨c.nPos, [tok], c.fedIds.ids, if c.nPos = 0 then .folded [] else c.recurrent⟩])
      (recurrent : done → c'.recurrent =
        (if c.nPos = 0 then Recurrent.folded [] else c.recurrent).feed [tok])

variable (M) in
theorem Core.forward_ranOne (c : Core) (out : PassOutcome) (tok : Token) (want : Bool) :
    c.RanOne (c.forward M out c.fedIds.ids [tok] c.nPos want).1 tok (out = .ok) := by
  cases out with
  | ok => exact .ran rfl rfl rfl fun _ => rfl
  | fail f => exact .ran rfl rfl rfl fun h => by cases h

theorem Core.RanOne.mono {c c' : Core} {tok : Token} {done done' : Prop}
    (h : c.RanOne c' tok done) (himp : done' → done) : c.RanOne c' tok done' := by
  cases h with
  | refused h1 h2 h3 h4 h5 => exact .refused h1 h2 h3 h4 fun hd => h5 (himp hd)
  | ran h1 h2 h3 h4 => exact .ran h1 h2 h3 fun hd => h4 (himp hd)

variable (M) in
theorem Context.batchedStep_ranOne (c : Context) (out : StepOutcome) (tok : Token)
    (want : Bool) :
    let r := c.batchedStep M out c.fedIds.ids tok c.nPos want
    c.toCore.RanOne r.1.toCore tok (r.2 = none) := by
  cases out with
  | status e => exact .refused rfl rfl rfl rfl (by simp [batchedStep])
  | failed f => exact .ran rfl rfl rfl fun h => by simp [batchedStep] at h
  | read => exact .ran rfl rfl rfl fun _ => rfl
  | sampled t => cases want <;> exact .ran rfl rfl rfl fun _ => rfl
  | unread e => cases want <;> exact .ran rfl rfl rfl fun _ => rfl

theorem Context.feedPass_ranOne (c : Context) (tok : Token) (want : Bool) :
    let r := c.feedPass M E tok want
    c.toCore.RanOne r.1.toCore tok (r.2 = none) := by
  have hclock : ∀ {c' done}, c.tick.toCore.RanOne c' tok done → c.toCore.RanOne c' tok done := by
    intro c' done h
    cases h with
    | refused h1 h2 h3 h4 h5 => exact .refused h1 h2 h3 h4 h5
    | ran h1 h2 h3 h4 => exact .ran h1 h2 h3 h4
  unfold feedPass
  split_ifs
  · exact hclock (c.tick.batchedStep_ranOne M (E.step c.clock) tok want)
  · refine hclock ((Core.forward_ranOne M c.tick.toCore (E.pass c.clock) tok want).mono ?_)
    exact (Core.forward_err M _ _ _ _ _ _).1

theorem Core.Resumable.ranOne {c c' : Core} {tok : Token} {done : Prop} (h : c.Resumable)
    (hran : c.RanOne c' tok done) : c'.Resumed := by
  have hlen : c.fedIds.ids.length = c.nPos := by rw [FedIds.ids_length]; exact h.aligned
  cases hran with
  | refused hfed hpos hpasses hrec => exact (h.congr hfed hpos hpasses hrec).resumed
  | ran hfed hpos hpasses hrec =>
    refine ⟨by rw [Aligned, hfed, hpos]; exact h.aligned, ?_, ?_, ?_⟩
    · rw [hpasses]
      intro p hp
      rcases List.mem_append.1 hp with hp | hp
      · exact h.good p hp
      · rw [List.mem_singleton.1 hp]
        exact ⟨start_folded hlen h.here, hlen⟩
    · rw [lastEnd_append hpasses, hpos]
      exact Nat.le_add_right _ _
    · rw [lastEnd_append hpasses, hpos]
      intro heq
      simp only [List.length_singleton] at heq
      omega

theorem Core.Resumable.counted {c c' : Core} {tok : Token} {done : Prop} (h : c.Resumable)
    (hran : c.RanOne c' tok done) (hdone : done) :
    Core.Resumable { c' with nPos := c'.nPos + 1, fedIds := c'.fedIds.append tok } := by
  have hlen : c.fedIds.ids.length = c.nPos := by rw [FedIds.ids_length]; exact h.aligned
  have hgood := (h.ranOne hran).good
  cases hran with
  | refused _ _ _ _ hnot => exact absurd hdone hnot
  | ran hfed hpos hpasses hrec =>
    refine ⟨?_, hgood, Or.inr ⟨?_, ?_⟩⟩
    · change c'.fedIds.n + 1 = c'.nPos + 1
      rw [hfed, hpos, h.aligned]
    · change c'.lastEnd = c'.nPos + 1
      rw [lastEnd_append hpasses, hpos]
      rfl
    · change c'.recurrent = .folded (c'.fedIds.append tok).ids
      rw [hrec hdone, start_folded hlen h.here, Recurrent.feed, hfed, FedIds.ids_append]

/-- A token that is fed where the state stands. -/
theorem contextFeedTokenInner_resumed {c : Context} (h : c.toCore.Resumable) (tok : Token)
    (want : Bool) :
    let r := contextFeedTokenInner M E c tok want
    r.1.toCore.Resumed ∧ (r.2 = none → r.1.toCore.Resumable) := by
  have hsync : c.sync = c := by rw [Context.sync, h.aligned.sync_eq]
  have hran := c.feedPass_ranOne (M := M) E tok want
  unfold contextFeedTokenInner
  rw [hsync]
  split_ifs
  · exact ⟨h.resumed, fun _ => h⟩
  · exact ⟨h.resumed, fun _ => h⟩
  · generalize c.feedPass M E tok want = r at hran
    obtain ⟨c', st⟩ := r
    cases st with
    | none =>
      have := h.counted hran rfl
      exact ⟨this.resumed, fun _ => this⟩
    | some e => exact ⟨h.ranOne hran, fun hnone => by cases hnone⟩

theorem contextSampleNext_core (c : Context) :
    ∃ clock, (contextSampleNext M E P c).1.toCore = { c.toCore with clock := clock } := by
  unfold contextSampleNext
  cases c.presampled with
  | some pk => exact ⟨_, rfl⟩
  | none =>
    simp only
    split_ifs
    · unfold contextDevicePick
      cases E.pick c.clock <;> exact ⟨_, rfl⟩
    · exact ⟨_, rfl⟩

/-- A loop that samples on the host and feeds what it samples. -/
structure HostLoop (s : DecodeState) : Prop where
  resumable : s.ctx.toCore.Resumable
  pipelined : s.pipelined = false
  devicePick : s.devicePick = false

theorem decodeIter_resumed (maxTokens : ℤ) {s : DecodeState} (h : HostLoop s) :
    (∀ s', decodeIter M E P maxTokens s = .next s' → HostLoop s') ∧
      ∀ r, decodeIter M E P maxTokens s = .done r → r.ctx.toCore.Resumed := by
  have htick : s.ctx.tick.toCore.Resumable := h.resumable.congr rfl rfl rfl rfl
  unfold decodeIter
  simp only
  split_ifs
  · exact ⟨fun s' hs => (by cases hs), fun r hr => by cases hr; exact h.resumable.resumed⟩
  · exact ⟨fun s' hs => (by cases hs), fun r hr => by cases hr; exact htick.resumed⟩
  · obtain ⟨clock, hcore⟩ := contextSampleNext_core (M := M) E P s.ctx.tick
    have hsampled : (contextSampleNext M E P s.ctx.tick).1.toCore.Resumable := by
      rw [hcore]
      exact htick.congr rfl rfl rfl rfl
    have hdraw : drawToken M E P { s with ctx := s.ctx.tick } =
        { ctx := (contextSampleNext M E P s.ctx.tick).1, pipelined := false, devicePick := false
          tok := (contextSampleNext M E P s.ctx.tick).2, specFed := false, hostRedo := false
          preRc := none } := by
      simp only [drawToken, h.pipelined, h.devicePick, Bool.false_eq_true, if_false, Bool.false_and]
    rw [hdraw]
    generalize contextSampleNext M E P s.ctx.tick = drawn at hsampled
    obtain ⟨c, tok⟩ := drawn
    simp only [decodeDrawn, feedDelivered, Bool.false_eq_true, if_false, Bool.not_false] at hsampled ⊢
    split_ifs
    · exact ⟨fun s' hs => (by cases hs), fun r hr => by cases hr; exact hsampled.resumed⟩
    · have hfed := contextFeedTokenInner_resumed E hsampled tok true
      generalize contextFeedTokenInner M E c tok true = r at hfed
      obtain ⟨c', st⟩ := r
      cases st with
      | none =>
        exact ⟨fun s' hs => by cases hs; exact ⟨hfed.2 rfl, rfl, rfl⟩, fun r hr => by cases hr⟩
      | some e =>
        refine ⟨fun s' hs => (by cases hs), fun r hr => ?_⟩
        cases hr
        have : (feedFailed M c' e).toCore = c'.toCore := by cases e <;> rfl
        rw [this]
        exact hfed.1

section Hybrid

variable (hM : M.hybrid = true)

include hM

/-- With recurrent state no rows are moved: the prompt is fed after what is reused of the
cache. -/
theorem contextPrefillPrompt_hybrid {c : Core} (h : c.Aligned) (ids : List Token) :
    let reuse := reusedPrefix c.fedIds.ids ids
    contextPrefillPrompt M E c ids = contextFeedTokensBatch M E
      (if c.fedIds.n ≤ reuse then c else c.tick.rewind reuse) (ids.drop reuse) := by
  have hshift : kvcacheCanShift M E c = false := by simp [kvcacheCanShift, hM]
  simp only [contextPrefillPrompt, h.sync_eq, contextReusePrefix, contextReusePlan, hshift,
    Bool.false_eq_true, if_false]
  split_ifs <;>
    simp only [contextPrefillWithPlan, prefillPlanned, Nat.sub_self, List.drop_zero]

theorem contextPrefillPrompt_resumed {c : Core} (h : c.Resumed) {ids : List Token}
    (hat : c.resumesAt (min (reusedPrefix c.fedIds.ids ids) c.nPos)) :
    let r := contextPrefillPrompt M E c ids
    r.1.Resumed ∧ ((∃ rc, r.2 = .ok rc) → r.1.Resumable) := by
  simp only [contextPrefillPrompt_hybrid E hM h.aligned]
  refine contextFeedTokensBatch_resumed E ?_ _
  split_ifs with hfull
  · rw [min_eq_right (by rw [← h.aligned]; exact hfull)] at hat
    exact h.resumable hat
  · have hrewound : c.tick.Resumed := h.congr rfl rfl rfl rfl
    refine (hrewound.rewind _).resumable ?_
    have hpos : (c.tick.rewind (reusedPrefix c.fedIds.ids ids)).nPos =
        min (reusedPrefix c.fedIds.ids ids) c.nPos := by
      change min (min (reusedPrefix c.fedIds.ids ids) c.fedIds.n) c.nPos = _
      rw [show c.fedIds.n = c.nPos from h.aligned, min_assoc, min_self]
    rw [hpos]
    exact hat

/-- With recurrent state the loop samples on the host. -/
theorem contextDecodeLoop_resumed (maxTokens : ℤ) {c : Context} (h : c.toCore.Resumable) :
    (contextDecodeLoop M E P maxTokens c).ctx.toCore.Resumed := by
  obtain ⟨s, hhead, hdone⟩ := contextDecodeLoop_exits M E P maxTokens h.aligned.holds
  have hstart : HostLoop (decodeStart M P c) :=
    ⟨h.congr rfl rfl rfl rfl, by simp [decodeStart, hM], by simp [decodeStart, hM]⟩
  have hs : HostLoop s := hhead.inv hstart fun s s' hs hnext =>
    (decodeIter_resumed E P maxTokens hs).1 s' hnext
  exact (decodeIter_resumed E P maxTokens hs).2 _ hdone

theorem generatePrompt_resumed {c : Context} (h : c.toCore.Resumed) {prompt : List Token}
    (hat : c.resumesAt (min (reusedPrefix c.fedIds.ids prompt) c.nPos)) (maxTokens : ℤ) :
    (generatePrompt M E P c prompt maxTokens).ctx.toCore.Resumed := by
  have hprefill := contextPrefillPrompt_resumed E hM h hat
  rcases generatePrompt_cases M E P h.aligned prompt maxTokens with ⟨e, -, hc⟩ | ⟨rc, hrc, hc⟩
  · rw [hc]
    exact hprefill.1
  · rw [hc]
    refine contextDecodeLoop_resumed E P hM maxTokens ?_
    exact (hprefill.2 ⟨rc, hrc⟩).congr rfl rfl rfl rfl

omit hM in
/-- A feed whose counts are put back: the state has moved on unless nothing was fed. -/
theorem Core.Resumed.restored {c c' : Core} {tokens : List Token} {k : ℕ} (h : c'.Resumed)
    (hc : c.Aligned) (hfed : Fed M c c' tokens k) :
    Core.Resumed { c' with nPos := c.nPos, fedIds := { c'.fedIds with n := c.fedIds.n } } where
  aligned := hc
  good := h.good
  le := by
    change c.nPos ≤ c'.lastEnd
    have := h.le
    have := hfed.nPos
    omega
  here hend := by
    change c'.lastEnd = c.nPos at hend
    have hle := h.le
    have hpos := hfed.nPos
    have hk : k = 0 := by omega
    have hsame : c'.fedIds = c.fedIds := by
      have := hfed.fedIds
      rwa [hk, List.take_zero, FedIds.appendAll_nil] at this
    change c.nPos = 0 ∨ c'.recurrent = .folded (FedIds.mk c'.fedIds.p c.fedIds.n).ids
    have := h.here (by omega)
    rw [hsame] at this ⊢
    exact this.imp_left fun h0 => by omega

/-- An idle prefill with recurrent state feeds after the whole cache. One that breaks off
puts the counts back, but not the state. -/
theorem idleFeed_resumed {s : Session} (h : s.toCore.Resumable) (header : Text)
    (ids : List Token) : (idleFeed M E s header ids).toCore.Resumed := by
  have hrewound : idleRewound M s (s.fedIdsCommonPrefix ids) = { s with sync := none } := by
    simp [idleRewound, hM]
  have hfed := contextFeedTokensBatch_resumed E h (ids.drop (s.fedIdsCommonPrefix ids))
  obtain ⟨k, hk, -⟩ := contextFeedTokensBatch_fed M E s.toCore h.aligned.le
    (ids.drop (s.fedIdsCommonPrefix ids))
  unfold idleFeed
  simp only [hrewound]
  generalize contextFeedTokensBatch M E s.toCore (ids.drop (s.fedIdsCommonPrefix ids)) = r
    at hfed hk
  obtain ⟨core, st⟩ := r
  cases st with
  | ok rc => exact hfed.1
  | error e => exact hfed.1.restored h.aligned hk

theorem decision_resumed {s : Session} (h : s.toCore.Resumed) (ids : List Token) :
    (s.decision M E ids).toCore.Resumed := by
  have hreset : (if s.sessionPoisoned || M.hybrid then s.reset else s) = s.reset := by simp [hM]
  unfold Session.decision
  simp only [hreset]
  refine (contextPrefillPrompt_resumed E hM (Core.reset_resumed h.good) ?_).1
  change (decide (min _ 0 = 0) || _) = true
  simp

/-- An operation that resumes runs right passes only. -/
theorem apply_resumed {s : Session} (h : s.toCore.Resumed) {op : Op}
    (hop : s.resumes M E F op) : (s.apply M E F op).toCore.Resumed := by
  have hacted := apply_acted M E F h.aligned op
  generalize (s.apply M E F op).toContext = c at hacted
  cases hacted with
  | generate prompt P before maxTokens clock poisoned hprompt _ =>
    have hat : s.resumesAt (min (reusedPrefix s.fedIds.ids prompt) s.nPos) := by
      cases op <;> simp only [Session.resumes, hprompt] at hop <;> first | exact hop | cases hprompt
    have hbefore : Core.Resumed { s.toCore with clock := before } := h.congr rfl rfl rfl rfl
    have := generatePrompt_resumed E P hM (c := { s.toContext with clock := before }) hbefore hat
      maxTokens
    exact this.congr rfl rfl rfl rfl
  | idle before header ids hstart _ =>
    simp only [Session.resumes, hstart] at hop
    have hbefore : Core.Resumed { s.toCore with clock := before } := h.congr rfl rfl rfl rfl
    exact idleFeed_resumed (s := { s with clock := before }) E hM (hbefore.resumable hop) header ids
  | decision ids => exact decision_resumed E hM h ids
  | warmup tokens => exact (contextFeedTokensBatch_resumed E (h.resumable hop) tokens).1
  | rewind pos => exact h.rewind pos
  | reset => exact Core.reset_resumed h.good
  | quiet op clock onHost step limit => exact h.congr rfl rfl rfl rfl

variable (M)

/-- In every run whose feeds all resume, every forward pass starts from the recurrent state
of exactly the tokens cached before it. -/
theorem forward_starts_folded (ops : List Op)
    (hrun : SafeRun (Session.apply M E F) (fun s op => s.resumes M E F op) Session.init ops) :
    ∀ p ∈ (ops.foldl (Session.apply M E F) Session.init).passes, p.StartsFolded := by
  have hinit : Session.init.toCore.Resumed := ⟨rfl, by simp [Session.init, Context.fresh,
    Core.holding], Nat.zero_le _, fun _ => Or.inl rfl⟩
  have hstep : ∀ (s : Session) op, s.toCore.Resumed → s.resumes M E F op →
      (s.apply M E F op).toCore.Resumed := fun s op h hop => apply_resumed E F hM h hop
  exact (hrun.inv hstep hinit).good

end Hybrid

def completions (prompts : List Text) : List Op :=
  prompts.map fun prompt => .completion ⟨false, true, false, false⟩ prompt 4

theorem forward_starts_folded_extended :
    ∃ p ∈ ((completions [[1, 2], [1, 2, 3]]).foldl
      (Session.apply (.small true) (.calm _) .bytes) .init).passes,
      p.tokens = [3] ∧ p.StartsFolded := by
  have hpass : ∃ p ∈ ((completions [[1, 2], [1, 2, 3]]).foldl
      (Session.apply (.small true) (.calm _) .bytes) .init).passes, p.tokens = [3] := by
    decide +kernel
  obtain ⟨p, hp, htokens⟩ := hpass
  exact ⟨p, hp, htokens,
    forward_starts_folded (.small true) (.calm _) .bytes rfl _ (by decide +kernel) p hp⟩

/-- A completion that shares only its first token with the one before: the cache is cut back
to that token, the recurrent state is not. -/
theorem completion_continues_discarded :
    ∃ p ∈ ((completions [[1, 2], [1, 3]]).foldl
      (Session.apply (.small true) (.calm _) .bytes) .init).passes,
      p = ⟨1, [3], [1], .folded [1, 2]⟩ ∧ ¬ p.StartsFolded := by
  decide +kernel

end Kappai
