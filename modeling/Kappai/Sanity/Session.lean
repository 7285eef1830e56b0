import Kappai.Spec.Session
import Kappai.Proofs.Prefill
import Kappai.Proofs.Decode

/-! What the operations of a session do to the cached tokens, taken apart once: a turn or a
completion either comes to nothing or is `generatePrompt` of its prompt. -/

namespace Kappai

/-- `fed_ids` and the position agree. -/
def Core.Aligned (c : Core) : Prop := c.fedIds.n = c.nPos

theorem Core.Holds.aligned {S : ℕ} {c : Core} {ids : List Token} (h : c.Holds S ids) :
    c.Aligned := h.n_eq

theorem Core.Aligned.holds {c : Core} (h : c.Aligned) : c.Holds 0 c.fedIds.ids :=
  ⟨rfl, by rw [FedIds.ids_length]; exact h.symm, fun l hl => absurd hl (Nat.not_lt_zero l)⟩

theorem Core.Aligned.sync_eq {c : Core} (h : c.Aligned) : c.fedIdsSync = c :=
  Core.fedIdsSync_of_le h.le

theorem Core.rewind_aligned (c : Core) (pos : ℕ) : (c.rewind pos).Aligned := rfl

theorem Core.rewind_ids (c : Core) (pos : ℕ) :
    (c.rewind pos).fedIds.ids = c.fedIds.ids.take (c.rewind pos).nPos := by
  have hle : (c.rewind pos).nPos ≤ c.fedIds.n := by simp only [rewind]; omega
  exact FedIds.ids_truncate _ hle

variable (M : Model) (E : Env M) (F : Front) (P : Sampling) {S : ℕ}

theorem contextFeedTokensBatch_aligned {c : Core} (h : c.Aligned) (tokens : List Token) :
    let c' := (contextFeedTokensBatch M E c tokens).1
    c'.Aligned ∧ c.fedIds.ids <+: c'.fedIds.ids := by
  obtain ⟨k, hfed, -⟩ := contextFeedTokensBatch_fed M E c h.le tokens
  refine ⟨(h.holds.fed (Nat.zero_le _) hfed).aligned, ?_⟩
  rw [hfed.fedIds, FedIds.ids_appendAll]
  exact List.prefix_append _ _

/-- A generation is a prefill of its prompt and, if that succeeds, a decode loop. -/
theorem generatePrompt_cases {c : Context} (h : c.Aligned) (prompt : List Token)
    (maxTokens : ℤ) :
    let p := contextPrefillPrompt M E c.toCore prompt
    let g := generatePrompt M E P c prompt maxTokens
    (∃ e, p.2 = .error e ∧ g.ctx = { c with
        toCore := p.1
        sessionPoisoned := c.sessionPoisoned || (e == .interrupted || e == .computeFail) }) ∨
      ∃ rc, p.2 = .ok rc ∧ g.ctx =
        (contextDecodeLoop M E P maxTokens (Context.started { c with toCore := p.1 } prompt)).ctx := by
  have hp : contextPrefillPrompt M E c.toCore prompt =
      contextPrefillWithPlan M E (contextReusePrefix M E c.toCore prompt).1
        (prompt.drop (contextReusePrefix M E c.toCore prompt).2.1)
        (contextReusePrefix M E c.toCore prompt).2.2 := by
    unfold contextPrefillPrompt
    rw [h.sync_eq]
  simp only [hp, generatePrompt, runGeneration]
  generalize contextPrefillWithPlan M E (contextReusePrefix M E c.toCore prompt).1
    (prompt.drop (contextReusePrefix M E c.toCore prompt).2.1)
    (contextReusePrefix M E c.toCore prompt).2.2 = p
  obtain ⟨core, st⟩ := p
  cases st with
  | ok rc => exact Or.inr ⟨rc, rfl, rfl⟩
  | error e =>
    refine Or.inl ⟨e, rfl, ?_⟩
    cases e <;> simp

/-- A generation leaves a part of its prompt in the cache, or all of it and more. -/
theorem generatePrompt_cache (hS : S ≤ M.nStores) {c : Context} (h : c.Holds S c.fedIds.ids)
    (prompt : List Token) (maxTokens : ℤ) :
    let c' := (generatePrompt M E P c prompt maxTokens).ctx
    c'.Holds S c'.fedIds.ids ∧ (c'.fedIds.ids <+: prompt ∨ prompt <+: c'.fedIds.ids) := by
  obtain ⟨hle, hholds, hdone⟩ := contextPrefillPrompt_holds E hS h prompt
  have hself : (contextPrefillPrompt M E c.toCore prompt).1.Holds S
      (contextPrefillPrompt M E c.toCore prompt).1.fedIds.ids := by
    rw [hholds.fedIds]
    exact hholds
  rcases generatePrompt_cases M E P h.aligned prompt maxTokens with ⟨e, -, hc⟩ | ⟨rc, hrc, hc⟩
  · simp only [hc]
    exact ⟨hself, Or.inl (by rw [hholds.fedIds]; exact List.take_prefix _ _)⟩
  · rw [(hdone ⟨rc, hrc⟩).1, List.take_length] at hholds
    have hstart : Core.Holds (Context.started
        { c with toCore := (contextPrefillPrompt M E c.toCore prompt).1 } prompt).toCore S
        (contextPrefillPrompt M E c.toCore prompt).1.fedIds.ids := hself
    have hend := (contextDecodeLoop_inv M E P hS maxTokens hstart).holds
    simp only [hc]
    refine ⟨by rwa [hend.fedIds], Or.inr ?_⟩
    rw [hend.fedIds]
    change prompt <+: (contextPrefillPrompt M E c.toCore prompt).1.fedIds.ids ++ _
    rw [hholds.fedIds]
    exact List.prefix_append _ _

/-- What the record of a turn changes of the generated context and of the link. -/
theorem chatTurnRecord_eq (prev s : Session) (addGen : Bool) (g : Generated) :
    ∃ clock poisoned, (g.ctx.sessionPoisoned → poisoned = true) ∧
      (chatTurnRecord F prev s addGen g).toContext =
        { g.ctx with clock := clock, sessionPoisoned := poisoned } ∧
      (chatTurnRecord F prev s addGen g).sync = s.sync := by
  unfold chatTurnRecord
  cases g.rc with
  | error e =>
    simp only
    split_ifs <;> exact ⟨_, _, id, rfl, rfl⟩
  | ok n =>
    simp only
    split_ifs with hadd hturn
    · unfold Session.addTurn
      simp only
      cases F.render _ _ _ _ <;> exact ⟨_, _, id, rfl, rfl⟩
    · unfold Session.addTurn
      simp only
      cases F.render _ _ _ _ <;> exact ⟨_, true, fun _ => rfl, rfl, rfl⟩
    · exact ⟨_, _, id, rfl, rfl⟩

theorem addTurn_eq (s : Session) (msg : ChatMessage) (addGen : Bool) :
    (s.addTurn F msg addGen).1.toContext = s.toContext.tick ∧
      (s.addTurn F msg addGen).1.sync = s.sync := by
  unfold Session.addTurn
  simp only
  cases F.render s.clock s.tools (s.messages ++ [F.stored msg]) addGen <;> exact ⟨rfl, rfl⟩

/-- A turn comes to nothing, or it generates from the ids its render was encoded to. -/
theorem contextChatTurnMsg_cases {s : Session} (h : s.Aligned) (msg : ChatMessage) (addGen : Bool)
    (maxTokens : ℤ) :
    let s' := (contextChatTurnMsg M E F P s msg addGen maxTokens).1
    (turnIds M F s msg addGen = none ∧ s'.sync = s.sync ∧
      ∃ clock, s'.toContext = { s.toContext with clock := clock }) ∨
    ∃ ids added, turnIds M F s msg addGen = some ids ∧ s.sessionPoisoned = false ∧
      added.toContext = s.toContext.tick ∧ added.sync = s.sync ∧
      tailEncodeIds M F added = some ids ∧ s'.sync = some (added.lastRender, ids.length) ∧
      ∃ clock poisoned, ((generatePrompt M E P s.toContext.tick ids maxTokens).ctx.sessionPoisoned →
          poisoned = true) ∧
        s'.toContext = { (generatePrompt M E P s.toContext.tick ids maxTokens).ctx with
          clock := clock, sessionPoisoned := poisoned } := by
  obtain ⟨hctx, hsync⟩ := addTurn_eq F s msg addGen
  unfold contextChatTurnMsg turnIds
  cases hp : s.sessionPoisoned with
  | true => exact Or.inl ⟨rfl, rfl, s.clock, rfl⟩
  | false =>
    simp only [Bool.not_false, Bool.true_and, Bool.false_eq_true, if_false]
    generalize s.addTurn F msg addGen = turn at hctx hsync ⊢
    obtain ⟨added, rendered⟩ := turn
    simp only at hctx hsync ⊢
    have hadded : added.fedIdsSync.toContext = s.toContext.tick := by
      have : added.Aligned := by rw [hctx]; exact h
      change added.toContext.sync = _
      rw [Context.sync, this.sync_eq, ← hctx]
    cases rendered with
    | false => exact Or.inl ⟨rfl, hsync, _, by simp only [hctx]; rfl⟩
    | true =>
      simp only [if_true]
      cases hids : tailEncodeIds M F added.fedIdsSync with
      | none => exact Or.inl ⟨rfl, hsync, _, by simp only [hadded]; rfl⟩
      | some ids =>
        have hg : generatePrompt M E P added.fedIdsSync.toContext ids maxTokens =
            generatePrompt M E P s.toContext.tick ids maxTokens := by rw [hadded]
        simp only [hg]
        obtain ⟨clock, poisoned, hpois, hrec, hrsync⟩ := chatTurnRecord_eq F s
          { added.fedIdsSync with sync := some (added.fedIdsSync.lastRender, ids.length) }
          addGen (generatePrompt M E P s.toContext.tick ids maxTokens)
        exact Or.inr ⟨ids, added.fedIdsSync, rfl, trivial, hadded, hsync, hids, hrsync,
          clock, poisoned, hpois, hrec⟩

/-- What an operation can do to the context of a session. -/
inductive Acted (s : Session) : Op → Context → Prop
  | generate {op : Op} (prompt : List Token) (P : Sampling) (before : ℕ) (maxTokens : ℤ)
      (clock : ℕ) (poisoned : Bool) (hprompt : s.prompt M F op = some prompt)
      (hpoisoned : (generatePrompt M E P { s.toContext with clock := before } prompt
        maxTokens).ctx.sessionPoisoned → poisoned = true) :
      Acted s op { (generatePrompt M E P { s.toContext with clock := before } prompt maxTokens).ctx with
        clock := clock, sessionPoisoned := poisoned }
  | idle (before : ℕ) (header : Text) (ids : List Token)
      (hstart : idleStart M E F s = ({ s with clock := before }, some (header, ids)))
      (hshort : s.fedIdsCommonPrefix ids < ids.length) :
      Acted s .idlePrefill (idleFeed M E { s with clock := before } header ids).toContext
  | decision (ids : List Token) : Acted s (.decision ids) (s.decision M E ids).toContext
  | warmup (tokens : List Token) : Acted s (.warmup tokens) (s.warmup M E tokens).toContext
  | rewind (pos : ℕ) :
      Acted s (.rewind pos) { s.toContext with toCore := s.toCore.rewind pos }
  | reset : Acted s .reset s.reset.toContext
  | quiet (op : Op) (clock : ℕ) (onHost step limit : Bool) :
      Acted s op { s.toContext with
        clock := clock, logitsOnHost := onHost, decodeStep := step, contextLimitHit := limit }

theorem idleHeader_eq (s : Session) :
    ∃ clock, (idleHeader M E F s).1 = { s with clock := clock } ∧
      ∀ header ids, (idleHeader M E F s).2 = some (header, ids) → ids = F.encode header := by
  have hnone : ∀ header ids, (none : Option (Text × List Token)) = some (header, ids) →
      ids = F.encode header := fun _ _ h => by cases h
  unfold idleHeader
  simp only
  cases F.render s.clock s.tools (s.messages ++ [simpleMessage userRole [97]]) false with
  | none => exact ⟨_, rfl, hnone⟩
  | some r1 =>
    cases F.render s.tick.clock s.tick.tools
        (s.tick.messages ++ [simpleMessage userRole [98]]) false with
    | none => exact ⟨_, rfl, hnone⟩
    | some r2 =>
      simp only
      split_ifs
      · exact ⟨_, rfl, fun _ _ h => h.elim⟩
      · exact ⟨_, rfl, fun _ _ h => h.elim⟩
      · exact ⟨_, rfl, fun _ _ h => h.elim⟩
      · exact ⟨_, rfl, fun header ids h => by cases h; rfl⟩

theorem idleStart_eq {s : Session} (h : s.Aligned) :
    ∃ clock, (idleStart M E F s).1 = { s with clock := clock } ∧
      ∀ header ids, (idleStart M E F s).2 = some (header, ids) →
        ids = F.encode header ∧ s.fedIdsCommonPrefix ids < ids.length := by
  unfold idleStart
  obtain ⟨clock, hs, hids⟩ := idleHeader_eq M E F s
  generalize idleHeader M E F s = r at hs hids
  obtain ⟨s₁, found⟩ := r
  simp only at hs hids
  subst hs
  have hsync : Session.fedIdsSync { s with clock := clock } = { s with clock := clock } := by
    have : Core.Aligned ({ s with clock := clock } : Session).toCore := h
    unfold Session.fedIdsSync Context.sync
    rw [this.sync_eq]
  cases found with
  | none => exact ⟨clock, rfl, by simp⟩
  | some found =>
    simp only [hsync]
    split_ifs with hshort hint
    · exact ⟨clock, rfl, by simp⟩
    · exact ⟨clock + 1, rfl, by simp⟩
    · refine ⟨clock + 1, rfl, fun header ids hfound => ?_⟩
      cases hfound
      exact ⟨hids _ _ rfl, not_le.1 hshort⟩

theorem apply_acted {s : Session} (h : s.Aligned) (op : Op) :
    Acted M E F s op (s.apply M E F op).toContext := by
  have hsame : Acted M E F s op s.toContext := .quiet op s.clock s.logitsOnHost s.decodeStep _
  cases op with
  | chatTurn P msg addGen maxTokens =>
    rcases contextChatTurnMsg_cases M E F P h msg addGen maxTokens with
      ⟨-, -, clock, hctx⟩ | ⟨ids, -, hids, -, -, -, -, -, clock, poisoned, hp, hctx⟩
    · change Acted M E F s _ (contextChatTurnMsg M E F P s msg addGen maxTokens).1.toContext
      rw [hctx]
      exact .quiet _ clock _ _ _
    · change Acted M E F s _ (contextChatTurnMsg M E F P s msg addGen maxTokens).1.toContext
      rw [hctx]
      exact .generate ids P (s.clock + 1) maxTokens clock poisoned hids hp
  | completion P prompt maxTokens =>
    change Acted M E F s _ (contextCompletion M E F P s prompt maxTokens).1.toContext
    unfold contextCompletion
    cases hids : completionIds M F prompt with
    | none => exact hsame
    | some ids =>
      have hctx : s.fedIdsSync.toContext = s.toContext := by
        change s.toContext.sync = _
        rw [Context.sync, h.sync_eq]
      simp only [hctx]
      exact .generate ids P s.clock maxTokens _ _ hids id
  | idlePrefill =>
    change Acted M E F s _ (Kappai.idlePrefill M E F s).toContext
    unfold Kappai.idlePrefill
    obtain ⟨clock, hs, hshort⟩ := idleStart_eq M E F h
    cases hstart : idleStart M E F s with
    | mk s₁ found =>
      rw [hstart] at hs hshort
      simp only at hs hshort
      subst hs
      cases found with
      | none => exact .quiet _ clock _ _ _
      | some found => exact .idle clock found.1 found.2 hstart (hshort _ _ rfl).2
  | decision ids => exact .decision ids
  | warmup tokens => exact .warmup tokens
  | rewind pos => exact .rewind pos
  | resetSession => exact .quiet _ _ _ _ _
  | reset => exact .reset
  | setTools tools => exact hsame
  | addMessage msg => exact hsame
  | addTurn msg =>
    change Acted M E F s _ (s.addTurn F msg false).1.toContext
    rw [(addTurn_eq F s msg false).1]
    exact .quiet _ (s.clock + 1) _ _ _
  | rewriteLastAssistant content reasoning toolCalls =>
    change Acted M E F s _ (s.rewriteLastAssistant F content reasoning toolCalls).toContext
    unfold Session.rewriteLastAssistant
    cases s.messages.getLast? with
    | none => exact hsame
    | some last =>
      simp only
      split_ifs
      · exact .quiet _ (s.clock + 1) _ _ _
      · exact hsame
  | taskStart => exact .quiet _ _ _ _ _
  | taskFinish => exact .quiet _ _ _ _ _

theorem idleRewound_aligned {s : Session} (h : s.Aligned) (reuse : ℕ) :
    (idleRewound M s reuse).Aligned := by
  unfold idleRewound
  simp only
  split_ifs
  · exact Core.rewind_aligned _ _
  · exact h

/-- Without recurrent state, or with the whole cache kept, the header is fed after the
tokens it shares with the cache. -/
theorem idleRewound_ids {s : Session} (h : s.Aligned) (ids : List Token)
    (hkeep : M.hybrid = false ∨ s.fedIds.n ≤ s.fedIdsCommonPrefix ids) :
    (idleRewound M s (s.fedIdsCommonPrefix ids)).fedIds.ids =
      ids.take (s.fedIdsCommonPrefix ids) := by
  have htake : s.fedIds.ids.take (s.fedIdsCommonPrefix ids) =
      ids.take (s.fedIdsCommonPrefix ids) := take_commonPrefix _ _
  have hle : s.fedIdsCommonPrefix ids ≤ s.fedIds.n := by
    have := commonPrefix_le_left s.fedIds.ids ids
    rwa [FedIds.ids_length] at this
  unfold idleRewound
  simp only
  split_ifs with hrewind
  · rw [← htake, Core.rewind_of_le hle (by rw [← h]; exact hle)]
    exact FedIds.ids_truncate _ hle
  · have hfull : s.fedIds.n ≤ s.fedIdsCommonPrefix ids := by
      rcases hkeep with hh | hn
      · simpa [hh] using hrewind
      · exact hn
    rw [← htake, List.take_of_length_le (by rw [FedIds.ids_length]; exact hfull)]

theorem idleFeed_aligned {s : Session} (h : s.Aligned) (header : Text) (ids : List Token) :
    (idleFeed M E s header ids).Aligned := by
  unfold idleFeed
  simp only
  have hfed := contextFeedTokensBatch_aligned M E
    (idleRewound_aligned M h (s.fedIdsCommonPrefix ids)) (ids.drop (s.fedIdsCommonPrefix ids))
  generalize contextFeedTokensBatch M E (idleRewound M s (s.fedIdsCommonPrefix ids)).toCore
    (ids.drop (s.fedIdsCommonPrefix ids)) = r at hfed ⊢
  obtain ⟨core, st⟩ := r
  cases st with
  | error e => exact h
  | ok rc => exact hfed.1

theorem Acted.aligned {s : Session} (h : s.Aligned) {op : Op} {c : Context}
    (ha : Acted M E F s op c) : c.Aligned := by
  cases ha with
  | generate prompt P before maxTokens clock poisoned hprompt hp =>
    have hbefore : Core.Aligned { s.toCore with clock := before } := h
    have := generatePrompt_cache M E P (Nat.zero_le _)
      (c := { s.toContext with clock := before }) hbefore.holds prompt maxTokens
    exact this.1.aligned
  | idle before header ids _ _ =>
    exact idleFeed_aligned M E (s := { s with clock := before }) h header ids
  | decision ids =>
    have hreset : (if s.sessionPoisoned || M.hybrid then s.reset else s).Aligned := by
      split_ifs
      · rfl
      · exact h
    exact (contextPrefillPrompt_holds E (Nat.zero_le _) hreset.holds ids).2.1.aligned
  | warmup tokens => exact (contextFeedTokensBatch_aligned M E h tokens).1
  | rewind pos => exact Core.rewind_aligned _ _
  | reset => rfl
  | quiet op clock onHost step limit => exact h

/-- `fed_ids` and the position agree after every operation. -/
theorem apply_aligned {s : Session} (h : s.Aligned) (op : Op) : (s.apply M E F op).Aligned :=
  (apply_acted M E F h op).aligned M E F h

end Kappai
