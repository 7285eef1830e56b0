import Kappai.Proofs.SyncLink
import Kappai.Spec.Session
import Kappai.Sanity.Session

/-! A chat turn that fails without poisoning the session leaves the chat as it was. -/

namespace Kappai

section Room

variable (M : Model)

structure Core.InRoom (c : Core) : Prop where
  aligned : c.Aligned
  room : c.nPos ≤ M.nCtx

variable (E : Env M) (F : Front) (P : Sampling) {M}

theorem contextFeedTokensBatch_room {c : Core} (h : c.nPos ≤ M.nCtx) (tokens : List Token) :
    (contextFeedTokensBatch M E c tokens).1.nPos ≤ M.nCtx := by
  have hsync : c.fedIdsSync.nPos = c.nPos ∧ c.fedIdsSync.fedIds.n ≤ c.fedIdsSync.nPos := by
    unfold Core.fedIdsSync
    split_ifs with hlt
    · exact ⟨rfl, le_rfl⟩
    · exact ⟨rfl, not_lt.1 hlt⟩
  obtain ⟨k, hfed, -⟩ := contextFeedTokensBatch_fed M E c.fedIdsSync hsync.2 tokens
  have hidem : c.fedIdsSync.fedIdsSync = c.fedIdsSync := by
    rw [Core.fedIdsSync, if_neg (not_lt.2 hsync.2)]
  have hk := hfed.nPos
  have hle := hfed.le
  unfold contextFeedTokensBatch at hk ⊢
  rw [hidem, hsync.1] at hk
  split_ifs at hk ⊢ with hnone hlong
  · exact h
  · exact h
  · rw [hk]
    omega

theorem prefillPlanned_room (tokens : List Token) (base : ℕ) {plan : List KvShiftChunk}
    (hplan : ∀ m ∈ plan, m.dst + m.n ≤ M.nCtx) {c : Core} (h : c.nPos ≤ M.nCtx) :
    (prefillPlanned M E tokens base plan c).1.nPos ≤ M.nCtx := by
  induction plan generalizing c with
  | nil => exact h
  | cons m plan ih =>
    unfold prefillPlanned
    dsimp only
    have hfed : (if 0 < m.dst - c.nPos then
        contextFeedTokensBatch M E c ((tokens.drop (c.nPos - base)).take (m.dst - c.nPos))
      else (c, .ok 0)).1.nPos ≤ M.nCtx := by
      split_ifs
      · exact contextFeedTokensBatch_room E h _
      · exact h
    split
    · next c' e heq => exact (congrArg (fun r => r.1.nPos) heq) ▸ hfed
    · exact ih (fun m' hm' => hplan m' (List.mem_cons_of_mem m hm'))
        (hplan m List.mem_cons_self)

theorem contextPrefillPrompt_room {c : Core} (h : c.InRoom M) (ids : List Token) :
    (contextPrefillPrompt M E c ids).1.InRoom M := by
  refine ⟨(contextPrefillPrompt_holds E (Nat.zero_le _) h.aligned.holds ids).2.1.aligned, ?_⟩
  unfold contextPrefillPrompt
  rw [h.aligned.sync_eq]
  have hreused := contextReusePrefix_reused M E (Nat.zero_le _) h.aligned.holds ids
  have hle := reusedPrefix_le_left c.fedIds.ids ids
  have hlen : c.fedIds.ids.length ≤ M.nCtx := by
    rw [FedIds.ids_length, h.aligned]
    exact h.room
  have hstart : (contextReusePrefix M E c ids).1.nPos ≤ M.nCtx := by
    rw [hreused.holds.nPos, List.length_take]
    omega
  have hplan : ∀ m ∈ (contextReusePrefix M E c ids).2.2, m.dst + m.n ≤ M.nCtx := fun m hm => by
    have hdown := hreused.sound.downward m hm
    have hcache := hreused.sound.inCache m hm
    omega
  have hplanned := prefillPlanned_room E
    (ids.drop (contextReusePrefix M E c ids).2.1) (contextReusePrefix M E c ids).1.nPos hplan hstart
  unfold contextPrefillWithPlan
  dsimp only
  split
  · next c' e heq => exact (congrArg (fun r => r.1.nPos) heq) ▸ hplanned
  · next c' heq =>
    exact contextFeedTokensBatch_room E ((congrArg (fun r => r.1.nPos) heq) ▸ hplanned) _

theorem sync_nPos (c : Context) : c.sync.nPos = c.nPos := by
  unfold Context.sync Core.fedIdsSync
  split_ifs <;> rfl

/-- Each token is fed behind a check of the room for it. -/
theorem decodeClosed_room : DecodeClosed M E P fun c => c.nPos ≤ M.nCtx where
  tick _ h := h
  devicePick c h := by
    unfold contextDevicePick
    cases E.pick c.clock <;> exact h
  sampleNext c h := (contextSampleNext_same M E P c).2.1 ▸ h
  feedTokenInner c tok want h := by
    have hpass := (c.sync.feedPass_passed M E tok want).nPos.trans (sync_nPos c)
    unfold contextFeedTokenInner
    split_ifs with hfull hrange
    · exact h
    · exact h
    · split
      · next c' heq =>
        rw [heq] at hpass
        change c'.nPos = c.nPos at hpass
        change c'.nPos + 1 ≤ M.nCtx
        omega
      · next c' e heq =>
        rw [heq] at hpass
        exact hpass.trans_le h
  feedReg c reg h := by
    unfold contextFeedReg
    split_ifs with hfull
    · exact h
    · have hpass := Core.forward_nPos M c.sync.tick.toCore (E.pass c.sync.clock) c.sync.fedIds.ids
        [(reg.val : Token)] c.sync.nPos false
      have hsync := sync_nPos c
      dsimp only
      split
      · next core heq =>
        rw [heq] at hpass
        change core.nPos = c.sync.nPos at hpass
        change core.nPos + 1 ≤ M.nCtx
        omega
      · next core e heq =>
        rw [heq] at hpass
        change core.nPos = c.sync.nPos at hpass
        change core.nPos ≤ M.nCtx
        omega
  drew _ _ _ h := h
  uncount _ h := (Nat.sub_le _ _).trans h
  append _ _ h := h
  fail _ _ _ h := h

theorem generatePrompt_room {c : Context} (h : c.InRoom M) (prompt : List Token) (maxTokens : ℤ) :
    (generatePrompt M E P c prompt maxTokens).ctx.InRoom M := by
  have hprefill := contextPrefillPrompt_room E h prompt
  refine ⟨(generatePrompt_cache M E P (Nat.zero_le _) h.aligned.holds prompt maxTokens).1.aligned, ?_⟩
  rcases generatePrompt_cases M E P h.aligned prompt maxTokens with ⟨e, -, hctx⟩ | ⟨rc, -, hctx⟩
  · rw [hctx]
    exact hprefill.room
  · rw [hctx]
    exact (decodeClosed_room E P).contextDecodeLoop maxTokens
      (c := Context.started { c with toCore := (contextPrefillPrompt M E c.toCore prompt).1 } prompt)
      hprefill.aligned.holds hprefill.room

theorem Core.InRoom.rewind {c : Core} (h : c.InRoom M) (pos : ℕ) : (c.rewind pos).InRoom M :=
  ⟨c.rewind_aligned pos, (Nat.min_le_right _ _).trans h.room⟩

theorem idleFeed_room {s : Session} (h : s.InRoom M) (header : Text) (ids : List Token) :
    (idleFeed M E s header ids).InRoom M := by
  refine ⟨idleFeed_aligned M E h.aligned header ids, ?_⟩
  have hrewound : (idleRewound M s (s.fedIdsCommonPrefix ids)).nPos ≤ M.nCtx := by
    unfold idleRewound
    dsimp only
    split_ifs
    · exact (h.rewind _).room
    · exact h.room
  have hfed := contextFeedTokensBatch_room E hrewound (ids.drop (s.fedIdsCommonPrefix ids))
  unfold idleFeed
  dsimp only
  split
  · exact h.room
  · exact hfed

/-- After every operation of a session. -/
theorem apply_room {s : Session} (h : s.InRoom M) (op : Op) : (s.apply M E F op).InRoom M := by
  have hacted := apply_acted M E F h.aligned op
  generalize (s.apply M E F op).toContext = c at hacted ⊢
  cases hacted with
  | generate prompt P before maxTokens clock poisoned hprompt hp =>
    have := generatePrompt_room E P (c := { s.toContext with clock := before })
      ⟨h.aligned, h.room⟩ prompt maxTokens
    exact ⟨this.aligned, this.room⟩
  | idle before header ids _ _ =>
    exact idleFeed_room E (s := { s with clock := before }) ⟨h.aligned, h.room⟩ header ids
  | decision ids =>
    have hreset : (if s.sessionPoisoned || M.hybrid then s.reset else s).InRoom M := by
      split_ifs
      · exact ⟨rfl, Nat.zero_le _⟩
      · exact h
    exact contextPrefillPrompt_room E hreset ids
  | warmup tokens =>
    exact ⟨(contextFeedTokensBatch_aligned M E h.aligned tokens).1,
      contextFeedTokensBatch_room E h.room tokens⟩
  | rewind pos => exact h.rewind pos
  | reset => exact ⟨rfl, Nat.zero_le _⟩
  | quiet op clock onHost step limit => exact ⟨h.aligned, h.room⟩

theorem run_room (ops : List Op) : (ops.foldl (Session.apply M E F) .init).InRoom M := by
  induction ops using List.reverseRecOn with
  | nil => exact ⟨rfl, Nat.zero_le _⟩
  | append_singleton ops op ih =>
    rw [List.foldl_append]
    exact apply_room E F ih op

end Room

variable {M : Model} (E : Env M) (F : Front) (P : Sampling)

/-! ### The errors of a prefill -/

theorem prefillPlanned_error {tokens : List Token} {base : ℕ} (hfits : base + tokens.length ≤ M.nCtx)
    {plan : List KvShiftChunk} {c : Core} {e : Err}
    (h : (prefillPlanned M E tokens base plan c).2 = some e) :
    e = .interrupted ∨ e = .computeFail := by
  induction plan generalizing c with
  | nil => cases h
  | cons m plan ih =>
    unfold prefillPlanned at h
    dsimp only at h
    split at h
    · next c' e' hfed =>
      obtain rfl := Option.some.inj h
      split_ifs at hfed with hgap
      swap
      · cases hfed
      rcases contextFeedTokensBatch_error E (congrArg Prod.snd hfed) with he | he | ⟨hne, hlong⟩
      · exact Or.inl he
      · exact Or.inr he
      · have hlen := List.length_pos_of_ne_nil hne
        rw [List.length_take, List.length_drop] at hlong hlen
        omega
    · exact ih h

theorem contextPrefillWithPlan_error {c : Core} {tokens : List Token} {e : Err}
    (hfits : c.nPos + tokens.length ≤ M.nCtx) (plan : List KvShiftChunk)
    (h : (contextPrefillWithPlan M E c tokens plan).2 = .error e) :
    e = .interrupted ∨ e = .computeFail := by
  unfold contextPrefillWithPlan at h
  split at h
  · next c' e' hplanned =>
    obtain rfl := Except.error.inj h
    exact prefillPlanned_error E hfits (congrArg Prod.snd hplanned)
  · next c' hplanned =>
    rcases contextFeedTokensBatch_error E h with he | he | ⟨hne, hlong⟩
    · exact Or.inl he
    · exact Or.inr he
    · have hlen := List.length_pos_of_ne_nil hne
      rw [List.length_drop] at hlong hlen
      omega

/-- A prompt that fits is generated from, or the session is poisoned. -/
theorem generatePrompt_error {c : Context} (h : c.Aligned) {prompt : List Token}
    (hfits : prompt.length ≤ M.nCtx) {maxTokens : ℤ} {e : Err}
    (herr : (generatePrompt M E P c prompt maxTokens).rc = .error e) :
    (generatePrompt M E P c prompt maxTokens).ctx.sessionPoisoned = true := by
  have hstart := (contextReusePrefix_reused M E (Nat.zero_le _) h.holds prompt).holds.nPos
  have hreuse : (contextReusePrefix M E c.toCore prompt).2.1 = reusedPrefix c.fedIds.ids prompt := by
    unfold contextReusePrefix
    dsimp only
    split_ifs <;> rfl
  have hle := reusedPrefix_le_right c.fedIds.ids prompt
  have hroom : (contextReusePrefix M E c.toCore prompt).1.nPos +
      (prompt.drop (contextReusePrefix M E c.toCore prompt).2.1).length ≤ M.nCtx := by
    rw [hstart, hreuse, List.length_take, List.length_drop]
    omega
  have hprefill := fun e => contextPrefillWithPlan_error E (e := e) hroom
    (contextReusePrefix M E c.toCore prompt).2.2
  unfold generatePrompt runGeneration at herr ⊢
  dsimp only at herr ⊢
  generalize contextPrefillWithPlan M E _ _ _ = r at hprefill herr ⊢
  obtain ⟨core, st⟩ := r
  cases st with
  | ok rc => cases herr
  | error e' =>
    rcases hprefill e' rfl with rfl | rfl
    · cases herr
    · rfl

/-! ### The exits of a turn -/

theorem encodeWhole_le {text : Text} {ids : List Token} (h : encodeWhole M F text = some ids) :
    ids.length ≤ M.nCtx := by
  unfold encodeWhole at h
  split_ifs at h with hlong
  obtain rfl := Option.some.inj h
  exact not_lt.1 hlong

/-- What `tail_encode_ids` hands out fits. -/
theorem tailEncodeIds_le {s : Session} (h : s.InRoom M) {ids : List Token}
    (hids : tailEncodeIds M F s = some ids) : ids.length ≤ M.nCtx := by
  have hn : s.fedIds.n ≤ M.nCtx := by rw [h.aligned]; exact h.room
  unfold tailEncodeIds at hids
  split at hids
  · exact encodeWhole_le F hids
  · next render tok hsync =>
    dsimp only at hids
    split_ifs at hids with hok hlong hclean
    · obtain rfl := Option.some.inj hids
      simp only [Session.syncInvariantOk, hsync, Bool.and_eq_true, decide_eq_true_eq] at hok
      rw [List.length_append, List.length_take]
      omega
    · exact encodeWhole_le F hids
    · exact encodeWhole_le F hids

namespace ChatContext

variable {E F P} {s : ChatContext} {msg : ChatMessage} {addGen : Bool} {maxTokens : ℤ}

theorem addTurnExSteal_session (s : ChatContext) (msg : ChatMessage) (addGen : Bool) :
    (s.addTurnExSteal F msg addGen).1.toSession = (s.toSession.addTurn F msg addGen).1 ∧
      (s.addTurnExSteal F msg addGen).2.2 = (s.toSession.addTurn F msg addGen).2 := by
  unfold addTurnExSteal Session.addTurn
  cases h : F.render s.clock s.tools (s.messages ++ [F.stored msg]) addGen <;>
    simp only [h, and_self]

/-- A turn adds one message, and takes the last render if it goes well. -/
theorem addTurnExSteal_taken (s : ChatContext) (msg : ChatMessage) (addGen : Bool) :
    (s.addTurnExSteal F msg addGen).1.messages = s.messages ++ [F.stored msg] ∧
      ((s.addTurnExSteal F msg addGen).2.2 = true →
        (s.addTurnExSteal F msg addGen).2.1 = some s.lastRender) ∧
      ((s.addTurnExSteal F msg addGen).2.2 = false →
        (s.addTurnExSteal F msg addGen).2.1 = none ∧
        (s.addTurnExSteal F msg addGen).1.lastRender = s.lastRender) := by
  unfold addTurnExSteal
  cases h : F.render s.clock s.tools (s.messages ++ [F.stored msg]) addGen with
  | none =>
    simp only [h]
    exact ⟨trivial, fun hrendered => absurd hrendered (by decide), fun _ => ⟨trivial, rfl⟩⟩
  | some rendered =>
    simp only [h]
    exact ⟨trivial, fun _ => trivial, fun hrendered => absurd hrendered (by decide)⟩

theorem turnRecord_session (prev : Session) (s : ChatContext) (addGen : Bool) (g : Generated) :
    (s.turnRecord F (some prev.lastRender) addGen g).toSession =
      chatTurnRecord F prev s.toSession addGen g := by
  unfold turnRecord chatTurnRecord
  cases g.rc with
  | error e =>
    dsimp only
    split_ifs <;> rfl
  | ok n =>
    dsimp only
    have hadd := addTurnExSteal_session (F := F) { s with toContext := g.ctx }
      { simpleMessage assistantRole (F.splitThinking (assistantText F g)).2 with
        reasoningContent := (F.splitThinking (assistantText F g)).1 } false
    rw [hadd.2]
    split_ifs
    · exact hadd.1
    · rw [hadd.1]
    · rfl

/-- The turn with `think_open` is the turn of the session. -/
theorem chatTurnMsg_session (s : ChatContext) (msg : ChatMessage) (addGen : Bool) (maxTokens : ℤ) :
    ((s.chatTurnMsg M E F P msg addGen maxTokens).1.toSession,
        (s.chatTurnMsg M E F P msg addGen maxTokens).2) =
      contextChatTurnMsg M E F P s.toSession msg addGen maxTokens := by
  obtain ⟨hsession, hrendered⟩ := addTurnExSteal_session (F := F) s msg addGen
  obtain ⟨hmessages, htaken, hkept⟩ := addTurnExSteal_taken (F := F) s msg addGen
  unfold chatTurnMsg contextChatTurnMsg
  dsimp only
  rw [← hsession, ← hrendered]
  generalize s.addTurnExSteal F msg addGen = turn at *
  obtain ⟨added, prevRender, rendered⟩ := turn
  have htake : added.messages.take s.messages.length = s.messages := by
    rw [show added.messages = _ from hmessages, List.take_left]
  split_ifs with hpoisoned hok
  · rfl
  · obtain rfl : rendered = true := hok
    obtain rfl : prevRender = some s.lastRender := htaken rfl
    dsimp only
    cases hids : tailEncodeIds M F added.fedIdsSync with
    | none =>
      refine Prod.ext ?_ rfl
      change { added.fedIdsSync with
        messages := added.messages.take s.messages.length, lastRender := s.lastRender } = _
      rw [htake]
    | some ids =>
      dsimp only
      rw [turnRecord_session s.toSession]
  · obtain rfl : rendered = false := by simpa using hok
    obtain rfl : prevRender = none := (hkept rfl).1
    refine Prod.ext ?_ rfl
    change { added.toSession with messages := added.messages.take s.messages.length } = _
    rw [htake]

/-- The chat and what the next turn is encoded from. -/
structure Unchanged (s s' : ChatContext) : Prop where
  messages : s'.messages = s.messages
  lastRender : s'.lastRender = s.lastRender
  thinkOpen : s'.thinkOpen = s.thinkOpen
  sync : s'.sync = s.sync
  fedIds : s'.fedIds = s.fedIds

/-- A turn that returns an error has poisoned the session, or has taken everything back. -/
theorem chatTurnMsg_failed (h : s.InRoom M) {e : Err}
    (herr : (s.chatTurnMsg M E F P msg addGen maxTokens).2 = .error e)
    (hclean : (s.chatTurnMsg M E F P msg addGen maxTokens).1.sessionPoisoned = s.sessionPoisoned) :
    Unchanged s (s.chatTurnMsg M E F P msg addGen maxTokens).1 := by
  obtain ⟨hsession, -⟩ := addTurnExSteal_session (F := F) s msg addGen
  obtain ⟨hmessages, htaken, hkept⟩ := addTurnExSteal_taken (F := F) s msg addGen
  obtain ⟨hctx, hsync⟩ := addTurn_eq F s.toSession msg addGen
  rw [← hsession] at hctx hsync
  unfold chatTurnMsg at herr hclean ⊢
  dsimp only at herr hclean ⊢
  generalize s.addTurnExSteal F msg addGen = turn at *
  obtain ⟨added, prevRender, rendered⟩ := turn
  change added.toContext = s.toContext.tick at hctx
  have htake : added.messages.take s.messages.length = s.messages := by
    rw [show added.messages = _ from hmessages, List.take_left]
  have hfed : added.fedIds = s.fedIds := by rw [hctx]; rfl
  have hroom : added.InRoom M := by rw [hctx]; exact ⟨h.aligned, h.room⟩
  have hsame : added.toSession.fedIdsSync = added.toSession := by
    change { added.toSession with toContext := { added.toContext with
      toCore := added.toCore.fedIdsSync } } = _
    rw [hroom.aligned.sync_eq]
  cases hpoisoned : s.sessionPoisoned with
  | true => exact ⟨rfl, rfl, rfl, rfl, rfl⟩
  | false =>
    rw [hpoisoned] at hclean
    simp only [hpoisoned, Bool.false_eq_true, if_false] at herr hclean ⊢
    cases rendered with
    | false =>
      obtain rfl : prevRender = none := (hkept rfl).1
      exact ⟨htake, (hkept rfl).2, rfl, hsync, hfed⟩
    | true =>
      obtain rfl : prevRender = some s.lastRender := htaken rfl
      simp only [hsame] at herr hclean ⊢
      cases hids : tailEncodeIds M F added.toSession with
      | none => exact ⟨htake, rfl, rfl, hsync, hfed⟩
      | some ids =>
        simp only [hids] at herr hclean
        have hpois := generatePrompt_error E P hroom.aligned (tailEncodeIds_le F hroom hids) herr
        unfold turnRecord at hclean
        simp only [herr, hpois, if_true] at hclean
        cases hclean

variable (E F) in
/-- In every run of a session a failed turn that does not poison it leaves the chat as it was, and a
link that was good stays good. -/
theorem chatTurnMsg_rollback :
    (∀ ops : List Op, (ops.foldl (Session.apply M E F) .init).InRoom M) ∧
    ∀ (s : ChatContext) (P : Sampling) (msg : ChatMessage) (addGen : Bool) (maxTokens : ℤ) (e : Err),
      s.InRoom M → (s.chatTurnMsg M E F P msg addGen maxTokens).2 = .error e →
      (s.chatTurnMsg M E F P msg addGen maxTokens).1.sessionPoisoned = s.sessionPoisoned →
        Unchanged s (s.chatTurnMsg M E F P msg addGen maxTokens).1 ∧
        (s.chatTurnMsg M E F P msg addGen maxTokens).1.InRoom M ∧
        (s.Linked F → (s.chatTurnMsg M E F P msg addGen maxTokens).1.Linked F) := by
  refine ⟨run_room E F, fun s P msg addGen maxTokens e h herr hclean => ?_⟩
  have hturn := congrArg Prod.fst (chatTurnMsg_session (E := E) (F := F) (P := P) s msg addGen maxTokens)
  dsimp only at hturn
  refine ⟨chatTurnMsg_failed h herr hclean, ?_, fun hlinked => ?_⟩
  · rw [hturn]
    exact apply_room E F h (.chatTurn P msg addGen maxTokens)
  · rw [hturn]
    exact contextChatTurnMsg_linked M E P h.aligned hlinked msg addGen maxTokens

end ChatContext

/-- Seventy bytes do not fit in the small model. -/
def longMessage : ChatMessage := simpleMessage userRole (List.replicate 70 97)

def chatAfterTurn : ChatContext where
  toContext := .fresh [104, 105]
  messages := [simpleMessage userRole [104, 105]]
  lastRender := [104, 105]
  tools := none
  sync := some ([104, 105], 2)
  thinkOpen := true

theorem chatTurnMsg_rollback_long :
    let r := chatAfterTurn.chatTurnMsg (.small false) (.calm _) .bytes ⟨false, false, false, false⟩
      longMessage true 4
    r.2 = .error .invalidArg ∧ r.1.messages = [simpleMessage userRole [104, 105]] ∧
      r.1.lastRender = [104, 105] ∧ r.1.thinkOpen = true ∧ r.1.sync = some ([104, 105], 2) := by
  have herr : (chatAfterTurn.chatTurnMsg (.small false) (.calm _) .bytes
      ⟨false, false, false, false⟩ longMessage true 4).2 = .error .invalidArg := by
    rfl
  have h := ((ChatContext.chatTurnMsg_rollback (Env.calm (.small false)) .bytes).2 chatAfterTurn
    ⟨false, false, false, false⟩ longMessage true 4 .invalidArg ⟨rfl, by decide⟩ herr rfl).1
  exact ⟨herr, h.messages, h.lastRender, h.thinkOpen, h.sync⟩

end Kappai
