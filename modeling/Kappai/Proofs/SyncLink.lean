import Kappai.Sanity.Session

/-! The link between the rendered chat and the cached tokens. `tail_encode_ids` encodes only
what a render adds to the one it encoded last, and takes the ids of the rest from the cache.
That is right as long as the linked cached tokens are the ones that were encoded. -/

namespace Kappai

variable (M : Model) (E : Env M) (F : Front) (P : Sampling)

/-- `ids` are what was encoded for the text: all of it at once, or a suffix after a clean
token boundary. -/
inductive EncodedFor : Text → List Token → Prop
  | whole (text : Text) : EncodedFor text (F.encode text)
  | extend {text suffix : Text} {ids : List Token} {last : Token} :
      EncodedFor text ids → ids.getLast? = some last →
      tailBoundaryIsClean F last suffix (F.encode suffix) →
      EncodedFor (text ++ suffix) (ids ++ F.encode suffix)

/-- The cached tokens below the link were encoded for its text. -/
def Session.Linked (s : Session) : Prop :=
  ∀ render tok, s.sync = some (render, tok) → tok ≤ s.fedIds.n →
    EncodedFor F render (s.fedIds.ids.take tok)

/-- The link reaches no further than position `k`. -/
def Session.linkBelow (s : Session) (k : ℕ) : Bool :=
  match s.sync with
  | none => true
  | some (_, tok) => tok ≤ k

theorem Session.linkBelow_iff (s : Session) (k : ℕ) :
    s.linkBelow k ↔ ∀ render tok, s.sync = some (render, tok) → tok ≤ k := by
  unfold linkBelow
  rcases s.sync with - | ⟨render, tok⟩
  · simp
  · simp only [decide_eq_true_eq, Option.some.injEq, Prod.mk.injEq]
    exact ⟨fun h _ _ heq => heq.2 ▸ h, fun h => h render tok ⟨rfl, rfl⟩⟩

variable {F}

theorem encodeWhole_encoded {text : Text} {ids : List Token}
    (h : encodeWhole M F text = some ids) : EncodedFor F text ids := by
  unfold encodeWhole at h
  split_ifs at h
  cases h
  exact .whole text

/-- On a good link the ids of `tail_encode_ids` encode the render. -/
theorem tailEncodeIds_encoded {s : Session} (h : s.Linked F) {ids : List Token}
    (hids : tailEncodeIds M F s = some ids) : EncodedFor F s.lastRender ids := by
  unfold tailEncodeIds at hids
  cases hsync : s.sync with
  | none =>
    rw [hsync] at hids
    exact encodeWhole_encoded M hids
  | some link =>
    obtain ⟨render, tok⟩ := link
    rw [hsync] at hids
    simp only at hids
    split_ifs at hids with hok hfits hclean
    · cases hids
      simp only [Session.syncInvariantOk, hsync, Bool.and_eq_true, decide_eq_true_eq] at hok
      obtain ⟨⟨hpos, hle⟩, hprefix⟩ := hok
      obtain ⟨suffix, hsuffix⟩ := List.isPrefixOf_iff_prefix.1 hprefix
      rw [← hsuffix, List.drop_left] at hclean ⊢
      refine .extend (h render tok hsync hle) (?_ : _ = some (s.fedIds.p (tok - 1))) hclean
      have hlast : (s.fedIds.ids.take tok).length = tok := by
        rw [List.length_take, FedIds.ids_length, Nat.min_eq_left hle]
      rw [List.getLast?_eq_getElem?, hlast, List.getElem?_take_of_lt (by omega), FedIds.ids,
        List.getElem?_map, List.getElem?_range (by omega)]
      rfl
    · exact encodeWhole_encoded M hids
    · exact encodeWhole_encoded M hids

/-- The link stays good while its tokens stay. -/
theorem Session.Linked.keep {s s' : Session} (h : s.Linked F) (hsync : s'.sync = s.sync)
    (hkeep : ∀ render tok, s.sync = some (render, tok) → tok ≤ s'.fedIds.n →
      tok ≤ s.fedIds.n ∧ s'.fedIds.ids.take tok = s.fedIds.ids.take tok) : s'.Linked F := by
  intro render tok hlink hle
  rw [hsync] at hlink
  obtain ⟨hold, heq⟩ := hkeep render tok hlink hle
  rw [heq]
  exact h render tok hlink hold

/-- A cache that is cut, or grown, or compared with a prompt, keeps what it shares with the
prompt. -/
theorem take_of_comparable {fed fed' prompt : List Token} {tok : ℕ}
    (hcomp : fed' <+: prompt ∨ prompt <+: fed') (hle : tok ≤ fed'.length)
    (hcommon : tok ≤ commonPrefix fed prompt) : fed'.take tok = fed.take tok := by
  rw [take_eq_of_le_commonPrefix hcommon]
  have hprompt := hcommon.trans (commonPrefix_le_right fed prompt)
  rcases hcomp with ⟨t, rfl⟩ | ⟨t, rfl⟩
  · rw [List.take_append_of_le_length hle]
  · rw [List.take_append_of_le_length hprompt]

/-- The link stays good over an operation that shares the tokens below it. -/
theorem Session.Linked.comparable {s s' : Session} (h : s.Linked F) (hsync : s'.sync = s.sync)
    (prompt : List Token) (hcomp : s'.fedIds.ids <+: prompt ∨ prompt <+: s'.fedIds.ids)
    (hbelow : s.linkBelow (s.fedIdsCommonPrefix prompt)) : s'.Linked F :=
  h.keep hsync fun render tok hlink hle => by
    have hcommon := (s.linkBelow_iff _).1 hbelow render tok hlink
    have hleft := commonPrefix_le_left s.fedIds.ids prompt
    rw [FedIds.ids_length] at hleft
    exact ⟨hcommon.trans hleft, take_of_comparable hcomp (by rwa [FedIds.ids_length]) hcommon⟩

theorem Session.Linked.of_sync_none {s : Session} (h : s.sync = none) : s.Linked F := by
  intro render tok hlink
  rw [h] at hlink
  cases hlink

variable (F)

/-- Whether the feed of an idle prefill that starts in `s` leaves a good link: one that comes
through has to have replaced the cache by its header, and one that breaks off must not have
overwritten linked tokens before. -/
def idleKept (s : Session) (kept : Bool) (ids : List Token) : Bool :=
  let reuse := s.fedIdsCommonPrefix ids
  let rewound := idleRewound M s reuse
  let fed := contextFeedTokensBatch M E rewound.toCore (ids.drop reuse)
  match fed.2 with
  | .ok _ => !M.hybrid || s.fedIds.n ≤ reuse
  | .error _ => kept && (M.hybrid || s.linkBelow reuse || fed.1.nPos == rewound.nPos)

/-- Whether the tokens below the link are still those it was set for after an operation. -/
def linkKept (s : Session) (kept : Bool) : Op → Bool
  | .completion _ prompt _ =>
    kept && match completionIds M F prompt with
      | none => true
      | some ids => s.linkBelow (s.fedIdsCommonPrefix ids)
  | .decision ids => kept && s.linkBelow (s.fedIdsCommonPrefix ids)
  | .warmup _ => kept && s.linkBelow s.fedIds.n
  | .idlePrefill =>
    match idleStart M E F s with
    | (_, none) => kept
    | (s, some (_, ids)) => idleKept M E s kept ids
  | _ => kept

/-- A step of a session together with `linkKept`; there is nothing to keep of a link that is
down. -/
def linkStep (t : Session × Bool) (op : Op) : Session × Bool :=
  (t.1.apply M E F op, (t.1.apply M E F op).sync.isNone || linkKept M E F t.1 t.2 op)

/-- A chat turn is started on a link whose tokens are still there. -/
def turnKept (t : Session × Bool) : Op → Bool
  | .chatTurn .. => t.2
  | _ => true

structure LinkInv (t : Session × Bool) : Prop where
  aligned : t.1.Aligned
  linked : t.2 → t.1.Linked F

variable {F}

/-- A feed after a rewind writes over entries of `fed_ids` only past the rewound count. -/
theorem idleRewound_p {s : Session} (h : s.Aligned) {ids : List Token} {tok k : ℕ}
    (hle : tok ≤ s.fedIds.n)
    (hkept : M.hybrid ∨ tok ≤ s.fedIdsCommonPrefix ids ∨ k = 0) (tokens : List Token) {i : ℕ}
    (hi : i < tok) :
    ((idleRewound M s (s.fedIdsCommonPrefix ids)).fedIds.appendAll (tokens.take k)).p i =
      s.fedIds.p i := by
  have hreuse : s.fedIdsCommonPrefix ids ≤ s.fedIds.n := by
    have := commonPrefix_le_left s.fedIds.ids ids
    rwa [FedIds.ids_length] at this
  have hp : (idleRewound M s (s.fedIdsCommonPrefix ids)).fedIds.p = s.fedIds.p := by
    unfold idleRewound
    simp only
    split_ifs <;> rfl
  have hn : tok ≤ (idleRewound M s (s.fedIdsCommonPrefix ids)).fedIds.n ∨ k = 0 := by
    unfold idleRewound
    simp only
    split_ifs with hrewind
    · rw [Core.rewind_of_le hreuse (by rw [← h]; exact hreuse)]
      rcases hkept with hhyb | hcommon | hk
      · simp [hhyb] at hrewind
      · exact Or.inl hcommon
      · exact Or.inr hk
    · exact Or.inl hle
  rw [← hp]
  rcases hn with hn | rfl
  · exact FedIds.appendAll_p_of_lt _ _ (hi.trans_le hn)
  · rw [List.take_zero, FedIds.appendAll_nil]

theorem idleFeed_linked {s : Session} (haligned : s.Aligned) {kept : Bool}
    (h : kept → s.Linked F) {header : Text} (hkept : idleKept M E s kept (F.encode header)) :
    (idleFeed M E s header (F.encode header)).Linked F := by
  set ids := F.encode header with hids
  have hrewound := idleRewound_aligned M haligned (s.fedIdsCommonPrefix ids)
  obtain ⟨k, hfed, hall⟩ := contextFeedTokensBatch_fed M E _ hrewound.le
    (ids.drop (s.fedIdsCommonPrefix ids))
  unfold idleKept at hkept
  unfold idleFeed
  simp only at hkept ⊢
  generalize contextFeedTokensBatch M E (idleRewound M s (s.fedIdsCommonPrefix ids)).toCore
    (ids.drop (s.fedIdsCommonPrefix ids)) = r at hfed hall hkept ⊢
  obtain ⟨core, st⟩ := r
  cases st with
  | ok rc =>
    intro render tok hlink _
    cases hlink
    have hkeep := idleRewound_ids M haligned ids (by
      simpa only [Bool.or_eq_true, Bool.not_eq_true', decide_eq_true_eq] using hkept)
    have hcore : core.fedIds.ids = ids := by
      rw [hfed.fedIds, FedIds.ids_appendAll, hkeep, hall ⟨rc, rfl⟩, List.take_length,
        List.take_append_drop]
    simp only [hcore, List.take_length]
    exact .whole header
  | error e =>
    simp only [Bool.and_eq_true, Bool.or_eq_true, beq_iff_eq] at hkept
    refine (h hkept.1).keep rfl fun render tok hlink hle => ⟨hle, ?_⟩
    have hk : M.hybrid ∨ tok ≤ s.fedIdsCommonPrefix ids ∨ k = 0 := by
      refine hkept.2.elim (Or.imp_right fun hbelow => Or.inl ?_) fun hnone => Or.inr (Or.inr ?_)
      · exact (s.linkBelow_iff _).1 hbelow render tok hlink
      · have hpos : core.nPos =
            (idleRewound M s (s.fedIdsCommonPrefix ids)).nPos + k := hfed.nPos
        have hsame : core.nPos = (idleRewound M s (s.fedIdsCommonPrefix ids)).nPos := hnone
        omega
    have htake : ∀ p : ℕ → Token, (FedIds.mk p s.fedIds.n).ids.take tok = (List.range tok).map p :=
      fun p => by rw [FedIds.ids, ← List.map_take, List.take_range, Nat.min_eq_left hle]
    simp only
    rw [htake, show s.fedIds = FedIds.mk s.fedIds.p s.fedIds.n from rfl, htake]
    refine List.map_congr_left fun i hi => ?_
    rw [hfed.fedIds]
    exact idleRewound_p M haligned hle hk _ (List.mem_range.1 hi)

theorem contextCompletion_linked {s : Session} (haligned : s.Aligned) (h : s.Linked F)
    (prompt : Text) (maxTokens : ℤ)
    (hkept : ∀ ids, completionIds M F prompt = some ids →
      s.linkBelow (s.fedIdsCommonPrefix ids)) :
    (contextCompletion M E F P s prompt maxTokens).1.Linked F := by
  unfold contextCompletion
  cases hids : completionIds M F prompt with
  | none => exact h
  | some ids =>
    have hctx : s.fedIdsSync.toContext = s.toContext := by
      change s.toContext.sync = _
      rw [Context.sync, haligned.sync_eq]
    have hcache := (generatePrompt_cache M E P (Nat.zero_le _) haligned.holds ids maxTokens).2
    simp only [hctx]
    exact h.comparable rfl ids hcache (hkept ids hids)

theorem contextChatTurnMsg_linked {s : Session} (haligned : s.Aligned) (h : s.Linked F)
    (msg : ChatMessage) (addGen : Bool) (maxTokens : ℤ) :
    (contextChatTurnMsg M E F P s msg addGen maxTokens).1.Linked F := by
  have htick : Core.Aligned s.toContext.tick.toCore := haligned
  rcases contextChatTurnMsg_cases M E F P haligned msg addGen maxTokens with
    ⟨-, hsync, clock, hctx⟩ |
    ⟨ids, added, -, -, hadded, hlink, hids, hsync, clock, poisoned, -, hctx⟩
  · exact h.keep hsync fun render tok _ hle => by
      rw [hctx] at hle ⊢
      exact ⟨hle, rfl⟩
  · have hlinked : added.Linked F := h.keep hlink fun render tok _ hle => by
      rw [hadded] at hle ⊢
      exact ⟨hle, rfl⟩
    have hcache := (generatePrompt_cache M E P (Nat.zero_le _) htick.holds ids maxTokens).2
    intro render tok hnew hle
    rw [hsync] at hnew
    cases hnew
    rw [hctx] at hle ⊢
    have htake : (generatePrompt M E P s.toContext.tick ids maxTokens).ctx.fedIds.ids.take
        ids.length = ids := by
      rcases hcache with hpre | hpre
      · rw [hpre.eq_of_length_le (by rw [FedIds.ids_length]; exact hle), List.take_length]
      · exact (List.prefix_iff_eq_take.1 hpre).symm
    exact htake.symm ▸ tailEncodeIds_encoded M hlinked hids

theorem decision_linked {s : Session} (haligned : s.Aligned) (h : s.Linked F)
    (ids : List Token) (hkept : s.linkBelow (s.fedIdsCommonPrefix ids)) :
    (s.decision M E ids).Linked F := by
  unfold Session.decision
  split_ifs
  · exact .of_sync_none rfl
  · have hholds := (contextPrefillPrompt_holds E (Nat.zero_le _) haligned.holds ids).2.1
    refine h.comparable rfl ids (Or.inl ?_) hkept
    change (contextPrefillPrompt M E s.toCore ids).1.fedIds.ids <+: ids
    rw [hholds.fedIds]
    exact List.take_prefix _ _

theorem idlePrefill_linked {s : Session} (haligned : s.Aligned) {kept : Bool}
    (h : kept → s.Linked F) (hkept : linkKept M E F s kept .idlePrefill) :
    (idlePrefill M E F s).Linked F := by
  obtain ⟨clock, hs, hfound⟩ := idleStart_eq M E F haligned
  unfold linkKept at hkept
  unfold idlePrefill
  generalize idleStart M E F s = r at hs hfound hkept ⊢
  obtain ⟨s₁, found⟩ := r
  simp only at hs hfound hkept ⊢
  subst hs
  cases found with
  | none => exact h hkept
  | some found =>
    obtain ⟨header, ids⟩ := found
    obtain ⟨rfl, -⟩ := hfound header ids rfl
    exact idleFeed_linked M E (s := { s with clock := clock }) haligned h hkept

theorem linkStep_inv {t : Session × Bool} (h : LinkInv F t) {op : Op} (hok : turnKept t op) :
    LinkInv F (linkStep M E F t op) := by
  obtain ⟨s, kept⟩ := t
  refine ⟨apply_aligned M E F h.aligned op, fun hkept => ?_⟩
  simp only [linkStep, Bool.or_eq_true] at hkept
  rcases hkept with hnone | hkept
  · exact .of_sync_none (Option.isNone_iff_eq_none.1 hnone)
  have hlinked := h.linked
  simp only at hlinked
  cases op with
  | chatTurn P msg addGen maxTokens =>
    exact contextChatTurnMsg_linked M E P h.aligned (hlinked hok) msg addGen maxTokens
  | completion P prompt maxTokens =>
    simp only [linkKept, Bool.and_eq_true] at hkept
    refine contextCompletion_linked M E P h.aligned (hlinked hkept.1) prompt maxTokens ?_
    intro ids hids
    simpa only [hids] using hkept.2
  | idlePrefill => exact idlePrefill_linked M E h.aligned hlinked hkept
  | decision ids =>
    simp only [linkKept, Bool.and_eq_true] at hkept
    exact decision_linked M E h.aligned (hlinked hkept.1) ids hkept.2
  | warmup tokens =>
    simp only [linkKept, Bool.and_eq_true] at hkept
    have hpre := (contextFeedTokensBatch_aligned M E h.aligned tokens).2
    refine (hlinked hkept.1).keep rfl fun render tok hlink _ => ?_
    have hle := (s.linkBelow_iff _).1 hkept.2 render tok hlink
    refine ⟨hle, ?_⟩
    obtain ⟨t, ht⟩ := hpre
    change (contextFeedTokensBatch M E s.toCore tokens).1.fedIds.ids.take tok = _
    rw [← ht, List.take_append_of_le_length (by rwa [FedIds.ids_length])]
  | rewind pos =>
    refine (hlinked hkept).keep rfl fun render tok _ hle => ?_
    have hle' : tok ≤ (s.toCore.rewind pos).nPos := hle
    refine ⟨hle'.trans ?_, ?_⟩
    · rw [show s.fedIds.n = s.nPos from h.aligned]
      exact Nat.min_le_right _ _
    · change (s.toCore.rewind pos).fedIds.ids.take tok = _
      rw [Core.rewind_ids, List.take_take, Nat.min_eq_left hle']
  | resetSession => exact .of_sync_none rfl
  | reset => exact .of_sync_none rfl
  | setTools tools => exact .of_sync_none rfl
  | addMessage msg => exact hlinked hkept
  | addTurn msg =>
    obtain ⟨hctx, hsync⟩ := addTurn_eq F s msg false
    refine (hlinked hkept).keep hsync fun render tok _ hle => ?_
    change tok ≤ (s.addTurn F msg false).1.fedIds.n at hle
    change _ ∧ (s.addTurn F msg false).1.fedIds.ids.take tok = _
    rw [hctx] at hle ⊢
    exact ⟨hle, rfl⟩
  | rewriteLastAssistant content reasoning toolCalls =>
    change (s.rewriteLastAssistant F content reasoning toolCalls).Linked F
    unfold Session.rewriteLastAssistant
    cases s.messages.getLast? with
    | none => exact hlinked hkept
    | some last =>
      simp only
      split_ifs
      · exact .of_sync_none rfl
      · exact hlinked hkept
  | taskStart => exact hlinked hkept
  | taskFinish => exact hlinked hkept

theorem linkStep_fst (t : Session × Bool) (ops : List Op) :
    (ops.foldl (linkStep M E F) t).1 = ops.foldl (Session.apply M E F) t.1 := by
  induction ops generalizing t with
  | nil => rfl
  | cons op ops ih => exact ih (linkStep M E F t op)

variable (F)

/-- Wherever a run goes on with a chat turn, the link that `tail_encode_ids` finds is good
and the ids it returns encode the render: in every run whose chat turns all start on a link
that has been kept. -/
theorem tailEncodeIds_encodes_render (ops : List Op) (msg : ChatMessage) (addGen : Bool)
    (maxTokens : ℤ)
    (hrun : SafeRun (linkStep M E F) (fun t op => turnKept t op) (Session.init, true)
      (ops ++ [.chatTurn P msg addGen maxTokens])) :
    let s := ops.foldl (Session.apply M E F) Session.init
    let added := (s.addTurn F msg addGen).1.fedIdsSync
    (added.syncInvariantOk → ∃ render tok, added.sync = some (render, tok) ∧
      EncodedFor F render (added.fedIds.ids.take tok)) ∧
    ∀ ids, tailEncodeIds M F added = some ids → EncodedFor F added.lastRender ids := by
  obtain ⟨hbefore, hkept, -⟩ := safeRun_append.1 hrun
  have hinit : LinkInv F (Session.init, true) := ⟨rfl, fun _ => .of_sync_none rfl⟩
  have hstep : ∀ t op, LinkInv F t → turnKept t op → LinkInv F (linkStep M E F t op) :=
    fun _ _ h hok => linkStep_inv M E h hok
  have hinv := hbefore.inv hstep hinit
  have hs := hinv.linked hkept
  have haligned := hinv.aligned
  rw [linkStep_fst] at hs haligned
  intro s added
  obtain ⟨hctx, hsync⟩ := addTurn_eq F s msg addGen
  have hadded : added.toContext = s.toContext.tick := by
    have : Core.Aligned (s.addTurn F msg addGen).1.toCore := by rw [hctx]; exact haligned
    change (s.addTurn F msg addGen).1.toContext.sync = _
    rw [Context.sync, this.sync_eq, ← hctx]
  have hlinked : added.Linked F := hs.keep hsync fun render tok _ hle => by
    rw [hadded] at hle ⊢
    exact ⟨hle, rfl⟩
  refine ⟨fun hok => ?_, fun ids hids => tailEncodeIds_encoded M hlinked hids⟩
  unfold Session.syncInvariantOk at hok
  split at hok
  · cases hok
  · next render tok hlink =>
    simp only [Bool.and_eq_true, decide_eq_true_eq] at hok
    exact ⟨render, tok, hlink, hlinked render tok hlink hok.1.2⟩

/-- With a tokenizer that loses nothing, ids that were encoded for a text decode to it. -/
theorem EncodedFor.decode {text : Text} {ids : List Token} (h : EncodedFor F text ids)
    (hF : ∀ text, (F.encode text).flatMap F.decode = text) : ids.flatMap F.decode = text := by
  induction h with
  | whole text => exact hF text
  | extend _ _ _ ih => rw [List.flatMap_append, ih, hF]

/-- Bytes are tokens of their own, but two newlines make one token. -/
def newlinesEncode : Text → List Token
  | 10 :: 10 :: text => 2 :: newlinesEncode text
  | b :: text => (b.toNat + 3 : ℕ) :: newlinesEncode text
  | [] => []

def newlinesDecode (t : Token) : Text :=
  if t = 2 then [10, 10] else if 3 ≤ t ∧ t < 259 then [UInt8.ofNat (t - 3).toNat] else []

theorem newlinesEncode_lossless (text : Text) :
    (newlinesEncode text).flatMap newlinesDecode = text := by
  fun_induction newlinesEncode text with
  | case1 text ih => simp [newlinesDecode, ih]
  | case2 b text _ ih =>
    have hb := b.toNat_lt
    have hdecode : newlinesDecode (b.toNat + 3 : ℕ) = [b] := by
      have hne : ((b.toNat + 3 : ℕ) : ℤ) ≠ 2 := by omega
      have hlt : 3 ≤ ((b.toNat + 3 : ℕ) : ℤ) ∧ ((b.toNat + 3 : ℕ) : ℤ) < 259 := by omega
      unfold newlinesDecode
      rw [if_neg hne, if_pos hlt]
      simp
    rw [List.flatMap_cons, hdecode, ih]
    rfl
  | case3 => rfl

/-- User turns are framed by `u` and `e`; answers stand between a newline and a long rule. -/
def Front.newlines : Front where
  encode := newlinesEncode
  decode := newlinesDecode
  bos := none
  think := none
  thinkLabelLine := false
  keepThinkingInHistory := false
  render _ _ messages addGen := some <|
    messages.flatMap (fun m =>
      if m.role = userRole then 117 :: (m.content ++ [101])
      else 10 :: (m.content ++ List.replicate 40 45)) ++ if addGen then [10] else []

/-- A prefill of more than 32 tokens takes two chunks. -/
def Model.chunky : Model :=
  { Model.small false with nCtx := 128, vocab := 300, kvBytesPerToken := 1 <<< 20 }

/-- The model answers the first turn with a newline; an interrupt comes at `clock`. -/
def Env.newlineThenStop (clock : ℕ) : Env .chunky where
  interrupt t := t == clock
  pass _ := .ok
  step _ := .read
  canShift _ := true
  shift _ := .ok
  pickReg _ := .error .unsupported
  readReg _ := some .unsupported
  pick _ := .error .unsupported
  sample t := if t = 5 then 13 else 0

/-- A chat turn and the idle prefill after it. -/
def turnThenIdle : List Op :=
  [.chatTurn ⟨false, true, false, false⟩ (simpleMessage userRole [120]) true 10, .idlePrefill]

theorem tailEncodeIds_encodes_render_idle :
    let s := turnThenIdle.foldl (Session.apply .chunky (.newlineThenStop 100) .newlines) .init
    let added := (s.addTurn .newlines (simpleMessage userRole [121]) true).1.fedIdsSync
    added.syncInvariantOk = true ∧
      ∀ ids, tailEncodeIds .chunky .newlines added = some ids →
        EncodedFor .newlines added.lastRender ids := by
  have h := tailEncodeIds_encodes_render .chunky (.newlineThenStop 100) .newlines
    ⟨false, true, false, false⟩ turnThenIdle (simpleMessage userRole [121]) true 10
    (by decide +kernel)
  exact ⟨by decide +kernel, h.2⟩

/-- The second chunk of the idle prefill is interrupted. It puts the counts and the link
back, but the first chunk has put the double newline of the header in the place of the
single newline of the render, which the next turn takes for the one it encoded. -/
theorem tailEncodeIds_stale_link :
    let s := turnThenIdle.foldl (Session.apply .chunky (.newlineThenStop 18) .newlines) .init
    let added := (s.addTurn .newlines (simpleMessage userRole [121]) true).1.fedIdsSync
    added.syncInvariantOk = true ∧ added.sync = some ([117, 120, 101, 10], 4) ∧
      ¬ EncodedFor .newlines [117, 120, 101, 10] (added.fedIds.ids.take 4) ∧
      ∃ ids, tailEncodeIds .chunky .newlines added = some ids ∧
        ¬ EncodedFor .newlines added.lastRender ids := by
  intro s added
  have hids : ∃ ids, tailEncodeIds .chunky .newlines added = some ids ∧
      ids.flatMap newlinesDecode ≠ added.lastRender := by decide +kernel
  refine ⟨by decide +kernel, by decide +kernel, fun h => ?_, ?_⟩
  · have hdecode := h.decode _ newlinesEncode_lossless
    revert hdecode
    decide +kernel
  · obtain ⟨ids, hsome, hne⟩ := hids
    exact ⟨ids, hsome, fun h => hne (h.decode _ newlinesEncode_lossless)⟩

end Kappai
