import Kappai.Sanity.Slots

/-! A chat request on a slot of the server: its prompt is rendered from its own messages, and
the slot keeps these and at most one answer. A slot is matched by a hash; where the hash and the
separators do not confuse, a matched slot holds a prefix of the request. -/

namespace Kappai

variable (M : Model) (E : Env M) (F : Front)

/-- The slot is filed under the hash of its messages. -/
def OaSlot.FiledAs (fed : List Hashed) (slot : OaSlot) : Prop :=
  slot.nMsgs = slot.sess.messages.length ∧ (slot.sess.messages = [] ∨
    ∃ x ∈ fed, x.messages = slot.sess.messages ∧ slot.fullHash = fnv1a x.bytes)

/-- The hash of the slot is the one of the request's first messages. -/
def OaSlot.MatchedBy (fed : List Hashed) (p : OaReqParams) (slot : OaSlot) : Prop :=
  slot.nMsgs ≤ p.messages.length ∧ p.hashed (p.messages.take slot.nMsgs) ∈ fed ∧
    slot.fullHash = fnv1a (p.hashed (p.messages.take slot.nMsgs)).bytes

/-- What is true of a slot between the steps. -/
structure OaSlot.Filed (fed : List Hashed) (slot : OaSlot) : Prop where
  idle : slot.task = none → slot.FiledAs fed
  matched : ∀ p, slot.task = some (p, true) → slot.FiledAs fed ∧ slot.MatchedBy fed p

theorem OaSlot.FiledAs.mono {fed fed' : List Hashed} {slot : OaSlot} (h : slot.FiledAs fed)
    (hsub : fed ⊆ fed') : slot.FiledAs fed' := by
  refine ⟨h.1, h.2.imp_right ?_⟩
  rintro ⟨x, hx, hrest⟩
  exact ⟨x, hsub hx, hrest⟩

theorem OaSlot.Filed.mono {fed fed' : List Hashed} {slot : OaSlot} (h : slot.Filed fed)
    (hsub : fed ⊆ fed') : slot.Filed fed' := by
  refine ⟨fun hidle => (h.idle hidle).mono hsub, fun p hp => ?_⟩
  obtain ⟨hfiled, hle, hmem, hhash⟩ := h.matched p hp
  exact ⟨hfiled.mono hsub, hle, hsub hmem, hhash⟩

namespace OaServer

def Filed (o : OaServer) : Prop :=
  ∀ (i : ℕ) (slot : OaSlot), o.slots[i]? = some slot → slot.Filed o.fed

theorem init_filed (warm : Session) (slotsCap : ℕ) : (init warm slotsCap).Filed := by
  intro i slot hslot
  cases i with
  | zero =>
    cases hslot
    exact ⟨fun _ => ⟨rfl, Or.inl rfl⟩, by rintro p ⟨⟩⟩
  | succ i => cases hslot

theorem occupy_filed {o : OaServer} {i : ℕ}
    (h : ∀ (j : ℕ) (slot : OaSlot), j ≠ i → o.slots[j]? = some slot → slot.Filed o.fed)
    (p : OaReqParams) (isMatch : Bool) (hmatch : isMatch = true → ∀ slot, o.slots[i]? = some slot →
      slot.FiledAs o.fed ∧ slot.MatchedBy o.fed p) : (o.occupy i p isMatch).Filed := by
  intro j slot hslot
  rw [occupy, List.getElem?_modify] at hslot
  obtain ⟨old, hold, rfl⟩ := Option.map_eq_some_iff.1 hslot
  split_ifs with hij
  · subst hij
    refine ⟨by rintro ⟨⟩, fun q hq => ?_⟩
    cases hq
    exact hmatch rfl old hold
  · exact h j old (Ne.symm hij) hold

theorem start_filed {o : OaServer} (h : o.Filed) (p : OaReqParams) (fresh : Option Session)
    (now : ℕ) : (o.start p fresh now).Filed := by
  have hfiled : (o.chained p).Filed := fun i slot hslot =>
    (h i slot hslot).mono (List.subset_append_left _ _)
  have hchain : ∀ {slot : OaSlot}, (sessionPrefixHashChain p)[slot.nMsgs]? = some slot.fullHash →
      slot.MatchedBy (o.chained p).fed p := by
    intro slot hn
    obtain ⟨hle, heq⟩ := p.chain_getElem? hn
    exact ⟨hle, List.mem_append_right _ (List.mem_map.2 ⟨_, List.mem_range.2 (by omega), rfl⟩), heq⟩
  unfold start
  generalize o.chained p = o at hfiled hchain ⊢
  have hother : ∀ i, (o.occupy i p false).Filed := fun i =>
    occupy_filed (fun j slot _ => hfiled j slot) p false fun hf => absurd hf Bool.false_ne_true
  dsimp only
  split
  · next i hbest hmatch =>
    obtain ⟨k, s, hk, hs, hidle, hhash⟩ := slotPickLoop_matched rfl hmatch
    refine occupy_filed (fun j slot _ => hfiled j slot) p true fun _ slot hslot => ?_
    rw [Nat.zero_add] at hk
    cases hbest.symm.trans hk
    cases hslot.symm.trans hs
    exact ⟨(hfiled i s hs).idle hidle, hchain hhash⟩
  · split
    · next sess _ =>
      refine occupy_filed (fun j slot hj hslot => ?_) p false fun hf => absurd hf Bool.false_ne_true
      refine hfiled j slot ?_
      rcases Nat.lt_or_ge j o.slots.length with hlt | hge
      · rwa [List.getElem?_append_left hlt] at hslot
      · have hlen : (o.slots ++ [OaSlot.mk sess 0 0 now none]).length ≤ j := by
          rw [List.length_append, List.length_singleton]
          omega
        rw [List.getElem?_eq_none hlen] at hslot
        cases hslot
    · split
      · next i _ _ => exact hother i
      · exact hfiled

variable {M E F}

theorem finish_filed {o : OaServer} (h : o.Filed) (i : ℕ) (gone : Bool)
    (calls : Option ToolRewrite) (now : ℕ) : (o.finish M E F i gone calls now).Filed := by
  unfold finish
  cases hslot : o.slots[i]? with
  | none => exact h
  | some slot =>
    cases htask : slot.task with
    | none => simpa only [htask] using h
    | some t =>
      obtain ⟨p, isMatch⟩ := t
      simp only [htask]
      intro j slot' hslot'
      rw [List.getElem?_set] at hslot'
      split_ifs at hslot' with hij hlt
      · cases hslot'
        refine ⟨fun _ => ⟨rfl, Or.inr ⟨_, List.mem_append_right _ List.mem_cons_self, rfl, ?_⟩⟩,
          by rintro q ⟨⟩⟩
        exact p.hash_eq _
      · exact (h j slot' hslot').mono (List.subset_append_left _ _)

theorem foldl_filed {o : OaServer} (h : o.Filed) (ops : List ServerOp) :
    (ops.foldl (apply M E F) o).Filed := by
  induction ops generalizing o with
  | nil => exact h
  | cons op ops ih =>
    cases op with
    | start p fresh now => exact ih (start_filed h p fresh now)
    | finish i gone calls now => exact ih (finish_filed h i gone calls now)

end OaServer

section Run

variable (p : OaReqParams) (isMatch : Bool) (s : Session)

/-- The messages a task starts from. -/
def keptMessages : List ChatMessage := if !isMatch || s.sessionPoisoned then [] else s.messages

theorem oaPrepared_messages : (oaPrepared M F p isMatch s).messages =
    keptMessages isMatch s ++
      (p.messages.dropLast.drop (keptMessages isMatch s).length).map F.stored := by
  unfold oaPrepared keptMessages
  rw [foldl_addMessage]
  split_ifs <;> rfl

/-- The prompt is rendered from what was kept and the rest of the request. -/
theorem oaPrepared_prompt (hkept : (keptMessages isMatch s).length < p.messages.length) :
    (oaPrepared M F p isMatch s).messages ++ [F.stored (p.messages.getLast p.messages_ne)] =
      keptMessages isMatch s ++ (p.messages.drop (keptMessages isMatch s).length).map F.stored := by
  have hlast : p.messages.dropLast.drop (keptMessages isMatch s).length ++
      [p.messages.getLast p.messages_ne] = p.messages.drop (keptMessages isMatch s).length := by
    rw [← List.drop_append_of_le_length (by rw [List.length_dropLast]; omega),
      List.dropLast_append_getLast]
  rw [oaPrepared_messages, List.append_assoc, ← hlast, List.map_append]
  rfl

theorem addTurn_render (s : Session) (msg : ChatMessage) (addGen : Bool) :
    (s.addTurn F msg addGen).1.lastRender =
      (F.render s.clock s.tools (s.messages ++ [F.stored msg]) addGen).getD s.lastRender := by
  unfold Session.addTurn
  dsimp only
  cases F.render s.clock s.tools (s.messages ++ [F.stored msg]) addGen <;> rfl

theorem rewriteLastAssistant_messages {s : Session} {messages : List ChatMessage}
    {am : ChatMessage} (hs : s.messages = messages ++ [am]) (hrole : am.role = assistantRole)
    (r : ToolRewrite) : ∃ am', am'.role = assistantRole ∧
      (s.rewriteLastAssistant F r.content r.reasoning r.toolCalls).messages =
        messages ++ [am'] := by
  unfold Session.rewriteLastAssistant
  rw [hs, List.getLast?_append, List.getLast?_singleton, Option.some_or]
  simp only [hrole, if_true, List.dropLast_concat]
  exact ⟨_, rfl, rfl⟩

theorem oaRunGeneration_messages (calls : Option ToolRewrite) :
    let prepared := oaPrepared M F p isMatch s
    let last := p.messages.getLast p.messages_ne
    let messages := (oaRunGeneration M E F p isMatch false calls s).messages
    (turnIds M F prepared last true = none → messages = prepared.messages) ∧
    (turnIds M F prepared last true ≠ none → messages = prepared.messages ++ [F.stored last] ∨
      ∃ am, am.role = assistantRole ∧ messages = prepared.messages ++ [F.stored last] ++ [am]) := by
  obtain ⟨hnone, hsome⟩ := contextChatTurnMsg_messages M E F p.sampling
    (oaPrepared M F p isMatch s) (p.messages.getLast p.messages_ne) p.maxTokens
  unfold oaRunGeneration
  rw [if_neg Bool.false_ne_true]
  dsimp only
  refine ⟨fun h => ?_, fun h => ?_⟩
  · obtain ⟨hmessages, e, he⟩ := hnone h
    rw [he]
    exact hmessages
  · rcases hsome h with ⟨hmessages, hrc⟩ | ⟨n, am, hn, hrole, hmessages⟩
    · refine Or.inl ?_
      split
      · next hn => exact absurd hn (hrc _)
      · exact hmessages
    · rw [hn]
      cases calls with
      | none => exact Or.inr ⟨am, hrole, hmessages⟩
      | some r => exact Or.inr (rewriteLastAssistant_messages F hmessages hrole r)

end Run

/-- The messages of a matched slot are the first ones of the request, where the hash tells what
it is fed apart and the separators do not occur in the texts. -/
theorem OaSlot.matched_fields {fed : List Hashed} {slot : OaSlot} {p : OaReqParams}
    (hfiled : slot.FiledAs fed) (hmatched : slot.MatchedBy fed p) (hclean : ∀ x ∈ fed, x.Clean)
    (hinj : ∀ x ∈ fed, ∀ y ∈ fed, fnv1a x.bytes = fnv1a y.bytes → x.bytes = y.bytes) :
    slot.sess.messages.length ≤ p.messages.length ∧
      slot.sess.messages.map ChatMessage.fields =
        (p.messages.take slot.sess.messages.length).map ChatMessage.fields := by
  obtain ⟨hn, hhash⟩ := hfiled
  obtain ⟨hle, hmem, htake⟩ := hmatched
  rw [hn] at hle hmem htake
  refine ⟨hle, ?_⟩
  rcases hhash with hnil | ⟨x, hx, hmessages, hxhash⟩
  · rw [hnil]
    rfl
  · have hbytes := hinj x hx _ hmem (hxhash.symm.trans htake)
    have hfields := Hashed.fields_of_bytes (hclean x hx) (hclean _ hmem) hbytes
    rw [hmessages] at hfields
    exact hfields

def plainRequest (messages : List ChatMessage) (h : messages ≠ []) : OaReqParams where
  messages := messages
  messages_ne := h
  tools := none
  toolChoice := none
  forcedFunction := none
  maxTokens := 4
  sampling := ⟨false, true, false, false⟩

/-- A request of user messages. -/
def userRequest (contents : List Text) (h : contents ≠ []) : OaReqParams :=
  plainRequest (contents.map (simpleMessage userRole)) (by simpa using h)

def servedOnce (ops : List ServerOp) : OaServer :=
  ops.foldl (OaServer.apply (.small false) (.calm _) .bytes) (OaServer.init Session.init 1)

/-- A request, and one that continues it. -/
def continued : List ServerOp :=
  [.start (userRequest [[97]] (by decide)) none 1, .finish 0 false none 2,
    .start (userRequest [[97], [98]] (by decide)) none 3]

/-- The client has left before its request is run. -/
def leftEarly : List ServerOp :=
  [.start (userRequest [[97]] (by decide)) none 1, .finish 0 true none 2]

/-- The prompt does not fit. -/
def unfit : List ServerOp :=
  [.start (userRequest [List.replicate 65 97] (by decide)) none 1, .finish 0 false none 2]

/-- A content with a separator in it, and a request that splits the same bytes otherwise. -/
def confused : List ServerOp :=
  [.start (userRequest [[97, unitSep, 98]] (by decide)) none 1, .finish 0 false none 2,
    .start (plainRequest [⟨userRole, [97], none, none, some [98], some [unitSep]⟩,
      simpleMessage userRole [98]] (by decide)) none 3]

end Kappai
