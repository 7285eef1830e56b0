import Kappai.Lib.Framing
import Kappai.Sanity.Session
import Kappai.Spec.Slots

/-! What is fed to the hash of a slot, how a slot is matched, and what a chat task does to the
messages of its session. -/

namespace Kappai

open Framing

theorem fnv1aUpdateStr_append (h : UInt64) (s t : Text) :
    fnv1aUpdateStr h (s ++ t) = fnv1aUpdateStr (fnv1aUpdateStr h s) t := List.foldl_append

namespace ChatMessage

/-- The fields the hash keeps apart: the content, the reasoning and the tool calls are one. -/
def fields (m : ChatMessage) : Text × Text × Text × Text :=
  (m.role, m.content ++ m.reasoningContent.getD [] ++ m.toolCalls.getD [], m.toolCallId.getD [],
    m.name.getD [])

/-- The bytes of a message, without the terminator. -/
def bytes (m : ChatMessage) : Text :=
  m.fields.1 ++ unitSep :: (m.fields.2.1 ++ unitSep :: (m.fields.2.2.1 ++ unitSep :: m.fields.2.2.2))

/-- No text of the message holds a separator. -/
def Clean (m : ChatMessage) : Prop :=
  ∀ text ∈ [m.fields.1, m.fields.2.1, m.fields.2.2.1, m.fields.2.2.2],
    unitSep ∉ text ∧ recordSep ∉ text

instance (m : ChatMessage) : Decidable m.Clean := inferInstanceAs (Decidable (∀ _ ∈ _, _))

theorem oaMessageHash_eq (h : UInt64) (m : ChatMessage) :
    oaMessageHash h m = fnv1aUpdateStr h (m.bytes ++ [recordSep]) := by
  unfold oaMessageHash
  simp only [← fnv1aUpdateStr_append]
  congr 1
  simp [bytes, fields]

theorem bytes_clean {m : ChatMessage} (h : m.Clean) : recordSep ∉ m.bytes := by
  have hsep : recordSep ≠ unitSep := by decide
  simp only [Clean, List.mem_cons, List.not_mem_nil, or_false, forall_eq_or_imp, forall_eq] at h
  obtain ⟨⟨-, h1⟩, ⟨-, h2⟩, ⟨-, h3⟩, -, h4⟩ := h
  simp only [bytes, List.mem_append, List.mem_cons, not_or]
  exact ⟨h1, hsep, h2, hsep, h3, hsep, h4⟩

/-- The fields of a clean message can be read back. -/
theorem fields_of_bytes {m m' : ChatMessage} (h : m.Clean) (h' : m'.Clean)
    (heq : m.bytes = m'.bytes) : m.fields = m'.fields := by
  simp only [Clean, List.mem_cons, List.not_mem_nil, or_false, forall_eq_or_imp, forall_eq] at h h'
  obtain ⟨h1, heq⟩ := append_cons_inj h.1.1 h'.1.1 heq
  obtain ⟨h2, heq⟩ := append_cons_inj h.2.1.1 h'.2.1.1 heq
  obtain ⟨h3, h4⟩ := append_cons_inj h.2.2.1.1 h'.2.2.1.1 heq
  exact Prod.ext h1 (Prod.ext h2 (Prod.ext h3 h4))

end ChatMessage

namespace Hashed

def header (x : Hashed) : Text :=
  x.tools.getD [] ++ unitSep :: (x.toolChoice.getD [] ++ x.forcedFunction.getD [])

/-- The bytes that are fed to the hash. -/
def bytes (x : Hashed) : Text :=
  terminated recordSep (x.header :: x.messages.map ChatMessage.bytes)

/-- The header holds no terminator and the messages are clean. -/
def Clean (x : Hashed) : Prop := recordSep ∉ x.header ∧ ∀ m ∈ x.messages, m.Clean

instance (x : Hashed) : Decidable x.Clean := inferInstanceAs (Decidable (_ ∧ _))

theorem fields_of_bytes {x y : Hashed} (hx : x.Clean) (hy : y.Clean) (heq : x.bytes = y.bytes) :
    x.messages.map ChatMessage.fields = y.messages.map ChatMessage.fields := by
  have hclean : ∀ {z : Hashed}, z.Clean →
      ∀ r ∈ z.header :: z.messages.map ChatMessage.bytes, recordSep ∉ r := by
    intro z hz r hr
    rcases List.mem_cons.1 hr with rfl | hr
    · exact hz.1
    · obtain ⟨m, hm, rfl⟩ := List.mem_map.1 hr
      exact ChatMessage.bytes_clean (hz.2 m hm)
  obtain ⟨-, hbytes⟩ := List.cons.inj (terminated_inj (hclean hx) (hclean hy) heq)
  have key : ∀ xs ys : List ChatMessage, (∀ m ∈ xs, m.Clean) → (∀ m ∈ ys, m.Clean) →
      xs.map ChatMessage.bytes = ys.map ChatMessage.bytes →
      xs.map ChatMessage.fields = ys.map ChatMessage.fields := by
    intro xs
    induction xs with
    | nil =>
      intro ys _ _ h
      rw [List.map_nil, eq_comm, List.map_eq_nil_iff] at h
      rw [h]
    | cons m xs ih =>
      intro ys hxs hys h
      cases ys with
      | nil => cases h
      | cons m' ys =>
        obtain ⟨hm, hrest⟩ := List.cons.inj h
        rw [List.map_cons, List.map_cons,
          ChatMessage.fields_of_bytes (hxs m List.mem_cons_self) (hys m' List.mem_cons_self) hm,
          ih ys (fun z hz => hxs z (List.mem_cons_of_mem _ hz))
            (fun z hz => hys z (List.mem_cons_of_mem _ hz)) hrest]
  exact key _ _ hx.2 hy.2 hbytes

end Hashed

namespace OaReqParams

variable (p : OaReqParams)

theorem foldl_oaMessageHash (h : UInt64) (messages : List ChatMessage) :
    messages.foldl oaMessageHash h =
      fnv1aUpdateStr h (terminated recordSep (messages.map ChatMessage.bytes)) := by
  induction messages generalizing h with
  | nil => rfl
  | cons m messages ih =>
    rw [List.foldl_cons, ih, ChatMessage.oaMessageHash_eq, ← fnv1aUpdateStr_append, List.map_cons,
      terminated_cons]
    simp

/-- A hash of the chain, and the hash a slot is filed under, is the hash of some bytes. -/
theorem hash_eq (messages : List ChatMessage) :
    messages.foldl oaMessageHash (sessionHeaderHash p) = fnv1a (p.hashed messages).bytes := by
  have hheader : sessionHeaderHash p = fnv1a ((p.hashed messages).header ++ [recordSep]) := by
    unfold sessionHeaderHash fnv1a
    simp only [← fnv1aUpdateStr_append]
    congr 1
    simp [Hashed.header, hashed]
  rw [foldl_oaMessageHash, hheader, fnv1a, fnv1a, ← fnv1aUpdateStr_append, Hashed.bytes,
    terminated_cons]
  congr 1
  simp [hashed]

theorem chain_getElem? {n : ℕ} {h : UInt64} (hn : (sessionPrefixHashChain p)[n]? = some h) :
    n ≤ p.messages.length ∧ h = fnv1a (p.hashed (p.messages.take n)).bytes := by
  rw [sessionPrefixHashChain, List.getElem?_scanl] at hn
  split_ifs at hn with hle
  exact ⟨hle, by rw [← hash_eq, Option.some.inj hn]⟩

end OaReqParams

theorem SlotPick.visit_bestMatch (chain : List UInt64) (s : OaSlot) (i : ℕ) (p : SlotPick) :
    ((p.visit chain s i).best = some i ∧ (p.visit chain s i).bestMatch = s.isMatch chain) ∨
      (p.visit chain s i).bestMatch = p.bestMatch := by
  unfold visit
  generalize (if s.isMatch chain then s.nMsgs else 0) = reuse
  dsimp only
  split_ifs
  · exact Or.inl ⟨rfl, rfl⟩
  · exact Or.inr rfl

/-- A matched slot is idle and filed under the hash of a prefix of the request. -/
theorem slotPickLoop_matched {chain : List UInt64} {slots : List OaSlot} {i : ℕ} {p : SlotPick}
    (hp : p.bestMatch = false) (hmatch : (slotPickLoop chain slots i p).bestMatch = true) :
    ∃ k s, (slotPickLoop chain slots i p).best = some (i + k) ∧ slots[k]? = some s ∧
      s.task = none ∧ chain[s.nMsgs]? = some s.fullHash := by
  induction slots generalizing i p with
  | nil => exact absurd hmatch (by rw [slotPickLoop, hp]; exact Bool.false_ne_true)
  | cons s slots ih =>
    have hrest : ∀ q : SlotPick, q.bestMatch = false →
        slotPickLoop chain (s :: slots) i p = slotPickLoop chain slots (i + 1) q →
        ∃ k s', (slotPickLoop chain (s :: slots) i p).best = some (i + k) ∧
          (s :: slots)[k]? = some s' ∧ s'.task = none ∧ chain[s'.nMsgs]? = some s'.fullHash := by
      intro q hq heq
      rw [heq] at hmatch ⊢
      obtain ⟨k, s', hbest, hs'⟩ := ih hq hmatch
      exact ⟨k + 1, s', by rw [hbest]; congr 1; omega, hs'⟩
    by_cases hbusy : s.task.isSome
    · exact hrest p hp (by rw [slotPickLoop, if_pos hbusy])
    · cases hm : s.isMatch chain with
      | true =>
        have hloop : slotPickLoop chain (s :: slots) i p = p.visit chain s i := by
          rw [slotPickLoop, if_neg hbusy, if_pos hm]
        rw [hloop] at hmatch ⊢
        rcases p.visit_bestMatch chain s i with ⟨hbest, -⟩ | hsame
        · simp only [OaSlot.isMatch, Bool.and_eq_true, beq_iff_eq] at hm
          exact ⟨0, s, hbest, rfl, by simpa using hbusy, hm.2⟩
        · rw [hsame, hp] at hmatch
          cases hmatch
      | false =>
        refine hrest (p.visit chain s i) ?_ (by
          rw [slotPickLoop, if_neg hbusy, if_neg (by simp [hm])])
        rcases p.visit_bestMatch chain s i with ⟨-, hnone⟩ | hsame
        · rw [hnone, hm]
        · rw [hsame, hp]

section Turn

variable (M : Model) (E : Env M) (F : Front) (P : Sampling)

theorem foldl_addMessage (messages : List ChatMessage) (s : Session) :
    messages.foldl (fun s m => s.addMessage F m) s =
      { s with messages := s.messages ++ messages.map F.stored } := by
  induction messages generalizing s with
  | nil => simp
  | cons m messages ih =>
    rw [List.foldl_cons, ih, List.map_cons]
    simp [Session.addMessage]

theorem addTurn_messages (s : Session) (msg : ChatMessage) (addGen : Bool) :
    (s.addTurn F msg addGen).1.messages = s.messages ++ [F.stored msg] := by
  unfold Session.addTurn
  dsimp only
  cases F.render s.clock s.tools (s.messages ++ [F.stored msg]) addGen <;> rfl

/-- A turn adds an assistant message if it generates something, and only then. -/
theorem chatTurnRecord_messages (prev s : Session) (g : Generated) :
    ((chatTurnRecord F prev s true g).messages = s.messages ∧ ∀ n, g.rc ≠ .ok (n + 1)) ∨
      ∃ n am, g.rc = .ok (n + 1) ∧ am.role = assistantRole ∧
        (chatTurnRecord F prev s true g).messages = s.messages ++ [am] := by
  unfold chatTurnRecord
  cases hrc : g.rc with
  | error e =>
    refine Or.inl ⟨?_, by rintro n ⟨⟩⟩
    dsimp only
    split_ifs <;> rfl
  | ok n =>
    cases n with
    | zero => exact Or.inl ⟨rfl, by rintro n ⟨⟩⟩
    | succ n =>
      refine Or.inr ⟨n, F.stored { simpleMessage assistantRole (F.splitThinking (assistantText F g)).2
        with reasoningContent := (F.splitThinking (assistantText F g)).1 }, rfl, F.stored_role _, ?_⟩
      dsimp only
      rw [if_pos (by simp)]
      split_ifs <;> exact addTurn_messages F _ _ _

/-- The messages after a chat turn: as before if the turn did not get to generate, else with
the new message and what was generated. -/
theorem contextChatTurnMsg_messages (s : Session) (msg : ChatMessage) (maxTokens : ℤ) :
    let r := contextChatTurnMsg M E F P s msg true maxTokens
    (turnIds M F s msg true = none → r.1.messages = s.messages ∧ ∃ e, r.2 = .error e) ∧
    (turnIds M F s msg true ≠ none →
      (r.1.messages = s.messages ++ [F.stored msg] ∧ ∀ n, r.2 ≠ .ok (n + 1)) ∨
      ∃ n am, r.2 = .ok (n + 1) ∧ am.role = assistantRole ∧
        r.1.messages = s.messages ++ [F.stored msg] ++ [am]) := by
  have hadd := addTurn_messages F s msg true
  unfold contextChatTurnMsg turnIds
  cases hp : s.sessionPoisoned with
  | true => exact ⟨fun _ => ⟨rfl, _, rfl⟩, fun h => absurd rfl h⟩
  | false =>
    simp only [Bool.not_false, Bool.true_and, Bool.false_eq_true, if_false]
    generalize s.addTurn F msg true = turn at hadd ⊢
    obtain ⟨added, rendered⟩ := turn
    simp only at hadd ⊢
    cases rendered with
    | false => exact ⟨fun _ => ⟨rfl, _, rfl⟩, fun h => absurd rfl h⟩
    | true =>
      simp only [if_true]
      cases hids : tailEncodeIds M F added.fedIdsSync with
      | none => exact ⟨fun _ => ⟨rfl, _, rfl⟩, fun h => absurd rfl h⟩
      | some ids =>
        refine ⟨fun h => (by cases h), fun _ => ?_⟩
        simp only
        rw [← hadd]
        exact chatTurnRecord_messages F s
          { added.fedIdsSync with sync := some (added.fedIdsSync.lastRender, ids.length) } _

end Turn

end Kappai
