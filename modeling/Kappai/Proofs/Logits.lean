import Kappai.Proofs.Presampled

/-! The host logits a generation samples its first token from. Only the last chunk of a batch
writes them, and a prompt that is cached as it stands is not fed at all. -/

namespace Kappai

variable (M : Model) (E : Env M) (F : Front) (P : Sampling)

/-- A batch that comes through leaves the logits of the last cached token. -/
theorem contextFeedTokensBatch_logits {c : Core} (hc : c.Aligned) {tokens : List Token}
    (hne : tokens ≠ []) {rc : ℕ} (hok : (contextFeedTokensBatch M E c tokens).2 = .ok rc) :
    let c' := (contextFeedTokensBatch M E c tokens).1
    c'.logitsHost = .of c'.fedIds.ids := by
  have rule : ChunkRule M tokens
      (fun c' off => c'.fedIds = c.fedIds ∧ (off = tokens.length → off ≠ 0 →
        c'.logitsHost = .of (c.fedIds.ids ++ tokens))) (fun _ _ => True) :=
    { leave := fun _ _ _ _ => trivial
      ok := fun chunk c' off batch want _ h _ hb hwant => by
        refine ⟨(Core.forward_fedIds ..).trans h.1, fun hend _ => ?_⟩
        have hbatch : tokens.take off ++ batch = tokens := by
          have := take_append_chunk tokens off chunk
          rw [← hb, hend, List.take_length] at this
          exact this.symm
        rw [decide_eq_true hend] at hwant
        subst hwant
        change Logits.of (c'.fedIds.ids ++ tokens.take off ++ batch) = _
        rw [h.1, List.append_assoc, hbatch]
      fail := fun _ _ _ _ _ _ _ _ _ _ _ => trivial }
  rcases rule.contextFeedTokensBatch E hc.le ⟨rfl, fun h h0 => absurd (by omega) h0⟩ with
    ⟨-, hnil | ⟨e, he⟩⟩ | ⟨-, c', _, h, heq⟩ | ⟨c', off, e, -, -, heq⟩
  · exact absurd hnil hne
  · rw [he] at hok
    cases hok
  · simp only [heq]
    have hlogits := h.2 rfl fun h0 => hne (List.eq_nil_of_length_eq_zero h0)
    change c'.logitsHost = .of (c'.fedIds.appendAll (tokens.take tokens.length)).ids
    rw [hlogits, FedIds.ids_appendAll, h.1, List.take_length]
  · rw [heq] at hok
    cases hok

/-- The planned chunks leave tokens to be fed after them. -/
theorem prefillPlanned_lt {n : ℕ} (tokens : List Token) (base : ℕ) {plan : List KvShiftChunk}
    {c : Core} (h : c.nPos < n) (hplan : ∀ m ∈ plan, m.dst + m.n < n)
    (hdone : (prefillPlanned M E tokens base plan c).2 = none) :
    (prefillPlanned M E tokens base plan c).1.nPos < n := by
  induction plan generalizing c with
  | nil => exact h
  | cons m plan ih =>
    simp only [prefillPlanned] at hdone ⊢
    generalize (if 0 < m.dst - c.nPos then
      contextFeedTokensBatch M E c ((tokens.drop (c.nPos - base)).take (m.dst - c.nPos))
      else (c, .ok 0)) = r at hdone ⊢
    obtain ⟨c₁, st⟩ := r
    cases st with
    | error e => cases hdone
    | ok rc =>
      exact ih (hplan m (by simp)) (fun b hb => hplan b (by simp [hb])) hdone

theorem reusedPrefix_lt {fed ids : List Token} (hne : ids ≠ []) (hdiff : ids ≠ fed) :
    reusedPrefix fed ids < ids.length := by
  have hpos : 0 < ids.length := List.length_pos_of_ne_nil hne
  have hright := commonPrefix_le_right fed ids
  unfold reusedPrefix
  simp only
  split_ifs with h
  · omega
  · refine lt_of_le_of_ne hright fun heq => hdiff ?_
    have hfed : fed.length ≤ ids.length := by omega
    have := take_commonPrefix fed ids
    rwa [heq, List.take_of_length_le hfed, List.take_length, eq_comm] at this

/-- A prompt that is cached as it stands is not fed. -/
theorem contextPrefillPrompt_cached {c : Core} (h : c.Aligned) :
    contextPrefillPrompt M E c c.fedIds.ids = (c, .ok 0) := by
  have hreuse : reusedPrefix c.fedIds.ids c.fedIds.ids = c.fedIds.n := by
    rw [reusedPrefix_eq_length.2 (List.prefix_refl _), FedIds.ids_length]
  simp only [contextPrefillPrompt, h.sync_eq, contextReusePrefix, hreuse, le_refl, if_true,
    contextPrefillWithPlan, prefillPlanned, Nat.sub_self, List.drop_zero]
  rw [List.drop_of_length_le (by rw [FedIds.ids_length])]
  simp [contextFeedTokensBatch]

/-- Which logits the host has after a prefill that succeeded: those of the prompt if any of
it was fed, else what was there. -/
theorem contextPrefillPrompt_logits {c : Core} (h : c.Aligned) {ids : List Token}
    (hne : ids ≠ []) {rc : ℕ} (hok : (contextPrefillPrompt M E c ids).2 = .ok rc) :
    (contextPrefillPrompt M E c ids).1.logitsHost =
      if ids = c.fedIds.ids then c.logitsHost else .of ids := by
  split_ifs with hcached
  · rw [hcached, contextPrefillPrompt_cached M E h]
  · obtain ⟨hnPos, hholds, hdone⟩ := contextPrefillPrompt_holds E (Nat.zero_le _) h.holds ids
    have hids : (contextPrefillPrompt M E c ids).1.fedIds.ids = ids := by
      rw [hholds.fedIds, (hdone ⟨rc, hok⟩).1, List.take_length]
    obtain ⟨hreuse, hstart, hbetween⟩ := contextReusePrefix_between E (Nat.zero_le _) h.holds ids
    have hlt : (contextReusePrefix M E c ids).1.nPos < ids.length := by
      rw [hstart, hreuse]
      exact reusedPrefix_lt hne hcached
    revert hids hok
    unfold contextPrefillPrompt
    simp only [h.sync_eq, ← hstart]
    obtain ⟨hup, -, hplanned, -⟩ := prefillPlanned_spec E (Nat.zero_le _) _ _ le_rfl hbetween
    have hleft := prefillPlanned_lt M E (ids.drop (contextReusePrefix M E c ids).1.nPos)
      (contextReusePrefix M E c ids).1.nPos hlt hbetween.sound.sparesLast
    unfold contextPrefillWithPlan
    generalize prefillPlanned M E (ids.drop (contextReusePrefix M E c ids).1.nPos)
      (contextReusePrefix M E c ids).1.nPos (contextReusePrefix M E c ids).2.2
      (contextReusePrefix M E c ids).1 = r at hup hplanned hleft ⊢
    obtain ⟨c₁, st⟩ := r
    cases st with
    | some e => exact fun hok => by cases hok
    | none =>
      intro hok hids
      have hrest : (ids.drop (contextReusePrefix M E c ids).1.nPos).drop
          (c₁.nPos - (contextReusePrefix M E c ids).1.nPos) ≠ [] := by
        rw [List.drop_drop, Nat.add_sub_cancel' hup, Ne, List.drop_eq_nil_iff]
        exact not_le.2 (hleft rfl)
      have := contextFeedTokensBatch_logits M E hplanned.aligned hrest hok
      simp only at this hids
      rw [this, hids]

/-- Exactly when a prefill that succeeded leaves the host the logits of the prompt. -/
theorem contextPrefillPrompt_logits_iff {c : Core} (h : c.Aligned) {ids : List Token}
    (hne : ids ≠ []) {rc : ℕ} (hok : (contextPrefillPrompt M E c ids).2 = .ok rc) :
    (contextPrefillPrompt M E c ids).1.logitsHost = .of ids ↔
      ids ≠ c.fedIds.ids ∨ c.logitsHost = .of c.fedIds.ids := by
  rw [contextPrefillPrompt_logits M E h hne hok]
  split_ifs with hcached
  · rw [hcached]
    exact ⟨Or.inr, fun h => h.resolve_left (not_not.2 rfl)⟩
  · exact ⟨fun _ => Or.inl hcached, fun _ => rfl⟩

/-- Something was drawn since `c`, and if the first of it came from the host logits, they were
those `c` had. -/
def FirstHost (c c' : Context) : Prop :=
  ∃ d ds, c'.draws = c.draws ++ d :: ds ∧ ∀ l, d.source = .host l → l = c.logitsHost

theorem FirstHost.grow {c c' c'' : Context} (h : FirstHost c c')
    (hgrow : ∃ ds, c''.draws = c'.draws ++ ds) : FirstHost c c'' := by
  obtain ⟨d, ds, hdraws, hd⟩ := h
  obtain ⟨ds', hds'⟩ := hgrow
  exact ⟨d, ds ++ ds', by rw [hds', hdraws, List.append_assoc, List.cons_append], hd⟩

theorem FirstHost.same {c c' c'' : Context} (h : FirstHost c c') (hdraws : c''.draws = c'.draws) :
    FirstHost c c'' := h.grow ⟨[], by rw [hdraws, List.append_nil]⟩

theorem firstHost_closed (c : Context) : DecodeClosed M E P (FirstHost c) where
  tick _ h := h.same rfl
  devicePick c' h := by
    obtain ⟨ds, hds, -⟩ := (contextDevicePick_drawing M E (Drawing.refl c')).draws
    exact h.grow ⟨ds, hds⟩
  sampleNext c' h := by
    obtain ⟨ds, hds, -⟩ := (contextSampleNext_drawing M E P (Drawing.refl c')).draws
    exact h.grow ⟨ds, hds⟩
  feedTokenInner c' tok want h := h.same (contextFeedTokenInner_records M E c' tok want).draws
  feedReg c' reg h := h.same (contextFeedReg_records M E c' reg).draws
  drew _ _ _ h := h.grow ⟨_, rfl⟩
  uncount _ h := h.same rfl
  append _ _ h := h.same rfl
  fail _ _ _ h := h.same rfl

/-- Nothing has been drawn since `c`, and the host logits are as they were. -/
structure Undrawn (c c' : Context) : Prop where
  draws : c'.draws = c.draws
  logitsHost : c'.logitsHost = c.logitsHost

theorem Undrawn.tick {c c' : Context} (h : Undrawn c c') : Undrawn c c'.tick :=
  ⟨h.draws, h.logitsHost⟩

theorem Undrawn.drew {c c' : Context} (h : Undrawn c c') (tok : Token) {source : DrawSource}
    (hsource : ∀ l, source = .host l → l = c'.logitsHost) : FirstHost c (c'.drew tok source) :=
  ⟨⟨c'.gen, tok, source⟩, [], by rw [← h.draws]; rfl,
    fun l hl => (hsource l hl).trans h.logitsHost⟩

theorem contextDevicePick_first {c c' : Context} (h : Undrawn c c') :
    let r := contextDevicePick M E c'
    (r.2 ≠ none → FirstHost c r.1) ∧ (r.2 = none → Undrawn c r.1) := by
  unfold contextDevicePick
  cases E.pick c'.clock with
  | ok t => exact ⟨fun _ => h.tick.drew _ fun l hl => (by cases hl), fun hnone => by cases hnone⟩
  | error e => exact ⟨fun hne => absurd rfl hne, fun _ => h.tick⟩

theorem contextSampleNext_first {c c' : Context} (h : Undrawn c c') :
    FirstHost c (contextSampleNext M E P c').1 := by
  unfold contextSampleNext
  cases c'.presampled with
  | some pk =>
    have htaken : Undrawn c { c' with presampled := none } := ⟨h.draws, h.logitsHost⟩
    exact htaken.drew _ fun l hl => by cases hl
  | none =>
    have hsampled : ∀ {c'' : Context}, Undrawn c c'' →
        FirstHost c (c''.tick.drew (E.sample c''.clock) (.host c''.logitsHost)) := fun h =>
      h.tick.drew _ fun l hl => by cases hl; rfl
    simp only
    split_ifs
    · have hpick := contextDevicePick_first M E h
      generalize contextDevicePick M E c' = r at hpick
      obtain ⟨c'', tok⟩ := r
      cases tok with
      | some tok => exact hpick.1 (by simp)
      | none => exact hsampled (hpick.2 rfl)
    · exact hsampled h

/-- A register is fed without asking for host logits. -/
theorem contextFeedReg_undrawn {c c' : Context} (h : Undrawn c c') (reg : Fin M.vocab) :
    Undrawn c (contextFeedReg M E c' reg).1 := by
  have hlogits : ∀ out : PassOutcome, (c'.sync.tick.toCore.forward M out c'.sync.fedIds.ids
      [(reg.val : Token)] c'.sync.nPos false).1.logitsHost = c'.logitsHost := by
    have hsync : c'.sync.logitsHost = c'.logitsHost := by
      unfold Context.sync Core.fedIdsSync
      split_ifs <;> rfl
    intro out
    cases out <;> exact hsync
  unfold contextFeedReg
  split_ifs
  · exact h
  · have := hlogits (E.pass c'.sync.clock)
    simp only
    generalize c'.sync.tick.toCore.forward M _ _ _ _ _ = r at this
    obtain ⟨core, st⟩ := r
    cases st <;> exact ⟨h.draws, this.trans h.logitsHost⟩

/-- The first iteration draws from the host logits the loop found, or falls back to them. -/
theorem drawToken_first {c : Context} {s : DecodeState} (h : Undrawn c s.ctx) :
    let d := drawToken M E P s
    d.hostRedo = false ∧ FirstHost c d.ctx ∨ d.hostRedo = true ∧ Undrawn c d.ctx := by
  unfold drawToken
  simp only
  split_ifs
  · unfold drawPipelined
    cases E.pickReg s.ctx.clock with
    | error e => exact Or.inr ⟨rfl, h.tick⟩
    | ok reg =>
      have hfed := contextFeedReg_undrawn M E h.tick reg
      simp only
      generalize contextFeedReg M E s.ctx.tick reg = r at hfed ⊢
      obtain ⟨c', preRc⟩ := r
      simp only
      cases E.readReg c'.clock with
      | none => exact Or.inl ⟨rfl, hfed.tick.drew _ fun l hl => by cases hl⟩
      | some e =>
        simp only
        split_ifs <;> exact Or.inr ⟨trivial, hfed.draws, hfed.logitsHost⟩
  · have hpick := contextDevicePick_first M E h
    generalize contextDevicePick M E s.ctx = r at hpick ⊢
    obtain ⟨c', tok⟩ := r
    cases tok with
    | some tok => exact Or.inl ⟨rfl, hpick.1 (by simp)⟩
    | none => exact Or.inr ⟨rfl, hpick.2 rfl⟩
  · exact Or.inl ⟨rfl, contextSampleNext_first M E P h⟩

/-- Before a token was fed the fallback has nothing to feed again. -/
theorem decodeDrawn_redo_none {s : DecodeState} (h : s.lastFed = none) {d : Drawn}
    (hredo : d.hostRedo = true) :
    decodeDrawn M E P s d = decodeDrawn M E P s { d with
      ctx := (contextSampleNext M E P d.ctx).1
      tok := (contextSampleNext M E P d.ctx).2
      hostRedo := false } := by
  simp only [decodeDrawn, redoOnHost, h, hredo, if_true, Bool.false_eq_true, if_false]
  rfl

theorem decodeIter_first (maxTokens : ℤ) {c : Context} {s : DecodeState} (h : Undrawn c s.ctx)
    (hfirst : s.lastFed = none) :
    (∃ r, decodeIter M E P maxTokens s = .done r ∧ r.ctx.draws = c.draws) ∨
      FirstHost c (DecodeStepCtx (decodeIter M E P maxTokens s)) := by
  unfold decodeIter
  simp only
  split_ifs
  · exact Or.inl ⟨_, rfl, h.draws⟩
  · exact Or.inl ⟨_, rfl, h.draws⟩
  · right
    have hclosed := firstHost_closed M E P c
    rcases drawToken_first M E P (s := { s with ctx := s.ctx.tick }) h.tick with
      ⟨-, hdrawn⟩ | ⟨hredo, hundrawn⟩
    · exact hclosed.decodeDrawn _ hdrawn
    · rw [decodeDrawn_redo_none M E P (s := { s with ctx := s.ctx.tick }) hfirst hredo]
      exact hclosed.decodeDrawn _ (contextSampleNext_first M E P hundrawn)

theorem contextDecodeLoop_first (maxTokens : ℤ) {c : Context} (h : c.Aligned) :
    let r := contextDecodeLoop M E P maxTokens c
    r.ctx.draws = c.draws ∨ FirstHost c r.ctx := by
  obtain ⟨s, hhead, hdone⟩ := contextDecodeLoop_exits M E P maxTokens h.holds
  have hstep : ∀ s r, (Undrawn c s.ctx ∧ s.lastFed = none) ∨ FirstHost c s.ctx →
      decodeIter M E P maxTokens s = r →
      (∃ e, r = .done e ∧ e.ctx.draws = c.draws) ∨ FirstHost c (DecodeStepCtx r) := by
    rintro s r (⟨hs, hfirst⟩ | hs) rfl
    · exact decodeIter_first M E P maxTokens hs hfirst
    · exact Or.inr ((firstHost_closed M E P c).decodeIter maxTokens hs)
  have hstart : Undrawn c (decodeStart M P c).ctx ∧ (decodeStart M P c).lastFed = none :=
    ⟨⟨rfl, rfl⟩, rfl⟩
  have hs : (Undrawn c s.ctx ∧ s.lastFed = none) ∨ FirstHost c s.ctx := by
    refine hhead.inv (I := fun s => (Undrawn c s.ctx ∧ s.lastFed = none) ∨ FirstHost c s.ctx)
      (Or.inl hstart) fun s s' hs hnext => Or.inr ?_
    rcases hstep s _ hs hnext with ⟨e, he, -⟩ | h
    · cases he
    · exact h
  rcases hstep s _ hs hdone with ⟨e, he, hdraws⟩ | h
  · cases he
    exact Or.inl hdraws
  · exact Or.inr h

/-- The first token a decode loop drew. -/
def Context.firstDraw (c : Context) (gen : ℕ) : Option Draw :=
  c.draws.find? fun d => d.gen == gen

/-- The loop was entered with the logits of its prompt in the host buffer, and if it took its
first token from there, from these. -/
def Context.StartFresh (c : Context) (st : Start) : Prop :=
  st.logitsHost = .of st.prompt ∧
    ∀ d l, c.firstDraw st.gen = some d → d.source = .host l → l = .of st.prompt

structure LogitsInv (c : Context) : Prop where
  draws : ∀ d ∈ c.draws, d.gen ≤ c.gen
  starts : ∀ st ∈ c.starts, st.gen ≤ c.gen
  fresh : ∀ st ∈ c.starts, st.prompt ≠ [] → c.StartFresh st

theorem LogitsInv.same {c c' : Context} (h : LogitsInv c) (hsame : c.SameRecords c') :
    LogitsInv c' where
  draws := by rw [hsame.draws, hsame.gen]; exact h.draws
  starts := by rw [hsame.starts, hsame.gen]; exact h.starts
  fresh := by
    simp only [Context.StartFresh, Context.firstDraw]
    rw [hsame.starts, hsame.draws]
    exact h.fresh

/-- The draws of a new generation leave the first draws of the others alone. -/
theorem find?_append_other {ds new : List Draw} {g k : ℕ} (hnew : ∀ d ∈ new, d.gen = k)
    (hne : g ≠ k) : (ds ++ new).find? (fun d => d.gen == g) = ds.find? fun d => d.gen == g := by
  rw [List.find?_append]
  have hnone : new.find? (fun d => d.gen == g) = none :=
    List.find?_eq_none.2 fun d hd => by simpa [hnew d hd] using Ne.symm hne
  rw [hnone, Option.or_none]

/-- The first draw of a new generation. -/
theorem find?_append_new {ds new : List Draw} {g : ℕ} (hold : ∀ d ∈ ds, d.gen < g)
    (hnew : ∀ d ∈ new, d.gen = g) :
    (ds ++ new).find? (fun d => d.gen == g) = new.head? := by
  rw [List.find?_append]
  have hnone : ds.find? (fun d => d.gen == g) = none :=
    List.find?_eq_none.2 fun d hd => by simpa using (hold d hd).ne
  rw [hnone, Option.none_or]
  cases new with
  | nil => rfl
  | cons d new => simp [hnew d (by simp)]

/-- The loop adds the record of a start with its own logits. -/
theorem contextDecodeLoop_logits (maxTokens : ℤ) {c : Context} (haligned : c.Aligned)
    (h : LogitsInv c) {prompt : List Token} (hfresh : prompt ≠ [] → c.logitsHost = .of prompt) :
    LogitsInv (contextDecodeLoop M E P maxTokens (c.started prompt)).ctx := by
  have hstart : (c.started prompt).Aligned := haligned
  have hdrawing : Drawing { c.started prompt with gen := c.gen + 1 }
      (contextDecodeLoop M E P maxTokens (c.started prompt)).ctx :=
    (drawing_closed M E P _).contextDecodeLoop maxTokens hstart.holds (Drawing.refl _)
  have hfirst := contextDecodeLoop_first M E P maxTokens hstart
  set r := (contextDecodeLoop M E P maxTokens (c.started prompt)).ctx
  have hgen : r.gen = c.gen + 1 := hdrawing.gen
  have hstarts : r.starts = c.starts ++ [⟨c.gen + 1, prompt, c.logitsHost⟩] := hdrawing.starts
  obtain ⟨ds, hds, hown⟩ := hdrawing.draws
  change r.draws = c.draws ++ ds at hds
  change ∀ d ∈ ds, d.gen = c.gen + 1 at hown
  refine ⟨fun d hd => ?_, fun st hst => ?_, fun st hst hne => ?_⟩
  · rw [hds] at hd
    rw [hgen]
    rcases List.mem_append.1 hd with hd | hd
    · exact (h.draws d hd).trans (Nat.le_succ _)
    · exact (hown d hd).le
  · rw [hstarts] at hst
    rw [hgen]
    rcases List.mem_append.1 hst with hst | hst
    · exact (h.starts st hst).trans (Nat.le_succ _)
    · rw [List.mem_singleton.1 hst]
  · rw [hstarts] at hst
    rcases List.mem_append.1 hst with hst | hst
    · obtain ⟨hbuffer, hdraw⟩ := h.fresh st hst hne
      refine ⟨hbuffer, fun d l hd => hdraw d l ?_⟩
      have hlt := h.starts st hst
      rwa [Context.firstDraw, hds, find?_append_other hown (by omega)] at hd
    · obtain rfl := List.mem_singleton.1 hst
      refine ⟨hfresh hne, fun d l hd hsource => ?_⟩
      rw [Context.firstDraw, hds,
        find?_append_new (fun d hd => Nat.lt_succ_of_le (h.draws d hd)) hown] at hd
      rcases hfirst with hnone | ⟨d', ds', hd', hhost⟩
      · change r.draws = c.draws at hnone
        rw [hnone, List.self_eq_append_right] at hds
        rw [hds] at hd
        cases hd
      · change r.draws = c.draws ++ d' :: ds' at hd'
        rw [hd', List.append_cancel_left_eq] at hds
        rw [← hds] at hd
        cases hd
        exact (hhost l hsource).trans (hfresh hne)

/-- The prompt is not cached as it stands, or the host still has the logits of the cached
tokens. -/
def Session.promptFresh (s : Session) (op : Op) : Bool :=
  match s.prompt M F op with
  | none => true
  | some ids => ids ≠ s.fedIds.ids || s.logitsHost = .of s.fedIds.ids

theorem generatePrompt_logits {c : Context} (haligned : c.Aligned) (h : LogitsInv c)
    {prompt : List Token}
    (hfresh : prompt ≠ c.fedIds.ids ∨ c.logitsHost = .of c.fedIds.ids) (maxTokens : ℤ) :
    LogitsInv (generatePrompt M E P c prompt maxTokens).ctx := by
  rcases generatePrompt_cases M E P haligned prompt maxTokens with ⟨e, -, hc⟩ | ⟨rc, hrc, hc⟩
  · rw [hc]
    exact h.same ⟨rfl, rfl, rfl⟩
  · rw [hc]
    have hholds := (contextPrefillPrompt_holds E (Nat.zero_le _) haligned.holds prompt).2.1
    refine contextDecodeLoop_logits M E P maxTokens
      (c := { c with toCore := (contextPrefillPrompt M E c.toCore prompt).1 }) hholds.aligned
      (h.same ⟨rfl, rfl, rfl⟩) fun hne => ?_
    exact (contextPrefillPrompt_logits_iff M E haligned hne hrc).2 hfresh

theorem apply_logits {s : Session} (haligned : s.Aligned) (h : LogitsInv s.toContext) {op : Op}
    (hop : s.promptFresh M F op) : LogitsInv (s.apply M E F op).toContext := by
  have hacted := apply_acted M E F haligned op
  rcases hacted.records with hsame | ⟨prompt, P, before, maxTokens, hprompt, hsame⟩
  · exact h.same hsame
  · have hbefore : LogitsInv { s.toContext with clock := before } := h.same ⟨rfl, rfl, rfl⟩
    refine (generatePrompt_logits M E P (c := { s.toContext with clock := before }) haligned
      hbefore ?_ maxTokens).same hsame
    simpa [Session.promptFresh, hprompt] using hop

/-- In every run whose prompts are fresh, every generation with a prompt starts on the host
logits of exactly that prompt, and takes its first token from no others. -/
theorem first_token_from_prompt (ops : List Op)
    (hrun : SafeRun (Session.apply M E F) (fun s op => s.promptFresh M F op) Session.init ops) :
    let s := ops.foldl (Session.apply M E F) Session.init
    ∀ st ∈ s.starts, st.prompt ≠ [] → s.StartFresh st := by
  have hinit : Session.init.Aligned ∧ LogitsInv Session.init.toContext :=
    ⟨rfl, fun d hd => absurd hd List.not_mem_nil, fun st hst => absurd hst List.not_mem_nil,
      fun st hst => absurd hst List.not_mem_nil⟩
  have hstep : ∀ (s : Session) op, s.Aligned ∧ LogitsInv s.toContext → s.promptFresh M F op →
      (s.apply M E F op).Aligned ∧ LogitsInv (s.apply M E F op).toContext := fun s op h hop =>
    ⟨apply_aligned M E F h.1 op, apply_logits M E F h.1 h.2 hop⟩
  exact (hrun.inv hstep hinit).2.fresh

/-- As `Env.samplesAhead`, but what the device samples is the end token. -/
def Env.endsAhead : Env (.small false) := { Env.samplesAhead with step := fun _ => .sampled 0 }

theorem first_token_from_prompt_longer :
    let s := (slotGeneration [1, 2] 4 ++ slotGeneration [1, 2, 5, 6] 4).foldl
      (Session.apply (.small false) .endsAhead .bytes) .init
    s.starts.length = 2 ∧ ∀ st ∈ s.starts, st.prompt ≠ [] → s.StartFresh st :=
  ⟨by decide +kernel,
    first_token_from_prompt (.small false) .endsAhead .bytes _ (by decide +kernel)⟩

/-- A generation that sampled on the device leaves the host logits of its prompt. The next
prompt is what is cached then, nothing is fed, and its first token comes from these. -/
theorem first_token_from_earlier_prompt :
    let s := (slotGeneration [1, 2] 4 ++ slotGeneration [1, 2, 5] 4).foldl
      (Session.apply (.small false) .endsAhead .bytes) .init
    ⟨2, [1, 2, 5], .of [1, 2]⟩ ∈ s.starts ∧
      s.firstDraw 2 = some ⟨2, 5, .host (.of [1, 2])⟩ ∧
      ¬ s.StartFresh ⟨2, [1, 2, 5], .of [1, 2]⟩ := by
  intro s
  exact ⟨by decide +kernel, by decide +kernel, fun h => absurd h.1 (by decide)⟩

end Kappai
