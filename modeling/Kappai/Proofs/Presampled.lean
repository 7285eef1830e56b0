import Kappai.Proofs.Recurrent
import Kappai.Sanity.Session

/-! Tokens that the server's batched decode step samples ahead. They are parked in the
context for the next draw, and nothing takes them out when a decode loop ends before it. -/

namespace Kappai

variable (M : Model) (E : Env M) (F : Front) (P : Sampling)

/-- `c'` is a later state of the generation that `c` is in. -/
structure Drawing (c c' : Context) : Prop where
  gen : c'.gen = c.gen
  starts : c'.starts = c.starts
  draws : ∃ ds, c'.draws = c.draws ++ ds ∧ ∀ d ∈ ds, d.gen = c.gen

namespace Drawing

variable {c c' c'' : Context}

theorem refl (c : Context) : Drawing c c :=
  ⟨rfl, rfl, [], by rw [List.append_nil], fun d hd => absurd hd (List.not_mem_nil)⟩

/-- A step that draws nothing. -/
theorem same (h : Drawing c c') (hgen : c''.gen = c'.gen) (hstarts : c''.starts = c'.starts)
    (hdraws : c''.draws = c'.draws) : Drawing c c'' :=
  ⟨hgen.trans h.gen, hstarts.trans h.starts, by rw [hdraws]; exact h.draws⟩

theorem drew (h : Drawing c c') (tok : Token) (source : DrawSource) :
    Drawing c (c'.drew tok source) := by
  obtain ⟨ds, hds, hgen⟩ := h.draws
  refine ⟨h.gen, h.starts, ds ++ [⟨c'.gen, tok, source⟩], ?_, fun d hd => ?_⟩
  · rw [← List.append_assoc, ← hds]
    rfl
  · rcases List.mem_append.1 hd with hd | hd
    · exact hgen d hd
    · rw [List.mem_singleton.1 hd]
      exact h.gen

end Drawing

/-- The fields of the records a step of the loop can only append to. -/
structure Context.SameRecords (c c' : Context) : Prop where
  gen : c'.gen = c.gen
  starts : c'.starts = c.starts
  draws : c'.draws = c.draws

theorem contextDevicePick_drawing {c c' : Context} (h : Drawing c c') :
    Drawing c (contextDevicePick M E c').1 := by
  unfold contextDevicePick
  cases E.pick c'.clock with
  | ok t =>
    have htick : Drawing c c'.tick := h.same rfl rfl rfl
    exact htick.drew _ _
  | error e => exact h.same rfl rfl rfl

theorem contextSampleNext_drawing {c c' : Context} (h : Drawing c c') :
    Drawing c (contextSampleNext M E P c').1 := by
  unfold contextSampleNext
  cases c'.presampled with
  | some pk =>
    have htaken : Drawing c { c' with presampled := none } := h.same rfl rfl rfl
    exact htaken.drew _ _
  | none =>
    have hsampled : ∀ {c''}, Drawing c c'' →
        Drawing c (c''.tick.drew (E.sample c''.clock) (.host c''.logitsHost)) := by
      intro c'' h
      have htick : Drawing c c''.tick := h.same rfl rfl rfl
      exact htick.drew _ _
    simp only
    split_ifs
    · have hpick := contextDevicePick_drawing M E h
      generalize contextDevicePick M E c' = r at hpick
      obtain ⟨c'', tok⟩ := r
      cases tok with
      | some tok => exact hpick
      | none => exact hsampled hpick
    · exact hsampled h

theorem batchedStep_records (c : Context) (out : StepOutcome) (cached : List Token) (tok : Token)
    (pos : ℕ) (want : Bool) : c.SameRecords (c.batchedStep M out cached tok pos want).1 := by
  cases out with
  | status e => exact ⟨rfl, rfl, rfl⟩
  | failed f => exact ⟨rfl, rfl, rfl⟩
  | read => exact ⟨rfl, rfl, rfl⟩
  | sampled t => cases want <;> exact ⟨rfl, rfl, rfl⟩
  | unread e => cases want <;> exact ⟨rfl, rfl, rfl⟩

theorem contextFeedTokenInner_records (c : Context) (tok : Token) (want : Bool) :
    c.SameRecords (contextFeedTokenInner M E c tok want).1 := by
  have hpass : c.SameRecords (c.sync.feedPass M E tok want).1 := by
    unfold Context.feedPass
    split_ifs
    · have := batchedStep_records M c.sync.tick (E.step c.sync.clock) c.sync.fedIds.ids tok
        c.sync.nPos want
      exact ⟨this.gen, this.starts, this.draws⟩
    · exact ⟨rfl, rfl, rfl⟩
  unfold contextFeedTokenInner
  split_ifs
  · exact ⟨rfl, rfl, rfl⟩
  · exact ⟨rfl, rfl, rfl⟩
  · generalize c.sync.feedPass M E tok want = r at hpass
    obtain ⟨c', st⟩ := r
    cases st <;> exact ⟨hpass.gen, hpass.starts, hpass.draws⟩

theorem contextFeedReg_records (c : Context) (reg : Fin M.vocab) :
    c.SameRecords (contextFeedReg M E c reg).1 := by
  unfold contextFeedReg
  split_ifs
  · exact ⟨rfl, rfl, rfl⟩
  · simp only
    generalize c.sync.tick.toCore.forward M _ _ _ _ _ = r
    obtain ⟨core, st⟩ := r
    cases st <;> exact ⟨rfl, rfl, rfl⟩

theorem drawing_closed (c : Context) : DecodeClosed M E P (Drawing c) where
  tick _ h := h.same rfl rfl rfl
  devicePick _ h := contextDevicePick_drawing M E h
  sampleNext _ h := contextSampleNext_drawing M E P h
  feedTokenInner c' tok want h :=
    have := contextFeedTokenInner_records M E c' tok want
    h.same this.gen this.starts this.draws
  feedReg c' reg h :=
    have := contextFeedReg_records M E c' reg
    h.same this.gen this.starts this.draws
  drew _ _ _ h := h.drew _ _
  uncount _ h := h.same rfl rfl rfl
  append _ _ h := h.same rfl rfl rfl
  fail _ _ _ h := h.same rfl rfl rfl

/-- An operation keeps the records, or adds those of one generation. -/
theorem Acted.records {s : Session} {op : Op} {c : Context} (h : Acted M E F s op c) :
    s.toContext.SameRecords c ∨
      ∃ prompt P before maxTokens, s.prompt M F op = some prompt ∧
        (generatePrompt M E P { s.toContext with clock := before } prompt
          maxTokens).ctx.SameRecords c := by
  cases h with
  | generate prompt P before maxTokens clock poisoned hprompt hp =>
    exact Or.inr ⟨prompt, P, before, maxTokens, hprompt, ⟨rfl, rfl, rfl⟩⟩
  | idle before header ids _ _ =>
    left
    unfold idleFeed idleRewound
    simp only
    split <;> split_ifs <;> exact ⟨rfl, rfl, rfl⟩
  | decision ids =>
    left
    unfold Session.decision
    simp only
    split_ifs <;> exact ⟨rfl, rfl, rfl⟩
  | warmup tokens => exact Or.inl ⟨rfl, rfl, rfl⟩
  | rewind pos => exact Or.inl ⟨rfl, rfl, rfl⟩
  | reset => exact Or.inl ⟨rfl, rfl, rfl⟩
  | quiet op clock onHost step limit => exact Or.inl ⟨rfl, rfl, rfl⟩

/-- A parked token that was drawn was parked in the generation that drew it. -/
def Context.DrawsOwn (c : Context) : Prop :=
  ∀ d ∈ c.draws, ∀ g, d.source = .parked g → g = d.gen

/-- `DrawsOwn` within a generation: what is parked is its own, too. -/
structure ParkedOwn (c : Context) : Prop where
  draws : c.DrawsOwn
  parked : ∀ pk, c.presampled = some pk → pk.gen = c.gen

namespace ParkedOwn

variable {c c' : Context}

theorem same (h : ParkedOwn c) (hgen : c'.gen = c.gen) (hdraws : c'.draws = c.draws)
    (hparked : c'.presampled = c.presampled) : ParkedOwn c' :=
  ⟨by rw [Context.DrawsOwn, hdraws]; exact h.draws, by rw [hparked, hgen]; exact h.parked⟩

theorem drew (h : ParkedOwn c) (tok : Token) {source : DrawSource}
    (hsource : ∀ g, source = .parked g → g = c.gen) : ParkedOwn (c.drew tok source) := by
  refine ⟨fun d hd => ?_, h.parked⟩
  rcases List.mem_append.1 hd with hd | hd
  · exact h.draws d hd
  · rw [List.mem_singleton.1 hd]
    exact hsource

theorem park (h : ParkedOwn c) (tok : Token) (hdraws : c'.draws = c.draws)
    (hgen : c'.gen = c.gen) (hparked : c'.presampled = some ⟨tok, c.gen⟩) : ParkedOwn c' := by
  refine ⟨by rw [Context.DrawsOwn, hdraws]; exact h.draws, fun pk hpk => ?_⟩
  rw [hparked] at hpk
  cases hpk
  exact hgen.symm

end ParkedOwn

theorem contextDevicePick_parkedOwn {c : Context} (h : ParkedOwn c) :
    ParkedOwn (contextDevicePick M E c).1 := by
  unfold contextDevicePick
  cases E.pick c.clock with
  | ok t =>
    refine ParkedOwn.drew (c := c.tick) (h.same rfl rfl rfl) _ fun g hg => ?_
    cases hg
  | error e => exact h.same rfl rfl rfl

theorem contextSampleNext_parkedOwn {c : Context} (h : ParkedOwn c) :
    ParkedOwn (contextSampleNext M E P c).1 := by
  unfold contextSampleNext
  cases hpk : c.presampled with
  | some pk =>
    refine ParkedOwn.drew (c := { c with presampled := none }) ⟨h.draws, fun _ hn => by cases hn⟩ _
      fun g hg => ?_
    cases hg
    exact h.parked pk hpk
  | none =>
    have hsampled : ∀ {c' : Context}, ParkedOwn c' →
        ParkedOwn (c'.tick.drew (E.sample c'.clock) (.host c'.logitsHost)) := fun {c'} h =>
      ParkedOwn.drew (c := c'.tick) (h.same rfl rfl rfl) _ fun g hg => by cases hg
    simp only
    split_ifs
    · have hpick := contextDevicePick_parkedOwn M E h
      generalize contextDevicePick M E c = r at hpick
      obtain ⟨c', tok⟩ := r
      cases tok with
      | some tok => exact hpick
      | none => exact hsampled hpick
    · exact hsampled h

/-- The batched step parks tokens in the generation it is a step of. -/
theorem batchedStep_parkedOwn {c : Context} (h : ParkedOwn c) (out : StepOutcome)
    (cached : List Token) (tok : Token) (pos : ℕ) (want : Bool) :
    ParkedOwn (c.batchedStep M out cached tok pos want).1 := by
  cases out with
  | status e => exact h
  | failed f => exact h.same rfl rfl rfl
  | read => exact h.same rfl rfl rfl
  | sampled t =>
    cases want
    · exact h.park t rfl rfl rfl
    · exact h.same rfl rfl rfl
  | unread e => cases want <;> exact h.same rfl rfl rfl

theorem contextFeedTokenInner_parkedOwn {c : Context} (h : ParkedOwn c) (tok : Token)
    (want : Bool) : ParkedOwn (contextFeedTokenInner M E c tok want).1 := by
  have hsync : ParkedOwn c.sync := h.same rfl rfl rfl
  have hpass : ParkedOwn (c.sync.feedPass M E tok want).1 := by
    unfold Context.feedPass
    split_ifs
    · exact batchedStep_parkedOwn M (c := c.sync.tick) (hsync.same rfl rfl rfl) _ _ _ _ _
    · exact hsync.same rfl rfl rfl
  unfold contextFeedTokenInner
  split_ifs
  · exact h
  · exact h
  · generalize c.sync.feedPass M E tok want = r at hpass
    obtain ⟨c', st⟩ := r
    cases st <;> exact hpass.same rfl rfl rfl

theorem contextFeedReg_parkedOwn {c : Context} (h : ParkedOwn c) (reg : Fin M.vocab) :
    ParkedOwn (contextFeedReg M E c reg).1 := by
  unfold contextFeedReg
  split_ifs
  · exact h
  · simp only
    generalize c.sync.tick.toCore.forward M _ _ _ _ _ = r
    obtain ⟨core, st⟩ := r
    cases st <;> exact h.same rfl rfl rfl

theorem parkedOwn_closed : DecodeClosed M E P ParkedOwn where
  tick _ h := h.same rfl rfl rfl
  devicePick _ h := contextDevicePick_parkedOwn M E h
  sampleNext _ h := contextSampleNext_parkedOwn M E P h
  feedTokenInner _ tok want h := contextFeedTokenInner_parkedOwn M E h tok want
  feedReg _ reg h := contextFeedReg_parkedOwn M E h reg
  drew _ tok _ h := h.drew tok fun g hg => by cases hg
  uncount _ h := h.same rfl rfl rfl
  append _ _ h := h.same rfl rfl rfl
  fail _ _ _ h := h.same rfl rfl rfl

/-- A generation that finds nothing parked draws its own parked tokens only. -/
theorem generatePrompt_drawsOwn {c : Context} (haligned : c.Aligned) (h : c.DrawsOwn)
    (hnone : c.presampled = none) (prompt : List Token) (maxTokens : ℤ) :
    (generatePrompt M E P c prompt maxTokens).ctx.DrawsOwn := by
  rcases generatePrompt_cases M E P haligned prompt maxTokens with ⟨e, -, hc⟩ | ⟨rc, hrc, hc⟩
  · rw [hc]
    exact h
  · rw [hc]
    have hholds := (contextPrefillPrompt_holds E (Nat.zero_le _) haligned.holds prompt).2.1
    let start := Context.started
      { c with toCore := (contextPrefillPrompt M E c.toCore prompt).1 } prompt
    have hown : ParkedOwn { start with gen := start.gen + 1 } :=
      ⟨h, fun pk hpk => by cases hnone.symm.trans hpk⟩
    exact ((parkedOwn_closed M E P).contextDecodeLoop (c := start) maxTokens
      hholds.aligned.holds hown).draws

/-- No token is parked when an operation generates. -/
def Session.noneParked (s : Session) (op : Op) : Bool :=
  (s.prompt M F op).isNone || s.presampled.isNone

theorem apply_drawsOwn {s : Session} (haligned : s.Aligned) (h : s.DrawsOwn) {op : Op}
    (hop : s.noneParked M F op) : (s.apply M E F op).DrawsOwn := by
  have hacted := apply_acted M E F haligned op
  change (s.apply M E F op).toContext.DrawsOwn
  rcases hacted.records with hsame | ⟨prompt, P, before, maxTokens, hprompt, hsame⟩
  · rw [Context.DrawsOwn, hsame.draws]
    exact h
  · rw [Context.DrawsOwn, hsame.draws]
    refine generatePrompt_drawsOwn M E P (c := { s.toContext with clock := before }) haligned h ?_
      prompt maxTokens
    simpa [Session.noneParked, hprompt] using hop

/-- In every run in which no generation finds a parked token, every token that a generation
draws from the parked one was sampled in that generation. -/
theorem draws_own_generation (ops : List Op)
    (hrun : SafeRun (Session.apply M E F) (fun s op => s.noneParked M F op) Session.init ops) :
    ∀ d ∈ (ops.foldl (Session.apply M E F) Session.init).draws, ∀ g,
      d.source = .parked g → g = d.gen := by
  have hinit : Session.init.Aligned ∧ Session.init.DrawsOwn :=
    ⟨rfl, fun d hd => absurd hd List.not_mem_nil⟩
  have hstep : ∀ (s : Session) op, s.Aligned ∧ s.DrawsOwn → s.noneParked M F op →
      (s.apply M E F op).Aligned ∧ (s.apply M E F op).DrawsOwn := fun s op h hop =>
    ⟨apply_aligned M E F h.1 op, apply_drawsOwn M E F h.1 h.2 hop⟩
  exact (hrun.inv hstep hinit).2

/-- The device samples token `7` whenever a batched step may leave it to it. -/
def Env.samplesAhead : Env (.small false) :=
  { Env.calm (.small false) with
    step := fun _ => .sampled 7
    sample := fun _ => 5 }

/-- A generation of a slot, with `maxTokens` tokens and sampling on the device. -/
def slotGeneration (prompt : Text) (maxTokens : ℤ) : List Op :=
  [.taskStart, .completion ⟨true, true, true, true⟩ prompt maxTokens, .taskFinish]

theorem draws_own_generation_ahead :
    let s := (slotGeneration [1, 2] 2).foldl (Session.apply (.small false) .samplesAhead .bytes) .init
    s.draws = [⟨1, 5, .host (.of [1, 2])⟩, ⟨1, 7, .parked 1⟩] ∧
      ∀ d ∈ s.draws, ∀ g, d.source = .parked g → g = d.gen :=
  ⟨by decide +kernel,
    draws_own_generation (.small false) .samplesAhead .bytes (slotGeneration [1, 2] 2)
      (by decide +kernel)⟩

/-- A generation that ends by `max_tokens` leaves a token parked, and the next generation of
the slot returns it as its first. -/
theorem parked_token_outlives_generation :
    let s := (slotGeneration [1, 2] 1 ++ slotGeneration [1, 3] 1).foldl
      (Session.apply (.small false) .samplesAhead .bytes) .init
    s.draws = [⟨1, 5, .host (.of [1, 2])⟩, ⟨2, 7, .parked 1⟩] ∧
      ¬ ∀ d ∈ s.draws, ∀ g, d.source = .parked g → g = d.gen := by
  intro s
  have hdraws : s.draws = [⟨1, 5, .host (.of [1, 2])⟩, ⟨2, 7, .parked 1⟩] := by decide +kernel
  refine ⟨hdraws, fun h => ?_⟩
  rw [hdraws] at h
  exact absurd (h ⟨2, 7, .parked 1⟩ (by simp) 1 rfl) (by decide)

end Kappai
