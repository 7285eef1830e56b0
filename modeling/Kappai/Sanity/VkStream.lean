import Kappai.Sanity.VkHazards

/-! What the operations on the ring do to the command buffers: each keeps them ordered and what is
remembered of the current one true, and it either goes on with the current one or leaves it. -/

namespace Kappai

open VkHazards Proc

namespace VkPriv

/-- The commands of the buffer that is being recorded. -/
def curCmds (s : VkPriv) : List VkCmd := (s.cmd.map fun i => (s.ring i).cmds).getD []

/-- The part of the state that the stream is made of. -/
def stream (s : VkPriv) :
    (ℕ → VkRingSlot) × Option ℕ × ℕ × List VkSubmission × VkHazards :=
  (s.ring, s.cmd, s.ringCur, s.subs, s.hazards)

/-- All command buffers are ordered, only the current one is recorded, and what is known about its
commands holds. -/
structure Kept (K : VkHazards → List VkCmd → Prop) (s : VkPriv) : Prop where
  ring : ∀ i, VkOrdered (s.ring i).cmds
  subs : ∀ sub ∈ s.subs, VkOrdered sub.cmds
  cur : ∀ i, (s.ring i).recording = true →
    i = s.ringCur ∧ s.cmd = some i ∧ (s.ring i).submitted = false
  known : K s.hazards s.curCmds

variable {s s' : VkPriv} {K K' : VkHazards → List VkCmd → Prop} {idx : ℕ}

theorem curCmds_of_stream (h : s'.stream = s.stream) : s'.curCmds = s.curCmds := by
  simp only [stream, Prod.mk.injEq] at h
  rw [curCmds, curCmds, h.1, h.2.1]

theorem Kept.of_stream (hk : s.Kept K) (h : s'.stream = s.stream) : s'.Kept K := by
  have hcur := curCmds_of_stream h
  simp only [stream, Prod.mk.injEq] at h
  obtain ⟨hring, hcmd, hidx, hsubs, hhaz⟩ := h
  refine ⟨?_, ?_, ?_, ?_⟩
  · rw [hring]
    exact hk.ring
  · rw [hsubs]
    exact hk.subs
  · rw [hring, hcmd, hidx]
    exact hk.cur
  · rw [hhaz, hcur]
    exact hk.known

theorem Kept.mono (hk : s.Kept K) (hK : K s.hazards s.curCmds → K' s.hazards s.curCmds) : s.Kept K' :=
  ⟨hk.ring, hk.subs, hk.cur, hK hk.known⟩

end VkPriv

open VkPriv

section Bounds

/-- The current command buffer is the one it was, or it is left. -/
def streamKept : Bound VkPriv where
  rel s s' := s.Kept (Tracks [] []) →
    s'.Kept (Tracks [] []) ∧ (s'.curCmds = s.curCmds ∨ s'.curCmds = [])
  refl _ := fun h => ⟨h, Or.inl rfl⟩
  trans h h' := fun hs => by
    obtain ⟨ht, hcur⟩ := h hs
    obtain ⟨hu, hcur'⟩ := h' ht
    refine ⟨hu, ?_⟩
    rcases hcur' with hcur' | hcur'
    · rw [hcur']
      exact hcur
    · exact Or.inr hcur'

/-- The same while the slot of the current command buffer is being submitted. -/
def submitKept (idx : ℕ) : Bound VkPriv where
  rel s s' := s.Kept (Tracks [] []) → s.cmd = some idx ∨ s.curCmds = [] →
    s'.Kept (Tracks [] []) ∧ (s'.cmd = some idx ∨ s'.curCmds = []) ∧
      (s'.curCmds = s.curCmds ∨ s'.curCmds = []) ∧
      ∀ i, (s'.ring i).recording = true → (s.ring i).recording = true
  refl _ := fun h hcmd => ⟨h, hcmd, Or.inl rfl, fun _ hi => hi⟩
  trans h h' := fun hs hcmd => by
    obtain ⟨ht, hcmd', hcur, hrec⟩ := h hs hcmd
    obtain ⟨hu, hcmd'', hcur', hrec'⟩ := h' ht hcmd'
    refine ⟨hu, hcmd'', ?_, fun i hi => hrec i (hrec' i hi)⟩
    rcases hcur' with hcur' | hcur'
    · rw [hcur']
      exact hcur
    · exact Or.inr hcur'

abbrev fixesStream : Bound VkPriv := Bound.fixes VkPriv.stream

variable {s s' : VkPriv} {idx : ℕ}

theorem streamKept_of_fixes (h : fixesStream.rel s s') : streamKept.rel s s' := fun hs =>
  ⟨hs.of_stream h, Or.inl (curCmds_of_stream h)⟩

theorem submitKept_of_fixes (h : fixesStream.rel s s') : (submitKept idx).rel s s' := fun hs hcmd => by
  have hcur := curCmds_of_stream h
  refine ⟨hs.of_stream h, ?_, Or.inl hcur, fun i hi => ?_⟩
  · rw [hcur]
    exact hcmd.imp_left fun hc => (congrArg (·.2.1) h : s'.cmd = s.cmd).trans hc
  · have hring : s'.ring = s.ring := congrArg (·.1) h
    rwa [hring] at hi

end Bounds

section Fixes

variable {s : VkPriv}

theorem fixes_ask : Within fixesStream ask s := rfl

theorem fixes_vkCheck (a : VkAnswer) : Within fixesStream (vkCheck a) s := by
  unfold vkCheck
  refine Within.when (fun _ => Within.update rfl) fun s' _ _ => ?_
  exact Within.ite (fun _ => Within.throw _) fun _ => Within.pure _

theorem fixes_vkTimelineWait (value : ℕ) : Within fixesStream (vkTimelineWait value) s := by
  unfold vkTimelineWait
  refine Within.bind_get (Within.ite (fun _ => ?_) fun _ => Within.pure _)
  refine Within.bind fixes_ask fun a s₁ _ => Within.bind (fixes_vkCheck a) fun _ s₂ _ => ?_
  exact Within.update rfl

theorem fixes_vkTimelinePoll : Within fixesStream vkTimelinePoll s := by
  unfold vkTimelinePoll
  refine Within.bind_get (Within.ite (fun _ => ?_) fun _ => Within.pure _)
  refine Within.bind fixes_ask fun a s₁ _ => Within.update ?_
  change VkPriv.stream _ = _
  split_ifs <;> rfl

theorem fixes_vkTimelineDone (value : ℕ) : Within fixesStream (vkTimelineDone value) s := by
  unfold vkTimelineDone
  refine Within.bind_get (Within.ite (fun _ => Within.pure _) fun _ => ?_)
  exact Within.bind fixes_vkTimelinePoll fun _ _ _ => Within.bind_get (Within.pure _)

theorem fixes_vkFlushPendingDescFrees : Within fixesStream vkFlushPendingDescFrees s := by
  unfold vkFlushPendingDescFrees
  refine Within.bind_get (Within.ite (fun _ => Within.pure _) fun _ => ?_)
  refine Within.bind (fixes_vkTimelineDone _) fun done s₁ _ => ?_
  refine Within.ite (fun _ => Within.pure _) fun _ => ?_
  exact Within.bind_update rfl (Within.update rfl)

theorem fixes_vkNoteSubmitted (idx : ℕ) : Within fixesStream (vkNoteSubmitted idx) s := by
  refine Within.update ?_
  change VkPriv.stream _ = _
  unfold VkPriv.noteStaged VkPriv.noteFrees
  split_ifs <;> rfl

end Fixes

section Ring

variable {s : VkPriv} {idx : ℕ}

section Change

variable {f : VkRingSlot → VkRingSlot}

/-- A slot changes, but for its commands. -/
theorem kept_modifySlot (hcmds : ∀ r, (f r).cmds = r.cmds)
    (hrec : ∀ r, (f r).recording = true → r.recording = true ∧ (f r).submitted = r.submitted)
    {s' : VkPriv} (hs' : s' = (Proc.exec (modifySlot idx f) s).2) :
    (s.Kept (Tracks [] []) → s'.Kept (Tracks [] [])) ∧ s'.curCmds = s.curCmds ∧
      ∀ i, (s'.ring i).recording = true → (s.ring i).recording = true := by
  subst hs'
  have hring : ∀ i, ((setAt s.ring idx (f (s.ring idx))) i).cmds = (s.ring i).cmds := by
    intro i
    rw [setAt_eq_update, Function.update_apply]
    split_ifs with hi
    · rw [hi, hcmds]
    · rfl
  have hmono : ∀ i, ((setAt s.ring idx (f (s.ring idx))) i).recording = true →
      (s.ring i).recording = true ∧
        ((setAt s.ring idx (f (s.ring idx))) i).submitted = (s.ring i).submitted := by
    intro i hi
    rw [setAt_eq_update, Function.update_apply] at hi ⊢
    split_ifs at hi ⊢ with hidx
    · subst hidx
      exact hrec _ hi
    · exact ⟨hi, rfl⟩
  have hcur : (Proc.exec (modifySlot idx f) s).2.curCmds = s.curCmds := by
    change (s.cmd.map fun i => ((setAt s.ring idx (f (s.ring idx))) i).cmds).getD [] = _
    simp only [hring]
    rfl
  refine ⟨fun hs => ⟨fun i => ?_, hs.subs, fun i hi => ?_, ?_⟩, hcur, fun i hi => (hmono i hi).1⟩
  · exact (hring i).symm ▸ hs.ring i
  · obtain ⟨hi, hsub⟩ := hmono i hi
    obtain ⟨h1, h2, h3⟩ := hs.cur i hi
    exact ⟨h1, h2, hsub.trans h3⟩
  · rw [hcur]
    exact hs.known

theorem streamKept_modifySlot (hcmds : ∀ r, (f r).cmds = r.cmds)
    (hrec : ∀ r, (f r).recording = true → r.recording = true ∧ (f r).submitted = r.submitted) :
    Within streamKept (modifySlot idx f) s := by
  intro hs
  obtain ⟨hk, hcur, -⟩ := @kept_modifySlot s idx f hcmds hrec _ rfl
  exact ⟨hk hs, Or.inl hcur⟩

theorem submitKept_modifySlot (hcmds : ∀ r, (f r).cmds = r.cmds)
    (hrec : ∀ r, (f r).recording = true → r.recording = true ∧ (f r).submitted = r.submitted) :
    Within (submitKept idx) (modifySlot idx f) s := by
  intro hs hcmd
  obtain ⟨hk, hcur, hmono⟩ := @kept_modifySlot s idx f hcmds hrec _ rfl
  refine ⟨hk hs, ?_, Or.inl hcur, hmono⟩
  rw [hcur]
  exact hcmd

end Change

/-- A slot is given up. -/
theorem submitKept_vkRingInvalidate : Within (submitKept idx) (vkRingInvalidate idx) s := by
  intro hs hcmd
  set ring' := setAt s.ring idx
    { s.ring idx with cmds := [], recording := false, hasWork := false, submitted := false } with hdef
  have hring : ∀ i, i = idx ∧ ring' i = ⟨false, false, false, (s.ring idx).signalValue, []⟩ ∨
      i ≠ idx ∧ ring' i = s.ring i := by
    intro i
    rw [hdef, setAt_eq_update]
    by_cases hi : i = idx
    · exact Or.inl ⟨hi, by rw [hi, Function.update_self]⟩
    · exact Or.inr ⟨hi, Function.update_of_ne hi _ _⟩
  have hexec : (Proc.exec (vkRingInvalidate idx) s).2.stream =
      (ring', if s.cmd = some idx then none else s.cmd, s.ringCur, s.subs, s.hazards.vkDirtyClear) := by
    simp only [vkRingInvalidate, modifySlot, exec_bind, exec_modify, VkPriv.stream]
    split_ifs <;> rfl
  set s' := (Proc.exec (vkRingInvalidate idx) s).2
  simp only [VkPriv.stream, Prod.mk.injEq] at hexec
  obtain ⟨hr, hc, hidx, hsubs, hhaz⟩ := hexec
  have hrec : ∀ i, (s'.ring i).recording = true →
      i ≠ idx ∧ s'.ring i = s.ring i ∧ (s.ring i).recording = true := by
    intro i hi
    rw [hr] at hi ⊢
    rcases hring i with ⟨-, h⟩ | ⟨hne, h⟩
    · rw [h] at hi
      cases hi
    · exact ⟨hne, h, by rwa [h] at hi⟩
  have hcur : s'.curCmds = [] := by
    rw [VkPriv.curCmds, hc, hr]
    split_ifs with hsame
    · rfl
    · have hnil := hcmd.resolve_left hsame
      rw [VkPriv.curCmds] at hnil
      rcases hj : s.cmd with _ | j
      · rfl
      · rw [hj] at hnil
        change (ring' j).cmds = []
        rcases hring j with ⟨-, h⟩ | ⟨-, h⟩
        · rw [h]
        · rw [h]
          exact hnil
  refine ⟨⟨fun i => ?_, ?_, fun i hi => ?_, ?_⟩, Or.inr hcur, Or.inr hcur, fun i hi => (hrec i hi).2.2⟩
  · rw [hr]
    rcases hring i with ⟨-, h⟩ | ⟨-, h⟩
    · rw [h]
      exact VkOrdered.nil
    · rw [h]
      exact hs.ring i
  · rw [hsubs]
    exact hs.subs
  · obtain ⟨hne, heq, hi⟩ := hrec i hi
    obtain ⟨h1, h2, h3⟩ := hs.cur i hi
    rw [hidx, hc, if_neg fun hsame => hne (Option.some.inj (h2.symm.trans hsame)), heq]
    exact ⟨h1, h2, h3⟩
  · rw [hcur, hhaz]
    exact Tracks.of_nil counted_vkDirtyClear

theorem submitKept_vkQueueSubmitChecked : Within (submitKept idx) (vkQueueSubmitChecked idx) s := by
  unfold vkQueueSubmitChecked
  refine Within.bind (submitKept_of_fixes fixes_ask) fun a s₁ _ => Within.ite (fun _ => ?_) fun _ => ?_
  · refine Within.update fun hs hcmd => ⟨⟨hs.ring, fun sub hsub => ?_, hs.cur, hs.known⟩, hcmd, Or.inl rfl,
      fun _ hi => hi⟩
    rcases List.mem_append.1 hsub with hsub | hsub
    · exact hs.subs sub hsub
    · rw [List.mem_singleton.1 hsub]
      exact hs.ring idx
  · refine Within.when (fun _ => Within.update (submitKept_of_fixes rfl)) fun s₂ _ _ => ?_
    exact Within.bind submitKept_vkRingInvalidate fun _ _ _ => Within.throw _

theorem submitKept_vkRingSubmit (waitNow : Bool) :
    Within (submitKept idx) (vkRingSubmit idx waitNow) s := by
  have hslot : ∀ (s' : VkPriv), Within (submitKept idx)
      (modifySlot idx fun r => { r with submitted := true, recording := false }) s' := fun s' =>
    submitKept_modifySlot (fun _ => rfl) fun _ h => by cases h
  unfold vkRingSubmit
  refine Within.bind_get (Within.ite (fun _ => Within.pure _) fun _ => ?_)
  refine Within.bind (submitKept_of_fixes fixes_ask) fun a s₁ _ => Within.ite (fun _ => ?_) fun _ => ?_
  · refine Within.bind submitKept_vkRingInvalidate fun _ s₂ _ => ?_
    exact Within.bind (submitKept_of_fixes fixes_vkFlushPendingDescFrees) fun _ _ _ => Within.throw _
  · refine Within.ite (fun _ => ?_) fun _ => ?_
    · refine Within.bind_update (submitKept_of_fixes rfl) (Within.bind_get ?_)
      refine Within.bind (submitKept_modifySlot (fun _ => rfl) fun _ h => ⟨h, rfl⟩) fun _ s₂ _ => ?_
      refine Within.bind submitKept_vkQueueSubmitChecked fun _ s₃ _ => ?_
      refine Within.bind (hslot s₃) fun _ s₄ _ => ?_
      refine Within.bind_update (submitKept_of_fixes rfl) (Within.ite (fun _ => ?_) fun _ => Within.pure _)
      refine Within.bind (Within.outcome (submitKept_of_fixes (fixes_vkTimelineWait _))) fun out s₅ _ => ?_
      cases out with
      | ok _ => exact submitKept_of_fixes fixes_vkFlushPendingDescFrees
      | error e => exact Within.bind submitKept_vkRingInvalidate fun _ _ _ => Within.throw _
    · refine Within.bind submitKept_vkQueueSubmitChecked fun _ s₃ _ => ?_
      refine Within.bind (hslot s₃) fun _ s₄ _ => ?_
      refine Within.bind (submitKept_of_fixes fixes_ask) fun b s₅ _ => Within.ite (fun _ => ?_) fun _ => ?_
      · exact Within.bind_update (submitKept_of_fixes rfl)
          (submitKept_of_fixes fixes_vkFlushPendingDescFrees)
      · refine Within.when (fun _ => Within.update (submitKept_of_fixes rfl)) fun s₆ _ _ => ?_
        exact Within.bind submitKept_vkRingInvalidate fun _ _ _ => Within.throw _

/-- A submission that succeeds leaves no command buffer recorded. -/
theorem ends_vkRingSubmit (waitNow : Bool)
    (hs : (s.ring idx).recording = true → (s.ring idx).submitted = false) :
    Ends (fun s' => (s'.ring idx).recording = false) (vkRingSubmit idx waitNow) s := by
  have hkeep : ∀ {α : Type} {m : VkM α} {s' : VkPriv}, Within fixesStream m s' →
      Within (.keeps fun s' => (s'.ring idx).recording = false) m s' := by
    intro α m s' hm hrec
    have hring : (Proc.exec m s').2.ring = s'.ring := congrArg (·.1) hm
    rwa [hring]
  have hslot : ∀ u s₃ s₄, Proc.exec
      (modifySlot idx fun r => { r with submitted := true, recording := false }) s₃ = (.ok u, s₄) →
      (s₄.ring idx).recording = false := by
    intro u s₃ s₄ h
    cases h
    change (setAt s₃.ring idx _ idx).recording = false
    rw [setAt_eq_update, Function.update_self]
  unfold vkRingSubmit
  refine Ends.bind fun s₀ s' hget => ?_
  cases hget
  refine Ends.ite (fun hskip => Ends.pure ?_ _) fun _ => ?_
  · rcases Bool.or_eq_true_iff.1 hskip with h | h
    · simpa using h
    · by_contra hrec
      rw [hs (Bool.eq_true_of_not_eq_false hrec)] at h
      cases h
  · refine Ends.bind fun a s₁ _ => Ends.ite (fun _ => ?_) fun _ => Ends.ite (fun _ => ?_) fun _ => ?_
    · exact Ends.bind fun _ _ _ => Ends.bind fun _ _ _ => Ends.throw _
    · refine Ends.bind fun _ _ _ => Ends.bind fun _ _ _ => Ends.bind fun _ _ _ => Ends.bind fun _ _ _ => ?_
      refine Ends.bind fun u s₄ h => Ends.bind_keeps (hslot u _ s₄ h) (hkeep rfl) fun _ s₅ h₅ => ?_
      refine Ends.ite (fun _ => ?_) fun _ => Ends.of_keeps h₅ (Within.pure _)
      refine Ends.bind_keeps h₅ (hkeep (Within.outcome (fixes_vkTimelineWait _))) fun out s₆ h₆ => ?_
      cases out with
      | ok _ => exact Ends.of_keeps h₆ (hkeep fixes_vkFlushPendingDescFrees)
      | error e => exact Ends.bind fun _ _ _ => Ends.throw _
    · refine Ends.bind fun _ _ _ => Ends.bind fun u s₄ h => ?_
      refine Ends.bind_keeps (hslot u _ s₄ h) (hkeep fixes_ask) fun b s₅ h₅ => Ends.ite (fun _ => ?_) fun _ => ?_
      · exact Ends.bind_keeps h₅ (hkeep rfl) fun _ s₆ h₆ => Ends.of_keeps h₆
          (hkeep fixes_vkFlushPendingDescFrees)
      · exact Ends.ite (fun _ => Ends.bind fun _ _ _ => Ends.bind fun _ _ _ => Ends.throw _)
          fun _ => Ends.bind fun _ _ _ => Ends.throw _

theorem vkRingSubmit_skip {waitNow : Bool} (hrec : (s.ring idx).recording = false) :
    Proc.exec (vkRingSubmit idx waitNow) s = (.ok (), s) := by
  rw [vkRingSubmit, exec_bind, exec_get]
  dsimp only
  rw [if_pos (by rw [hrec]; rfl)]
  rfl

theorem streamKept_vkRingSubmit (waitNow : Bool) : Within streamKept (vkRingSubmit idx waitNow) s := by
  intro hs
  rcases hrec : (s.ring idx).recording
  · rw [vkRingSubmit_skip hrec]
    exact ⟨hs, Or.inl rfl⟩
  · obtain ⟨hk, -, hcur, -⟩ := submitKept_vkRingSubmit waitNow hs (Or.inl (hs.cur idx hrec).2.1)
    exact ⟨hk, hcur⟩

theorem within_of_kept {α : Type} {m : VkM α} (h : s.Kept (Tracks [] []) → Within streamKept m s) :
    Within streamKept m s := fun hs => h hs hs

theorem streamKept_clearSlot :
    Within streamKept (modifySlot idx fun r => { r with cmds := [] }) s := by
  intro hs
  set s' := (Proc.exec (modifySlot idx fun r => { r with cmds := [] }) s).2 with hs'
  have hring : ∀ i, s'.ring i = if i = idx then { s.ring idx with cmds := [] } else s.ring i := by
    intro i
    change setAt s.ring idx _ i = _
    rw [setAt_eq_update, Function.update_apply]
  have hslot : ∀ i, (s'.ring i).cmds = (s.ring i).cmds ∨ (s'.ring i).cmds = [] := by
    intro i
    rw [hring]
    split_ifs
    · exact Or.inr rfl
    · exact Or.inl rfl
  have hcur : s'.curCmds = s.curCmds ∨ s'.curCmds = [] := by
    have hcmd : s'.cmd = s.cmd := rfl
    rw [VkPriv.curCmds, VkPriv.curCmds, hcmd]
    cases s.cmd with
    | none => exact Or.inl rfl
    | some j => exact hslot j
  refine ⟨⟨fun i => ?_, hs.subs, fun i hi => ?_, ?_⟩, hcur⟩
  · rcases hslot i with h | h
    · rw [h]
      exact hs.ring i
    · rw [h]
      exact VkOrdered.nil
  · rw [hring] at hi ⊢
    split_ifs at hi ⊢ with heq
    · subst heq
      exact hs.cur i hi
    · exact hs.cur i hi
  · rcases hcur with h | h
    · rw [h]
      exact hs.known
    · rw [h]
      exact Tracks.of_nil hs.known.count

/-- The end of `vk_ring_begin`: the slot's empty command buffer is the current one. -/
theorem streamKept_begun {m : VkM Unit} (hidx : idx = s.ringCur) (hcmds : (s.ring idx).cmds = [])
    (hm : (Proc.exec m s).2.stream =
      (setAt s.ring idx { s.ring idx with recording := true, hasWork := false, submitted := false },
        some idx, s.ringCur, s.subs, s.hazards.vkReadsClear)) :
    Within streamKept m s ∧ (Proc.exec m s).2.curCmds = [] := by
  set s' := (Proc.exec m s).2 with hs'
  simp only [VkPriv.stream, Prod.mk.injEq] at hm
  obtain ⟨hring, hcmd, hcur, hsubs, hhaz⟩ := hm
  have hslot : ∀ i, s'.ring i =
      if i = idx then ⟨true, false, false, (s.ring idx).signalValue, []⟩ else s.ring i := by
    intro i
    rw [hring, setAt_eq_update, Function.update_apply, hcmds]
  have hnil : s'.curCmds = [] := by
    rw [VkPriv.curCmds, hcmd]
    change (s'.ring idx).cmds = []
    rw [hslot, if_pos rfl]
  refine ⟨fun hs => ⟨⟨fun i => ?_, ?_, fun i hi => ?_, ?_⟩, Or.inr hnil⟩, hnil⟩
  · change VkOrdered (s'.ring i).cmds
    rw [hslot]
    split_ifs
    · exact VkOrdered.nil
    · exact hs.ring i
  · change ∀ sub ∈ s'.subs, _
    rw [hsubs]
    exact hs.subs
  · change i = s'.ringCur ∧ s'.cmd = some i ∧ (s'.ring i).submitted = false
    change (s'.ring i).recording = true at hi
    have heq : i = idx := by
      by_contra hne
      rw [hslot, if_neg hne] at hi
      exact hne ((hs.cur i hi).1.trans hidx.symm)
    subst heq
    rw [hslot, if_pos rfl, hcur]
    exact ⟨hidx, hcmd, rfl⟩
  · change Tracks [] [] s'.hazards s'.curCmds
    rw [hnil, hhaz]
    exact Tracks.of_nil hs.known.count

theorem vkRingBegin_stream (hidx : idx = s.ringCur) :
    Within streamKept (vkRingBegin idx) s ∧
      Ends (fun s' => s'.curCmds = []) (vkRingBegin idx) s := by
  have hclear : ∀ u s₁, Proc.exec (modifySlot idx fun r => { r with cmds := [] }) s = (.ok u, s₁) →
      s₁.ringCur = s.ringCur ∧ (s₁.ring idx).cmds = [] := by
    intro u s₁ h
    cases h
    refine ⟨rfl, ?_⟩
    change (setAt s.ring idx _ idx).cmds = []
    rw [setAt_eq_update, Function.update_self]
  have hfixed : ∀ {s₁ s₃ : VkPriv}, s₁.ringCur = s.ringCur ∧ (s₁.ring idx).cmds = [] →
      s₃.stream = s₁.stream → idx = s₃.ringCur ∧ (s₃.ring idx).cmds = [] := by
    intro s₁ s₃ h hstream
    simp only [VkPriv.stream, Prod.mk.injEq] at hstream
    rw [hstream.1, hstream.2.2.1]
    exact ⟨hidx.trans h.1.symm, h.2⟩
  unfold vkRingBegin
  constructor
  · refine Within.bind streamKept_clearSlot fun u s₁ h₁ => ?_
    refine Within.bind (streamKept_of_fixes fixes_ask) fun a s₂ h₂ => ?_
    refine Within.bind (streamKept_of_fixes (fixes_vkCheck a)) fun _ s₃ h₃ => ?_
    obtain ⟨hi, hc⟩ := hfixed (hclear u s₁ h₁) (((fixes_vkCheck a).ok h₃).trans (fixes_ask.ok h₂))
    exact (streamKept_begun hi hc rfl).1
  · refine Ends.bind fun u s₁ h₁ => Ends.bind fun a s₂ h₂ => Ends.bind fun _ s₃ h₃ => ?_
    obtain ⟨hi, hc⟩ := hfixed (hclear u s₁ h₁) (((fixes_vkCheck a).ok h₃).trans (fixes_ask.ok h₂))
    intro _ s₄ h₄
    obtain rfl : _ = s₄ := congrArg Prod.snd h₄
    exact (streamKept_begun hi hc rfl).2

theorem streamKept_vkRingResume : Within streamKept vkRingResume s := by
  unfold vkRingResume
  exact Within.bind_get (Within.ite (fun _ => (vkRingBegin_stream rfl).1) fun _ => Within.pure _)

/-- No command buffer is recorded. -/
def NoneRecorded (s : VkPriv) : Prop := ∀ i, (s.ring i).recording = false

theorem NoneRecorded.of_stream {s' : VkPriv} (h : NoneRecorded s) (hs' : s'.stream = s.stream) :
    NoneRecorded s' := fun i => by
  have hring : s'.ring = s.ring := congrArg (·.1) hs'
  rw [hring]
  exact h i

theorem noneRecorded_submit (waitNow : Bool) (hs : s.Kept (Tracks [] [])) {s' : VkPriv}
    (h : Proc.exec (vkRingSubmit s.ringCur waitNow) s = (.ok (), s')) : NoneRecorded s' := by
  intro i
  by_contra hno
  have hi : (s'.ring i).recording = true := Bool.eq_true_of_not_eq_false hno
  rcases hrec : (s.ring s.ringCur).recording
  · rw [vkRingSubmit_skip hrec] at h
    cases h
    obtain rfl := (hs.cur i hi).1
    exact hno hrec
  · have hmono := ((submitKept_vkRingSubmit waitNow).ok h hs (Or.inl (hs.cur _ hrec).2.1)).2.2.2
    obtain rfl := (hs.cur i (hmono i hi)).1
    exact hno (ends_vkRingSubmit waitNow (fun h => (hs.cur _ h).2.2) () s' h)

theorem streamKept_vkRunCmd : Within streamKept vkRunCmd s := by
  refine within_of_kept fun hs => ?_
  unfold vkRunCmd
  refine Within.bind_get (Within.bind (streamKept_vkRingSubmit _) fun _ s₁ h₁ => ?_)
  have hk₁ := ((streamKept_vkRingSubmit _).ok h₁ hs).1
  have hnone₁ := noneRecorded_submit _ hs h₁
  refine Within.bind (streamKept_of_fixes (fixes_vkNoteSubmitted _)) fun _ s₂ h₂ => ?_
  have hnone₂ := hnone₁.of_stream ((fixes_vkNoteSubmitted _).ok h₂)
  have hmove : streamKept.rel s₂ { s₂ with ringCur := (s.ringCur + 1) % 4 } := fun hk =>
    ⟨⟨hk.ring, hk.subs, fun i hi => absurd (hi.symm.trans (hnone₂ i)) (by decide), hk.known⟩, Or.inl rfl⟩
  refine Within.bind_update hmove (Within.bind_get ?_)
  set s₃ : VkPriv := { s₂ with ringCur := (s.ringCur + 1) % 4 }
  have hnone₃ : NoneRecorded s₃ := hnone₂
  refine Within.when (fun hc => ?_) fun s₄ _ helse₄ => ?_
  · rw [hnone₃] at hc
    cases hc
  · rw [helse₄ (by rw [hnone₃]; exact Bool.false_ne_true)]
    refine Within.bind_get (Within.when (fun _ => streamKept_of_fixes (fixes_vkTimelineWait _))
      fun s₅ hwait hno => ?_)
    have hfix : s₅.stream = s₃.stream := by
      by_cases hc : (!!s.setup.timelineSupported && (s₃.ring s₃.ringCur).submitted &&
          decide (s₃.timelineCompleted < (s₃.ring s₃.ringCur).signalValue)) = true
      · exact (fixes_vkTimelineWait _).ok (hwait hc)
      · rw [hno hc]
    have hnone₅ := hnone₃.of_stream hfix
    refine Within.bind streamKept_vkRingResume fun _ s₆ h₆ => ?_
    have hnil : s₆.curCmds = [] := by
      rw [vkRingResume, exec_bind, exec_get] at h₆
      dsimp only at h₆
      rw [if_pos (by rw [hnone₅]; rfl)] at h₆
      exact (vkRingBegin_stream rfl).2 _ _ h₆
    refine Within.bind_update (fun hk => ?_) (Within.ite (fun _ => Within.update ?_) fun _ => Within.pure _)
    · refine ⟨⟨hk.ring, hk.subs, hk.cur, ?_⟩, Or.inl rfl⟩
      change Tracks [] [] s₆.hazards.vkDirtyClear s₆.curCmds
      rw [hnil]
      exact Tracks.of_nil counted_vkDirtyClear
    · exact streamKept_of_fixes rfl

theorem streamKept_vkFlush : Within streamKept vkFlush s := by
  unfold vkFlush
  refine Within.bind_get (Within.ite (fun _ => Within.bind (Within.throw _) fun _ _ h => ?_) fun _ => ?_)
  · cases h
  refine Within.when (fun _ => streamKept_vkRunCmd) fun s₁ _ _ => Within.bind_get ?_
  refine Within.ite (fun _ => Within.pure _) fun _ => ?_
  refine Within.when (fun _ => streamKept_of_fixes (fixes_vkTimelineWait _)) fun s₂ _ _ => ?_
  refine Within.bind_update (streamKept_of_fixes rfl) ?_
  refine Within.bind (streamKept_of_fixes fixes_vkFlushPendingDescFrees) fun _ s₃ _ => ?_
  exact streamKept_vkRingResume

end Ring

section Descriptors

variable {s : VkPriv} {d : VkDispatch}

theorem streamKept_vkDescFreeRoom : Within streamKept vkDescFreeRoom s := by
  unfold vkDescFreeRoom
  refine Within.bind_get (Within.ite (fun _ => ?_) fun _ => Within.pure _)
  refine Within.bind (Within.outcome streamKept_vkFlush) fun out s₂ _ => ?_
  cases out with
  | error e => exact Within.update (streamKept_of_fixes rfl)
  | ok _ =>
    refine Within.bind_get (Within.ite (fun _ => ?_) fun _ => Within.pure _)
    exact Within.bind_update (streamKept_of_fixes rfl) (Within.update (streamKept_of_fixes rfl))

theorem streamKept_vkQueueDescFree (set : ℕ) : Within streamKept (vkQueueDescFree set) s := by
  unfold vkQueueDescFree
  refine Within.ite (fun _ => Within.pure _) fun _ => Within.bind_update (streamKept_of_fixes rfl) ?_
  exact Within.bind streamKept_vkDescFreeRoom fun _ _ _ => Within.update (streamKept_of_fixes rfl)

theorem streamKept_vkDescDrop (pipeline slot : ℕ) : Within streamKept (vkDescDrop pipeline slot) s := by
  unfold vkDescDrop
  exact Within.bind_get (Within.bind (streamKept_vkQueueDescFree _) fun _ _ _ =>
    Within.update (streamKept_of_fixes rfl))

theorem streamKept_vkDescCacheDropBuf (freed pipeline : ℕ) :
    Within streamKept (vkDescCacheDropBuf freed pipeline) s := by
  unfold vkDescCacheDropBuf
  refine Within.forM fun slot _ s₁ => Within.bind_get (Within.ite (fun _ => ?_) fun _ => Within.pure _)
  exact streamKept_vkDescDrop pipeline slot

theorem streamKept_vkFreeBuffer (handle : ℕ) : Within streamKept (vkFreeBuffer handle) s := by
  unfold vkFreeBuffer
  refine Within.bind_get (Within.ite (fun _ => Within.pure _) fun _ => Within.bind ?_ fun _ s₁ _ =>
    Within.update (streamKept_of_fixes rfl))
  unfold vkInvalidateDescCacheForBuf
  refine Within.bind_get (Within.ite (fun _ => Within.pure _) fun _ => Within.ite (fun _ => ?_) fun _ => ?_)
  · exact Within.ite (fun _ => Within.update (streamKept_of_fixes rfl)) fun _ => Within.pure _
  · exact Within.bind (Within.forM fun pipeline _ s₁ => streamKept_vkDescCacheDropBuf handle pipeline)
      fun _ _ _ => Within.update (streamKept_of_fixes rfl)

theorem streamKept_vkAllocBuffer (handle : ℕ) : Within streamKept (vkAllocBuffer handle) s := by
  refine Within.update (streamKept_of_fixes ?_)
  change VkPriv.stream _ = _
  split_ifs <;> rfl

theorem streamKept_vkDescAlloc (slot : ℕ) : Within streamKept (vkDescAlloc d slot) s := by
  unfold vkDescAlloc
  refine Within.bind_get (Within.when (fun _ => streamKept_vkDescDrop _ _) fun s₁ _ _ => ?_)
  refine Within.bind (streamKept_of_fixes fixes_ask) fun a s₂ _ => ?_
  refine Within.bind (streamKept_of_fixes (fixes_vkCheck a)) fun _ s₃ _ => Within.bind_get ?_
  refine Within.bind_update (streamKept_of_fixes rfl) (Within.bind_get ?_)
  exact Within.bind_update (streamKept_of_fixes rfl) (Within.pure _)

theorem streamKept_vkDescPurge (slots : List ℕ) (miss : Option ℕ) :
    Within streamKept (vkDescPurge d slots miss) s := by
  induction slots generalizing s miss with
  | nil => exact Within.pure _
  | cons slot slots ih =>
    rw [vkDescPurge]
    refine Within.bind_get (Within.ite (fun _ => ih _) fun _ => Within.ite (fun _ => ?_) fun _ => ih _)
    exact Within.bind (streamKept_vkDescDrop _ _) fun _ _ _ => ih _

theorem streamKept_vkDispatchSet : Within streamKept (vkDispatchSet d) s := by
  unfold vkDispatchSet
  refine Within.bind_get (Within.ite (fun _ => ?_) fun _ => ?_)
  · exact Within.bind (streamKept_vkDescPurge _ _) fun _ _ _ => streamKept_vkDescAlloc _
  · dsimp only
    split
    · refine Within.bind_update (streamKept_of_fixes rfl) (Within.bind_get ?_)
      exact Within.bind_update (streamKept_of_fixes rfl) (Within.pure _)
    · exact streamKept_vkDescAlloc _

end Descriptors

section Dispatch

variable {s : VkPriv} {d : VkDispatch}

theorem streamKept_vkDispatchBegin : Within streamKept (vkDispatchBegin d) s := by
  unfold vkDispatchBegin
  refine Within.bind_get (Within.when (fun _ => Within.throw _) fun s₁ _ _ => ?_)
  refine Within.when (fun _ => Within.throw _) fun s₂ _ _ => ?_
  refine Within.bind streamKept_vkRingResume fun _ s₃ _ => Within.bind ?_ fun _ s₄ _ => ?_
  · unfold vkDispatchSwitch
    refine Within.bind_get (Within.ite (fun _ => ?_) fun _ => Within.pure _)
    exact Within.bind streamKept_vkRunCmd fun _ _ _ => streamKept_vkRingResume
  · refine Within.when (fun _ => Within.throw _) fun s₅ _ _ => Within.bind_get ?_
    exact Within.ite (fun _ => Within.throw _) fun _ => Within.pure _

end Dispatch

end Kappai
