import Kappai.Spec.Decode
import Kappai.Sanity.Reuse

/-! What sampling and feeding one token do to the fed ids, the position and the KV rows. -/

namespace Kappai

theorem Core.Holds.congr {S : ℕ} {c c' : Core} {ids : List Token} (h : c.Holds S ids)
    (hfed : c'.fedIds = c.fedIds) (hpos : c'.nPos = c.nPos) (hkv : c'.kv = c.kv) :
    c'.Holds S ids :=
  ⟨by rw [hfed, h.fedIds], by rw [hpos, h.nPos], by rw [hkv]; exact h.rows⟩

/-- The cached rows and the counters are as in `c`. -/
def Context.SameCache (c c' : Context) : Prop :=
  c'.fedIds = c.fedIds ∧ c'.nPos = c.nPos ∧ c'.kv = c.kv

theorem Context.SameCache.holds {S : ℕ} {c c' : Context} {ids : List Token}
    (hsame : c.SameCache c') (h : c.Holds S ids) : c'.Holds S ids :=
  h.congr hsame.1 hsame.2.1 hsame.2.2

variable (M : Model) (E : Env M) (P : Sampling)

theorem contextDevicePick_same (c : Context) : c.SameCache (contextDevicePick M E c).1 := by
  unfold contextDevicePick
  cases E.pick c.clock <;> exact ⟨rfl, rfl, rfl⟩

theorem contextSampleNext_same (c : Context) : c.SameCache (contextSampleNext M E P c).1 := by
  unfold contextSampleNext
  cases c.presampled with
  | some pk => exact ⟨rfl, rfl, rfl⟩
  | none =>
    simp only
    split_ifs
    · have hpick := contextDevicePick_same M E c
      generalize contextDevicePick M E c = r at hpick
      obtain ⟨c', tok⟩ := r
      cases tok <;> exact hpick
    · exact ⟨rfl, rfl, rfl⟩

/-- A pass over `tok` at the next position: it writes at most that row, and it did if
`done`. Nothing is counted yet. -/
structure Passed (c c' : Core) (tok : Token) (done : Prop) : Prop where
  fedIds : c'.fedIds = c.fedIds
  nPos : c'.nPos = c.nPos
  below : ∀ l p, p < c.nPos → c'.kv l p = c.kv l p
  row : done → ∀ l < M.nStores, c'.kv l c.nPos = some ⟨tok, c.nPos⟩

variable {M}

theorem Passed.skip {c c' : Core} (tok : Token) (hfed : c'.fedIds = c.fedIds)
    (hpos : c'.nPos = c.nPos) (hkv : c'.kv = c.kv) : Passed M c c' tok False :=
  ⟨hfed, hpos, fun _ _ _ => by rw [hkv], False.elim⟩

theorem Passed.mono {c c' : Core} {tok : Token} {done done' : Prop} (h : Passed M c c' tok done)
    (himp : done' → done) : Passed M c c' tok done' :=
  ⟨h.fedIds, h.nPos, h.below, fun hd => h.row (himp hd)⟩

variable (M)

theorem passed_forward (c : Core) (out : PassOutcome) (cached : List Token) (tok : Token)
    (want : Bool) :
    Passed M c (c.forward M out cached [tok] c.nPos want).1 tok (out = .ok) where
  fedIds := Core.forward_fedIds ..
  nPos := Core.forward_nPos ..
  below _ _ hp := Core.forward_kv_outside M _ _ _ _ _ _ (Or.inl hp)
  row hout l hl := by
    subst hout
    have := Core.forward_ok_kv M c cached [tok] c.nPos want hl (i := 0) (by simp)
    simpa using this

theorem Core.forward_err (c : Core) (out : PassOutcome) (cached tokens : List Token) (pos : ℕ)
    (want : Bool) : (c.forward M out cached tokens pos want).2 = none ↔ out = .ok := by
  cases out <;> simp [Core.forward]

theorem Context.batchedStep_passed (c : Context) (out : StepOutcome) (cached : List Token)
    (tok : Token) (want : Bool) :
    let r := c.batchedStep M out cached tok c.nPos want
    Passed M c.toCore r.1.toCore tok (r.2 = none) := by
  have hran := passed_forward M c.toCore .ok cached tok false
  have hok : ∀ done c', c'.fedIds = (c.toCore.forward M .ok cached [tok] c.nPos false).1.fedIds →
      c'.nPos = (c.toCore.forward M .ok cached [tok] c.nPos false).1.nPos →
      c'.kv = (c.toCore.forward M .ok cached [tok] c.nPos false).1.kv →
      Passed M c.toCore c' tok done := fun done c' h1 h2 h3 =>
    ⟨h1.trans hran.fedIds, h2.trans hran.nPos, fun l p hp => by rw [h3]; exact hran.below l p hp,
      fun _ => by rw [h3]; exact hran.row rfl⟩
  cases out with
  | status e => exact (Passed.skip tok rfl rfl rfl).mono (by simp [batchedStep])
  | failed f =>
    have := passed_forward M c.toCore (.fail f) cached tok false
    exact ⟨this.fedIds, this.nPos, this.below, by simp [batchedStep]⟩
  | read => exact hok _ _ rfl rfl rfl
  | sampled t => cases want <;> exact hok _ _ rfl rfl rfl
  | unread e => cases want <;> exact hok _ _ rfl rfl rfl

theorem Context.feedPass_passed (c : Context) (tok : Token) (want : Bool) :
    let r := c.feedPass M E tok want
    Passed M c.toCore r.1.toCore tok (r.2 = none) := by
  unfold feedPass
  split_ifs
  · have := c.tick.batchedStep_passed M (E.step c.clock) c.fedIds.ids tok want
    exact ⟨this.fedIds, this.nPos, this.below, this.row⟩
  · have := passed_forward M c.tick.toCore (E.pass c.clock) c.fedIds.ids tok want
    refine ⟨this.fedIds, this.nPos, this.below, fun hnone => this.row ?_⟩
    exact (Core.forward_err M _ _ _ _ _ _).1 hnone

variable {M} {S : ℕ}

/-- A pass that broke off leaves the cache as it was. -/
theorem Passed.holds {c c' : Core} {tok : Token} {done : Prop} {ids : List Token}
    (hp : Passed M c c' tok done) (h : c.Holds S ids) : c'.Holds S ids :=
  ⟨by rw [hp.fedIds, h.fedIds], by rw [hp.nPos, h.nPos], fun l hl p hlt => by
    rw [hp.below l p (by rw [h.nPos]; exact hlt), h.rows l hl p hlt]⟩

/-- Counting the token of a pass that succeeded. -/
theorem Passed.holds_counted {c c' : Core} {tok : Token} {ids : List Token}
    (hS : S ≤ M.nStores) (hp : Passed M c c' tok True) (h : c.Holds S ids) :
    Core.Holds { c' with nPos := c'.nPos + 1, fedIds := c'.fedIds.append tok } S (ids ++ [tok]) := by
  have h' := hp.holds h
  refine ⟨by simp [h'.fedIds], by simp [h'.nPos], fun l hl p hlt => ?_⟩
  rcases Nat.lt_or_ge p ids.length with hold | hnew
  · rw [List.getElem?_append_left hold]
    exact h'.rows l hl p hold
  · have hpos : p = c.nPos := by
      rw [h.nPos]
      simp only [List.length_append, List.length_singleton] at hlt
      omega
    subst hpos
    rw [List.getElem?_append_right hnew, h.nPos]
    simpa [h.nPos] using hp.row trivial l (hl.trans_le hS)

theorem Core.Holds.sync {c : Core} {ids : List Token} (h : c.Holds S ids) :
    c.fedIdsSync.Holds S ids := by
  rwa [Core.fedIdsSync_of_le h.n_eq.le]

variable (M)

theorem not_outOfVocab (reg : Fin M.vocab) : ¬ M.outOfVocab (reg.val : ℤ) := by
  have := reg.isLt
  unfold Model.outOfVocab
  omega

/-- Feeding one token: it is counted, or the cache stays as it was. -/
theorem contextFeedTokenInner_spec (hS : S ≤ M.nStores) {c : Context} {ids : List Token}
    (h : c.fedIdsSync.Holds S ids) (hroom : c.nPos < M.nCtx) {tok : Token}
    (hvocab : ¬ M.outOfVocab tok) (want : Bool) :
    let r := contextFeedTokenInner M E c tok want
    (r.2 = none → r.1.Holds S (ids ++ [tok])) ∧ (r.2 ≠ none → r.1.Holds S ids) := by
  have hpass := c.sync.feedPass_passed M E tok want
  unfold contextFeedTokenInner
  rw [if_neg (not_le.2 hroom), if_neg hvocab]
  generalize c.sync.feedPass M E tok want = r at hpass
  obtain ⟨c', st⟩ := r
  cases st with
  | none => exact ⟨fun _ => (hpass.mono fun _ => rfl).holds_counted hS h, fun hne => absurd rfl hne⟩
  | some e => exact ⟨fun hnone => (by cases hnone), fun _ => hpass.holds h⟩

/-- A token that is refused leaves the context alone. -/
theorem contextFeedTokenInner_refused {c : Context} {tok : Token} (want : Bool)
    (h : M.nCtx ≤ c.nPos ∨ M.outOfVocab tok) :
    contextFeedTokenInner M E c tok want = (c, some .invalidArg) := by
  unfold contextFeedTokenInner
  split_ifs with hfull hrange
  · rfl
  · rfl
  · exact absurd h (not_or.2 ⟨hfull, hrange⟩)

/-- Feeding a register counts the position; the token is still to be appended. -/
theorem contextFeedReg_spec (hS : S ≤ M.nStores) {c : Context} {ids : List Token}
    (h : c.Holds S ids) (reg : Fin M.vocab) :
    let r := contextFeedReg M E c reg
    (r.2 = none → c.nPos < M.nCtx ∧ r.1.fedIds.ids = ids ∧ r.1.nPos = ids.length + 1 ∧
        Core.Holds { r.1.toCore with fedIds := r.1.fedIds.append (reg.val : Token) } S
          (ids ++ [(reg.val : Token)])) ∧
      (r.2 ≠ none → r.1.Holds S ids) := by
  unfold contextFeedReg
  split_ifs with hfull
  · exact ⟨fun hnone => (by cases hnone), fun _ => h⟩
  · have hsync : c.sync = c := by
      rw [Context.sync, Core.fedIdsSync_of_le h.n_eq.le]
    rw [hsync]
    have hpass := passed_forward M c.tick.toCore (E.pass c.clock) c.fedIds.ids (reg.val : Token) false
    have hst := Core.forward_err M c.tick.toCore (E.pass c.clock) c.fedIds.ids [(reg.val : Token)]
      c.nPos false
    simp only
    change Passed M c.tick.toCore (c.tick.toCore.forward M (E.pass c.clock) c.fedIds.ids
      [(reg.val : Token)] c.nPos false).1 _ _ at hpass
    generalize c.tick.toCore.forward M (E.pass c.clock) c.fedIds.ids [(reg.val : Token)] c.nPos
      false = r at hpass hst
    obtain ⟨core, st⟩ := r
    have htick : c.tick.toCore.Holds S ids := ⟨h.fedIds, h.nPos, h.rows⟩
    have hkeep := hpass.holds htick
    cases st with
    | none =>
      have hok := hst.1 rfl
      refine ⟨fun _ => ⟨by omega, hkeep.fedIds, congrArg (· + 1) hkeep.nPos, ?_⟩,
        fun hne => absurd rfl hne⟩
      exact (hpass.mono fun _ => hok).holds_counted hS htick
    | some e => exact ⟨fun hnone => (by cases hnone), fun _ => hkeep⟩

/-! The decode loop keeps `fed_ids` and the position of the cache aligned: at every loop head
the cache holds the tokens delivered so far, and a token that was fed from its register
before the host knew it is taken back unless it is delivered. -/

variable (M : Model) (E : Env M) (P : Sampling) (S : ℕ)

/-- The invariant of the loop head, with `base` in the cache when the loop started. -/
structure DecodeInv (base : List Token) (s : DecodeState) : Prop where
  holds : s.ctx.Holds S (base ++ s.delivered)
  last : ∀ t, s.lastFed = some t →
    ¬ M.outOfVocab t ∧ s.ctx.nPos ≤ M.nCtx ∧ ∃ ds, s.delivered = ds ++ [t]

/-- A token that was fed from its register is the only difference to the cache `ids`. -/
structure DrawnInv (ids : List Token) (d : Drawn) : Prop where
  kept : d.specFed = false → d.ctx.Holds S ids
  plain : d.specFed = true → d.hostRedo = false ∧ d.preRc = none ∧ ¬ M.outOfVocab d.tok
  ahead : d.specFed = true → d.ctx.nPos = ids.length + 1 ∧ d.ctx.nPos ≤ M.nCtx
  fed : d.specFed = true →
    Core.Holds { d.ctx.toCore with fedIds := d.ctx.fedIds.append d.tok } S (ids ++ [d.tok])
  taken : d.specFed = true → Core.Holds { d.ctx.toCore with nPos := d.ctx.nPos - 1 } S ids

/-- How many of the delivered tokens are in the cache when the loop has returned. -/
def DecodeEnd.fedCount (r : DecodeEnd) : ℕ :=
  if r.unfedTail ∨ r.redoFailed then r.delivered.length - 1 else r.delivered.length

structure DecodeEndInv (base : List Token) (r : DecodeEnd) : Prop where
  holds : r.ctx.Holds S (base ++ r.delivered.take r.fedCount)
  unfed : r.unfedTail ∨ r.redoFailed → 0 < r.delivered.length
  poisoned : r.redoFailed → r.ctx.sessionPoisoned

variable {M} {S}

theorem DrawnInv.unfed {ids : List Token} {d : Drawn} (hspec : d.specFed = false)
    (h : d.ctx.Holds S ids) : DrawnInv M S ids d where
  kept _ := h
  plain ht := by rw [hspec] at ht; cases ht
  ahead ht := by rw [hspec] at ht; cases ht
  fed ht := by rw [hspec] at ht; cases ht
  taken ht := by rw [hspec] at ht; cases ht

theorem Core.Holds.takeBack {c : Core} {ids : List Token} {tok : Token}
    (hids : c.fedIds.ids = ids) (hpos : c.nPos = ids.length + 1)
    (h : Core.Holds { c with fedIds := c.fedIds.append tok } S (ids ++ [tok])) :
    Core.Holds { c with nPos := c.nPos - 1 } S ids := by
  refine ⟨hids, by simp [hpos], fun l hl p hp => ?_⟩
  have := h.rows l hl p (by simp only [List.length_append, List.length_singleton]; omega)
  rwa [List.getElem?_append_left hp] at this

variable (M)

theorem drawPipelined_inv (hS : S ≤ M.nStores) {s : DecodeState} {ids : List Token}
    (h : s.ctx.Holds S ids) : DrawnInv M S ids (drawPipelined M E s) := by
  have htick : s.ctx.tick.Holds S ids := ⟨h.fedIds, h.nPos, h.rows⟩
  unfold drawPipelined
  cases hpick : E.pickReg s.ctx.clock with
  | error e => exact DrawnInv.unfed rfl htick
  | ok reg =>
    obtain ⟨hok, herr⟩ := contextFeedReg_spec M E hS htick reg
    simp only
    generalize contextFeedReg M E s.ctx.tick reg = r at hok herr ⊢
    obtain ⟨c, preRc⟩ := r
    cases preRc with
    | some e =>
      have hkept : c.tick.Holds S ids := by
        have := herr (by simp)
        exact ⟨this.fedIds, this.nPos, this.rows⟩
      simp only [Option.isNone_some]
      cases E.readReg c.clock <;> exact DrawnInv.unfed rfl hkept
    | none =>
      obtain ⟨hroom, hids, hpos, hfed⟩ := hok rfl
      have htaken := hfed.takeBack hids hpos
      simp only [Option.isNone_none]
      cases E.readReg c.clock with
      | some e => exact DrawnInv.unfed rfl ⟨htaken.fedIds, htaken.nPos, htaken.rows⟩
      | none =>
        have hnPos := htick.nPos
        simp only at hpos
        exact
          { kept := fun hf => by cases hf
            plain := fun _ => ⟨rfl, rfl, not_outOfVocab M reg⟩
            ahead := fun _ => ⟨hpos, by
              change c.nPos ≤ M.nCtx
              omega⟩
            fed := fun _ => ⟨hfed.fedIds, hfed.nPos, hfed.rows⟩
            taken := fun _ => ⟨htaken.fedIds, htaken.nPos, htaken.rows⟩ }

theorem drawToken_inv (hS : S ≤ M.nStores) {s : DecodeState} {ids : List Token}
    (h : s.ctx.Holds S ids) : DrawnInv M S ids (drawToken M E P s) := by
  unfold drawToken
  simp only
  split_ifs
  · exact drawPipelined_inv M E hS h
  · have hpick := (contextDevicePick_same M E s.ctx).holds h
    generalize contextDevicePick M E s.ctx = r at hpick ⊢
    obtain ⟨c, tok⟩ := r
    cases tok <;> exact DrawnInv.unfed rfl hpick
  · exact DrawnInv.unfed rfl ((contextSampleNext_same M E P s.ctx).holds h)

/-- A redo feeds the last token again at its own position. If it fails, that token is no
longer in the cache. -/
theorem redoOnHost_spec (hS : S ≤ M.nStores) {base : List Token} {s : DecodeState}
    (h : DecodeInv M S base s) {d : Drawn} (hd : d.ctx.Holds S (base ++ s.delivered)) :
    let r := redoOnHost M E P d s.lastFed
    (∀ tok, r.2 = some tok → r.1.Holds S (base ++ s.delivered)) ∧
      (r.2 = none → 0 < s.delivered.length ∧ r.1.sessionPoisoned ∧
        r.1.Holds S (base ++ s.delivered.take (s.delivered.length - 1))) := by
  unfold redoOnHost
  cases hlast : s.lastFed with
  | none => exact ⟨fun tok _ => (contextSampleNext_same M E P d.ctx).holds hd, by simp⟩
  | some t =>
    obtain ⟨hvocab, hroom, ds, hds⟩ := h.last t hlast
    have hall := h.holds.nPos
    have hpos := hd.nPos
    rw [hds, ← List.append_assoc] at hd hpos hall
    simp only [List.length_append, List.length_singleton] at hpos hall
    have hback : Core.Holds (Core.fedIdsSync { d.ctx.toCore with nPos := d.ctx.nPos - 1 }) S
        (base ++ ds) := by
      have hrewind : (d.ctx.toCore.rewind (d.ctx.nPos - 1)).Holds S
          (((base ++ ds) ++ [t]).take (d.ctx.nPos - 1)) := hd.rewind (by
        simp only [List.length_append, List.length_singleton]; omega)
      have htake : ((base ++ ds) ++ [t]).take (d.ctx.nPos - 1) = base ++ ds := by
        rw [List.take_append_of_le_length (by simp; omega), List.take_of_length_le (by simp; omega)]
      rw [htake] at hrewind
      have hn := hd.n_eq
      rw [Core.rewind_of_le (by omega) (by omega)] at hrewind
      rw [Core.fedIdsSync, if_pos (by simp only; omega)]
      exact hrewind
    obtain ⟨hok, herr⟩ := contextFeedTokenInner_spec M E hS
      (c := { d.ctx with nPos := d.ctx.nPos - 1 }) hback (by simp only; omega) hvocab true
    simp only
    generalize contextFeedTokenInner M E { d.ctx with nPos := d.ctx.nPos - 1 } t true = r at hok herr ⊢
    obtain ⟨c, st⟩ := r
    cases st with
    | some e =>
      refine ⟨fun tok hsome => (by cases hsome), fun _ => ⟨by rw [hds]; simp, rfl, ?_⟩⟩
      have hfail := herr (by simp)
      rw [hds]
      simpa using ⟨hfail.fedIds, hfail.nPos, hfail.rows⟩
    | none =>
      refine ⟨fun tok _ => ?_, by simp⟩
      rw [hds, ← List.append_assoc]
      exact (contextSampleNext_same M E P c).holds (hok rfl)

theorem feedFailed_same (c : Context) (e : Err) : c.SameCache (feedFailed M c e) := by
  cases e <;> exact ⟨rfl, rfl, rfl⟩

/-- Feeding the delivered token: counted from its register, counted by a pass, or refused. -/
theorem feedDelivered_spec (hS : S ≤ M.nStores) {ids : List Token} {d : Drawn} {c : Context}
    {tok : Token} (hspec : d.specFed = true → c = d.ctx ∧ tok = d.tok) (hd : DrawnInv M S ids d)
    (hc : d.specFed = false → c.Holds S ids) :
    let r := feedDelivered M E d c tok
    (r.2 = none → r.1.Holds S (ids ++ [tok]) ∧ ¬ M.outOfVocab tok ∧ r.1.nPos ≤ M.nCtx) ∧
      (r.2 ≠ none → r.1.Holds S ids) := by
  unfold feedDelivered
  by_cases hs : d.specFed = true
  · obtain ⟨rfl, rfl⟩ := hspec hs
    rw [if_pos hs]
    exact ⟨fun _ => ⟨hd.fed hs, (hd.plain hs).2.2, (hd.ahead hs).2⟩, fun hne => absurd rfl hne⟩
  · rw [if_neg hs]
    have hkept := hc (by simpa using hs)
    cases d.preRc with
    | some e => exact ⟨fun hnone => (by cases hnone), fun _ => hkept⟩
    | none =>
      simp only
      by_cases hfits : M.nCtx ≤ c.nPos ∨ M.outOfVocab tok
      · rw [contextFeedTokenInner_refused M E _ hfits]
        exact ⟨fun hnone => (by cases hnone), fun _ => hkept⟩
      · obtain ⟨hroom, hvocab⟩ := not_or.1 hfits
        obtain ⟨hok, herr⟩ := contextFeedTokenInner_spec M E hS hkept.sync (not_le.1 hroom) hvocab
          (!d.devicePick)
        refine ⟨fun hnone => ⟨hok hnone, hvocab, ?_⟩, herr⟩
        have hpos := (hok hnone).nPos
        have hbefore := hkept.nPos
        simp only [List.length_append, List.length_singleton] at hpos
        omega

/-- What one iteration establishes: the invariant at the next loop head and one more
position, or the end of the loop as claimed. -/
def DecodeStepInv (S : ℕ) (base : List Token) (s : DecodeState) :
    LoopStep DecodeState DecodeEnd → Prop
  | .next s' => DecodeInv M S base s' ∧ s.ctx.nPos < s'.ctx.nPos ∧ s'.ctx.nPos ≤ M.nCtx
  | .done r => DecodeEndInv S base r

/-- Leaving with every delivered token fed. -/
theorem DecodeEndInv.allFed {base : List Token} {c : Context} {delivered : List Token}
    (h : c.Holds S (base ++ delivered)) :
    DecodeEndInv S base ⟨c, delivered, false, false⟩ where
  holds := by simpa [DecodeEnd.fedCount] using h
  unfed hu := by simp at hu
  poisoned hp := by cases hp

theorem decodeDrawn_inv (hS : S ≤ M.nStores) {base : List Token} {s : DecodeState}
    (h : DecodeInv M S base s) {d : Drawn} (hd : DrawnInv M S (base ++ s.delivered) d) :
    DecodeStepInv M S base s (decodeDrawn M E P s d) := by
  -- the token of the iteration: drawn, or drawn again from host logits
  obtain ⟨c, drawn, hdrawn, hspec, hnone, hsome⟩ : ∃ c drawn,
      (if d.hostRedo then redoOnHost M E P d s.lastFed else (d.ctx, some d.tok)) = (c, drawn) ∧
        (d.specFed = true → c = d.ctx ∧ drawn = some d.tok) ∧
        (drawn = none → DecodeEndInv S base ⟨c, s.delivered, false, true⟩) ∧
        (∀ tok, drawn = some tok → d.specFed = false → c.Holds S (base ++ s.delivered)) := by
    by_cases hredo : d.hostRedo
    · have hs : d.specFed = false := by
        by_contra hs
        have := (hd.plain (by simpa using hs)).1
        rw [this] at hredo
        cases hredo
      obtain ⟨hagain, hfail⟩ := redoOnHost_spec M E P hS h (hd.kept hs)
      refine ⟨(redoOnHost M E P d s.lastFed).1, (redoOnHost M E P d s.lastFed).2, if_pos hredo,
        fun ht => absurd (hs.symm.trans ht) (by simp), fun hnone => ?_,
        fun tok hsome _ => hagain tok hsome⟩
      obtain ⟨hlen, hpoison, hholds⟩ := hfail hnone
      exact ⟨by simpa [DecodeEnd.fedCount] using hholds, fun _ => hlen, fun _ => hpoison⟩
    · exact ⟨_, _, if_neg hredo, fun _ => ⟨rfl, rfl⟩, fun hnone => (by cases hnone),
        fun tok _ hs => hd.kept hs⟩
  simp only [decodeDrawn, hdrawn]
  cases drawn with
  | none => exact hnone rfl
  | some tok =>
    have hkept := hsome tok rfl
    simp only
    by_cases heog : M.isEog tok
    · rw [if_pos heog]
      by_cases hs : d.specFed = true
      · obtain ⟨rfl, -⟩ := hspec hs
        rw [if_pos hs]
        exact DecodeEndInv.allFed (hd.taken hs)
      · rw [if_neg hs]
        exact DecodeEndInv.allFed (hkept (by simpa using hs))
    · rw [if_neg heog]
      obtain ⟨hok, herr⟩ := feedDelivered_spec M E hS
        (fun hs => ⟨(hspec hs).1, Option.some.inj (hspec hs).2⟩) hd hkept
      generalize feedDelivered M E d c tok = r at hok herr ⊢
      obtain ⟨c', st⟩ := r
      cases st with
      | some e =>
        have hfail := (feedFailed_same M c' e).holds (herr (by simp))
        exact ⟨by simpa [DecodeEnd.fedCount] using hfail, fun _ => by simp, fun hp => by cases hp⟩
      | none =>
        obtain ⟨hholds, hvocab, hroom⟩ := hok rfl
        have hpos := hholds.nPos
        have hbefore := h.holds.nPos
        rw [List.append_assoc] at hholds
        refine ⟨⟨hholds, fun t ht => ?_⟩, ?_, hroom⟩
        · cases ht
          exact ⟨hvocab, hroom, s.delivered, rfl⟩
        · simp only [List.length_append, List.length_singleton] at hpos hbefore ⊢
          omega

theorem decodeIter_inv (hS : S ≤ M.nStores) (maxTokens : ℤ) {base : List Token}
    {s : DecodeState} (h : DecodeInv M S base s) :
    DecodeStepInv M S base s (decodeIter M E P maxTokens s) := by
  have htick : DecodeInv M S base { s with ctx := s.ctx.tick } :=
    ⟨⟨h.holds.fedIds, h.holds.nPos, h.holds.rows⟩, h.last⟩
  unfold decodeIter
  simp only
  split_ifs
  · exact DecodeEndInv.allFed h.holds
  · exact DecodeEndInv.allFed htick.holds
  · have hstep := decodeDrawn_inv M E P hS htick (drawToken_inv M E P hS htick.holds)
    generalize decodeDrawn M E P { s with ctx := s.ctx.tick }
      (drawToken M E P { s with ctx := s.ctx.tick }) = r at hstep
    cases r with
    | next s' => exact hstep
    | done r => exact hstep

theorem decodeStart_inv {c : Context} (h : c.Holds S c.fedIds.ids) :
    DecodeInv M S c.fedIds.ids (decodeStart M P c) where
  holds := by
    have : c.Holds S (c.fedIds.ids ++ []) := by rwa [List.append_nil]
    exact this
  last t ht := by cases ht

/-- The loop heads of `context_decode_loop` started on `c`. -/
def DecodeHead (maxTokens : ℤ) (c : Context) (s : DecodeState) : Prop :=
  Loop.Head (decodeIter M E P maxTokens) (decodeStart M P c) s

theorem decodeHead_inv (hS : S ≤ M.nStores) {maxTokens : ℤ} {c : Context}
    (h : c.Holds S c.fedIds.ids) {s : DecodeState} (hs : DecodeHead M E P maxTokens c s) :
    DecodeInv M S c.fedIds.ids s := by
  refine hs.inv (decodeStart_inv M P h) fun s s' hinv hbody => ?_
  have := decodeIter_inv M E P hS maxTokens hinv
  rw [hbody] at this
  exact this.1

/-- The decode loop returns, from one of its loop heads. -/
theorem contextDecodeLoop_exits (maxTokens : ℤ) {c : Context} (h : c.Holds 0 c.fedIds.ids) :
    ∃ s, DecodeHead M E P maxTokens c s ∧
      decodeIter M E P maxTokens s = .done (contextDecodeLoop M E P maxTokens c) := by
  have hstep : ∀ s s', DecodeInv M 0 c.fedIds.ids s → decodeIter M E P maxTokens s = .next s' →
      DecodeInv M 0 c.fedIds.ids s' ∧ M.nCtx - s'.ctx.nPos < M.nCtx - s.ctx.nPos := by
    intro s s' hinv hbody
    have := decodeIter_inv M E P (Nat.zero_le _) maxTokens hinv
    rw [hbody] at this
    exact ⟨this.1, by have := this.2; omega⟩
  obtain ⟨r, hr⟩ := Loop.run_of_variant (fun s => M.nCtx - s.ctx.nPos) hstep (M.nCtx + 1)
    (decodeStart_inv M P h) (by omega)
  obtain ⟨s, hhead, hdone⟩ := Loop.exists_head_of_run hr
  refine ⟨s, hhead, ?_⟩
  rw [hdone, contextDecodeLoop, hr]
  rfl

theorem contextDecodeLoop_inv (hS : S ≤ M.nStores) (maxTokens : ℤ) {c : Context}
    (h : c.Holds S c.fedIds.ids) :
    DecodeEndInv S c.fedIds.ids (contextDecodeLoop M E P maxTokens c) := by
  obtain ⟨s, hhead, hdone⟩ := contextDecodeLoop_exits M E P maxTokens
    (c := c) ⟨h.fedIds, h.nPos, fun l hl => absurd hl (Nat.not_lt_zero l)⟩
  have := decodeIter_inv M E P hS maxTokens (decodeHead_inv M E P hS h hhead)
  rwa [hdone] at this

/-- What every step of the decode loop preserves. -/
structure DecodeClosed (I : Context → Prop) : Prop where
  tick : ∀ c, I c → I c.tick
  devicePick : ∀ c, I c → I (contextDevicePick M E c).1
  sampleNext : ∀ c, I c → I (contextSampleNext M E P c).1
  feedTokenInner : ∀ c tok want, I c → I (contextFeedTokenInner M E c tok want).1
  feedReg : ∀ c reg, I c → I (contextFeedReg M E c reg).1
  drew : ∀ c tok logits, I c → I (c.drew tok (.device logits))
  uncount : ∀ c, I c → I { c with nPos := c.nPos - 1 }
  append : ∀ c tok, I c → I { c with fedIds := c.fedIds.append tok }
  fail : ∀ c poisoned limit, I c →
    I { c with sessionPoisoned := poisoned, contextLimitHit := limit }

variable {M E P} in
theorem DecodeClosed.drawToken {I : Context → Prop} (hI : DecodeClosed M E P I)
    {s : DecodeState} (h : I s.ctx) : I (drawToken M E P s).ctx := by
  unfold Kappai.drawToken
  simp only
  split_ifs
  · unfold drawPipelined
    cases E.pickReg s.ctx.clock with
    | error e => exact hI.tick _ h
    | ok reg =>
      have hfed := hI.feedReg _ reg (hI.tick _ h)
      simp only
      generalize contextFeedReg M E s.ctx.tick reg = r at hfed ⊢
      obtain ⟨c, preRc⟩ := r
      simp only
      cases E.readReg c.clock with
      | none => exact hI.drew _ _ _ (hI.tick _ hfed)
      | some e =>
        simp only
        split_ifs
        · exact hI.uncount _ (hI.tick _ hfed)
        · exact hI.tick _ hfed
  · have hpick := hI.devicePick _ h
    generalize contextDevicePick M E s.ctx = r at hpick ⊢
    obtain ⟨c, tok⟩ := r
    cases tok <;> exact hpick
  · exact hI.sampleNext _ h

variable {M E P} in
theorem DecodeClosed.redoOnHost {I : Context → Prop} (hI : DecodeClosed M E P I) {d : Drawn}
    (h : I d.ctx) (lastFed : Option Token) : I (redoOnHost M E P d lastFed).1 := by
  unfold Kappai.redoOnHost
  cases lastFed with
  | none => exact hI.sampleNext _ h
  | some last =>
    have hfed := hI.feedTokenInner _ last true (hI.uncount _ h)
    simp only
    generalize contextFeedTokenInner M E { d.ctx with nPos := d.ctx.nPos - 1 } last true = r
      at hfed ⊢
    obtain ⟨c, st⟩ := r
    cases st with
    | none => exact hI.sampleNext _ hfed
    | some e => exact hI.fail _ true c.contextLimitHit hfed

variable {M E P} in
theorem DecodeClosed.feedDelivered {I : Context → Prop} (hI : DecodeClosed M E P I) {d : Drawn}
    {c : Context} (h : I c) (tok : Token) : I (feedDelivered M E d c tok).1 := by
  unfold Kappai.feedDelivered
  split_ifs
  · exact hI.append _ _ h
  · cases d.preRc with
    | some e => exact h
    | none => exact hI.feedTokenInner _ _ _ h

variable {M E P} in
theorem DecodeClosed.feedFailed {I : Context → Prop} (hI : DecodeClosed M E P I) {c : Context}
    (h : I c) (e : Err) : I (feedFailed M c e) := by
  cases e
  case computeFail => exact hI.fail c true c.contextLimitHit h
  case interrupted => exact hI.fail c (c.sessionPoisoned || M.hybrid) c.contextLimitHit h
  all_goals exact hI.fail c c.sessionPoisoned true h

/-- The context an iteration leaves, in the next state or at the end. -/
def DecodeStepCtx : LoopStep DecodeState DecodeEnd → Context
  | .next s => s.ctx
  | .done r => r.ctx

variable {M E P} in
theorem DecodeClosed.decodeDrawn {I : Context → Prop} (hI : DecodeClosed M E P I)
    (s : DecodeState) {d : Drawn} (h : I d.ctx) : I (DecodeStepCtx (decodeDrawn M E P s d)) := by
  obtain ⟨c, drawn, hdrawn, hc⟩ : ∃ c drawn,
      (if d.hostRedo then Kappai.redoOnHost M E P d s.lastFed else (d.ctx, some d.tok)) =
        (c, drawn) ∧ I c := by
    by_cases hredo : d.hostRedo
    · exact ⟨_, _, if_pos hredo, hI.redoOnHost h s.lastFed⟩
    · exact ⟨_, _, if_neg hredo, h⟩
  simp only [Kappai.decodeDrawn, hdrawn]
  cases drawn with
  | none => exact hc
  | some tok =>
    simp only
    split_ifs
    · exact hI.uncount _ hc
    · exact hc
    · have hfed := hI.feedDelivered (d := d) hc tok
      generalize Kappai.feedDelivered M E d c tok = r at hfed ⊢
      obtain ⟨c', st⟩ := r
      cases st with
      | none => exact hfed
      | some e => exact hI.feedFailed hfed e

variable {M E P} in
theorem DecodeClosed.decodeIter {I : Context → Prop} (hI : DecodeClosed M E P I)
    (maxTokens : ℤ) {s : DecodeState} (h : I s.ctx) :
    I (DecodeStepCtx (decodeIter M E P maxTokens s)) := by
  unfold Kappai.decodeIter
  simp only
  split_ifs
  · exact h
  · exact hI.tick _ h
  · exact hI.decodeDrawn _ (hI.drawToken (s := { s with ctx := s.ctx.tick }) (hI.tick _ h))

variable {M E P} in
/-- What every step preserves, the loop preserves. -/
theorem DecodeClosed.contextDecodeLoop {I : Context → Prop} (hI : DecodeClosed M E P I)
    (maxTokens : ℤ) {c : Context} (hc : c.Holds 0 c.fedIds.ids)
    (h : I { c with gen := c.gen + 1 }) : I (contextDecodeLoop M E P maxTokens c).ctx := by
  obtain ⟨s, hhead, hdone⟩ := contextDecodeLoop_exits M E P maxTokens hc
  have hs : I s.ctx := hhead.inv (I := fun s => I s.ctx) h fun s s' hs hbody => by
    have := hI.decodeIter maxTokens hs
    rwa [hbody] at this
  have := hI.decodeIter maxTokens hs
  rwa [hdone] at this

/-- For every sequence of outcomes the loop returns. At each of its heads the cache holds
exactly the tokens delivered so far, and on return those but the last if that one could not
be fed or be fed again; every row of the cache is the row of its token if it was so at the
start. -/
theorem contextDecodeLoop_aligned (maxTokens : ℤ) {c : Context} (h : c.fedIds.n = c.nPos) :
    (∀ s, DecodeHead M E P maxTokens c s →
      s.ctx.fedIds.n = s.ctx.nPos ∧ s.ctx.fedIds.ids = c.fedIds.ids ++ s.delivered) ∧
    let r := contextDecodeLoop M E P maxTokens c
    (∃ s, DecodeHead M E P maxTokens c s ∧ decodeIter M E P maxTokens s = .done r) ∧
      (∃ k, r.ctx.fedIds.ids = c.fedIds.ids ++ r.delivered.take k ∧
        r.ctx.fedIds.n = r.ctx.nPos ∧ r.ctx.nPos = c.nPos + k ∧
        (if r.unfedTail ∨ r.redoFailed then k + 1 = r.delivered.length
          else k = r.delivered.length)) ∧
      (r.redoFailed → r.ctx.sessionPoisoned) ∧
      (c.Holds M.nStores c.fedIds.ids → r.ctx.Holds M.nStores r.ctx.fedIds.ids) := by
  have h0 : c.Holds 0 c.fedIds.ids :=
    ⟨rfl, by rw [FedIds.ids_length, h], fun l hl => absurd hl (Nat.not_lt_zero l)⟩
  refine ⟨fun s hs => ?_, contextDecodeLoop_exits M E P maxTokens h0, ?_, ?_, fun hrows => ?_⟩
  · have hinv := decodeHead_inv M E P (Nat.zero_le _) h0 hs
    exact ⟨hinv.holds.n_eq, hinv.holds.fedIds⟩
  · have hinv := contextDecodeLoop_inv M E P (Nat.zero_le _) maxTokens h0
    set r := contextDecodeLoop M E P maxTokens c
    have hpos := hinv.holds.nPos
    have hunfed := hinv.unfed
    have hle : r.fedCount ≤ r.delivered.length := by
      unfold DecodeEnd.fedCount
      split_ifs <;> omega
    rw [List.length_append, List.length_take, FedIds.ids_length, h, Nat.min_eq_left hle] at hpos
    refine ⟨r.fedCount, hinv.holds.fedIds, hinv.holds.n_eq, hpos, ?_⟩
    unfold DecodeEnd.fedCount
    split_ifs with hu
    · have := hunfed hu
      omega
    · rfl
  · exact (contextDecodeLoop_inv M E P (Nat.zero_le _) maxTokens h0).poisoned
  · have hinv := (contextDecodeLoop_inv M E P le_rfl maxTokens hrows).holds
    rwa [← hinv.fedIds] at hinv

/-- A device that puts token 5 into its registers; the third register cannot be read, and the
sampler then draws the end token. -/
def Env.regsLostAt (clock : ℕ) : Env (.small false) :=
  { Env.calm (.small false) with
    pickReg := fun _ => .ok ⟨5, by decide⟩
    readReg := fun t => if t = clock then some .internal else none }

def regsLostRun : DecodeEnd :=
  contextDecodeLoop (.small false) (.regsLostAt 11) ⟨true, false, true, true⟩ (-1) (.fresh [1, 2])

theorem contextDecodeLoop_aligned_regsLost :
    regsLostRun.delivered = [5, 5] ∧ fedPositions regsLostRun.ctx.passes = [2, 3, 4, 3] ∧
      regsLostRun.ctx.fedIds.ids = [1, 2, 5, 5] ∧
      regsLostRun.ctx.fedIds.n = regsLostRun.ctx.nPos := by
  have hrun := contextDecodeLoop_aligned (.small false) (.regsLostAt 11) ⟨true, false, true, true⟩
    (-1) (c := .fresh [1, 2]) rfl
  obtain ⟨k, -, hn, -⟩ := hrun.2.2.1
  exact ⟨by decide +kernel, by decide +kernel, by decide +kernel, hn⟩

end Kappai
