import Kappai.Spec.Feed
import Mathlib.Data.List.TakeDrop
import Mathlib.Data.List.Range

/-! What `context_feed_tokens_batch` does to the fed ids, the KV rows, the logits and the
recurrent state. The chunk loop is taken apart once, in `feedChunks_rule`. -/

namespace Kappai

namespace FedIds

@[simp] theorem ids_length (f : FedIds) : f.ids.length = f.n := by simp [ids]

theorem ids_mk_zero (p : ℕ → Token) : (FedIds.mk p 0).ids = [] := rfl

theorem ids_truncate (f : FedIds) {k : ℕ} (h : k ≤ f.n) :
    (FedIds.mk f.p k).ids = f.ids.take k := by
  simp only [ids]
  rw [← List.map_take, List.take_range, Nat.min_eq_left h]

@[simp] theorem append_n (f : FedIds) (t : Token) : (f.append t).n = f.n + 1 := rfl

@[simp] theorem ids_append (f : FedIds) (t : Token) : (f.append t).ids = f.ids ++ [t] := by
  simp only [ids, append, List.range_succ, List.map_append, List.map_cons, List.map_nil,
    Function.update_self]
  congr 1
  refine List.map_congr_left fun i hi => Function.update_of_ne ?_ _ _
  have := List.mem_range.1 hi
  omega

@[simp] theorem appendAll_nil (f : FedIds) : f.appendAll [] = f := rfl

theorem appendAll_cons (f : FedIds) (t : Token) (ts : List Token) :
    f.appendAll (t :: ts) = (f.append t).appendAll ts := rfl

@[simp] theorem appendAll_n (f : FedIds) (ts : List Token) :
    (f.appendAll ts).n = f.n + ts.length := by
  induction ts generalizing f with
  | nil => simp
  | cons t ts ih => rw [appendAll_cons, ih, append_n, List.length_cons]; omega

@[simp] theorem ids_appendAll (f : FedIds) (ts : List Token) :
    (f.appendAll ts).ids = f.ids ++ ts := by
  induction ts generalizing f with
  | nil => simp
  | cons t ts ih => rw [appendAll_cons, ih, ids_append, List.append_assoc]; rfl

theorem appendAll_p_of_lt (f : FedIds) (ts : List Token) {i : ℕ} (h : i < f.n) :
    (f.appendAll ts).p i = f.p i := by
  induction ts generalizing f with
  | nil => rfl
  | cons t ts ih =>
    rw [appendAll_cons, ih _ (Nat.lt_succ_of_lt h)]
    exact Function.update_of_ne (Nat.ne_of_lt h) _ _

theorem appendAll_p_of_ge (f : FedIds) (ts : List Token) {i : ℕ} (h : f.n + ts.length ≤ i) :
    (f.appendAll ts).p i = f.p i := by
  induction ts generalizing f with
  | nil => rfl
  | cons t ts ih =>
    rw [List.length_cons] at h
    rw [appendAll_cons, ih _ (by rw [append_n]; omega)]
    exact Function.update_of_ne (by omega) _ _

theorem appendAll_p_add (f : FedIds) (ts : List Token) {i : ℕ} (h : i < ts.length) :
    ts[i]? = some ((f.appendAll ts).p (f.n + i)) := by
  have hids : (f.appendAll ts).ids[f.n + i]? = some ((f.appendAll ts).p (f.n + i)) := by
    rw [ids, List.getElem?_map, List.getElem?_range (by rw [appendAll_n]; omega), Option.map_some]
  rw [← hids, ids_appendAll, List.getElem?_append_right (by rw [ids_length]; omega), ids_length,
    Nat.add_sub_cancel_left]

end FedIds

namespace Core

@[simp] theorem tick_nPos (c : Core) : c.tick.nPos = c.nPos := rfl

theorem fedIdsSync_of_le {c : Core} (h : c.fedIds.n ≤ c.nPos) : c.fedIdsSync = c :=
  if_neg (by omega)

variable (M : Model)

@[simp] theorem forward_fedIds (c : Core) (out : PassOutcome) (cached tokens : List Token)
    (pos : ℕ) (want : Bool) :
    (c.forward M out cached tokens pos want).1.fedIds = c.fedIds := by
  cases out <;> rfl

@[simp] theorem forward_nPos (c : Core) (out : PassOutcome) (cached tokens : List Token)
    (pos : ℕ) (want : Bool) :
    (c.forward M out cached tokens pos want).1.nPos = c.nPos := by
  cases out <;> rfl

/-- The pass record does not depend on how the pass ends. -/
theorem forward_passes (c : Core) (out : PassOutcome) (cached tokens : List Token) (pos : ℕ)
    (want : Bool) :
    (c.forward M out cached tokens pos want).1.passes =
      c.passes ++ [⟨pos, tokens, cached, if pos = 0 then .folded [] else c.recurrent⟩] := by
  cases out <;> rfl

/-- A pass writes rows at the positions of its batch only. -/
theorem forward_kv_outside (c : Core) (out : PassOutcome) (cached tokens : List Token)
    (pos : ℕ) (want : Bool) {l p : ℕ} (h : p < pos ∨ pos + tokens.length ≤ p) :
    (c.forward M out cached tokens pos want).1.kv l p = c.kv l p := by
  cases out with
  | ok => exact if_neg (by omega)
  | fail f => exact if_neg (by omega)

theorem forward_ok_kv (c : Core) (cached tokens : List Token) (pos : ℕ) (want : Bool) {l i : ℕ}
    (hl : l < M.nStores) (hi : i < tokens.length) :
    (c.forward M .ok cached tokens pos want).1.kv l (pos + i) =
      tokens[i]?.map fun t => ⟨t, (pos + i : ℕ)⟩ := by
  have h : l < M.nStores ∧ pos ≤ pos + i ∧ pos + i < pos + tokens.length := by omega
  change writeRows M c.kv pos tokens l (pos + i) = _
  rw [writeRows, if_pos h, Nat.add_sub_cancel_left]

end Core

variable (M : Model) (E : Env M)

theorem computeForwardBatch_ok {c c' : Core} {cached tokens : List Token} {pos : ℕ}
    {want : Bool} (h : computeForwardBatch M E c cached tokens pos want = (c', none)) :
    c' = (c.tick.forward M .ok cached tokens pos want).1 := by
  unfold computeForwardBatch at h
  split_ifs at h
  · cases h
  · cases hout : E.pass c.clock with
    | ok => rw [hout] at h; exact (congrArg Prod.fst h).symm
    | fail f => rw [hout] at h; cases h

theorem computeForwardBatch_err {c c' : Core} {cached tokens : List Token} {pos : ℕ}
    {want : Bool} {e : Err}
    (h : computeForwardBatch M E c cached tokens pos want = (c', some e)) :
    c' = c ∨ ∃ f, c' = (c.tick.forward M (.fail f) cached tokens pos want).1 := by
  unfold computeForwardBatch at h
  split_ifs at h
  · exact Or.inl (congrArg Prod.fst h).symm
  · cases hout : E.pass c.clock with
    | ok => rw [hout] at h; cases h
    | fail f => rw [hout] at h; exact Or.inr ⟨f, (congrArg Prod.fst h).symm⟩

/-- The size floor keeps every chunk non-empty. -/
theorem prefillChunkSize_pos : 32 ≤ prefillChunkSize M := by
  unfold prefillChunkSize
  simp only
  split_ifs <;> omega

theorem take_append_chunk (tokens : List Token) (off chunk : ℕ) :
    tokens.take (off + ((tokens.drop off).take chunk).length) =
      tokens.take off ++ (tokens.drop off).take chunk := by
  rw [List.take_add, List.length_take, ← List.take_take, List.take_length]

/-- `P` holds whenever a chunk of `tokens` starts and `Q` when the chunk loop leaves early.
The clock has moved on once for the interrupt flag and once for the pass. -/
structure ChunkRule (tokens : List Token) (P Q : Core → ℕ → Prop) : Prop where
  leave : ∀ c off, P c off → off < tokens.length → Q c.tick off
  ok : ∀ chunk c off batch want, 0 < chunk → P c off → off < tokens.length →
    batch = (tokens.drop off).take chunk → want = decide (off + batch.length = tokens.length) →
    P (c.tick.tick.forward M .ok (c.fedIds.ids ++ tokens.take off) batch (c.nPos + off) want).1
      (off + batch.length)
  fail : ∀ chunk c off batch want f, 0 < chunk → P c off → off < tokens.length →
    batch = (tokens.drop off).take chunk → want = decide (off + batch.length = tokens.length) →
    Q (c.tick.tick.forward M (.fail f) (c.fedIds.ids ++ tokens.take off) batch (c.nPos + off)
      want).1 off

variable {M}

theorem ChunkRule.feedChunks {chunk : ℕ} {tokens : List Token} {P Q : Core → ℕ → Prop}
    (rule : ChunkRule M tokens P Q) (hchunk : 0 < chunk) (fuel : ℕ) (c : Core) (off : ℕ)
    (h : P c off) (hle : off ≤ tokens.length) :
    let r := feedChunks M E chunk tokens fuel c off
    r.2.1 ≤ tokens.length ∧
      (r.2.2 = none → P r.1 r.2.1 ∧ (tokens.length ≤ off + fuel → r.2.1 = tokens.length)) ∧
      (r.2.2 ≠ none → Q r.1 r.2.1) := by
  induction fuel generalizing c off with
  | zero =>
    refine ⟨hle, fun _ => ⟨h, fun hf => le_antisymm hle hf⟩, ?_⟩
    simp [Kappai.feedChunks]
  | succ fuel ih =>
    by_cases hoff : off < tokens.length
    · by_cases hint : E.interrupt c.clock
      · simp only [Kappai.feedChunks, if_pos hoff, if_pos hint]
        exact ⟨hle, by simp, fun _ => rule.leave c off h hoff⟩
      · have hlen : ((tokens.drop off).take chunk).length = min chunk (tokens.length - off) := by
          simp
        simp only [Kappai.feedChunks, if_pos hoff, if_neg hint]
        split
        · next c' heq =>
          rw [computeForwardBatch_ok M E heq]
          have hnext := ih _ _ (rule.ok chunk c off _ _ hchunk h hoff rfl rfl) (by omega)
          refine ⟨hnext.1, fun hn => ⟨(hnext.2.1 hn).1, fun hf => (hnext.2.1 hn).2 (by omega)⟩,
            hnext.2.2⟩
        · next c' e heq =>
          refine ⟨hle, by simp, fun _ => ?_⟩
          rcases computeForwardBatch_err M E heq with rfl | ⟨f, rfl⟩
          · exact rule.leave c off h hoff
          · exact rule.fail chunk c off _ _ f hchunk h hoff rfl rfl
    · simp only [Kappai.feedChunks, if_neg hoff]
      exact ⟨hle, fun _ => ⟨h, fun _ => by omega⟩, by simp⟩

theorem feedChunks_error {chunk : ℕ} {tokens : List Token} {fuel : ℕ} {c : Core} {off : ℕ} {e : Err}
    (h : (feedChunks M E chunk tokens fuel c off).2.2 = some e) :
    e = .interrupted ∨ e = .computeFail := by
  induction fuel generalizing c off with
  | zero => cases h
  | succ fuel ih =>
    unfold feedChunks at h
    dsimp only at h
    split_ifs at h with hoff hint
    · exact Or.inl (Option.some.inj h).symm
    · split at h
      · exact ih h
      · next c' e' _ =>
        have he := (Option.some.inj h).symm
        split_ifs at he
        · exact Or.inl he
        · exact Or.inr he

/-- Whether a batch is refused for want of room. -/
theorem contextFeedTokensBatch_error {c : Core} {tokens : List Token} {e : Err}
    (h : (contextFeedTokensBatch M E c tokens).2 = .error e) :
    e = .interrupted ∨ e = .computeFail ∨ (tokens ≠ [] ∧ M.nCtx < c.nPos + tokens.length) := by
  unfold contextFeedTokensBatch at h
  dsimp only at h
  split_ifs at h with hnone hlong
  · exact Or.inr (Or.inr ⟨fun heq => hnone (heq ▸ rfl), hlong⟩)
  · split at h
    · cases h
    · next e' hchunks =>
      obtain rfl := Except.error.inj h
      exact (feedChunks_error E hchunks).imp_right Or.inl

/-- The tokens of the completed chunks become cached tokens. -/
def Core.count (c : Core) (tokens : List Token) (off : ℕ) : Core :=
  { c with nPos := c.nPos + off, fedIds := c.fedIds.appendAll (tokens.take off) }

/-- How a batch can end: nothing to do or refused, all chunks fed, or broken off with the
first `off` tokens fed. -/
theorem ChunkRule.contextFeedTokensBatch {tokens : List Token} {P Q : Core → ℕ → Prop}
    (rule : ChunkRule M tokens P Q) {c : Core} (hc : c.fedIds.n ≤ c.nPos) (h : P c 0) :
    let r := contextFeedTokensBatch M E c tokens
    (r.1 = c ∧ (tokens = [] ∨ ∃ e, r.2 = .error e)) ∨
      (tokens ≠ [] ∧ ∃ c' rc, P c' tokens.length ∧ r = (c'.count tokens tokens.length, .ok rc)) ∨
      ∃ c' off e, off ≤ tokens.length ∧ Q c' off ∧ r = (c'.count tokens off, .error e) := by
  unfold Kappai.contextFeedTokensBatch
  split_ifs with h0 hctx
  · exact Or.inl ⟨rfl, Or.inl (List.eq_nil_of_length_eq_zero h0)⟩
  · exact Or.inl ⟨rfl, Or.inr ⟨_, rfl⟩⟩
  · simp only [Core.fedIdsSync_of_le hc]
    set chunk := min (prefillChunkSize M) tokens.length
    have hchunk : 0 < chunk := lt_min ((by decide : 0 < 32).trans_le (prefillChunkSize_pos M))
      (Nat.pos_of_ne_zero h0)
    obtain ⟨hle, hdone, hleft⟩ :=
      rule.feedChunks E hchunk tokens.length c 0 h (Nat.zero_le _)
    set r := Kappai.feedChunks M E chunk tokens tokens.length c 0
    cases he : r.2.2 with
    | none =>
      obtain ⟨hP, hall⟩ := hdone he
      rw [hall (by omega)] at hP ⊢
      exact Or.inr (Or.inl ⟨fun hnil => h0 (by rw [hnil]; rfl), r.1, _, hP, rfl⟩)
    | some e =>
      exact Or.inr (Or.inr ⟨r.1, r.2.1, e, hle, hleft (by rw [he]; simp), rfl⟩)

variable (M)

/-- What a batch of which `k` tokens were fed does to the context `c`. Rows above the
counted ones are whatever a failed chunk left. -/
structure Fed (c c' : Core) (tokens : List Token) (k : ℕ) : Prop where
  le : k ≤ tokens.length
  fedIds : c'.fedIds = c.fedIds.appendAll (tokens.take k)
  nPos : c'.nPos = c.nPos + k
  below : ∀ l p, p < c.nPos → c'.kv l p = c.kv l p
  above : ∀ l p, c.nPos + tokens.length ≤ p → c'.kv l p = c.kv l p
  rows : ∀ l < M.nStores, ∀ i < k,
    c'.kv l (c.nPos + i) = tokens[i]?.map fun t => ⟨t, (c.nPos + i : ℕ)⟩

theorem Fed.none (c : Core) (tokens : List Token) : Fed M c c tokens 0 where
  le := Nat.zero_le _
  fedIds := by simp
  nPos := rfl
  below _ _ _ := rfl
  above _ _ _ := rfl
  rows _ _ i hi := absurd hi (Nat.not_lt_zero i)

/-- The invariant of the chunk loop: as `Fed`, with the tokens not counted yet. -/
structure ChunksFed (c c' : Core) (tokens : List Token) (off : ℕ) : Prop where
  fedIds : c'.fedIds = c.fedIds
  nPos : c'.nPos = c.nPos
  below : ∀ l p, p < c.nPos → c'.kv l p = c.kv l p
  above : ∀ l p, c.nPos + tokens.length ≤ p → c'.kv l p = c.kv l p
  rows : ∀ l < M.nStores, ∀ i < off,
    c'.kv l (c.nPos + i) = tokens[i]?.map fun t => ⟨t, (c.nPos + i : ℕ)⟩

variable {M}

theorem ChunksFed.tick {c c' : Core} {tokens : List Token} {off : ℕ}
    (h : ChunksFed M c c' tokens off) : ChunksFed M c c'.tick tokens off :=
  ⟨h.fedIds, h.nPos, h.below, h.above, h.rows⟩

/-- A pass over a chunk leaves everything outside the chunk alone. -/
theorem ChunksFed.forward {c c' : Core} {tokens batch cached : List Token} {off chunk : ℕ}
    (h : ChunksFed M c c' tokens off) (hoff : off ≤ tokens.length)
    (hbatch : batch = (tokens.drop off).take chunk) (out : PassOutcome) (want : Bool) :
    ChunksFed M c (c'.forward M out cached batch (c'.nPos + off) want).1 tokens off := by
  have hlen : off + batch.length ≤ tokens.length := by
    rw [hbatch, List.length_take, List.length_drop]
    omega
  refine ⟨(Core.forward_fedIds ..).trans h.fedIds, (Core.forward_nPos ..).trans h.nPos,
    fun l p hp => ?_, fun l p hp => ?_, fun l hl i hi => ?_⟩
  · rw [Core.forward_kv_outside M _ _ _ _ _ _ (by rw [h.nPos]; omega), h.below l p hp]
  · rw [Core.forward_kv_outside M _ _ _ _ _ _ (by rw [h.nPos]; omega), h.above l p hp]
  · rw [Core.forward_kv_outside M _ _ _ _ _ _ (by rw [h.nPos]; omega), h.rows l hl i hi]

theorem ChunksFed.forward_ok {c c' : Core} {tokens batch cached : List Token} {off chunk : ℕ}
    (h : ChunksFed M c c' tokens off) (hoff : off ≤ tokens.length)
    (hbatch : batch = (tokens.drop off).take chunk) (want : Bool) :
    ChunksFed M c (c'.forward M .ok cached batch (c'.nPos + off) want).1 tokens
      (off + batch.length) := by
  have hkeep : ChunksFed M c (c'.forward M .ok cached batch (c'.nPos + off) want).1 tokens off :=
    h.forward hoff hbatch .ok want
  refine ⟨hkeep.fedIds, hkeep.nPos, hkeep.below, hkeep.above, fun l hl i hi => ?_⟩
  by_cases hold : i < off
  · exact hkeep.rows l hl i hold
  · obtain ⟨j, rfl⟩ : ∃ j, i = off + j := ⟨i - off, by omega⟩
    have hj : j < batch.length := by omega
    have hrow := Core.forward_ok_kv M c' cached batch (c'.nPos + off) want hl hj
    rw [h.nPos, Nat.add_assoc] at hrow
    rw [h.nPos, hrow, hbatch, List.getElem?_take_of_lt, List.getElem?_drop]
    rw [hbatch, List.length_take] at hj
    omega

variable (M)

theorem chunksFed_rule (c : Core) (tokens : List Token) :
    ChunkRule M tokens (fun c' => ChunksFed M c c' tokens) (fun c' => ChunksFed M c c' tokens) where
  leave _ _ h _ := h.tick
  ok _ _ _ _ _ _ h hoff hb _ := h.tick.tick.forward_ok hoff.le hb _
  fail _ _ _ _ _ f _ h hoff hb _ := h.tick.tick.forward hoff.le hb (.fail f) _

theorem ChunksFed.count {c c' : Core} {tokens : List Token} {off : ℕ}
    (h : ChunksFed M c c' tokens off) (hle : off ≤ tokens.length) :
    Fed M c (c'.count tokens off) tokens off where
  le := hle
  fedIds := by rw [Core.count, h.fedIds]
  nPos := by rw [Core.count, h.nPos]
  below := h.below
  above := h.above
  rows := h.rows

/-- Every batch counts the tokens of the chunks that were fed, and all of them if it
succeeds. -/
theorem contextFeedTokensBatch_fed (c : Core) (hc : c.fedIds.n ≤ c.nPos) (tokens : List Token) :
    ∃ k, Fed M c (contextFeedTokensBatch M E c tokens).1 tokens k ∧
      ((∃ rc, (contextFeedTokensBatch M E c tokens).2 = .ok rc) → k = tokens.length) := by
  rcases (chunksFed_rule M c tokens).contextFeedTokensBatch E hc
      ⟨rfl, rfl, fun _ _ _ => rfl, fun _ _ _ => rfl, fun _ _ i hi => absurd hi (Nat.not_lt_zero i)⟩
    with ⟨hsame, hend⟩ | ⟨-, c', rc, h, heq⟩ | ⟨c', off, e, hle, h, heq⟩
  · refine ⟨0, by rw [hsame]; exact Fed.none M c tokens, fun ⟨rc, hrc⟩ => ?_⟩
    rcases hend with rfl | ⟨e, he⟩
    · rfl
    · rw [he] at hrc; cases hrc
  · exact ⟨tokens.length, by rw [heq]; exact h.count M le_rfl, fun _ => rfl⟩
  · refine ⟨off, by rw [heq]; exact h.count M hle, fun ⟨rc, hrc⟩ => ?_⟩
    rw [heq] at hrc
    cases hrc

end Kappai
