import Kappai.Sanity.Session

/-! The ids and the rows after the idle prefill. A feed that is broken off puts the counters back;
below them the completed chunks have replaced ids and rows alike, the chunk it was broken off in
only rows. -/

namespace Kappai

variable (M : Model) (E : Env M)

/-- Every counted position has its fed id in the rows of every store. -/
def Core.RowsHeld (c : Core) : Prop :=
  ∀ p < c.nPos, ∀ l < M.nStores, (c.kv l p).map Row.tok = some (c.fedIds.p p)

instance (c : Core) : Decidable (c.RowsHeld M) :=
  inferInstanceAs (Decidable (∀ p < c.nPos, ∀ l < M.nStores, _ = _))

/-- The pass over chunk `k` of a batch of `n` tokens at `pos` is interrupted and leaves `f`, in a
chunk loop that is at `off` with the clock at `t`. -/
structure BreaksInside (chunk n pos t off k : ℕ) (f : Failure) : Prop where
  lt : off + k * chunk < n
  clear : ∀ j ≤ k, E.interrupt (t + 2 * j) = false ∧
    batchOutrunsWindow M.slidingWindow (pos + (off + j * chunk))
      (min chunk (n - (off + j * chunk))) = false
  passed : ∀ j < k, E.pass (t + 2 * j + 1) = .ok
  broken : E.pass (t + 2 * k + 1) = .fail f
  err : f.err = .interrupted

variable {M E} {chunk n pos t off k : ℕ} {f : Failure}

theorem breaksInside_succ :
    BreaksInside M E chunk n pos t off (k + 1) f ↔
      (E.interrupt t = false ∧
        batchOutrunsWindow M.slidingWindow (pos + off) (min chunk (n - off)) = false ∧
        E.pass (t + 1) = .ok) ∧
      BreaksInside M E chunk n pos (t + 2) (off + chunk) k f := by
  have hoff (j : ℕ) : off + (j + 1) * chunk = off + chunk + j * chunk := by
    rw [Nat.succ_mul]
    omega
  have ht (j : ℕ) : t + 2 * (j + 1) = t + 2 + 2 * j := by omega
  constructor
  · intro h
    have hfirst := h.clear 0 (Nat.zero_le _)
    simp only [Nat.mul_zero, Nat.add_zero, Nat.zero_mul] at hfirst
    refine ⟨⟨hfirst.1, hfirst.2, h.passed 0 (Nat.succ_pos k)⟩,
      ⟨by rw [← hoff]; exact h.lt, fun j hj => ?_, fun j hj => ?_, ?_, h.err⟩⟩
    · rw [← ht, ← hoff]
      exact h.clear (j + 1) (Nat.succ_le_succ hj)
    · rw [← ht]
      exact h.passed (j + 1) (Nat.succ_lt_succ hj)
    · rw [← ht]
      exact h.broken
  · rintro ⟨⟨hint, hguard, hpass⟩, h⟩
    refine ⟨by rw [hoff]; exact h.lt, fun j hj => ?_, fun j hj => ?_, ?_, h.err⟩
    · cases j with
      | zero =>
        simp only [Nat.mul_zero, Nat.add_zero, Nat.zero_mul]
        exact ⟨hint, hguard⟩
      | succ j =>
        rw [ht, hoff]
        exact h.clear j (Nat.le_of_succ_le_succ hj)
    · cases j with
      | zero => exact hpass
      | succ j =>
        rw [ht]
        exact h.passed j (Nat.lt_of_succ_lt_succ hj)
    · rw [ht]
      exact h.broken

/-- One turn of the loop that comes through. -/
theorem feedChunks_pass {tokens : List Token} (fuel : ℕ) {c : Core} (hoff : off < tokens.length)
    (hint : E.interrupt c.clock = false)
    (hguard : batchOutrunsWindow M.slidingWindow (c.nPos + off)
      (min chunk (tokens.length - off)) = false)
    (hpass : E.pass (c.clock + 1) = .ok) :
    ∃ c', feedChunks M E chunk tokens (fuel + 1) c off =
        feedChunks M E chunk tokens fuel c' (off + min chunk (tokens.length - off)) ∧
      c'.nPos = c.nPos ∧ c'.clock = c.clock + 2 ∧
      ∀ l p, c.nPos + (off + min chunk (tokens.length - off)) ≤ p → c'.kv l p = c.kv l p := by
  have hlen : ((tokens.drop off).take chunk).length = min chunk (tokens.length - off) := by simp
  refine ⟨(c.tick.tick.forward M .ok (c.fedIds.ids ++ tokens.take off)
    ((tokens.drop off).take chunk) (c.nPos + off)
    (decide (off + min chunk (tokens.length - off) = tokens.length))).1, ?_,
    Core.forward_nPos .., rfl, fun l p hp => ?_⟩
  · simp only [feedChunks, if_pos hoff, hint, computeForwardBatch, hlen, hguard,
      Bool.false_eq_true, if_false, Core.tick, hpass, Core.forward]
  · exact Core.forward_kv_outside M _ _ _ _ _ _ (Or.inr (by rw [hlen]; omega))

/-- A loop that breaks off inside a chunk leaves the rows of that pass. -/
theorem BreaksInside.feedChunks {tokens : List Token} (hchunk : 0 < chunk) (fuel : ℕ) (c : Core)
    (h : BreaksInside M E chunk tokens.length c.nPos c.clock off k f)
    (hfuel : tokens.length ≤ off + fuel) :
    let r := feedChunks M E chunk tokens fuel c off
    r.2 = (off + k * chunk, some .interrupted) ∧ ∀ l p, c.nPos + (off + k * chunk) ≤ p →
      r.1.kv l p = tearRows M c.kv f.rows (c.nPos + (off + k * chunk))
        (min chunk (tokens.length - (off + k * chunk))) l p := by
  induction fuel generalizing c off k with
  | zero =>
    have := h.lt
    omega
  | succ fuel ih =>
    have hlt := h.lt
    have hoff : off < tokens.length := by omega
    have hlen : ((tokens.drop off).take chunk).length = min chunk (tokens.length - off) := by simp
    obtain ⟨hint, hguard⟩ := h.clear 0 (Nat.zero_le _)
    simp only [Nat.mul_zero, Nat.add_zero, Nat.zero_mul] at hint hguard
    cases k with
    | zero =>
      have hbroken := h.broken
      simp only [Nat.mul_zero, Nat.add_zero] at hbroken
      simp only [Kappai.feedChunks, if_pos hoff, hint, computeForwardBatch, hlen, hguard,
        Bool.false_eq_true, if_false, Core.tick, hbroken, Core.forward, h.err, if_true,
        Nat.zero_mul, Nat.add_zero]
      exact ⟨trivial, fun _ _ _ => trivial⟩
    | succ k =>
      obtain ⟨⟨-, -, hpass⟩, hrest⟩ := breaksInside_succ.1 h
      have hfull : min chunk (tokens.length - off) = chunk := by
        rw [Nat.succ_mul] at hlt
        omega
      obtain ⟨c', heq, hpos, hclock, hkv⟩ := feedChunks_pass fuel hoff hint hguard hpass
      rw [hfull] at heq hkv
      have hshift : off + chunk + k * chunk = off + (k + 1) * chunk := by
        rw [Nat.succ_mul]
        omega
      have hin := ih c' (hpos.symm ▸ hclock.symm ▸ hrest) (by omega)
      rw [hpos, hshift] at hin
      rw [heq]
      refine ⟨hin.1, fun l p hp => ?_⟩
      rw [hin.2 l p hp, tearRows, tearRows, hkv l p (by rw [← hshift] at hp; omega)]

/-- A loop that is interrupted breaks off inside a chunk, or leaves the rows alone from where it
stopped. -/
theorem feedChunks_interrupted {tokens : List Token} (fuel : ℕ) (c : Core) (off : ℕ)
    (herr : (feedChunks M E chunk tokens fuel c off).2.2 = some .interrupted) :
    (∃ k f, BreaksInside M E chunk tokens.length c.nPos c.clock off k f) ∨
      off ≤ (feedChunks M E chunk tokens fuel c off).2.1 ∧
      ∀ l p, c.nPos + (feedChunks M E chunk tokens fuel c off).2.1 ≤ p →
        (feedChunks M E chunk tokens fuel c off).1.kv l p = c.kv l p := by
  induction fuel generalizing c off with
  | zero => cases herr
  | succ fuel ih =>
    have hlen : ((tokens.drop off).take chunk).length = min chunk (tokens.length - off) := by simp
    by_cases hoff : off < tokens.length
    · cases hint : E.interrupt c.clock with
      | true =>
        simp only [feedChunks, if_pos hoff, hint, if_true]
        exact Or.inr ⟨le_rfl, fun _ _ _ => rfl⟩
      | false =>
        cases hguard : batchOutrunsWindow M.slidingWindow (c.nPos + off)
            (min chunk (tokens.length - off)) with
        | true =>
          simp only [feedChunks, if_pos hoff, hint, computeForwardBatch, hlen, hguard,
            Bool.false_eq_true, if_false, Core.tick, if_true] at herr
          cases herr
        | false =>
          cases hpass : E.pass (c.clock + 1) with
          | ok =>
            obtain ⟨c', heq, hpos, hclock, hkv⟩ := feedChunks_pass fuel hoff hint hguard hpass
            rw [heq] at herr ⊢
            rcases ih c' _ herr with ⟨k, f, hin⟩ | ⟨hle, hsame⟩
            · have hfull : min chunk (tokens.length - off) = chunk := by
                have := hin.lt
                omega
              rw [hpos, hclock, hfull] at hin
              exact Or.inl ⟨k + 1, f, breaksInside_succ.2 ⟨⟨hint, hguard, hpass⟩, hin⟩⟩
            · rw [hpos] at hsame
              refine Or.inr ⟨by omega, fun l p hp => ?_⟩
              rw [hsame l p hp, hkv l p (by omega)]
          | fail f =>
            simp only [feedChunks, if_pos hoff, hint, computeForwardBatch, hlen, hguard,
              Bool.false_eq_true, if_false, Core.tick, hpass, Core.forward] at herr
            split_ifs at herr with hf
            · exact Or.inl ⟨0, f, ⟨by omega, fun j hj => by
                obtain rfl := Nat.le_zero.1 hj
                simpa using ⟨hint, hguard⟩, fun j hj => absurd hj (Nat.not_lt_zero j),
                by simpa using hpass, hf⟩⟩
            · cases herr
    · simp only [feedChunks, if_neg hoff] at herr
      cases herr

/-- What a batch that fails without an error of the device leaves: the tokens of the completed
chunks are counted, and above them are the rows of the pass that was interrupted, if one was. -/
theorem contextFeedTokensBatch_broken {c : Core} (hc : c.fedIds.n ≤ c.nPos) {tokens : List Token}
    {e : Err} (herr : (contextFeedTokensBatch M E c tokens).2 = .error e) (he : e ≠ .computeFail) :
    ∃ off, Fed M c (contextFeedTokensBatch M E c tokens).1 tokens off ∧
      ((∃ k f, c.nPos + tokens.length ≤ M.nCtx ∧
          BreaksInside M E (min (prefillChunkSize M) tokens.length) tokens.length c.nPos c.clock
            0 k f) ∨
        ∀ l p, c.nPos + off ≤ p → (contextFeedTokensBatch M E c tokens).1.kv l p = c.kv l p) := by
  unfold contextFeedTokensBatch at herr ⊢
  split_ifs at herr ⊢ with h0 hctx
  · exact ⟨0, Fed.none M c tokens, Or.inr fun _ _ _ => rfl⟩
  · simp only [Core.fedIdsSync_of_le hc] at herr ⊢
    set chunk := min (prefillChunkSize M) tokens.length
    have hchunk : 0 < chunk := lt_min ((by decide : 0 < 32).trans_le (prefillChunkSize_pos M))
      (Nat.pos_of_ne_zero h0)
    obtain ⟨hle, hdone, hleft⟩ := (chunksFed_rule M c tokens).feedChunks E hchunk tokens.length c 0
      ⟨rfl, rfl, fun _ _ _ => rfl, fun _ _ _ => rfl, fun _ _ i hi => absurd hi (Nat.not_lt_zero i)⟩
      (Nat.zero_le _)
    cases hr : (feedChunks M E chunk tokens tokens.length c 0).2.2 with
    | none =>
      rw [hr] at herr
      cases herr
    | some e' =>
      rw [hr] at herr
      obtain rfl : e' = e := Except.error.inj herr
      obtain rfl := (feedChunks_error E hr).resolve_right he
      refine ⟨_, (hleft (by rw [hr]; simp)).count M hle, ?_⟩
      rcases feedChunks_interrupted tokens.length c 0 hr with ⟨k, f, hin⟩ | ⟨-, hsame⟩
      · exact Or.inl ⟨k, f, by omega, hin⟩
      · exact Or.inr hsame

theorem BreaksInside.contextFeedTokensBatch {c : Core} (hc : c.fedIds.n ≤ c.nPos)
    {tokens : List Token} (hfit : c.nPos + tokens.length ≤ M.nCtx)
    (h : BreaksInside M E (min (prefillChunkSize M) tokens.length) tokens.length c.nPos c.clock
      0 k f) :
    let chunk := min (prefillChunkSize M) tokens.length
    (contextFeedTokensBatch M E c tokens).2 = .error .interrupted ∧
      Fed M c (contextFeedTokensBatch M E c tokens).1 tokens (k * chunk) ∧
      ∀ l p, c.nPos + k * chunk ≤ p → (contextFeedTokensBatch M E c tokens).1.kv l p =
        tearRows M c.kv f.rows (c.nPos + k * chunk) (min chunk (tokens.length - k * chunk)) l p := by
  intro chunk
  have h0 : ¬tokens.length = 0 := by
    have := h.lt
    omega
  have hchunk : 0 < chunk := lt_min ((by decide : 0 < 32).trans_le (prefillChunkSize_pos M))
    (Nat.pos_of_ne_zero h0)
  obtain ⟨hend, hrows⟩ := h.feedChunks hchunk tokens.length c (by omega)
  obtain ⟨hle, -, hleft⟩ := (chunksFed_rule M c tokens).feedChunks E hchunk tokens.length c 0
    ⟨rfl, rfl, fun _ _ _ => rfl, fun _ _ _ => rfl, fun _ _ i hi => absurd hi (Nat.not_lt_zero i)⟩
    (Nat.zero_le _)
  have heq : Kappai.contextFeedTokensBatch M E c tokens =
      ((Kappai.feedChunks M E chunk tokens tokens.length c 0).1.count tokens
        (Kappai.feedChunks M E chunk tokens tokens.length c 0).2.1, .error .interrupted) := by
    unfold Kappai.contextFeedTokensBatch
    simp only [if_neg h0, if_neg (Nat.not_lt.2 hfit), Core.fedIdsSync_of_le hc]
    rw [show (Kappai.feedChunks M E (min (prefillChunkSize M) tokens.length) tokens tokens.length c
      0).2.2 = some .interrupted from congrArg Prod.snd hend]
    rfl
  have hoff : (Kappai.feedChunks M E chunk tokens tokens.length c 0).2.1 = k * chunk :=
    (congrArg Prod.fst hend).trans (Nat.zero_add _)
  rw [heq]
  refine ⟨rfl, ?_, ?_⟩
  · rw [← hoff]
    exact (hleft (by rw [hend]; simp)).count M hle
  · rw [hoff]
    simp only [Nat.zero_add] at hrows
    exact hrows

/-- After a batch of which `k` tokens were counted the rows agree with the ids below `n` if they
do above these tokens. -/
theorem Fed.rowsHeld_iff {c c' : Core} {tokens : List Token} (h : Fed M c c' tokens k)
    (hc : c.Aligned) (hheld : c.RowsHeld M) (n : ℕ) :
    Core.RowsHeld M { c' with nPos := n, fedIds := { c'.fedIds with n := n } } ↔
      ∀ p, c.nPos + k ≤ p → p < n → ∀ l < M.nStores,
        (c'.kv l p).map Row.tok = some (c.fedIds.p p) := by
  have hlen : (tokens.take k).length = k := List.length_take_of_le h.le
  have habove : ∀ p, c.nPos + k ≤ p → c'.fedIds.p p = c.fedIds.p p := by
    intro p hp
    rw [h.fedIds, FedIds.appendAll_p_of_ge _ _ (by rw [hlen, hc]; exact hp)]
  constructor
  · intro hrows p hp hn l hl
    rw [← habove p hp]
    exact hrows p hn l hl
  · intro hrows p hn l hl
    change (c'.kv l p).map Row.tok = some (c'.fedIds.p p)
    rcases Nat.lt_or_ge p c.nPos with hlt | hge
    · rw [h.below l p hlt, h.fedIds, FedIds.appendAll_p_of_lt _ _ (by rw [hc]; exact hlt)]
      exact hheld p hlt l hl
    · obtain ⟨i, rfl⟩ := Nat.exists_eq_add_of_le hge
      rcases Nat.lt_or_ge i k with hik | hik
      · have htok := FedIds.appendAll_p_add c.fedIds (tokens.take k) (hlen.symm ▸ hik)
        rw [hc] at htok
        rw [h.rows l hl i hik, h.fedIds, ← htok, List.getElem?_take_of_lt hik, Option.map_map]
        exact Option.map_id'
      · rw [habove _ (by omega)]
        exact hrows _ (by omega) hn l hl

variable (M E)

/-- The idle prefill feeds from here: recurrent state is not rewound. -/
def idleFrom (s : Session) (ids : List Token) : ℕ :=
  if M.hybrid then s.nPos else s.fedIdsCommonPrefix ids

/-- A pass of the idle prefill that is interrupted leaves the rows of the cached tokens at the
positions that are counted again afterwards. -/
def IdleSpares (s : Session) (ids : List Token) : Prop :=
  let pos := idleFrom M s ids
  let n := ids.length - s.fedIdsCommonPrefix ids
  let chunk := min (prefillChunkSize M) n
  pos + n ≤ M.nCtx → ∀ k f, BreaksInside M E chunk n pos s.clock 0 k f →
    ∀ p, pos + k * chunk ≤ p → p < pos + k * chunk + min chunk (n - k * chunk) → p < s.nPos →
      ∀ l < M.nStores, (f.rows l p).map Row.tok = some (s.fedIds.p p)

variable {E}

theorem idleRewound_core {s : Session} (h : s.Aligned) (ids : List Token) :
    (idleRewound M s (s.fedIdsCommonPrefix ids)).toCore = { s.toCore with
      nPos := idleFrom M s ids, fedIds := { s.fedIds with n := idleFrom M s ids } } := by
  have hle : s.fedIdsCommonPrefix ids ≤ s.fedIds.n := by
    have := commonPrefix_le_left s.fedIds.ids ids
    rwa [FedIds.ids_length] at this
  have hn : s.fedIds.n = s.nPos := h
  have hids : (⟨s.fedIds.p, s.nPos⟩ : FedIds) = s.fedIds := by rw [← hn]
  unfold idleRewound idleFrom
  dsimp only
  split_ifs with hrewind hhybrid hhybrid
  · simp [hhybrid] at hrewind
  · exact Core.rewind_of_le hle (by rw [← hn]; exact hle)
  · rw [hids]
  · have hfull : s.fedIdsCommonPrefix ids = s.nPos := by
      have : s.fedIds.n ≤ s.fedIdsCommonPrefix ids := by simpa [hhybrid] using hrewind
      omega
    rw [hfull, hids]

theorem idleFrom_le {s : Session} (h : s.Aligned) (ids : List Token) :
    idleFrom M s ids ≤ s.nPos := by
  have hle := commonPrefix_le_left s.fedIds.ids ids
  have hn : s.fedIds.n = s.nPos := h
  rw [FedIds.ids_length, hn] at hle
  unfold idleFrom
  split_ifs
  · exact le_rfl
  · exact hle

variable {M}

/-- The batch that the idle prefill feeds. -/
def idleBatch (M : Model) (E : Env M) (s : Session) (ids : List Token) : Core × Except Err ℕ :=
  contextFeedTokensBatch M E (idleRewound M s (s.fedIdsCommonPrefix ids)).toCore
    (ids.drop (s.fedIdsCommonPrefix ids))

theorem idleFeed_error {s : Session} (header : Text) {ids : List Token} {e : Err}
    (he : (idleBatch M E s ids).2 = .error e) :
    (idleFeed M E s header ids).sessionPoisoned = (s.sessionPoisoned || e == .computeFail) ∧
      (idleFeed M E s header ids).toCore = { (idleBatch M E s ids).1 with
        nPos := s.nPos, fedIds := { (idleBatch M E s ids).1.fedIds with n := s.fedIds.n } } := by
  unfold idleBatch at he ⊢
  unfold idleFeed
  dsimp only
  rw [he]
  exact ⟨rfl, rfl⟩

theorem idleFeed_ok {s : Session} {header : Text} {ids : List Token} {n : ℕ}
    (hok : (idleBatch M E s ids).2 = .ok n) :
    (idleFeed M E s header ids).toCore = (idleBatch M E s ids).1 := by
  unfold idleBatch at hok ⊢
  unfold idleFeed
  dsimp only
  rw [hok]

/-- The feed of the idle prefill leaves rows and ids together if and only if no pass that is
interrupted parts them below the old length. -/
theorem idleFeed_rowsHeld_iff {s : Session} (h : s.Aligned) (hheld : s.toCore.RowsHeld M)
    (hpois : s.sessionPoisoned = false) (header : Text) (ids : List Token) :
    ((idleFeed M E s header ids).sessionPoisoned = false →
      (idleFeed M E s header ids).toCore.RowsHeld M) ↔ IdleSpares M E s ids := by
  have hlen : (ids.drop (s.fedIdsCommonPrefix ids)).length =
      ids.length - s.fedIdsCommonPrefix ids := List.length_drop
  have hn : s.fedIds.n = s.nPos := h
  have hcore := idleRewound_core M h ids
  have hfrom : idleFrom M s ids ≤ s.nPos := idleFrom_le M h ids
  have haligned : (idleRewound M s (s.fedIdsCommonPrefix ids)).Aligned := idleRewound_aligned M h _
  have hbatch : idleBatch M E s ids = contextFeedTokensBatch M E
    (idleRewound M s (s.fedIdsCommonPrefix ids)).toCore (ids.drop (s.fedIdsCommonPrefix ids)) := rfl
  generalize (idleRewound M s (s.fedIdsCommonPrefix ids)).toCore = c at hcore haligned hbatch
  obtain rfl := hcore
  have hheld' : Core.RowsHeld M { s.toCore with
      nPos := idleFrom M s ids, fedIds := { s.fedIds with n := idleFrom M s ids } } :=
    fun p hlt l hl => hheld p (Nat.lt_of_lt_of_le hlt hfrom) l hl
  unfold IdleSpares
  simp only [← hlen]
  constructor
  · intro hgood hfit k f hin p hge hlt hps l hl
    obtain ⟨herr, hfed, hrows⟩ := hin.contextFeedTokensBatch haligned.le hfit
    rw [← hbatch] at herr hfed hrows
    obtain ⟨hpoisoned, hafter⟩ := idleFeed_error header herr
    rw [hpoisoned, hpois, hafter, hn] at hgood
    have hnow := (hfed.rowsHeld_iff haligned hheld' s.nPos).1 (hgood rfl) p hge hps l hl
    rw [hrows l p hge, tearRows, if_pos ⟨hl, hge, hlt⟩] at hnow
    exact hnow
  · intro hspares hnot
    cases hres : (idleBatch M E s ids).2 with
    | ok n =>
      obtain ⟨k, hfed, hall⟩ := contextFeedTokensBatch_fed M E { s.toCore with
        nPos := idleFrom M s ids, fedIds := { s.fedIds with n := idleFrom M s ids } } haligned.le
          (ids.drop (s.fedIdsCommonPrefix ids))
      rw [← hbatch] at hfed hall
      rw [idleFeed_ok hres]
      have hheldAll := (hfed.rowsHeld_iff haligned hheld' (idleFrom M s ids + k)).2
        fun p hp hlt => absurd hlt (Nat.not_lt.2 hp)
      intro p hp
      rw [hfed.nPos] at hp
      exact hheldAll p hp
    | error e =>
      obtain ⟨hpoisoned, hafter⟩ := idleFeed_error header hres
      rw [hpoisoned, hpois, Bool.false_or, beq_eq_false_iff_ne] at hnot
      rw [hafter, hn]
      rw [hbatch] at hres
      obtain ⟨off, hfed, hend⟩ := contextFeedTokensBatch_broken haligned.le hres hnot
      rw [← hbatch] at hfed hend
      rcases hend with ⟨k, f, hfit, hin⟩ | hsame
      · obtain ⟨-, hfed', hrows⟩ := hin.contextFeedTokensBatch haligned.le hfit
        rw [← hbatch] at hfed' hrows
        refine (hfed'.rowsHeld_iff haligned hheld' s.nPos).2 fun p hp hlt l hl => ?_
        rw [hrows l p hp, tearRows]
        split_ifs with htorn
        · exact hspares hfit k f hin p htorn.2.1 htorn.2.2 hlt l hl
        · exact hheld p hlt l hl
      · refine (hfed.rowsHeld_iff haligned hheld' s.nPos).2 fun p hp hlt l hl => ?_
        rw [hsame l p hp]
        exact hheld p hlt l hl

/-- A header that goes on from the cached tokens only writes above them. -/
theorem idleSpares_of_continues {s : Session} (h : s.Aligned) {ids : List Token}
    (hcont : M.hybrid = true ∨ s.fedIds.ids <+: ids) : IdleSpares M E s ids := by
  intro _ k f _ p hp _ hlt
  have hfrom : s.nPos ≤ idleFrom M s ids := by
    have hn : s.fedIds.n = s.nPos := h
    unfold idleFrom
    split_ifs with hhybrid
    · exact le_rfl
    · have hall := commonPrefix_eq_length_left.2 (hcont.resolve_left hhybrid)
      rw [FedIds.ids_length, hn] at hall
      exact hall.ge
  omega

/-- The idle prefill leaves the session unpoisoned with ids and rows apart exactly when a pass over
the header is interrupted that parts them below the old length. -/
theorem idlePrefill_rowsHeld_iff (F : Front) {s : Session} (h : s.Aligned)
    (hheld : s.toCore.RowsHeld M) (hpois : s.sessionPoisoned = false) :
    ((idlePrefill M E F s).sessionPoisoned = false →
      (idlePrefill M E F s).toCore.RowsHeld M) ↔
      ∀ t header ids, idleStart M E F s = ({ s with clock := t }, some (header, ids)) →
        IdleSpares M E { s with clock := t } ids := by
  obtain ⟨t, hs, -⟩ := idleStart_eq M E F h
  have haligned : Core.Aligned { s.toCore with clock := t } := h
  unfold idlePrefill
  generalize idleStart M E F s = r at hs ⊢
  obtain ⟨s', found⟩ := r
  simp only at hs
  subst hs
  cases found with
  | none => exact ⟨fun _ _ _ _ hno => (by cases hno), fun _ _ => hheld⟩
  | some found =>
    obtain ⟨header, ids⟩ := found
    have hfeed := idleFeed_rowsHeld_iff (E := E) (s := { s with clock := t }) haligned hheld hpois
      header ids
    refine hfeed.trans ⟨?_, fun hall => ?_⟩
    · intro hspares t' header' ids' heq
      obtain ⟨hs', hfound⟩ := Prod.mk.inj heq
      obtain ⟨-, rfl⟩ := Prod.mk.inj (Option.some.inj hfound)
      rw [← hs']
      exact hspares
    · exact hall t header ids rfl

/-- Two tokens are cached; the next turn starts with the first of them and two others. -/
def twoCached : Session :=
  { Session.init with
    toContext := { Session.init.toContext with toCore := .holding [104, 105] }
    messages := [simpleMessage userRole [104, 106, 107]] }

/-- Every pass is interrupted and leaves these rows. -/
def Env.interrupted (rows : ℕ → ℕ → Option Row) : Env (Model.small false) :=
  { Env.calm (Model.small false) with
    pass := fun _ => .fail ⟨.interrupted, rows, .torn, .unset, false⟩ }

/-- An interrupt before the first layer has written. -/
theorem idlePrefill_rowsHeld_unwritten :
    (idlePrefill (.small false) (.interrupted twoCached.kv) .bytes twoCached).toCore.RowsHeld
      (.small false) := by
  have haligned : twoCached.Aligned := rfl
  refine (idlePrefill_rowsHeld_iff .bytes haligned (by decide) rfl).2 ?_ (by decide)
  intro t header ids heq _ k f hin p _ _ hlt l hl
  have hf : f.rows = twoCached.kv := by
    obtain rfl : Failure.mk .interrupted twoCached.kv .torn .unset false = f :=
      PassOutcome.fail.inj hin.broken
    rfl
  rw [hf]
  exact (by decide : twoCached.toCore.RowsHeld (.small false)) p hlt l hl

/-- The only layer has written when the interrupt comes: position 1 is counted again with the old
id and the new row. -/
theorem idlePrefill_parted :
    let s := idlePrefill (.small false)
      (.interrupted (Core.holding [104, 106, 107]).kv) .bytes twoCached
    twoCached.fedIds.n = twoCached.nPos ∧ twoCached.toCore.RowsHeld (.small false) ∧ s.sessionPoisoned = false ∧
      s.nPos = 2 ∧ s.fedIds.p 1 = 105 ∧ s.kv 0 1 = some ⟨106, 1⟩ ∧
      ¬s.toCore.RowsHeld (.small false) := by
  decide

end Kappai
