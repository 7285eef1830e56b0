import Kappai.Sanity.Feed

/-! The chunks of a prompt against the sliding-window guard of a batch. The size of a chunk
comes from the caches and the thread count and knows nothing of the window, so a prompt that
fits the context can be refused; when it is not is a matter of a few numbers. -/

namespace Kappai

/-- Offsets and sizes of the chunks the loop of `context_feed_tokens_batch` cuts `n` tokens
into, from `off` on. -/
def promptChunks (chunk n : ℕ) : ℕ → ℕ → List (ℕ × ℕ)
  | 0, _ => []
  | fuel + 1, off =>
    if off < n then
      (off, min chunk (n - off)) :: promptChunks chunk n fuel (off + min chunk (n - off))
    else []

/-- The chunks are the multiples of the chunk size below the end. -/
theorem mem_promptChunks {chunk n : ℕ} (hchunk : 0 < chunk) {fuel off : ℕ} (hf : n ≤ off + fuel)
    {o s : ℕ} :
    (o, s) ∈ promptChunks chunk n fuel off ↔
      ∃ k, o = off + k * chunk ∧ o < n ∧ s = min chunk (n - o) := by
  induction fuel generalizing off with
  | zero =>
    simp only [promptChunks, List.not_mem_nil, false_iff, not_exists]
    omega
  | succ fuel ih =>
    by_cases hoff : off < n
    · rw [promptChunks, if_pos hoff, List.mem_cons, Prod.mk.injEq, ih (by omega)]
      constructor
      · rintro (⟨rfl, rfl⟩ | ⟨k, rfl, hlt, rfl⟩)
        · exact ⟨0, by omega, hoff, rfl⟩
        · have hfull : min chunk (n - off) = chunk := by
            have := Nat.zero_le (k * chunk)
            omega
          exact ⟨k + 1, by rw [hfull, Nat.succ_mul]; omega, hlt, rfl⟩
      · rintro ⟨k, rfl, hlt, rfl⟩
        cases k with
        | zero => exact Or.inl ⟨by omega, by rw [Nat.zero_mul, Nat.add_zero]⟩
        | succ k =>
          have hk : (k + 1) * chunk = chunk + k * chunk := by rw [Nat.succ_mul, Nat.add_comm]
          have hfull : min chunk (n - off) = chunk := by omega
          exact Or.inr ⟨k, by rw [hfull]; omega, hlt, rfl⟩
    · rw [promptChunks, if_neg hoff]
      simp only [List.not_mem_nil, false_iff, not_exists]
      omega

variable (M : Model)

/-- The smallest chunk, which grows with the thread count. -/
def chunkFloor : ℕ := min (max (4 * max M.nThreads 1) 32) 512

/-- How many tokens the working set has room for. -/
def chunkBudget : ℕ :=
  let wsTarget :=
    if 0 < M.l2Bytes then min (max (M.l2Bytes * max M.nThreads 1) (1 <<< 20)) (8 <<< 20)
    else 8 <<< 20
  let byKv := wsTarget / (if 0 < M.kvBytesPerToken then M.kvBytesPerToken else 1)
  if 0 < M.slotBytesPerToken then min byKv (wsTarget / M.slotBytesPerToken) else byKv

/-- A multiple of four between the floor and 512. -/
def chunkSpan : ℕ := max (chunkFloor M) (min (chunkBudget M) 512 / 4 * 4)

theorem prefillChunkSize_eq : prefillChunkSize M = chunkSpan M := by
  have hround (b f : ℕ) :
      (let chunk := if min b 512 < f then f else min b 512 - min b 512 % 4
      if chunk < f then f else chunk) = max f (min b 512 / 4 * 4) := by
    simp only
    split_ifs <;> omega
  exact hround (chunkBudget M) (chunkFloor M)

theorem chunkSpan_pos : 0 < chunkSpan M := by
  have := prefillChunkSize_pos M
  rw [prefillChunkSize_eq] at this
  omega

/-- When no chunk of `n` tokens at `pos` outruns the window: there is none, the chunks or the
prompt stay within the slack, or the last full chunk ends inside the capacity and so does the
rest if it exceeds the slack. -/
def WindowSpares (pos n : ℕ) : Prop :=
  let w := M.slidingWindow
  let cap := w + slack w
  w = 0 ∨ chunkSpan M ≤ slack w + 1 ∨ n ≤ slack w + 1 ∨
    (pos + n / chunkSpan M * chunkSpan M ≤ cap ∧
      (n % chunkSpan M ≤ slack w + 1 ∨ pos + n ≤ cap))

theorem batchOutrunsWindow_eq_false {w pos n : ℕ} :
    batchOutrunsWindow w pos n = false ↔ w = 0 ∨ pos + n ≤ w + slack w ∨ n ≤ slack w + 1 := by
  simp only [batchOutrunsWindow, Bool.and_eq_false_iff, decide_eq_false_iff_not]
  omega

/-- The chunks of a whole prompt. -/
def Model.promptChunks (n : ℕ) : List (ℕ × ℕ) :=
  Kappai.promptChunks (min (prefillChunkSize M) n) n n 0

/-- No chunk is longer than the first, and the last full one is the one that ends last. -/
theorem promptChunks_spared (pos n : ℕ) :
    (∀ x ∈ M.promptChunks n, batchOutrunsWindow M.slidingWindow (pos + x.1) x.2 = false) ↔
      WindowSpares M pos n := by
  have hspan := chunkSpan_pos M
  set w := M.slidingWindow with hw
  set s := chunkSpan M with hs
  rcases Nat.eq_zero_or_pos n with rfl | hn
  · simp [Model.promptChunks, Kappai.promptChunks, WindowSpares]
  have hmin : 0 < min (prefillChunkSize M) n := by rw [prefillChunkSize_eq]; omega
  have hmem (o t : ℕ) : (o, t) ∈ M.promptChunks n ↔
      ∃ k, o = k * min s n ∧ o < n ∧ t = min (min s n) (n - o) := by
    rw [Model.promptChunks, mem_promptChunks hmin (by omega), prefillChunkSize_eq]
    simp only [Nat.zero_add, ← hs]
  have hdiv : n / s * s + n % s = n := by rw [Nat.mul_comm]; exact Nat.div_add_mod n s
  have hmod : n % s < s := Nat.mod_lt n hspan
  constructor
  · intro h
    by_contra hnot
    simp only [WindowSpares, ← hw, ← hs, not_or, not_and_or, not_le] at hnot
    obtain ⟨hw0, hspanlt, hnlt, hend⟩ := hnot
    rcases Nat.lt_or_ge n s with hsmall | hfull
    · -- a prompt shorter than a chunk is one chunk
      have hone := h (0, n) ((hmem 0 n).2 ⟨0, by omega, hn, by omega⟩)
      rw [batchOutrunsWindow_eq_false] at hone
      have : n / s * s = 0 := by rw [Nat.div_eq_of_lt hsmall, Nat.zero_mul]
      have : n % s = n := Nat.mod_eq_of_lt hsmall
      omega
    · have hms : min s n = s := Nat.min_eq_left hfull
      rcases hend with hlast | ⟨hrest, hover⟩
      · -- the last full chunk
        obtain ⟨q, hq⟩ : ∃ q, n / s = q + 1 := ⟨n / s - 1, by
          have := Nat.div_pos hfull hspan
          omega⟩
        have hqs : n / s * s = q * s + s := by rw [hq, Nat.succ_mul]
        have hone := h (q * s, s) ((hmem _ _).2 ⟨q, by rw [hms], by omega, by rw [hms]; omega⟩)
        rw [batchOutrunsWindow_eq_false] at hone
        omega
      · -- what is left after it
        have hone := h (n / s * s, n % s)
          ((hmem _ _).2 ⟨n / s, by rw [hms], by omega, by rw [hms]; omega⟩)
        rw [batchOutrunsWindow_eq_false] at hone
        omega
  · rintro h ⟨o, t⟩ hx
    obtain ⟨k, rfl, hlt, rfl⟩ := (hmem _ _).1 hx
    rw [batchOutrunsWindow_eq_false]
    simp only [WindowSpares, ← hw, ← hs] at h
    rcases h with h | h | h | ⟨hfull, hrest⟩
    · exact Or.inl h
    · right; right; omega
    · right; right; omega
    · rcases Nat.lt_or_ge n s with hsmall | hge
      · have : n % s = n := Nat.mod_eq_of_lt hsmall
        rcases hrest with hrest | hrest
        · right; right; omega
        · right; left; simp only; omega
      · rw [Nat.min_eq_left hge] at hlt ⊢
        rcases Nat.lt_or_ge (n - k * s) s with hlast | hwhole
        · -- the rest starts where the last full chunk ends
          have hk : k = n / s := by
            refine (Nat.div_eq_of_lt_le ?_ ?_).symm
            · omega
            · rw [Nat.succ_mul]; omega
          subst hk
          rcases hrest with hrest | hrest
          · right; right; omega
          · right; left; simp only; omega
        · have hk : k + 1 ≤ n / s := (Nat.le_div_iff_mul_le hspan).2 (by rw [Nat.succ_mul]; omega)
          have := Nat.mul_le_mul_right s hk
          rw [Nat.succ_mul] at this
          right; left; simp only; omega

variable {M} (E : Env M)

/-- No interrupt and no failing pass: all that can go wrong is the guard. -/
structure Env.Undisturbed : Prop where
  interrupt : ∀ k, E.interrupt k = false
  pass : ∀ k, E.pass k = .ok

variable {E}

/-- Without disturbances the chunk loop comes through when the guard lets every chunk pass. -/
theorem feedChunks_undisturbed (hE : E.Undisturbed) (chunk : ℕ) (tokens : List Token)
    (fuel : ℕ) (c : Core) (off : ℕ) :
    (feedChunks M E chunk tokens fuel c off).2.2 = none ↔
      ∀ x ∈ Kappai.promptChunks chunk tokens.length fuel off,
        batchOutrunsWindow M.slidingWindow (c.nPos + x.1) x.2 = false := by
  induction fuel generalizing c off with
  | zero => simp [feedChunks, Kappai.promptChunks]
  | succ fuel ih =>
    by_cases hoff : off < tokens.length
    · have hlen : ((tokens.drop off).take chunk).length = min chunk (tokens.length - off) := by
        simp
      simp only [feedChunks, Kappai.promptChunks, if_pos hoff, hE.interrupt, Bool.false_eq_true,
        if_false, List.forall_mem_cons, computeForwardBatch, hlen, hE.pass]
      cases hguard : batchOutrunsWindow M.slidingWindow (c.nPos + off)
          (min chunk (tokens.length - off)) with
      | true => simp
      | false =>
        simp only [Bool.false_eq_true, if_false, Core.forward, ih]
        simp [Core.tick]
    · simp [feedChunks, Kappai.promptChunks, if_neg hoff]

theorem contextFeedTokensBatch_undisturbed (hE : E.Undisturbed) {c : Core} {tokens : List Token}
    (hfit : c.nPos + tokens.length ≤ M.nCtx) :
    (∃ rc, (contextFeedTokensBatch M E c tokens).2 = .ok rc) ↔
      ∀ x ∈ M.promptChunks tokens.length,
        batchOutrunsWindow M.slidingWindow (c.nPos + x.1) x.2 = false := by
  unfold contextFeedTokensBatch
  by_cases h0 : tokens.length = 0
  · simp [h0, Model.promptChunks, Kappai.promptChunks]
  · have hpos : c.fedIdsSync.nPos = c.nPos := by
      unfold Core.fedIdsSync
      split_ifs <;> rfl
    have hloop := feedChunks_undisturbed hE (min (prefillChunkSize M) tokens.length)
      tokens tokens.length c.fedIdsSync 0
    rw [hpos] at hloop
    simp only [if_neg h0, if_neg (Nat.not_lt.2 hfit), Model.promptChunks, ← hloop]
    cases (feedChunks M E (min (prefillChunkSize M) tokens.length) tokens tokens.length
      c.fedIdsSync 0).2.2 with
    | none => simp
    | some e => simp

variable (M)

/-- The guard lets every chunk of a prompt pass exactly when `WindowSpares` holds, and then
and only then a prompt that fits the context is fed without an error if nothing else goes
wrong. -/
theorem prompt_spared_iff (c : Core) (tokens : List Token)
    (hfit : c.nPos + tokens.length ≤ M.nCtx) :
    ((∀ x ∈ M.promptChunks tokens.length,
      batchOutrunsWindow M.slidingWindow (c.nPos + x.1) x.2 = false) ↔
        WindowSpares M c.nPos tokens.length) ∧
    ∀ E : Env M, E.Undisturbed →
      ((∃ rc, (contextFeedTokensBatch M E c tokens).2 = .ok rc) ↔
        WindowSpares M c.nPos tokens.length) :=
  ⟨promptChunks_spared M c.nPos tokens.length, fun _ hE =>
    (contextFeedTokensBatch_undisturbed hE hfit).trans
      (promptChunks_spared M c.nPos tokens.length)⟩

/-- A window of 512 tokens and rows small enough for chunks of 512. -/
def windowed : Model := { Model.small false with nCtx := 4096, slidingWindow := 512 }

theorem prompt_spared_iff_short :
    WindowSpares windowed 0 640 ∧ ∃ rc, (contextFeedTokensBatch windowed (.calm _) (.holding [])
      (List.replicate 640 1)).2 = .ok rc := by
  have hspares : WindowSpares windowed 0 640 := Or.inr (Or.inr (Or.inr (by decide)))
  refine ⟨hspares, ((prompt_spared_iff windowed (.holding []) (List.replicate 640 1) ?_).2
    (.calm _) ⟨fun _ => rfl, fun _ => rfl⟩).2 ?_⟩
  · rw [List.length_replicate]
    decide
  · rwa [List.length_replicate]

/-- 700 tokens into an empty context of 4096: the second chunk has 188 tokens, the slack of
the window is 128. -/
theorem prompt_refused :
    (Core.holding []).nPos + (List.replicate 700 (1 : Token)).length ≤ windowed.nCtx ∧
    (512, 188) ∈ windowed.promptChunks 700 ∧
    batchOutrunsWindow windowed.slidingWindow ((Core.holding []).nPos + 512) 188 = true ∧
    (contextFeedTokensBatch windowed (.calm _) (.holding []) (List.replicate 700 1)).2 =
      .error .computeFail := by
  decide +kernel

end Kappai
