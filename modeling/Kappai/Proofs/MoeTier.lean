import Kappai.Spec.MoeTier
import Mathlib.Algebra.Order.Field.Basic
import Mathlib.Algebra.Order.Field.Rat
import Mathlib.Tactic.Linarith
import Mathlib.Tactic.NormNum
import Mathlib.Tactic.Ring

/-! The score that is only touched on a hit is the one that is brought up to date at every step. -/

namespace Kappai

variable {F : Type*} [Field F] {p : MoeTierPolicy F}

namespace MoeTierPolicy

/-- Reading later is decaying what is read now. -/
theorem scoreAt_add {s : MoeTierScore F} {t : ℕ} (h : s.lastHit ≤ t) (m : ℕ) :
    p.scoreAt s (t + m) = p.scoreAt s t * p.decay ^ m := by
  have hat : ∀ t, s.lastHit ≤ t → p.scoreAt s t = s.score * p.decay ^ (t - s.lastHit) := by
    intro t ht
    rcases Nat.eq_or_lt_of_le ht with heq | hlt
    · rw [scoreAt, if_pos (Nat.le_of_eq heq.symm), heq, Nat.sub_self, pow_zero, mul_one]
    · rw [scoreAt, if_neg (by omega)]
  rw [hat t h, hat (t + m) (by omega), mul_assoc, ← pow_add]
  congr 2
  omega

variable [LinearOrder F]

theorem valid_decay (h : p.valid) : 0 < p.decay ∧ p.decay < 1 := by
  unfold valid at h
  split_ifs at h with hdecay
  · exact hdecay

/-- A score read at the step of its last hit is the one that hit left. -/
theorem scoreAt_hit (s : MoeTierScore F) (t : ℕ) :
    p.scoreAt (p.scoreHit s t) t = min 1 (p.scoreAt s t + (1 - p.decay)) := by
  rw [scoreAt, if_pos (by exact Nat.le_refl t)]
  rfl

variable [IsStrictOrderedRing F]

theorem clamped_mem {s : F} (hp : p.valid) (h : 0 ≤ s) :
    0 ≤ min 1 (s + (1 - p.decay)) ∧ min 1 (s + (1 - p.decay)) ≤ 1 := by
  obtain ⟨-, hlt⟩ := valid_decay hp
  exact ⟨le_min zero_le_one (by linarith), min_le_left _ _⟩

theorem iterate_clamped (hp : p.valid) {s : F} (h : 0 ≤ s ∧ s ≤ 1) (n : ℕ) :
    0 ≤ (fun s => min 1 (s + (1 - p.decay)))^[n] s ∧
      (fun s => min 1 (s + (1 - p.decay)))^[n] s ≤ 1 := by
  induction n with
  | zero => exact h
  | succ n ih =>
    rw [Function.iterate_succ_apply']
    exact clamped_mem hp ih.1

/-- One request never meets the clamp, so the recurrence is an iterated hit in any case. -/
theorem eagerStep_eq (hp : p.valid) {s : F} (h : s ≤ 1) (n : ℕ) :
    p.eagerStep s n = (fun s => min 1 (s + (1 - p.decay)))^[n] (p.decay * s) := by
  obtain ⟨hpos, hlt⟩ := valid_decay hp
  match n with
  | 0 => rfl
  | 1 =>
    have hle : p.decay * s ≤ p.decay := mul_le_of_le_one_right hpos.le h
    have hone : p.decay * s + (1 - p.decay) ≤ 1 := by linarith
    exact (min_eq_right hone).symm
  | n + 2 => rfl

theorem eagerStep_mem (hp : p.valid) {s : F} (h : 0 ≤ s ∧ s ≤ 1) (n : ℕ) :
    0 ≤ p.eagerStep s n ∧ p.eagerStep s n ≤ 1 := by
  obtain ⟨hpos, hlt⟩ := valid_decay hp
  rw [eagerStep_eq hp h.2]
  exact iterate_clamped hp ⟨mul_nonneg hpos.le h.1, mul_le_one₀ hlt.le h.1 h.2⟩ n

theorem eager_mem (hp : p.valid) (requests : List ℕ) :
    0 ≤ p.eager requests ∧ p.eager requests ≤ 1 := by
  suffices hrun : ∀ s : F, 0 ≤ s ∧ s ≤ 1 →
      0 ≤ requests.foldl p.eagerStep s ∧ requests.foldl p.eagerStep s ≤ 1 from
    hrun 0 ⟨le_rfl, zero_le_one⟩
  induction requests with
  | nil => exact fun _ h => h
  | cons n requests ih => exact fun s h => ih _ (eagerStep_mem hp h n)

end MoeTierPolicy

namespace MoeTierLayer

variable [LinearOrder F] {T : MoeTierLayer F} {nExperts e : ℕ}

/-- What the layer says of expert `e` now, once it has not been hit after now. -/
def Reads (p : MoeTierPolicy F) (T : MoeTierLayer F) (e : ℕ) (s : F) : Prop :=
  (T.tstate e).score.lastHit ≤ T.step ∧ p.scoreAt (T.tstate e).score T.step = s

theorem scoreRequest_step (T : MoeTierLayer F) (eid : ℤ) :
    (scoreRequest p nExperts T eid).step = T.step := by
  unfold scoreRequest
  split_ifs <;> rfl

/-- Requests for other experts leave the score alone, each for this one is a hit. -/
theorem reads_request (he : e < nExperts) {s : F} (h : T.Reads p e s) (eid : ℤ) :
    (scoreRequest p nExperts T eid).Reads p e (if eid = e then min 1 (s + (1 - p.decay)) else s) := by
  obtain ⟨hle, hs⟩ := h
  unfold Reads
  rw [scoreRequest_step]
  unfold scoreRequest setState
  split_ifs with hok heid heid
  · subst heid
    simp only [Int.toNat_natCast, Function.update_self, MoeTierPolicy.scoreAt_hit, hs]
    exact ⟨le_rfl, trivial⟩
  · have hne : e ≠ eid.toNat := by omega
    simp only [Function.update_of_ne hne]
    exact ⟨hle, hs⟩
  · omega
  · exact ⟨hle, hs⟩

theorem reads_requests (he : e < nExperts) {s : F} (h : T.Reads p e s) (ids : List ℤ) :
    (ids.foldl (scoreRequest p nExperts) T).Reads p e
      ((fun s => min 1 (s + (1 - p.decay)))^[ids.count (e : ℤ)] s) := by
  induction ids generalizing T s with
  | nil => exact h
  | cons eid ids ih =>
    have hrest := ih (reads_request he h eid)
    rw [List.foldl_cons, List.count_cons]
    by_cases heid : eid = e
    · rw [if_pos heid] at hrest
      rw [if_pos (by simpa using heid), Function.iterate_succ_apply]
      exact hrest
    · rw [if_neg heid] at hrest
      rw [if_neg (by simpa using heid), Nat.add_zero]
      exact hrest

variable [IsStrictOrderedRing F]

/-- A resolve is a step of the recurrence. -/
theorem reads_resolve (hp : p.valid) (he : e < nExperts) {s : F} (hs : s ≤ 1) (h : T.Reads p e s)
    (ids : List ℤ) :
    (scoreRequests p nExperts T ids).Reads p e (p.eagerStep s (ids.count (e : ℤ))) := by
  rw [MoeTierPolicy.eagerStep_eq hp hs]
  refine reads_requests he ⟨Nat.le_succ_of_le h.1, ?_⟩ ids
  have hlater := MoeTierPolicy.scoreAt_add (p := p) h.1 1
  rw [pow_one, h.2, mul_comm] at hlater
  exact hlater

/-- After any resolves, read at any later step, the score is what the recurrence gives, and lies between 0
and 1 whatever was requested how often. -/
theorem tier_score_eager (hp : p.valid) (he : e < nExperts) (resolves : List (List ℤ)) (later : ℕ) :
    let T := resolves.foldl (scoreRequests p nExperts) start
    let s := p.scoreAt (T.tstate e).score (T.step + later)
    s = p.eager (resolves.map (List.count (e : ℤ)) ++ List.replicate later 0) ∧ 0 ≤ s ∧ s ≤ 1 := by
  suffices hrun : ∀ (T : MoeTierLayer F) (s : F), 0 ≤ s ∧ s ≤ 1 → T.Reads p e s →
      (resolves.foldl (scoreRequests p nExperts) T).Reads p e
        ((resolves.map (List.count (e : ℤ))).foldl p.eagerStep s) by
    have hreads := hrun start 0 ⟨le_rfl, zero_le_one⟩ ⟨le_rfl, by simp [start, MoeTierPolicy.scoreAt]⟩
    have hdecay : ∀ (n : ℕ) (s : F), (List.replicate n 0).foldl p.eagerStep s = s * p.decay ^ n := by
      intro n
      induction n with
      | zero => intro s; rw [pow_zero, mul_one]; rfl
      | succ n ih =>
        intro s
        rw [List.replicate_succ, List.foldl_cons, ih, MoeTierPolicy.eagerStep, pow_succ]
        ring
    have heq : p.scoreAt ((resolves.foldl (scoreRequests p nExperts) start).tstate e).score
        ((resolves.foldl (scoreRequests p nExperts) start).step + later) =
        p.eager (resolves.map (List.count (e : ℤ)) ++ List.replicate later 0) := by
      rw [MoeTierPolicy.scoreAt_add hreads.1, hreads.2, MoeTierPolicy.eager, List.foldl_append, hdecay]
    intro T s
    have hs : s = p.eager (resolves.map (List.count (e : ℤ)) ++ List.replicate later 0) := heq
    exact ⟨hs, hs ▸ MoeTierPolicy.eager_mem hp _⟩
  induction resolves with
  | nil => exact fun _ _ _ h => h
  | cons ids resolves ih =>
    intro T s hs h
    exact ih _ _ (MoeTierPolicy.eagerStep_mem hp hs _) (reads_resolve hp he hs.2 h ids)

theorem tier_score_eager_default :
    let p : MoeTierPolicy ℚ := .default
    let T := [[0], [1, 1], [0, 1, -1]].foldl (scoreRequests p 2) start
    let s := p.scoreAt (T.tstate 1).score (T.step + 3)
    s = p.eager [0, 2, 1, 0, 0, 0] ∧ 0 ≤ s ∧ s ≤ 1 := by
  have hp : (MoeTierPolicy.default : MoeTierPolicy ℚ).valid := by decide +kernel
  have he : 1 < 2 := by decide
  exact tier_score_eager hp he [[0], [1, 1], [0, 1, -1]] 3

end MoeTierLayer

/-! What the sweeps of the device tier move. Whenever something happens to an expert the step goes
into the code's own table too, and a slot is only taken from an expert that the table lets go, so
long as every demotion finds room or an LRU expert that may go and no copy fails in a swap. -/

variable {F : Type*}

namespace MoeStreamLayer

/-- The slot that is emptied is not in use. -/
theorem popInUse_unused {κ : Type*} [LT κ] [DecidableLT κ] (key : ℕ → κ) (inuse : ℕ → Bool)
    (cap : ℕ) (h : IndexHeap) (requeue : List ℕ) {i : ℕ}
    (hi : (popInUse key inuse cap h requeue).2.2 = some i) : inuse i = false := by
  induction h, requeue using popInUse.induct key inuse cap with
  | case1 h requeue hn huse ih =>
    rw [popInUse, dif_pos hn, if_pos huse] at hi
    exact ih hi
  | case2 h requeue hn huse =>
    rw [popInUse, dif_pos hn, if_neg huse] at hi
    rw [← Option.some.inj hi]
    exact Bool.eq_false_iff.2 huse
  | case3 h requeue hn =>
    rw [popInUse, dif_neg hn] at hi
    cases hi

variable {L : MoeStreamLayer}

theorem lruVictim_unused {now : UInt64} {i : ℕ} (hi : L.lruVictim now = some i) :
    (L.lruSlots i).inuse = 0 := by
  have := popInUse_unused _ _ _ _ _ hi
  simpa using this

/-- A full cache gives out the slot of the victim. -/
theorem layerInsertLru_victim (hfull : ¬ L.nLru < L.lruCap) (e : ℕ) (now : UInt64) :
    (L.layerInsertLru e now).2 = L.lruVictim now := by
  rw [layerInsertLru, if_neg hfull, lruVictim]
  generalize popInUse (L.key now) (fun i => decide (0 < (L.lruSlots i).inuse)) L.requeueCap
    L.heap [] = out
  obtain ⟨h, requeue, worst⟩ := out
  cases worst with
  | none => rfl
  | some i => rfl

theorem layerInsertLru_room (hroom : L.nLru < L.lruCap) (e : ℕ) (now : UInt64) :
    (L.layerInsertLru e now).2 = some L.nLru := by
  rw [layerInsertLru, if_pos hroom]

end MoeStreamLayer

/-- An expert that may move has had its residency. -/
theorem MoeTierPolicy.mayMove_rested {p : MoeTierPolicy F} {lastMove token : ℕ}
    (h : p.mayMove lastMove token = true) (hpos : 0 < lastMove) :
    lastMove ≤ token ∧ p.minResidency ≤ ((token - lastMove : ℕ) : ℤ) := by
  rw [mayMove, if_neg (by omega)] at h
  simpa using h

namespace MoeTieredLayer

section

variable {p : MoeTierPolicy F} {s : MoeTieredLayer F}

theorem movable_may {slot : MoeExpertSlot} (h : s.movable p slot = true) :
    slot.inuse = 0 ∧ ∀ e ∈ slot.eid, s.mayMove p e = true := by
  simp only [movable, MoeExpertSlot.movable, Bool.and_eq_true, beq_iff_eq] at h
  refine ⟨h.1.2, fun e he => ?_⟩
  have hall := h.2
  rw [he] at hall
  exact hall

@[simp] theorem noteMove_step (e : ℕ) : (s.noteMove e).tier.step = s.tier.step := rfl

@[simp] theorem withLayer_step (L : MoeStreamLayer) : (s.withLayer L).tier.step = s.tier.step := rfl

@[simp] theorem moving_step (slot : MoeExpertSlot) (swap : Option (F × F)) :
    (s.moving slot swap).tier.step = s.tier.step := by
  unfold moving
  cases slot.eid <;> rfl

/-- What a slot loses does not change what may move. -/
theorem moving_mayMove (slot : MoeExpertSlot) (swap : Option (F × F)) (e : ℕ) :
    (s.moving slot swap).mayMove p e = s.mayMove p e := by
  unfold moving
  cases slot.eid <;> rfl

end

variable [Field F] [LinearOrder F]

/-- What has happened is in the code's table, and every move so far kept to the policy. -/
structure Kept (p : MoeTierPolicy F) (s : MoeTieredLayer F) : Prop where
  noted : ∀ e, ∀ t ∈ s.noted e, 0 < t ∧ (s.tier.tstate e).lastMove = t
  moves : ∀ m ∈ s.moves, m.Keeps p

variable {p : MoeTierPolicy F} {s : MoeTieredLayer F}

theorem Kept.withLayer (h : s.Kept p) (L : MoeStreamLayer) : (s.withLayer L).Kept p :=
  ⟨h.noted, h.moves⟩

theorem Kept.noteMove (h : s.Kept p) (hpos : 0 < s.tier.step) (e : ℕ) :
    (s.noteMove e).Kept p where
  noted := by
    intro e' t ht
    simp only [MoeTieredLayer.noteMove, happened, MoeTierLayer.setState] at ht ⊢
    by_cases he : e' = e
    · subst he
      rw [Function.update_self] at ht ⊢
      obtain rfl := Option.some.inj ht
      exact ⟨hpos, rfl⟩
    · rw [Function.update_of_ne he] at ht ⊢
      exact h.noted e' t ht
  moves := h.moves

/-- An expert leaves a slot that is not in use, when it may. -/
theorem Kept.moving (h : s.Kept p) {slot : MoeExpertSlot} {swap : Option (F × F)}
    (huse : slot.inuse = 0) (hmay : ∀ e ∈ slot.eid, s.mayMove p e = true)
    (hswap : ∀ x ∈ swap, x.2 * p.swapMargin < x.1) : (s.moving slot swap).Kept p := by
  unfold MoeTieredLayer.moving
  cases he : slot.eid with
  | none => exact h
  | some e =>
    refine ⟨h.noted, fun m hm => ?_⟩
    rcases List.mem_append.1 hm with hm | hm
    · exact h.moves m hm
    · obtain rfl := List.mem_singleton.1 hm
      refine ⟨huse, fun t ht => ?_, hswap⟩
      obtain ⟨hpos, hlast⟩ := h.noted e t ht
      have hmove := hmay e he
      rw [MoeTieredLayer.mayMove, hlast] at hmove
      exact MoeTierPolicy.mayMove_rested hmove hpos

/-- The weakest slot is one that may move. -/
theorem tierWeakestIndex_movable {v : ℕ} (hv : s.tierWeakestIndex p = some v) :
    s.movable p (s.layer.tierSlots v) = true := by
  unfold tierWeakestIndex at hv
  generalize List.range s.layer.tierCap = ts at hv
  suffices hall : ∀ (ts : List ℕ) (w : Option ℕ),
      (∀ v ∈ w, s.movable p (s.layer.tierSlots v) = true) → ∀ v ∈ ts.foldl (fun weakest t =>
        if s.movable p (s.layer.tierSlots t) then
          weakest.elim (some t) fun w =>
            if s.slotScore p (s.layer.tierSlots t) < s.slotScore p (s.layer.tierSlots w) then some t
            else weakest
        else weakest) w, s.movable p (s.layer.tierSlots v) = true from
    hall ts none (fun v hv => by cases hv) v hv
  intro ts
  induction ts with
  | nil => exact fun w hw => hw
  | cons t ts ih =>
    intro w hw
    rw [List.foldl_cons]
    refine ih _ fun v hv => ?_
    split_ifs at hv with hmov
    · cases w with
      | none =>
        obtain rfl := Option.some.inj hv
        exact hmov
      | some w =>
        rw [Option.elim_some] at hv
        split_ifs at hv
        · obtain rfl := Option.some.inj hv
          exact hmov
        · exact hw v hv
    · exact hw v hv

/-- The victim may move too, and is beaten by the margin. -/
theorem tierVictim_spec {i v : ℕ} (hv : s.tierVictim p i = some v) :
    s.movable p (s.layer.tierSlots v) = true ∧
      s.slotScore p (s.layer.tierSlots v) * p.swapMargin < s.slotScore p (s.layer.lruSlots i) := by
  obtain ⟨hweak, hbeats⟩ := Option.filter_eq_some_iff.1 hv
  exact ⟨tierWeakestIndex_movable hweak, by simpa [MoeTierPolicy.beats] using hbeats⟩

theorem Kept.tierEvict (h : s.Kept p) (hpos : 0 < s.tier.step) {i : ℕ}
    (hmov : s.movable p (s.layer.lruSlots i) = true) (clock : UInt64) :
    (s.tierEvict i clock).Kept p ∧ 0 < (s.tierEvict i clock).tier.step := by
  obtain ⟨huse, hmay⟩ := movable_may hmov
  have hkept : ((s.moving (s.layer.lruSlots i) none).withLayer (s.layer.lruSlotClear i clock)).Kept
      p := (h.moving huse hmay (by simp)).withLayer _
  unfold MoeTieredLayer.tierEvict
  dsimp only
  cases (s.layer.lruSlots i).eid with
  | none => exact ⟨hkept, by simpa using hpos⟩
  | some e => exact ⟨hkept.noteMove (by simpa using hpos) e, by simpa using hpos⟩

theorem Kept.tierDemote (h : s.Kept p) (hpos : 0 < s.tier.step) {t : ℕ}
    (hmov : s.movable p (s.layer.tierSlots t) = true) {clock : UInt64}
    (hfits : s.layer.nLru < s.layer.lruCap ∨
      ∃ i ∈ s.layer.lruVictim clock, ∀ v ∈ (s.layer.lruSlots i).eid, s.mayMove p v = true)
    (e : ℕ) (io : SweepIo) :
    (s.tierDemote t e io clock).1.Kept p ∧ 0 < (s.tierDemote t e io clock).1.tier.step := by
  obtain ⟨huse, hmay⟩ := movable_may hmov
  -- the expert of a slot that is taken may go
  obtain ⟨i, hi, hkept⟩ : ∃ i, (s.layer.layerInsertLru e clock).2 = some i ∧
      (if s.layer.nLru < s.layer.lruCap then s
        else s.moving (s.layer.lruSlots i) none).Kept p := by
    by_cases hroom : s.layer.nLru < s.layer.lruCap
    · exact ⟨_, MoeStreamLayer.layerInsertLru_room hroom e clock, by rwa [if_pos hroom]⟩
    · obtain ⟨i, hi, hv⟩ := hfits.resolve_left hroom
      refine ⟨i, (MoeStreamLayer.layerInsertLru_victim hroom e clock).trans hi, ?_⟩
      rw [if_neg hroom]
      exact h.moving (MoeStreamLayer.lruVictim_unused hi) hv (by simp)
  have hsame : ∀ e, (if s.layer.nLru < s.layer.lruCap then s
      else s.moving (s.layer.lruSlots i) none).mayMove p e = s.mayMove p e := by
    intro e
    split_ifs
    · rfl
    · exact moving_mayMove _ _ e
  have hstep : 0 < (if s.layer.nLru < s.layer.lruCap then s
      else s.moving (s.layer.lruSlots i) none).tier.step := by
    split_ifs
    · exact hpos
    · simpa using hpos
  unfold MoeTieredLayer.tierDemote
  dsimp only
  rw [hi]
  dsimp only
  generalize (if s.layer.nLru < s.layer.lruCap then s
    else s.moving (s.layer.lruSlots i) none) = s' at hkept hsame hstep ⊢
  split_ifs
  · refine ⟨((hkept.moving huse (fun e he => ?_) (by simp)).withLayer _).noteMove
      (by simpa using hstep) e, by simpa using hstep⟩
    rw [hsame]
    exact hmay e he
  · exact ⟨(hkept.withLayer (s.layer.tierDemote t (io.demoted t) clock)).noteMove hstep e,
      by simpa using hstep⟩

theorem Kept.tierPromote (h : s.Kept p) (hpos : 0 < s.tier.step) {i : ℕ}
    (hmov : s.movable p (s.layer.lruSlots i) = true) {io : SweepIo}
    (hreads : s.layer.tierFreeIndex = none → (s.tierVictim p i).isSome = true →
      io.uploaded i = true → io.refilled i = true) (e : ℕ) (clock : UInt64) :
    (s.tierPromote p i e io clock).1.Kept p ∧
      0 < (s.tierPromote p i e io clock).1.tier.step := by
  obtain ⟨huse, hmay⟩ := movable_may hmov
  unfold MoeTieredLayer.tierPromote
  dsimp only
  cases hfree : s.layer.tierFreeIndex with
  | some dst =>
    dsimp only
    split_ifs
    · exact ⟨((h.moving huse hmay (by simp)).withLayer _).noteMove (by simpa using hpos) e,
        by simpa using hpos⟩
    · exact ⟨h.noteMove hpos e, hpos⟩
  | none =>
    cases hvic : s.tierVictim p i with
    | none => exact ⟨h, hpos⟩
    | some v =>
      obtain ⟨hout, hbeats⟩ := tierVictim_spec hvic
      obtain ⟨huse', hmay'⟩ := movable_may hout
      dsimp only
      split_ifs with hup hre
      · have hswap : ∀ x ∈ some (s.slotScore p (s.layer.lruSlots i),
            s.slotScore p (s.layer.tierSlots v)), x.2 * p.swapMargin < x.1 := by
          rintro x ⟨⟩
          exact hbeats
        have hkept := ((h.moving huse hmay hswap).moving huse'
          (fun e he => (moving_mayMove _ _ e).trans (hmay' e he)) hswap).withLayer
            (s.layer.tierPromote i (some v) (io.uploaded i) (io.refilled i) clock)
        cases (s.layer.tierSlots v).eid with
        | none => exact ⟨hkept.noteMove (by simpa using hpos) e, by simpa using hpos⟩
        | some ve =>
          exact ⟨(hkept.noteMove (by simpa using hpos) ve).noteMove (by simpa using hpos) e,
            by simpa using hpos⟩
      · exact absurd (hreads hfree (by rw [hvic]; rfl) hup) hre
      · exact ⟨h.noteMove hpos e, hpos⟩

/-- What every round of a sweep keeps. -/
def Sweeping (p : MoeTierPolicy F) (r : MoeTieredLayer F × ℕ) : Prop :=
  r.1.Kept p ∧ 0 < r.1.tier.step

theorem Sweeping.tierRound {r : MoeTieredLayer F × ℕ} (h : Sweeping p r) {io : SweepIo}
    {clock : UInt64} {t : ℕ} (hfits : DemotionFits p clock r t) :
    Sweeping p (tierRound p io clock r t) := by
  unfold MoeTieredLayer.tierRound
  dsimp only
  split_ifs with hdue
  · obtain ⟨hmoves, hmov, hdec⟩ := hdue
    cases (r.1.layer.tierSlots t).eid with
    | none => exact h
    | some e => exact h.1.tierDemote h.2 hmov (hfits hmoves hmov hdec) e io
  · exact h

theorem Sweeping.lruRound {r : MoeTieredLayer F × ℕ} (h : Sweeping p r) {io : SweepIo}
    {clock : UInt64} {i : ℕ} (hreads : SwapReads p io r i) :
    Sweeping p (lruRound p io clock r i) := by
  unfold MoeTieredLayer.lruRound
  dsimp only
  split_ifs with hdue
  · obtain ⟨hmoves, hmov⟩ := hdue
    cases hdec : p.decide (r.1.slotScore p (r.1.layer.lruSlots i)) 0 1 with
    | stay => exact h
    | demote => exact h
    | evict => exact h.1.tierEvict h.2 hmov clock
    | promote =>
      cases (r.1.layer.lruSlots i).eid with
      | none => exact h
      | some e => exact h.1.tierPromote h.2 hmov (hreads hmoves hmov hdec) e clock
  · exact h

theorem Kept.tierSweep (h : s.Kept p) (hpos : 0 < s.tier.step) {io : SweepIo} {clock : UInt64}
    (hdemote : SafeRun (MoeTieredLayer.tierRound p io clock) (DemotionFits p clock) (s, 0)
      (List.range s.layer.tierCap))
    (hpromote : SafeRun (MoeTieredLayer.lruRound p io clock) (SwapReads p io) (s.swept p io clock)
      (List.range (s.swept p io clock).1.layer.nLru)) : (s.tierSweep p io clock).Kept p := by
  have hswept : Sweeping p (s.swept p io clock) :=
    SafeRun.inv (I := Sweeping p) (fun _ _ hr hok => hr.tierRound hok) ⟨h, hpos⟩ hdemote
  exact (SafeRun.inv (I := Sweeping p) (fun _ _ hr hok => hr.lruRound hok) hswept hpromote).1

/-- Scoring requests notes nothing. -/
theorem scoreRequests_lastMove (nExperts : ℕ) (T : MoeTierLayer F) (ids : List ℤ) (e : ℕ) :
    ((T.scoreRequests p nExperts ids).tstate e).lastMove = (T.tstate e).lastMove := by
  unfold MoeTierLayer.scoreRequests
  suffices hall : ∀ T : MoeTierLayer F,
      ((ids.foldl (MoeTierLayer.scoreRequest p nExperts) T).tstate e).lastMove =
        (T.tstate e).lastMove from hall _
  induction ids with
  | nil => exact fun _ => rfl
  | cons id ids ih =>
    intro T
    rw [List.foldl_cons, ih]
    unfold MoeTierLayer.scoreRequest
    split_ifs
    · simp only [MoeTierLayer.setState]
      by_cases he : e = id.toNat
      · rw [he, Function.update_self]
      · rw [Function.update_of_ne he]
    · rfl

theorem Kept.miss (h : s.Kept p) (e : ℕ) (now : UInt64) : (s.miss e now).Kept p := by
  unfold MoeTieredLayer.miss
  have hstream : MoeTieredLayer.Kept p { s with stream := s.stream.miss e now } :=
    ⟨h.noted, h.moves⟩
  split_ifs with hskip
  · exact h
  · exact hstream
  · exact hstream.noteMove (Nat.pos_of_ne_zero fun h0 => hskip (Or.inl h0)) e

theorem Kept.apply (h : s.Kept p) (nExperts : ℕ) {op : MoeTierOp} (hop : Undisturbed p s op) :
    (s.apply p nExperts op).Kept p := by
  cases op with
  | request ids =>
    refine ⟨fun e t ht => ?_, h.moves⟩
    obtain ⟨hpos, hlast⟩ := h.noted e t ht
    exact ⟨hpos, (scoreRequests_lastMove nExperts s.tier ids e).trans hlast⟩
  | lookup e now => exact ⟨h.noted, h.moves⟩
  | miss e now => exact h.miss e now
  | commit k fetched => exact ⟨h.noted, h.moves⟩
  | release e => exact ⟨h.noted, h.moves⟩
  | maintain io clock =>
    unfold MoeTieredLayer.apply
    dsimp only
    split_ifs with hdue
    · obtain ⟨hdemote, hpromote⟩ := hop hdue
      have hstep : 0 < s.tier.step := by
        have hlate := (of_decide_eq_true hdue).2
        unfold tierSweepInterval at hlate
        omega
      have hkept : MoeTieredLayer.Kept p { s with lastSweep := s.tier.step } :=
        ⟨h.noted, h.moves⟩
      exact hkept.tierSweep hstep hdemote hpromote
    · exact h

theorem Kept.init (lruCap tierCap : ℕ) (pins : List (ℕ × PinResult)) :
    (MoeTieredLayer.init lruCap tierCap pins : MoeTieredLayer F).Kept p :=
  ⟨fun _ _ ht => absurd ht (by simp [MoeTieredLayer.init]), fun _ hm => absurd hm List.not_mem_nil⟩

/-- In a run of resolves and sweeps, with any transfers failing, in which every demotion finds room
or an LRU expert that may go and the experts that are swapped out can be read, every expert a sweep
takes out of its slot was not in use and had its residency, and a challenger beat the incumbent by
the margin. -/
theorem tierSweeps_keep (lruCap tierCap nExperts : ℕ) (pins : List (ℕ × PinResult))
    (ops : List MoeTierOp)
    (hrun : SafeRun (MoeTieredLayer.apply p nExperts) (Undisturbed p)
      (MoeTieredLayer.init lruCap tierCap pins) ops) :
    ∀ m ∈ (ops.foldl (MoeTieredLayer.apply p nExperts)
      (MoeTieredLayer.init lruCap tierCap pins)).moves, m.Keeps p :=
  (SafeRun.inv (I := Kept p) (fun _ _ h hop => h.apply nExperts hop)
    (Kept.init lruCap tierCap pins) hrun).moves

end MoeTieredLayer

/-- Scores that halve with every step, and a residency of eight steps. -/
def halving : MoeTierPolicy ℚ := ⟨3 / 10, 15 / 100, 3 / 100, 1 / 2, 8, 5 / 4⟩

/-- Expert 0 is used until it is promoted, then expert 1 is loaded and used until expert 0 is
demoted. -/
def usedInStages : List MoeTierOp :=
  let io : SweepIo := ⟨fun _ => true, fun _ => true, fun _ => true⟩
  [.request [0], .miss 0 1, .commit 0 true, .release 0] ++ List.replicate 8 (.request [0]) ++
    [.maintain io 9, .request [1], .miss 1 10, .commit 0 true, .release 1] ++
    List.replicate 7 (.request [1]) ++ [.maintain io 17]

theorem tierSweeps_keep_stages :
    SafeRun (MoeTieredLayer.apply halving 2) (MoeTieredLayer.Undisturbed halving) (MoeTieredLayer.init 2 1 [])
      usedInStages ∧
    ∀ m ∈ (usedInStages.foldl (MoeTieredLayer.apply halving 2)
      (MoeTieredLayer.init 2 1 [])).moves, m.Keeps halving := by
  have hrun : SafeRun (MoeTieredLayer.apply halving 2) (MoeTieredLayer.Undisturbed halving)
      (MoeTieredLayer.init 2 1 []) usedInStages := by
    decide +kernel
  exact ⟨hrun, MoeTieredLayer.tierSweeps_keep 2 1 2 [] usedInStages hrun⟩

/-- With a single LRU slot the demotion of expert 0 throws out expert 1 seven steps after it was
loaded. -/
theorem tierSweeps_displace :
    let s := usedInStages.foldl (MoeTieredLayer.apply halving 2) (MoeTieredLayer.init 1 1 [])
    halving.valid = true ∧ ⟨1, 17, 0, some 10, none⟩ ∈ s.moves ∧
      ¬ (⟨1, 17, 0, some 10, none⟩ : TierMove ℚ).Keeps halving := by
  refine ⟨by decide +kernel, by decide +kernel, fun h => ?_⟩
  have hrested := (h.rested 10 rfl).2
  revert hrested
  decide

end Kappai
