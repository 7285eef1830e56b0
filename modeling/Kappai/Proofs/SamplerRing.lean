import Kappai.Spec.Sampler
import Mathlib.Algebra.Field.Rat
import Mathlib.Algebra.Order.Ring.Unbundled.Rat
import Mathlib.Data.List.DropRight

/-! What the sampler has observed and what it penalises: over every history of calls the ring holds the
last tokens observed, and a draw goes by the logits with the penalty taken once for each time that a
token stands in the window. -/

namespace Kappai

variable {R : Type*}

inductive SamplerOp (R : Type*)
  | setParams (temp : R) (topK : ℤ) (topP minP repeatPenalty : R) (repeatLastN : ℤ) (grown : ℕ → ℤ)
  | observe (token : ℤ)

def SamplerOp.token? : SamplerOp R → Option ℤ
  | setParams .. => none
  | observe token => some token

def SamplerOp.window? : SamplerOp R → Option ℤ
  | setParams _ _ _ _ _ n _ => some n
  | observe _ => none

def tokensOf (ops : List (SamplerOp R)) : List ℤ := ops.filterMap SamplerOp.token?

namespace HostSampler

def apply (s : HostSampler R) : SamplerOp R → HostSampler R
  | .setParams temp topK topP minP repeatPenalty repeatLastN grown =>
    s.setParams temp topK topP minP repeatPenalty repeatLastN grown
  | .observe token => s.observe token

def ring (s : HostSampler R) : CellRing ℤ := ⟨s.recent, s.recentCapacity, s.recentHead, s.recentCount⟩

theorem observe_ring (s : HostSampler R) (token : ℤ) :
    (s.observe token).ring = s.ring.push token := by
  unfold observe CellRing.push
  by_cases hfull : s.recentCapacity ≤ s.recentCount <;> simp [ring, hfull]

theorem setParams_ring (s : HostSampler R) (temp : R) (topK : ℤ) (topP minP repeatPenalty : R)
    (n : ℤ) (grown : ℕ → ℤ) :
    (s.setParams temp topK topP minP repeatPenalty n grown).ring =
      if s.recentCapacity < n.toNat then s.ring.relaid grown n.toNat else s.ring := by
  unfold setParams
  by_cases hpos : 0 < n <;> by_cases hcap : s.recentCapacity < n.toNat
  · simp only [ring, CellRing.relaid, hpos, hcap, if_true]
    rfl
  · simp [ring, hpos, hcap]
  · omega
  · simp [ring, hpos, hcap]

/-- The ring holds the last tokens of the log. -/
structure Keeps (s : HostSampler R) (log : List ℤ) : Prop where
  valid : s.ring.Valid
  last : s.ring.contents <:+ log

theorem Keeps.init [Zero R] [One R] (memory : ℕ → ℤ) : (init memory : HostSampler R).Keeps [] :=
  ⟨⟨by simp [HostSampler.init, ring], by simp [HostSampler.init, ring]⟩, by simp [HostSampler.init, ring, CellRing.contents]⟩

/-- What a call does to the ring. -/
theorem Keeps.apply {s : HostSampler R} {log : List ℤ} (h : s.Keeps log) (op : SamplerOp R) :
    (s.apply op).Keeps (log ++ tokensOf [op]) ∧ s.recentCapacity ≤ (s.apply op).recentCapacity ∧
      min (s.recentCount + (tokensOf [op]).length) s.recentCapacity ≤ (s.apply op).recentCount ∧
      ∀ n, op.window? = some n → n ≤ (s.apply op).recentCapacity := by
  have hle : s.recentCount ≤ s.recentCapacity := h.valid.count_le
  cases op with
  | observe token =>
    have hring := s.observe_ring token
    have hcap : (s.observe token).recentCapacity = s.recentCapacity :=
      (congrArg CellRing.cap hring).trans (CellRing.cap_push token)
    have hcount : (s.observe token).recentCount = min (s.recentCount + 1) s.recentCapacity :=
      (congrArg CellRing.count hring).trans (CellRing.count_push token h.valid)
    refine ⟨⟨?_, ?_⟩, hcap.ge, ?_, fun n hn => by cases hn⟩
    · exact hring ▸ h.valid.push token
    · exact hring ▸ CellRing.contents_push h.valid h.last token
    · exact hcount.ge
  | setParams temp topK topP minP p n grown =>
    have hring := s.setParams_ring temp topK topP minP p n grown
    simp only [HostSampler.apply]
    generalize s.setParams temp topK topP minP p n grown = t at hring
    have htok : tokensOf [SamplerOp.setParams temp topK topP minP p n grown] = [] := rfl
    rw [htok, List.append_nil, List.length_nil, Nat.add_zero]
    split_ifs at hring with hgrow
    · have hcap : t.recentCapacity = n.toNat := congrArg CellRing.cap hring
      have hcount : t.recentCount = s.recentCount := congrArg CellRing.count hring
      refine ⟨⟨hring ▸ ⟨?_, ?_⟩, ?_⟩, by omega, by omega, fun m hm => ?_⟩
      · exact Nat.lt_of_le_of_lt (Nat.zero_le _) hgrow
      · exact Nat.le_trans hle hgrow.le
      · rw [hring, CellRing.contents_relaid grown (Nat.le_trans hle hgrow.le)]
        exact h.last
      · obtain rfl : n = m := Option.some.inj hm
        omega
    · have hcap : t.recentCapacity = s.recentCapacity := congrArg CellRing.cap hring
      have hcount : t.recentCount = s.recentCount := congrArg CellRing.count hring
      refine ⟨⟨hring ▸ h.valid, hring ▸ h.last⟩, hcap.ge, by omega, fun m hm => ?_⟩
      obtain rfl : n = m := Option.some.inj hm
      omega

/-- What a run of calls does to the ring. -/
theorem Keeps.run {s : HostSampler R} {log : List ℤ} (h : s.Keeps log) (ops : List (SamplerOp R)) :
    (ops.foldl HostSampler.apply s).Keeps (log ++ tokensOf ops) ∧
      s.recentCapacity ≤ (ops.foldl HostSampler.apply s).recentCapacity ∧
      min (s.recentCount + (tokensOf ops).length) s.recentCapacity ≤
        (ops.foldl HostSampler.apply s).recentCount ∧
      ∀ op ∈ ops, ∀ n, op.window? = some n → n ≤ (ops.foldl HostSampler.apply s).recentCapacity := by
  induction ops generalizing s log with
  | nil => exact ⟨by simpa [tokensOf] using h, le_rfl, by simp [tokensOf], by simp⟩
  | cons op ops ih =>
    obtain ⟨hstep, hcap, hcount, hwindow⟩ := h.apply op
    obtain ⟨hrun, hcaps, hcounts, hwindows⟩ := ih hstep
    have htok : tokensOf (op :: ops) = tokensOf [op] ++ tokensOf ops := by
      rw [← List.singleton_append, tokensOf, List.filterMap_append]
      rfl
    rw [List.foldl_cons, htok, ← List.append_assoc, List.length_append]
    refine ⟨hrun, hcap.trans hcaps, by omega, fun op' hop' n hn => ?_⟩
    rcases List.mem_cons.1 hop' with rfl | hop'
    · have := hwindow n hn
      omega
    · exact hwindows op' hop' n hn

section Window

variable {s : HostSampler R} {log : List ℤ}

theorem Keeps.window (h : s.Keeps log) {n : ℕ} (hn : n ≤ s.recentCount) :
    (List.range' (s.recentCount - n) n).map
      (fun i => s.recent ((s.recentHead + i) % s.recentCapacity)) = log.rtake n := by
  obtain ⟨pre, hpre⟩ := h.last
  have hlen : s.ring.contents.length = s.recentCount := CellRing.length_contents
  calc (List.range' (s.recentCount - n) n).map
        (fun i => s.recent ((s.recentHead + i) % s.recentCapacity))
      = s.ring.contents.drop (s.recentCount - n) := by
        rw [CellRing.contents, ← List.map_drop, List.range_eq_range', List.drop_range']
        simp only [ring]
        congr 2 <;> omega
    _ = log.rtake n := by
        rw [← hpre, List.rtake, List.length_append, hlen, Nat.add_sub_assoc hn,
          List.drop_length_add_append]

theorem Keeps.recentWindow (h : s.Keeps log) (cap : ℕ) :
    s.recentWindow cap = log.rtake (min (min s.repeatLastN s.recentCount) cap) := by
  have hn : min (min s.repeatLastN s.recentCount) cap ≤ s.recentCount := by omega
  rw [← h.window hn, HostSampler.recentWindow, List.range'_eq_map_range, List.map_map]
  refine List.map_congr_left fun i _ => ?_
  rw [Function.comp_apply, ← Nat.add_assoc, ← Nat.add_sub_assoc hn]

end Window

/-! ### The penalty -/

section Penalty

variable [Field R] [LinearOrder R]

theorem penaliseToken_apply (p : R) (vocab : ℕ) (buf : ℕ → R) (tok : ℤ) (i : ℕ) :
    penaliseToken p vocab buf tok i = if i < vocab ∧ tok = i then penalty p (buf i) else buf i := by
  unfold penaliseToken
  split_ifs with hout hi hi
  · omega
  · rfl
  · obtain ⟨-, rfl⟩ := hi
    simp
  · rw [Function.update_of_ne]
    omega

/-- A penalty for every token of a list. -/
theorem foldl_penaliseToken (p : R) (vocab : ℕ) (toks : List ℤ) (buf : ℕ → R) (i : ℕ) :
    toks.foldl (penaliseToken p vocab) buf i =
      if i < vocab then (penalty p)^[toks.count (i : ℤ)] (buf i) else buf i := by
  induction toks generalizing buf with
  | nil => simp
  | cons tok toks ih =>
    rw [List.foldl_cons, ih, penaliseToken_apply, List.count_cons]
    by_cases hi : i < vocab
    · by_cases htok : tok = i
      · simp [hi, htok]
      · simp [hi, htok]
    · simp [hi]

theorem penalty_one (l : R) : penalty 1 l = l := by simp [penalty]

/-- The logits in which each token of the window has been penalised as often as it stands there. -/
def windowLogits (p : R) (window : List ℤ) (logits : ℕ → R) (vocab : ℕ) : ℕ → R := fun i =>
  if i < vocab then (penalty p)^[window.count (i : ℤ)] (logits i) else logits i

theorem Keeps.drawnLogits {s : HostSampler R} {log : List ℤ} (h : s.Keeps log) (logits : ℕ → R) (vocab : ℕ) :
    s.drawnLogits logits vocab =
      windowLogits s.repeatPenalty (log.rtake (min s.repeatLastN s.recentCount)) logits vocab := by
  unfold HostSampler.drawnLogits
  split_ifs with hpen
  · funext i
    rw [applyRepeatPenalty, ← h.window (Nat.min_le_right _ _), windowLogits,
      ← foldl_penaliseToken, List.foldl_map]
  · funext i
    unfold windowLogits
    rcases not_and_or.1 hpen with hone | hnone
    · have hid : penalty (1 : R) = id := funext penalty_one
      rw [not_not.1 hone, hid, Function.iterate_id]
      simp
    · have hzero : s.recentCount = 0 := Nat.eq_zero_of_not_pos hnone
      simp [hzero, List.rtake]

end Penalty

/-! ### Histories -/

variable [Field R] [LinearOrder R]

/-- After every history the ring holds the last tokens observed, in order: as many, at least, as have
been observed since a window was set, up to its length, and since the beginning up to 256. A draw goes
by the logits in which each token among the last `repeat_last_n` that the ring holds is penalised once
for each time it stands there, and nothing else is changed. -/
theorem history_kept (qsort : List (SamplerTopKEntry R) → List (SamplerTopKEntry R)) (exp : R → R)
    (memory : ℕ → ℤ) (before after : List (SamplerOp R)) :
    let s := (before ++ after).foldl HostSampler.apply (HostSampler.init memory)
    let log := tokensOf (before ++ after)
    s.recentHead < s.recentCapacity ∧ s.recentCount ≤ s.recentCapacity ∧
      s.ring.contents = log.rtake s.recentCount ∧
      (∀ n, n = 256 ∨ (∃ op ∈ before, op.window? = some n) →
        min n (tokensOf after).length ≤ s.recentCount) ∧
      ∀ heap logits vocab uniform, s.sample qsort exp heap logits vocab uniform =
        ({ s with repeatPenalty := 1 } : HostSampler R).sample qsort exp heap
          (windowLogits s.repeatPenalty (log.rtake (min s.repeatLastN s.recentCount)) logits vocab)
          vocab uniform := by
  intro s log
  obtain ⟨hbefore, hcap, -, hwindow⟩ := (Keeps.init memory : (init memory).Keeps []).run before
  obtain ⟨hkeeps, -, hcount, -⟩ := hbefore.run after
  rw [← List.foldl_append, List.nil_append, tokensOf, tokensOf, ← List.filterMap_append] at hkeeps
  rw [← List.foldl_append] at hcount
  have hkeeps : s.Keeps log := hkeeps
  have hcount : min ((before.foldl HostSampler.apply (init memory)).recentCount +
      (tokensOf after).length) (before.foldl HostSampler.apply (init memory)).recentCapacity ≤
      s.recentCount := hcount
  refine ⟨hkeeps.valid.head_lt, hkeeps.valid.count_le, ?_, fun n hn => ?_, fun heap logits vocab uniform => ?_⟩
  · obtain ⟨pre, hpre⟩ := hkeeps.last
    have hlen : s.ring.contents.length = s.recentCount := CellRing.length_contents
    rw [← hpre, List.rtake, List.length_append, hlen, Nat.add_sub_cancel, List.drop_left]
  · have hn : n ≤ (before.foldl HostSampler.apply (init memory)).recentCapacity := by
      rcases hn with rfl | ⟨op, hop, hn⟩
      · exact_mod_cast hcap
      · exact hwindow op hop n hn
    omega
  · have hnone : ∀ lg, ({ s with repeatPenalty := 1 } : HostSampler R).drawnLogits lg vocab = lg := by
      simp [HostSampler.drawnLogits]
    rw [HostSampler.sample, HostSampler.sample, hkeeps.drawnLogits logits vocab, hnone]
    rfl

/-- A token stands twice in the window. -/
def seenTwice : List (SamplerOp ℚ) :=
  [.setParams 0 0 1 0 2 8 fun _ => 0, .observe 0, .observe 0]

/-- The window grows when the ring has been full. -/
def pushedOut : List (SamplerOp ℚ) :=
  List.replicate 257 (.observe 7) ++ [.setParams 0 0 1 0 2 257 fun _ => 0]

/-- Token 0 is ahead if it is penalised once, and is not as the code does it; and a ring that is full
with 256 tokens does not get the one before them back when the window grows. -/
theorem history_twice :
    let s := seenTwice.foldl HostSampler.apply (init fun _ => 0)
    let logits := fun i => if i = 0 then 4 else 3 / 2
    let heap : TopkHeap ℚ := ⟨fun _ => 0, fun _ => 0, 0⟩
    (s.sample id id heap logits 2 0 = 1 ∧
      ({ s with repeatPenalty := 1 } : HostSampler ℚ).sample id id heap
        (fun i => if (i : ℤ) ∈ (tokensOf seenTwice).rtake 8 then penalty 2 (logits i) else logits i)
        2 0 = 0) ∧
    (pushedOut.foldl HostSampler.apply (init fun _ => 0)).recentCount = 256 := by
  decide +kernel

end HostSampler

end Kappai
