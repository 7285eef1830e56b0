import Kappai.Lib.Queues
import Kappai.Spec.MoeTopk
import Mathlib.Algebra.BigOperators.Group.List.Basic

/-! The sampler of the host: the ring of the tokens it has observed, the penalty on them, and the draw
of a token. Logits and masses are exact numbers; `expf` and `qsort` are parameters. -/

namespace Kappai

/-- `SAMPLER_TOP_FILTER_CAP` -/
def samplerTopFilterCap : ℕ := 1024

/-- `sampler`, without its buffers and the state of its generator. -/
structure HostSampler (R : Type*) where
  temperature : R
  topK : ℤ
  topP : R
  minP : R
  repeatPenalty : R
  repeatLastN : ℕ
  recent : ℕ → ℤ
  recentCount : ℕ
  observed : UInt64
  recentCapacity : ℕ
  recentHead : ℕ

/-- `sampler_top_k_entry` -/
structure SamplerTopKEntry (R : Type*) where
  v : R
  i : ℕ
deriving DecidableEq

variable {R : Type*}

namespace HostSampler

/-- `sampler_init`; the ring holds what its memory held before. -/
def init [Zero R] [One R] (memory : ℕ → ℤ) : HostSampler R where
  temperature := 1
  topK := 0
  topP := 1
  minP := 0
  repeatPenalty := 1
  repeatLastN := 0
  recent := memory
  recentCount := 0
  observed := 0
  recentCapacity := 256
  recentHead := 0

variable (s : HostSampler R)

/-- `sampler_set_params`; a ring that grows is moved into `grown`. -/
def setParams (temp : R) (topK : ℤ) (topP minP repeatPenalty : R) (repeatLastN : ℤ) (grown : ℕ → ℤ) :
    HostSampler R :=
  let s := { s with
    temperature := temp, topK := topK, topP := topP, minP := minP, repeatPenalty := repeatPenalty }
  if 0 < repeatLastN then
    let s := { s with repeatLastN := repeatLastN.toNat }
    if s.recentCapacity < repeatLastN.toNat then
      { s with
        recent := fun i => if i < s.recentCount
          then s.recent ((s.recentHead + i) % s.recentCapacity) else grown i
        recentHead := 0
        recentCapacity := repeatLastN.toNat }
    else s
  else s

/-- `sampler_observe` -/
def observe (token : ℤ) : HostSampler R :=
  let s := { s with observed := s.observed + 1 }
  if s.recentCapacity ≤ s.recentCount then
    { s with
      recent := Function.update s.recent s.recentHead token
      recentHead := (s.recentHead + 1) % s.recentCapacity }
  else
    { s with
      recent := Function.update s.recent ((s.recentHead + s.recentCount) % s.recentCapacity) token
      recentCount := s.recentCount + 1 }

/-- `sampler_recent_window` -/
def recentWindow (cap : ℕ) : List ℤ :=
  let n := min (min s.repeatLastN s.recentCount) cap
  (List.range n).map fun i =>
    s.recent ((s.recentHead + s.recentCount - n + i) % s.recentCapacity)

end HostSampler

variable [Field R] [LinearOrder R]

/-- The penalty on one logit. -/
def penalty (p l : R) : R := if l > 0 then l / p else l * p

/-- One turn of the loop of `apply_repeat_penalty`. -/
def penaliseToken (p : R) (vocab : ℕ) (buf : ℕ → R) (tok : ℤ) : ℕ → R :=
  if tok < 0 ∨ tok ≥ vocab then buf
  else Function.update buf tok.toNat (penalty p (buf tok.toNat))

/-- The first index at which the running sum exceeds `rnd`. -/
def drawLoop (rnd : R) : R → ℕ → List R → Option ℕ
  | _, _, [] => none
  | acc, i, w :: ws => if rnd < acc + w then some i else drawLoop rnd (acc + w) (i + 1) ws

/-- `sampler_argmax_f32` -/
def samplerArgmax (logits : ℕ → R) (vocab : ℕ) : ℕ :=
  ((List.range' 1 (vocab - 1)).foldl
    (fun best i => if logits i > best.2 then (i, logits i) else best) (0, logits 0)).1

/-- `top_k_heap`, with what its buffers hold at first. -/
def topKHeap (heap : TopkHeap R) (logits : ℕ → R) (vocab : ℕ) (k : ℤ) :
    List (SamplerTopKEntry R) :=
  let k := if k > vocab then (vocab : ℤ) else k
  if k ≤ 0 then []
  else
    let h := topkHeapSelect heap logits vocab k.toNat
    (List.range h.n).map fun i => ⟨h.score i, h.idx i⟩

variable (qsort : List (SamplerTopKEntry R) → List (SamplerTopKEntry R))

/-- `top_k_sorted` -/
def topKSorted (heap : TopkHeap R) (logits : ℕ → R) (vocab : ℕ) (k : ℤ) :
    List (SamplerTopKEntry R) :=
  qsort (topKHeap heap logits vocab k)

/-- `top_all_desc` -/
def topAllDesc (heap : TopkHeap R) (logits : ℕ → R) (vocab maxKeep : ℕ) :
    List (SamplerTopKEntry R) :=
  let maxKeep := min maxKeep vocab
  if maxKeep = 0 then [] else topKSorted qsort heap logits vocab maxKeep

variable (exp : R → R)

/-- `apply_temperature_softmax`: the weights and their sum. -/
def applyTemperatureSoftmax (arr : List (SamplerTopKEntry R)) (temperature : R) :
    List (SamplerTopKEntry R) × R :=
  match arr with
  | [] => ([], 0)
  | top :: _ =>
    let invTemp := 1 / temperature
    let mx := top.v * invTemp
    let out := arr.map fun e => { e with v := exp (e.v * invTemp - mx) }
    (out, (out.map (·.v)).sum)

/-- The loop of `apply_top_p`. -/
def topPLoop (topP sum : R) : R → ℕ → List (SamplerTopKEntry R) → ℕ
  | _, i, [] => i
  | cumulative, i, e :: rest =>
    if cumulative + e.v / sum > topP then i + 1
    else topPLoop topP sum (cumulative + e.v / sum) (i + 1) rest

/-- `apply_top_p` -/
def applyTopP (arr : List (SamplerTopKEntry R)) (topP sum : R) : ℕ :=
  if topP ≥ 1 then arr.length else topPLoop topP sum 0 0 arr

/-- `apply_min_p`; `arr` is what is kept. -/
def applyMinP (arr : List (SamplerTopKEntry R)) (minP sum : R) : ℕ :=
  if minP ≤ 0 then arr.length
  else match arr with
    | [] => 1
    | top :: _ =>
      let minProb := minP * (top.v / sum)
      let n := (arr.takeWhile fun e => e.v / sum ≥ minProb).length
      if n > 0 then n else 1

/-- `sample_from_candidates`, for a draw `uniform` of the generator; `arr` is what is kept. -/
def sampleFromCandidates (arr : List (SamplerTopKEntry R)) (uniform : R) : ℤ :=
  let psum := (arr.map (·.v)).sum
  let picked := (drawLoop (uniform * psum) 0 0 (arr.map (·.v))).getD (arr.length - 1)
  match arr[picked]? with
  | some e => e.i
  | none => -1

namespace HostSampler

variable (s : HostSampler R)

/-- `apply_repeat_penalty` -/
def applyRepeatPenalty (buf : ℕ → R) (vocab : ℕ) : ℕ → R :=
  let n := min s.repeatLastN s.recentCount
  (List.range' (s.recentCount - n) n).foldl
    (fun buf i => penaliseToken s.repeatPenalty vocab buf
      (s.recent ((s.recentHead + i) % s.recentCapacity))) buf

/-- `collect_candidates` -/
def collectCandidates (heap : TopkHeap R) (logits : ℕ → R) (vocab : ℕ) :
    List (SamplerTopKEntry R) :=
  if s.topK > 0 ∧ s.topK < vocab then topKSorted qsort heap logits vocab s.topK
  else
    let cap := if s.topP < 1 ∨ s.minP > 0 then min vocab samplerTopFilterCap else vocab
    topAllDesc qsort heap logits vocab cap

/-- `sample_full_vocab` -/
def sampleFullVocab (logits : ℕ → R) (vocab : ℕ) (uniform : R) : ℤ :=
  let invTemp := 1 / s.temperature
  let mx := (List.range' 1 (vocab - 1)).foldl
    (fun mx i => if logits i * invTemp > mx then logits i * invTemp else mx) (logits 0 * invTemp)
  let ws := (List.range vocab).map fun i => exp (logits i * invTemp - mx)
  match drawLoop (uniform * ws.sum) 0 0 ws with
  | some i => i
  | none => vocab - 1

/-- `sample_greedy` -/
def sampleGreedy (logits : ℕ → R) (vocab : ℕ) : ℤ := samplerArgmax logits vocab

/-- `sample_filtered` -/
def sampleFiltered (heap : TopkHeap R) (logits : ℕ → R) (vocab : ℕ) (uniform : R) : ℤ :=
  let arr := s.collectCandidates qsort heap logits vocab
  if arr.length = 0 then -1
  else
    let weighed := applyTemperatureSoftmax exp arr s.temperature
    let kept := applyTopP weighed.1 s.topP weighed.2
    let kept := applyMinP (weighed.1.take kept) s.minP weighed.2
    sampleFromCandidates (weighed.1.take (if kept = 0 then 1 else kept)) uniform

/-- The logits that a draw goes by. -/
def drawnLogits (logits : ℕ → R) (vocab : ℕ) : ℕ → R :=
  if s.repeatPenalty ≠ 1 ∧ s.recentCount > 0 then s.applyRepeatPenalty logits vocab else logits

/-- `sampler_sample` -/
def sample (heap : TopkHeap R) (logitsIn : ℕ → R) (vocab : ℕ) (uniform : R) : ℤ :=
  let logits := s.drawnLogits logitsIn vocab
  if s.temperature ≤ 0 ∨ s.topK = 1 then sampleGreedy logits vocab
  else if (s.topK ≤ 0 ∨ s.topK ≥ vocab) ∧ s.topP ≥ 1 ∧ s.minP ≤ 0 then
    s.sampleFullVocab exp logits vocab uniform
  else s.sampleFiltered qsort exp heap logits vocab uniform

end HostSampler

end Kappai
