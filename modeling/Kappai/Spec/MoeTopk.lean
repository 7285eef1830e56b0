import Mathlib.Algebra.Field.Rat
import Mathlib.Algebra.Order.Ring.Rat
import Mathlib.Algebra.Field.Defs
import Mathlib.Data.Int.Notation
import Mathlib.Data.Finset.Card
import Mathlib.Data.List.Sort
import Mathlib.Logic.Function.Basic
import Mathlib.Order.Defs.LinearOrder
import Mathlib.Tactic.Common

/-! The router's choice of experts: the heap of the best scores, and the choice of groups before it.
Scores are exact numbers. -/

namespace Kappai

variable {F : Type*}

/-- `out_score` and `out_idx`, with the number of entries in use. -/
structure TopkHeap (F : Type*) where
  score : ℕ → F
  idx : ℕ → ℕ
  n : ℕ

namespace TopkHeap

variable [LinearOrder F] (h : TopkHeap F)

def swap (a b : ℕ) : TopkHeap F where
  score := Function.update (Function.update h.score a (h.score b)) b (h.score a)
  idx := Function.update (Function.update h.idx a (h.idx b)) b (h.idx a)
  n := h.n

def put (p : ℕ) (s : F) (e : ℕ) : TopkHeap F :=
  { h with score := Function.update h.score p s, idx := Function.update h.idx p e }

/-- `if (c < n && score[c] < score[smallest]) smallest = c` -/
def pick (smallest c : ℕ) : ℕ := if c < h.n ∧ h.score c < h.score smallest then c else smallest

def smallest (pos : ℕ) : ℕ := h.pick (h.pick pos (2 * pos + 1)) (2 * pos + 2)

theorem smallest_cases (pos : ℕ) : h.smallest pos = pos ∨ pos < h.smallest pos ∧ h.smallest pos < h.n := by
  unfold smallest pick
  split_ifs <;> omega

/-- `topk_heap_sift_down` -/
def siftDown (h : TopkHeap F) (pos : ℕ) : TopkHeap F :=
  if _hs : h.smallest pos = pos then h
  else (h.swap pos (h.smallest pos)).siftDown (h.smallest pos)
termination_by h.n - pos
decreasing_by
  rcases h.smallest_cases pos with hs | hs
  · contradiction
  · change h.n - _ < _
    omega

/-- The loop of `topk_heap_select` that a new entry rises by. -/
def siftUp (h : TopkHeap F) (pos : ℕ) : TopkHeap F :=
  if _hpos : 0 < pos then
    if h.score ((pos - 1) / 2) ≤ h.score pos then h
    else (h.swap pos ((pos - 1) / 2)).siftUp ((pos - 1) / 2)
  else h
termination_by pos

/-- The body of the first loop of `topk_heap_select`. -/
def push (s : F) (e : ℕ) : TopkHeap F := siftUp { h.put h.n s e with n := h.n + 1 } h.n

/-- The body of the second loop of `topk_heap_select`. -/
def offer (s : F) (e : ℕ) : TopkHeap F := if s > h.score 0 then (h.put 0 s e).siftDown 0 else h

end TopkHeap

section

variable [LinearOrder F]

/-- `topk_heap_select` into arrays that hold anything. -/
def topkHeapSelect (out : TopkHeap F) (scores : ℕ → F) (nScores k : ℕ) : TopkHeap F :=
  let h := (List.range (min nScores k)).foldl (fun h e => h.push (scores e) e) { out with n := 0 }
  (List.range' h.n (nScores - h.n)).foldl (fun h e => h.offer (scores e) e) h

variable [Field F]

/-- `-1e30f` -/
def topkFloor : F := -(10 ^ 30)

/-- `MOE_MAX_TOPK` -/
def moeMaxTopk : ℤ := 64

/-- `moe_topk_select`: the entries of `top_idx` and `top_score` that it writes; -1 is `none`. -/
def moeTopkSelect (out : TopkHeap F) (scores : ℕ → F) (nExperts : ℕ) (topK : ℤ) :
    List (Option ℕ × F) :=
  if topK ≤ 0 then []
  else
    let topK := (if topK > moeMaxTopk then moeMaxTopk else topK).toNat
    let h := topkHeapSelect out scores nExperts topK
    (List.range topK).map fun k => if k < h.n then (some (h.idx k), h.score k) else (none, topkFloor)

/-- `best` and `second` after an expert of a group. -/
def bestTwo (b : F × F) (s : F) : F × F :=
  if s > b.1 then (s, b.1) else if s > b.2 then (b.1, s) else b

/-- The first expert of group `g`, and the number of experts it has. -/
def groupStart (E nGroup g : ℕ) : ℕ := g * (E / nGroup) + if g < E % nGroup then g else E % nGroup

def groupSize (E nGroup g : ℕ) : ℕ := E / nGroup + if g < E % nGroup then 1 else 0

/-- The first loop over the groups: `g_start` and `group_sum`. -/
def groupSums (scores : ℕ → F) (E nGroup : ℕ) : ℕ × (ℕ → F) :=
  (List.range nGroup).foldl (fun acc g =>
    let b := ((List.range' acc.1 (groupSize E nGroup g)).map scores).foldl bestTwo (topkFloor, topkFloor)
    (acc.1 + groupSize E nGroup g, Function.update acc.2 g (b.1 + b.2))) (0, fun _ => 0)

/-- `cand_eid`, from the kept groups in their order. -/
def groupCands (E nGroup : ℕ) (kept : List ℕ) : List ℕ :=
  kept.flatMap fun g => List.range' (groupStart E nGroup g) (groupSize E nGroup g)

/-- The grouping of `moe_grouped_topk_select` is in use. -/
def Grouped (E : ℕ) (nGroup topkGroup : ℤ) : Prop :=
  ¬(nGroup ≤ 1 ∨ topkGroup ≤ 0 ∨ topkGroup ≥ nGroup ∨ nGroup > E)

instance (E : ℕ) (nGroup topkGroup : ℤ) : Decidable (Grouped E nGroup topkGroup) :=
  inferInstanceAs (Decidable (¬_))

/-- `group_sel` once it is sorted. -/
def keptGroups (out : TopkHeap F) (scores : ℕ → F) (E nGroup topkGroup : ℕ) : List ℕ :=
  let h := topkHeapSelect out (groupSums scores E nGroup).2 nGroup topkGroup
  ((List.range h.n).map h.idx).insertionSort (· ≤ ·)

/-- `moe_grouped_topk_select`. What its arrays hold at first is `out` and `groupOut`. -/
def moeGroupedTopkSelect (out groupOut : TopkHeap F) (scores : ℕ → F) (E : ℕ) (K nGroup topkGroup : ℤ) :
    List (Option ℕ × F) :=
  if Grouped E nGroup topkGroup then
    let cands := groupCands E nGroup.toNat (keptGroups groupOut scores E nGroup.toNat topkGroup.toNat)
    (moeTopkSelect out (fun k => scores (cands.getD k 0)) cands.length K).map fun o =>
      (o.1.map fun k => cands.getD k 0, o.2)
  else moeTopkSelect out scores E K

/-- The best scores of a finite set of experts, in any order: no expert that is left out beats one
that is chosen, and the rest of the entries are empty. -/
def Chooses (scores : ℕ → F) (cands : Finset ℕ) (k : ℕ) (out : List (Option ℕ × F)) : Prop :=
  ∃ sel : List ℕ, sel.Nodup ∧ sel.length = min k cands.card ∧ (∀ e ∈ sel, e ∈ cands) ∧
    out = sel.map (fun e => (some e, scores e)) ++ List.replicate (k - sel.length) (none, topkFloor) ∧
    ∀ e ∈ cands, e ∉ sel → ∀ e' ∈ sel, scores e ≤ scores e'

/-- The two best scores of a list together, a missing one counting as the floor. -/
def twoBest (scores : List F) : F :=
  let sorted := scores.insertionSort (· ≥ ·)
  sorted.getD 0 topkFloor + sorted.getD 1 topkFloor

/-- The sum of the two best scores of a group. -/
def groupBest (scores : ℕ → F) (E nGroup g : ℕ) : F :=
  twoBest ((List.range' (groupStart E nGroup g) (groupSize E nGroup g)).map scores)

/-- The experts of a group. -/
def groupMembers (E nGroup g : ℕ) : Finset ℕ :=
  (List.range' (groupStart E nGroup g) (groupSize E nGroup g)).toFinset

end

end Kappai
