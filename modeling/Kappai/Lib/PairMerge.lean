import Mathlib.Data.List.Basic
import Mathlib.Data.Int.Notation
import Mathlib.Tactic.Common

/-! Merging neighbours in a list: the pair of least rank is merged, the leftmost of several, until no
pair has a rank. A negative rank is none. -/

namespace Kappai

namespace PairMerge

variable {P Q : Type*} (rank : P → P → ℤ) (merge : P → P → P)

/-- The rank of the pair at position `i`. -/
def rankAt : List P → ℕ → ℤ
  | a :: b :: _, 0 => rank a b
  | _ :: l, i + 1 => rankAt l i
  | _, _ => -1

/-- The position of the pair to merge. -/
def best : List P → Option ℕ
  | a :: l =>
    match best l with
    | some i => if 0 ≤ rankAt rank (a :: l) 0 ∧ rankAt rank (a :: l) 0 ≤ rankAt rank l i then some 0
        else some (i + 1)
    | none => if 0 ≤ rankAt rank (a :: l) 0 then some 0 else none
  | [] => none

def mergeAt : List P → ℕ → List P
  | a :: b :: l, 0 => merge a b :: l
  | a :: l, i + 1 => a :: mergeAt l i
  | l, _ => l

/-- The pair at `i` has the least rank, and is the leftmost with it. -/
def IsBest (l : List P) (i : ℕ) : Prop :=
  0 ≤ rankAt rank l i ∧ ∀ j, 0 ≤ rankAt rank l j →
    rankAt rank l i < rankAt rank l j ∨ rankAt rank l i = rankAt rank l j ∧ i ≤ j

variable {rank} {l : List P}

theorem rankAt_nil (i : ℕ) : rankAt rank [] i = -1 := by
  cases i <;> rfl

theorem best_spec : (∀ i, best rank l = some i → IsBest rank l i) ∧
    (best rank l = none → ∀ j, rankAt rank l j < 0) := by
  induction l with
  | nil => exact ⟨fun i h => absurd h (by simp [best]), fun _ j => by rw [rankAt_nil]; decide⟩
  | cons a l ih =>
    have hsucc : ∀ j, rankAt rank (a :: l) (j + 1) = rankAt rank l j := fun j => by
      cases l <;> simp [rankAt]
    cases hl : best rank l with
    | none =>
      have hnone := ih.2 hl
      simp only [best, hl]
      split_ifs with h0
      · refine ⟨fun i hi => ?_, fun h => by cases h⟩
        obtain rfl : 0 = i := Option.some.inj hi
        refine ⟨h0, fun j hj => ?_⟩
        cases j with
        | zero => exact .inr ⟨rfl, Nat.le_refl 0⟩
        | succ j =>
          rw [hsucc] at hj
          exact absurd hj (by have := hnone j; omega)
      · refine ⟨fun i hi => absurd hi (by simp), fun _ j => ?_⟩
        cases j with
        | zero => omega
        | succ j =>
          rw [hsucc]
          exact hnone j
    | some k =>
      obtain ⟨hk, hleast⟩ := ih.1 k hl
      simp only [best, hl]
      split_ifs with h0
      · refine ⟨fun i hi => ?_, fun h => by cases h⟩
        obtain rfl : 0 = i := Option.some.inj hi
        refine ⟨h0.1, fun j hj => ?_⟩
        cases j with
        | zero => exact .inr ⟨rfl, Nat.le_refl 0⟩
        | succ j =>
          rw [hsucc] at hj ⊢
          have := hleast j hj
          omega
      · refine ⟨fun i hi => ?_, fun h => by cases h⟩
        obtain rfl : k + 1 = i := Option.some.inj hi
        refine ⟨by rwa [hsucc], fun j hj => ?_⟩
        rw [hsucc]
        cases j with
        | zero => exact .inl (by omega)
        | succ j =>
          rw [hsucc] at hj ⊢
          have := hleast j hj
          omega

theorem IsBest.eq {i j : ℕ} (hi : IsBest rank l i) (hj : IsBest rank l j) : i = j := by
  have := hi.2 j hj.1
  have := hj.2 i hi.1
  omega

theorem best_eq {i : ℕ} (h : IsBest rank l i) : best rank l = some i := by
  cases hl : best rank l with
  | none => exact absurd h.1 (by have := best_spec.2 hl i; omega)
  | some j => rw [(best_spec.1 j hl).eq h]

/-- A pair with a rank cuts the list. -/
theorem exists_pair {i : ℕ} (h : 0 ≤ rankAt rank l i) :
    ∃ xs a b ys, l = xs ++ a :: b :: ys ∧ xs.length = i ∧ rankAt rank l i = rank a b := by
  induction l generalizing i with
  | nil => exact absurd h (by rw [rankAt_nil]; decide)
  | cons a l ih =>
    cases l with
    | nil =>
      cases i with
      | zero =>
        have h : (0 : ℤ) ≤ -1 := h
        omega
      | succ i => exact absurd h (by rw [rankAt, rankAt_nil]; decide)
    | cons b l =>
      cases i with
      | zero => exact ⟨[], a, b, l, rfl, rfl, rfl⟩
      | succ i =>
        obtain ⟨xs, c, d, ys, hl, hlen, hrank⟩ := ih h
        exact ⟨a :: xs, c, d, ys, by rw [hl, List.cons_append], by rw [List.length_cons, hlen], hrank⟩

theorem rankAt_append (xs : List P) (a b : P) (ys : List P) :
    rankAt rank (xs ++ a :: b :: ys) xs.length = rank a b := by
  induction xs with
  | nil => rfl
  | cons x xs ih =>
    cases xs with
    | nil => rfl
    | cons y xs => exact ih

theorem mergeAt_append (xs : List P) (a b : P) (ys : List P) :
    mergeAt merge (xs ++ a :: b :: ys) xs.length = xs ++ merge a b :: ys := by
  induction xs with
  | nil => rfl
  | cons x xs ih =>
    cases xs with
    | nil => rfl
    | cons y xs => exact congrArg (x :: ·) ih

theorem length_mergeAt {i : ℕ} (h : best rank l = some i) :
    (mergeAt merge l i).length < l.length := by
  obtain ⟨xs, a, b, ys, rfl, rfl, -⟩ := exists_pair (best_spec.1 i h).1
  rw [mergeAt_append]
  simp

variable (rank)

/-- Merges while there is a pair with a rank. -/
def reference (l : List P) : List P :=
  match _h : best rank l with
  | some i => reference (mergeAt merge l i)
  | none => l
termination_by l.length
decreasing_by exact length_mergeAt merge _h

variable {rank}

theorem reference_merge {xs : List P} {a b : P} {ys : List P}
    (h : IsBest rank (xs ++ a :: b :: ys) xs.length) :
    reference rank merge (xs ++ a :: b :: ys) = reference rank merge (xs ++ merge a b :: ys) := by
  rw [reference]
  split
  · rename_i i hi
    rw [(best_spec.1 i hi).eq h, mergeAt_append]
  · rename_i hnone
    rw [best_eq h] at hnone
    cases hnone

theorem reference_done (h : ∀ j, rankAt rank l j < 0) : reference rank merge l = l := by
  rw [reference]
  split
  · rename_i i hi
    exact absurd (best_spec.1 i hi).1 (by have := h i; omega)
  · rfl

theorem rankAt_map (f : Q → P) (l : List Q) (i : ℕ) :
    rankAt rank (l.map f) i = rankAt (fun a b => rank (f a) (f b)) l i := by
  induction l generalizing i with
  | nil => rw [List.map_nil, rankAt_nil, rankAt_nil]
  | cons a l ih =>
    cases l with
    | nil => cases i <;> simp [rankAt]
    | cons b l =>
      cases i with
      | zero => rfl
      | succ i => exact ih i

end PairMerge

end Kappai
