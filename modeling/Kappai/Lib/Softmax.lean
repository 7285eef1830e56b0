import Mathlib.Algebra.BigOperators.Field
import Mathlib.Algebra.Order.BigOperators.Group.Finset
import Mathlib.Algebra.Order.Field.Basic
import Mathlib.Data.Nat.Notation

/-! The mean of values weighted by an exponential of their scores, and the loop that takes it in one
pass, with the weights relative to the largest score so far. -/

namespace Kappai

open Finset

variable {R : Type*} [Field R]

/-- A positive function that turns sums into products. -/
structure IsExp [LinearOrder R] (e : R → R) : Prop where
  pos : ∀ x, 0 < e x
  add : ∀ x y, e (x + y) = e x * e y

def softmaxMean {ι : Type*} (e : R → R) (s : Finset ι) (x v : ι → R) : R :=
  (∑ i ∈ s, e (x i) * v i) / ∑ i ∈ s, e (x i)

variable [LinearOrder R] {e : R → R} {ι : Type*}

theorem IsExp.sub_mul (h : IsExp e) (x y z : R) : e (x - y) * e (y - z) = e (x - z) := by
  rw [← h.add, sub_add_sub_cancel]

theorem IsExp.zero (h : IsExp e) : e 0 = 1 := by
  have hsq : e 0 * 1 = e 0 * e 0 := by rw [← h.add, add_zero, mul_one]
  exact (mul_left_cancel₀ (h.pos 0).ne' hsq).symm

theorem IsExp.sum_pos [IsStrictOrderedRing R] (h : IsExp e) {s : Finset ι} (hs : s.Nonempty) (x : ι → R) :
    0 < ∑ i ∈ s, e (x i) :=
  Finset.sum_pos (fun i _ => h.pos (x i)) hs

/-- The scores may be taken relative to any of them. -/
theorem softmaxMean_shift (h : IsExp e) (s : Finset ι) (x v : ι → R) (c : R) :
    softmaxMean e s (fun i => x i - c) v = softmaxMean e s x v := by
  have hshift : ∀ i, e (x i - c) = e (x i) * e (-c) := fun i => by
    rw [← h.add, sub_eq_add_neg]
  have hnum : ∑ i ∈ s, e (x i - c) * v i = (∑ i ∈ s, e (x i) * v i) * e (-c) := by
    rw [sum_mul]
    exact sum_congr rfl fun i _ => by rw [hshift, mul_right_comm]
  have hden : ∑ i ∈ s, e (x i - c) = (∑ i ∈ s, e (x i)) * e (-c) := by
    rw [sum_mul]
    exact sum_congr rfl fun i _ => hshift i
  unfold softmaxMean
  rw [hnum, hden, mul_div_mul_right _ _ (h.pos (-c)).ne']

/-- The largest score so far, the sum of the weights relative to it, and the sums of the weighted
values. -/
structure OnlineSum (R : Type*) where
  top : Option R
  weight : R
  sums : ℕ → R

namespace OnlineSum

/-- Nothing has been added. -/
def empty : OnlineSum R := ⟨none, 0, fun _ => 0⟩

/-- After `k` scores, with values of `n` columns. -/
def Sums (e : R → R) (x : ℕ → R) (v : ℕ → ℕ → R) (n k : ℕ) (s : OnlineSum R) : Prop :=
  match s.top with
  | none => k = 0 ∧ s.weight = 0 ∧ ∀ d < n, s.sums d = 0
  | some m => 0 < k ∧ s.weight = ∑ t ∈ range k, e (x t - m) ∧
      ∀ d < n, s.sums d = ∑ t ∈ range k, e (x t - m) * v t d

variable {x : ℕ → R} {v : ℕ → ℕ → R} {n k : ℕ} {s : OnlineSum R} {sums : ℕ → R}

omit [LinearOrder R] in
theorem empty_sums : (empty : OnlineSum R).Sums e x v n 0 := ⟨rfl, rfl, fun _ _ => rfl⟩

omit [LinearOrder R] in
/-- A score that is not larger. -/
theorem Sums.keep {m : R} (h : s.Sums e x v n k) (hm : s.top = some m)
    (hsums : ∀ d < n, sums d = v k d * e (x k - m) + s.sums d) :
    Sums e x v n (k + 1) ⟨some m, s.weight + e (x k - m), sums⟩ := by
  unfold Sums at h ⊢
  rw [hm] at h
  obtain ⟨-, hw, hs⟩ := h
  refine ⟨Nat.succ_pos k, ?_, fun d hd => ?_⟩
  · rw [sum_range_succ, ← hw]
  · rw [sum_range_succ, ← hs d hd, mul_comm _ (v k d)]
    exact (hsums d hd).trans (add_comm _ _)

/-- A new largest score: the sums are scaled down to it. -/
theorem Sums.raise (he : IsExp e) (h : s.Sums e x v n k) (ms : R)
    (hms : ∀ m, s.top = some m → ms = e (m - x k))
    (hsums : ∀ d < n, sums d = v k d + s.sums d * ms) :
    Sums e x v n (k + 1) ⟨some (x k), s.weight * ms + 1, sums⟩ := by
  have hself : e (x k - x k) = 1 := by rw [sub_self, he.zero]
  cases htop : s.top with
  | none =>
    unfold Sums at h ⊢
    rw [htop] at h
    obtain ⟨rfl, hw, hs⟩ := h
    refine ⟨Nat.one_pos, ?_, fun d hd => ?_⟩
    · rw [hw, zero_mul, zero_add, sum_range_one, hself]
    · rw [sum_range_one, hself, one_mul]
      exact (hsums d hd).trans (by rw [hs d hd, zero_mul, add_zero])
  | some m =>
    have hscale : ∀ t, e (x t - m) * ms = e (x t - x k) := fun t => by
      rw [hms m htop, he.sub_mul]
    unfold Sums at h ⊢
    rw [htop] at h
    obtain ⟨-, hw, hs⟩ := h
    refine ⟨Nat.succ_pos k, ?_, fun d hd => ?_⟩
    · rw [sum_range_succ, hself, hw, sum_mul]
      exact congrArg (· + 1) (sum_congr rfl fun t _ => hscale t)
    · rw [sum_range_succ, hself, one_mul]
      refine ((hsums d hd).trans (add_comm _ _)).trans (congrArg (· + v k d) ?_)
      rw [hs d hd, sum_mul]
      exact sum_congr rfl fun t _ => by rw [mul_right_comm, hscale]

/-- The sums divided by the weight are the mean. -/
theorem Sums.mean [IsStrictOrderedRing R] (he : IsExp e) (h : s.Sums e x v n k) (hk : 0 < k)
    {d : ℕ} (hd : d < n) :
    s.weight ≠ 0 ∧ s.sums d / s.weight = softmaxMean e (range k) x (v · d) := by
  unfold Sums at h
  cases htop : s.top with
  | none =>
    rw [htop] at h
    exact absurd h.1 hk.ne'
  | some m =>
    rw [htop] at h
    obtain ⟨-, hw, hs⟩ := h
    have hpos : 0 < s.weight := by
      rw [hw]
      exact he.sum_pos (nonempty_range_iff.mpr hk.ne') _
    refine ⟨hpos.ne', ?_⟩
    rw [← softmaxMean_shift he _ _ _ m, hw, hs d hd]
    rfl

end OnlineSum

end Kappai
