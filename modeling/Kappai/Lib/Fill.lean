import Mathlib.Data.List.Induction
import Mathlib.Data.Nat.Notation
import Mathlib.Logic.Function.Basic
import Mathlib.Tactic.Common
import Mathlib.Tactic.Ring

/-! Buffers filled by jobs in any order, ranges of a buffer, and the order of bit reversal. -/

namespace Kappai

variable {ι α : Type*}

/-- A cell is filled with `a` if some job does that and no other leaves anything else there. -/
theorem foldl_fills {f : (ℕ → α) → ι → ℕ → α} {c : ℕ} {a : α} {jobs : List ι}
    (hkeep : ∀ j ∈ jobs, ∀ out : ℕ → α, f out j c = a ∨ f out j c = out c)
    (hfill : ∃ j ∈ jobs, ∀ out, f out j c = a) (out : ℕ → α) : jobs.foldl f out c = a := by
  induction jobs using List.reverseRecOn with
  | nil => simp at hfill
  | append_singleton jobs j ih =>
    rw [List.foldl_append, List.foldl_cons, List.foldl_nil]
    rcases hkeep j (by simp) (jobs.foldl f out) with h | h
    · exact h
    · obtain ⟨i, hi, hfi⟩ := hfill
      rcases List.mem_append.mp hi with hi | hi
      · rw [h]
        exact ih (fun i hi => hkeep i (List.mem_append_left _ hi)) ⟨i, hi, hfi⟩
      · rw [List.mem_singleton] at hi
        exact hi ▸ hfi _

theorem foldl_keeps {f : (ℕ → α) → ι → ℕ → α} {c : ℕ} {a : α} {jobs : List ι}
    (hkeep : ∀ j ∈ jobs, ∀ out : ℕ → α, f out j c = a ∨ f out j c = out c) (out : ℕ → α) :
    jobs.foldl f out c = a ∨ jobs.foldl f out c = out c := by
  induction jobs using List.reverseRecOn with
  | nil => exact Or.inr rfl
  | append_singleton jobs j ih =>
    rw [List.foldl_append, List.foldl_cons, List.foldl_nil]
    rcases hkeep j (by simp) (jobs.foldl f out) with h | h
    · exact Or.inl h
    · rw [h]
      exact ih fun i hi => hkeep i (List.mem_append_left _ hi)

/-- A loop none of whose turns touches a cell. -/
theorem foldl_range_keeps {f : (ℕ → α) → ℕ → ℕ → α} {n c : ℕ} (h : ∀ i < n, ∀ out, f out i c = out c)
    (out : ℕ → α) : (List.range n).foldl f out c = out c := by
  induction n with
  | zero => rfl
  | succ n ih =>
    rw [List.range_succ, List.foldl_append, List.foldl_cons, List.foldl_nil, h n n.lt_succ_self,
      ih fun i hi => h i (Nat.lt_succ_of_lt hi)]

/-- A loop one of whose turns fills a cell, while the others do not touch it. -/
theorem foldl_range_fills {f : (ℕ → α) → ℕ → ℕ → α} {n j c : ℕ} {a : α} (hj : j < n)
    (hfill : ∀ out, f out j c = a) (hkeep : ∀ i < n, i ≠ j → ∀ out, f out i c = out c) (out : ℕ → α) :
    (List.range n).foldl f out c = a := by
  refine foldl_fills (fun i hi out => ?_) ⟨j, List.mem_range.2 hj, hfill⟩ out
  by_cases hij : i = j
  · exact Or.inl (hij ▸ hfill out)
  · exact Or.inr (hkeep i (List.mem_range.1 hi) hij out)

/-- What is put into the cells from `lo` to `hi` does not depend on what was in the buffer, and the other
cells stay as they are. -/
structure FillsRange (f : (ℕ → α) → ℕ → α) (lo hi : ℕ) : Prop where
  same : ∀ c, lo ≤ c → c < hi → ∀ out out', f out c = f out' c
  keeps : ∀ c, c < lo ∨ hi ≤ c → ∀ out, f out c = out c

theorem FillsRange.update (c : ℕ) (v : α) : FillsRange (fun out => Function.update out c v) c (c + 1) where
  same c' hlo hhi out out' := by
    obtain rfl : c' = c := by omega
    rw [Function.update_self, Function.update_self]
  keeps c' hc out := Function.update_of_ne (by omega) _ _

/-- Turn `i` of a loop fills the `i`-th stretch. -/
theorem FillsRange.loop {f : (ℕ → α) → ℕ → ℕ → α} {n lo w : ℕ}
    (h : ∀ i < n, FillsRange (fun out => f out i) (lo + i * w) (lo + i * w + w)) :
    FillsRange (fun out => (List.range n).foldl f out) lo (lo + n * w) := by
  induction n with
  | zero => exact ⟨fun c hlo hhi => absurd hhi (by omega), fun c _ out => rfl⟩
  | succ n ih =>
    have ih := ih fun i hi => h i (Nat.lt_succ_of_lt hi)
    have hn := h n n.lt_succ_self
    simp only [List.range_succ, List.foldl_append, List.foldl_cons, List.foldl_nil, Nat.succ_mul]
    refine ⟨fun c hlo hhi out out' => ?_, fun c hc out => ?_⟩
    · by_cases hc : c < lo + n * w
      · rw [hn.keeps c (Or.inl hc), hn.keeps c (Or.inl hc), ih.same c hlo hc]
      · exact hn.same c (by omega) (by omega) _ _
    · rw [hn.keeps c (by omega), ih.keeps c (by omega)]

/-- A loop that fills two stretches at once. -/
theorem FillsRange.loop_pair {v v' : ℕ → α} {n lo : ℕ} : FillsRange (fun out => (List.range n).foldl
      (fun out j => Function.update (Function.update out (lo + j) (v j)) (lo + j + n) (v' j)) out) lo (lo + 2 * n) where
  same c hlo hhi out out' := by
    by_cases hc : c < lo + n
    · have hfill : ∀ out : ℕ → α, Function.update (Function.update out (lo + (c - lo)) (v (c - lo)))
          (lo + (c - lo) + n) (v' (c - lo)) c = v (c - lo) := fun out => by
        rw [Function.update_of_ne (by omega), show lo + (c - lo) = c by omega, Function.update_self]
      have hrun := foldl_range_fills (f := fun out j => Function.update (Function.update out (lo + j) (v j))
        (lo + j + n) (v' j)) (show c - lo < n by omega) hfill fun i hi hne out => by
          rw [Function.update_of_ne (by omega), Function.update_of_ne (by omega)]
      exact (hrun out).trans (hrun out').symm
    · have hfill : ∀ out : ℕ → α, Function.update (Function.update out (lo + (c - lo - n)) (v (c - lo - n)))
          (lo + (c - lo - n) + n) (v' (c - lo - n)) c = v' (c - lo - n) := fun out => by
        rw [show lo + (c - lo - n) + n = c by omega, Function.update_self]
      have hrun := foldl_range_fills (f := fun out j => Function.update (Function.update out (lo + j) (v j))
        (lo + j + n) (v' j)) (show c - lo - n < n by omega) hfill fun i hi hne out => by
          rw [Function.update_of_ne (by omega), Function.update_of_ne (by omega)]
      exact (hrun out).trans (hrun out').symm
  keeps c hc out := foldl_range_keeps (fun j hj out => by
    rw [Function.update_of_ne (by omega), Function.update_of_ne (by omega)]) out

/-- `y` with the cells from `lo` to `hi` taken from `g`. -/
def putRange (y : ℕ → α) (lo hi : ℕ) (g : ℕ → α) : ℕ → α := fun c => if lo ≤ c ∧ c < hi then g c else y c

theorem putRange_self (y g : ℕ → α) (lo : ℕ) : putRange y lo lo g = y :=
  funext fun _ => if_neg (by omega)

theorem putRange_succ (y g : ℕ → α) {lo hi : ℕ} (h : lo ≤ hi) :
    Function.update (putRange y lo hi g) hi (g hi) = putRange y lo (hi + 1) g := by
  funext c
  by_cases hc : c = hi
  · subst hc
    rw [Function.update_self, putRange, if_pos ⟨h, c.lt_succ_self⟩]
  · rw [Function.update_of_ne hc, putRange, putRange]
    exact if_congr (by omega) rfl rfl

theorem putRange_putRange (y g : ℕ → α) {lo mid hi : ℕ} (h : lo ≤ mid) (h' : mid ≤ hi) :
    putRange (putRange y lo mid g) mid hi g = putRange y lo hi g := by
  funext c
  simp only [putRange]
  split_ifs <;> first | rfl | omega

theorem foldl_putRange (y g : ℕ → α) (lo n : ℕ) :
    (List.range n).foldl (fun y r => Function.update y (lo + r) (g (lo + r))) y = putRange y lo (lo + n) g := by
  induction n with
  | zero => exact (putRange_self y g lo).symm
  | succ n ih =>
    rw [List.range_succ, List.foldl_append, ih, List.foldl_cons, List.foldl_nil,
      putRange_succ y g (Nat.le_add_right lo n)]
    rfl

/-- Two fillings of a range that agree on it. -/
theorem putRange_congr (y : ℕ → α) {lo n : ℕ} {f g : ℕ → α} (h : ∀ c < n, f (lo + c) = g (lo + c)) :
    putRange y lo (lo + n) f = putRange y lo (lo + n) g := by
  funext i
  simp only [putRange]
  split_ifs with hi
  · have := h (i - lo) (by omega)
    rwa [Nat.add_sub_cancel' hi.1] at this
  · rfl

theorem putRange_congr_zero (y : ℕ → α) {n : ℕ} {f g : ℕ → α} (h : ∀ c < n, f c = g c) :
    putRange y 0 n f = putRange y 0 n g := by
  funext i
  simp only [putRange]
  exact ite_congr rfl (fun hi => h i hi.2) fun _ => rfl

/-- A loop over the rows of a buffer fills all of it. -/
theorem foldl_putRange_rows (y : ℕ → α) (w n : ℕ) (f : ℕ → ℕ → α) :
    (List.range n).foldl (fun y row => putRange y (row * w) (row * w + w) (f row)) y =
      putRange y 0 (n * w) fun c => f (c / w) c := by
  induction n with
  | zero => rw [Nat.zero_mul, putRange_self, List.range_zero, List.foldl_nil]
  | succ n ih =>
    rw [List.range_succ, List.foldl_append, List.foldl_cons, List.foldl_nil, ih, Nat.succ_mul]
    refine (putRange_congr _ fun c hc => ?_).trans (putRange_putRange y _ (Nat.zero_le _) (Nat.le_add_right _ _))
    rw [Nat.mul_comm, Nat.mul_add_div (by omega), Nat.div_eq_of_lt hc, Nat.add_zero]

/-- The loop over the bits: the lowest bit of `n` goes to the end of `rev`. -/
def bitReverse : ℕ → ℕ → ℕ → ℕ
  | 0, rev, _ => rev
  | bits + 1, rev, n => bitReverse bits (rev * 2 + n % 2) (n / 2)

theorem bitReverse_add (bits rev n : ℕ) :
    bitReverse bits rev n = rev * 2 ^ bits + bitReverse bits 0 n := by
  induction bits generalizing rev n with
  | zero => simp [bitReverse]
  | succ bits ih =>
    rw [bitReverse, bitReverse, ih, ih (0 * 2 + n % 2)]
    ring

/-- Every number of `bits` bits is a reversed one. -/
theorem bitReverse_surj (bits : ℕ) {m : ℕ} (hm : m < 2 ^ bits) :
    ∃ n < 2 ^ bits, bitReverse bits 0 n = m := by
  induction bits generalizing m with
  | zero => exact ⟨0, by simp, by simp [bitReverse]; omega⟩
  | succ bits ih =>
    rw [Nat.pow_succ] at hm ⊢
    obtain ⟨n, hn, hrev⟩ := ih (Nat.mod_lt m (Nat.two_pow_pos bits))
    have hhigh : m / 2 ^ bits < 2 := Nat.div_lt_of_lt_mul hm
    have hm' : m / 2 ^ bits * 2 ^ bits + m % 2 ^ bits = m := Nat.div_add_mod' m (2 ^ bits)
    generalize m / 2 ^ bits = high at hhigh hm'
    have hmod : (2 * n + high) % 2 = high := by omega
    have hdiv : (2 * n + high) / 2 = n := by omega
    refine ⟨2 * n + high, by omega, ?_⟩
    rw [bitReverse, bitReverse_add, hmod, hdiv, hrev, Nat.zero_mul, Nat.zero_add, hm']

end Kappai
