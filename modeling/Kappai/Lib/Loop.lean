import Mathlib.Data.Nat.Notation
import Mathlib.Tactic.Common
import Mathlib.Data.List.Basic
import Mathlib.Algebra.Order.BigOperators.Group.Finset
import Mathlib.Algebra.Order.Ring.Abs
import Mathlib.Logic.Function.Basic
import Mathlib.Tactic.Ring
import Mathlib.Tactic.Linarith

/-! A loop whose body goes on with a new state or returns. A loop with a variant returns,
and what the body preserves holds at every loop head. -/

namespace Kappai

/-- An invariant of a fold that names what is still to be done. -/
theorem foldl_todo {σ α : Type*} {P : List α → σ → Prop} {step : σ → α → σ}
    (hstep : ∀ a todo s, P (a :: todo) s → P todo (step s a)) (todo : List α) {s : σ}
    (h : P todo s) : P [] (todo.foldl step s) := by
  induction todo generalizing s with
  | nil => exact h
  | cons a todo ih => exact ih (hstep a todo s h)

inductive LoopStep (σ ρ : Type*)
  | next (s : σ)
  | done (r : ρ)

namespace Loop

variable {σ ρ : Type*} (body : σ → LoopStep σ ρ)

/-- The states in which an iteration starts. -/
inductive Head (s₀ : σ) : σ → Prop
  | start : Head s₀ s₀
  | next {s s' : σ} : Head s₀ s → body s = .next s' → Head s₀ s'

/-- At most `fuel` iterations; `none` if the loop has not returned by then. -/
def run : ℕ → σ → Option ρ
  | 0, _ => none
  | fuel + 1, s =>
    match body s with
    | .next s' => run fuel s'
    | .done r => some r

variable {body}

theorem Head.inv {I : σ → Prop} {s₀ s : σ} (h₀ : I s₀)
    (hstep : ∀ s s', I s → body s = .next s' → I s') (h : Head body s₀ s) : I s := by
  induction h with
  | start => exact h₀
  | next _ hbody ih => exact hstep _ _ ih hbody

theorem Head.trans {s₀ s₁ s : σ} (h₁ : Head body s₀ s₁) (h : Head body s₁ s) :
    Head body s₀ s := by
  induction h with
  | start => exact h₁
  | next _ hbody ih => exact ih.next hbody

/-- A loop that returns does so from a loop head. -/
theorem exists_head_of_run {fuel : ℕ} {s : σ} {r : ρ} (h : run body fuel s = some r) :
    ∃ s', Head body s s' ∧ body s' = .done r := by
  induction fuel generalizing s with
  | zero => cases h
  | succ fuel ih =>
    simp only [run] at h
    cases hb : body s with
    | done r' =>
      rw [hb] at h
      cases h
      exact ⟨s, .start, hb⟩
    | next s' =>
      rw [hb] at h
      obtain ⟨s'', hhead, hdone⟩ := ih h
      exact ⟨s'', (Head.start.next hb).trans hhead, hdone⟩

/-- A variant that drops with every iteration bounds the loop. -/
theorem run_of_variant {I : σ → Prop} (μ : σ → ℕ)
    (hstep : ∀ s s', I s → body s = .next s' → I s' ∧ μ s' < μ s) (fuel : ℕ) {s : σ}
    (h : I s) (hfuel : μ s < fuel) : ∃ r, run body fuel s = some r := by
  induction fuel generalizing s with
  | zero => exact absurd hfuel (Nat.not_lt_zero _)
  | succ fuel ih =>
    simp only [run]
    cases hb : body s with
    | done r => exact ⟨r, rfl⟩
    | next s' =>
      obtain ⟨h', hlt⟩ := hstep s s' h hb
      exact ih h' (by omega)

end Loop

/-! Folds whose steps only add: what every step keeps, and what one step of an element brings about. -/

section Folds

variable {σ α : Type*} {f : σ → α → σ}

/-- A preorder that every step climbs is climbed by the fold. -/
theorem foldl_climbs {R : σ → σ → Prop} (hrefl : ∀ s, R s s)
    (htrans : ∀ {a b c}, R a b → R b c → R a c) (hstep : ∀ s a, R s (f s a)) (l : List α) (s : σ) :
    R s (l.foldl f s) := by
  induction l generalizing s with
  | nil => exact hrefl s
  | cons a l ih => exact htrans (hstep s a) (ih _)

/-- What every step keeps and the step of a member brings about holds after the fold. -/
theorem foldl_reaches {P : σ → Prop} (hkeep : ∀ s a, P s → P (f s a)) {a : α}
    (hmake : ∀ s, P (f s a)) {l : List α} (ha : a ∈ l) (s : σ) : P (l.foldl f s) := by
  obtain ⟨l₁, l₂, rfl⟩ := List.append_of_mem ha
  rw [List.foldl_append, List.foldl_cons]
  exact List.foldlRecOn l₂ f (hmake _) fun s hs a _ => hkeep s a hs

end Folds

/-! Runs of a machine over a list of operations, and runs whose steps all meet a condition. -/

section Runs

variable {σ α : Type*} (step : σ → α → σ) (ok : σ → α → Prop)

/-- Every operation is started in a state that admits it. -/
def SafeRun : σ → List α → Prop
  | _, [] => True
  | s, a :: as => ok s a ∧ SafeRun (step s a) as

instance SafeRun.decidable [∀ s a, Decidable (ok s a)] (s : σ) (as : List α) :
    Decidable (SafeRun step ok s as) :=
  match as with
  | [] => isTrue trivial
  | a :: as =>
    have := SafeRun.decidable (step s a) as
    inferInstanceAs (Decidable (_ ∧ _))

variable {step ok}

theorem safeRun_append {s : σ} {as bs : List α} :
    SafeRun step ok s (as ++ bs) ↔ SafeRun step ok s as ∧ SafeRun step ok (as.foldl step s) bs := by
  induction as generalizing s with
  | nil => simp [SafeRun]
  | cons a as ih => simp only [List.cons_append, SafeRun, ih, List.foldl_cons, and_assoc]

/-- What every admitted step preserves holds at the end of a safe run, and so in every
state it goes through. -/
theorem SafeRun.inv {I : σ → Prop} (hstep : ∀ s a, I s → ok s a → I (step s a)) {s : σ}
    (h : I s) {as : List α} (hrun : SafeRun step ok s as) : I (as.foldl step s) := by
  induction as generalizing s with
  | nil => exact h
  | cons a as ih => exact ih (hstep s a h hrun.1) hrun.2

/-- A loop over the numbers below `n` that may give up: what each turn keeps holds at its end. -/
theorem foldlM_range_inv {f : σ → ℕ → Option σ} {I : ℕ → σ → Prop} {n : ℕ}
    (hstep : ∀ k < n, ∀ s s', I k s → f s k = some s' → I (k + 1) s') {s s' : σ} (h : I 0 s)
    (hrun : (List.range n).foldlM f s = some s') : I n s' := by
  induction n generalizing s' with
  | zero =>
    obtain rfl := Option.some.inj hrun
    exact h
  | succ n ih =>
    rw [List.range_succ, List.foldlM_append] at hrun
    obtain ⟨t, ht, hlast⟩ := Option.bind_eq_some_iff.mp hrun
    rw [List.foldlM_cons] at hlast
    obtain ⟨u, hu, hnil⟩ := Option.bind_eq_some_iff.mp hlast
    obtain rfl := Option.some.inj hnil
    exact hstep n n.lt_succ_self t u (ih (fun k hk => hstep k (Nat.lt_succ_of_lt hk)) ht) hu

end Runs

end Kappai

/-! Counted loops whose integers are checked: a value outside of 32 bits ends the program. A loop that
sums products of bounded factors ends in the exact sum if there are few enough of them. -/

namespace Kappai.Checked

open Finset

/-- A value of a signed 32-bit integer. -/
def int32 (x : ℤ) : Option ℤ := if -2147483648 ≤ x ∧ x ≤ 2147483647 then some x else none

/-- `acc += a * b` -/
def mac (acc a b : ℤ) : Option ℤ := do
  let p ← int32 (a * b)
  int32 (acc + p)

variable {σ : Type*}

/-- The loop over `0, …, n - 1`. -/
def forUp : ℕ → (ℕ → σ → Option σ) → σ → Option σ
  | 0, _, s => some s
  | n + 1, body, s => (forUp n body s).bind (body n)

/-- The loop over `lo, …, hi - 1`. -/
def forFrom (lo hi : ℕ) (body : ℕ → σ → Option σ) (s : σ) : Option σ :=
  forUp (hi - lo) (fun i => body (lo + i)) s

theorem int32_eq {x : ℤ} (h : |x| < 2147483648) : int32 x = some x := by
  obtain ⟨hlo, hhi⟩ := abs_lt.1 h
  exact if_pos ⟨hlo.le, by omega⟩

theorem mac_eq {acc a b : ℤ} (h : |acc| + |a * b| < 2147483648) : mac acc a b = some (acc + a * b) := by
  have hp : |a * b| < 2147483648 := lt_of_le_of_lt (le_add_of_nonneg_left (abs_nonneg acc)) h
  rw [mac, int32_eq hp, Option.bind_eq_bind, Option.bind_some,
    int32_eq (lt_of_le_of_lt (abs_add_le acc (a * b)) h)]

/-- A loop that has the state `S i` before its turn `i`. -/
theorem forUp_eq {n : ℕ} {f : ℕ → σ → Option σ} (S : ℕ → σ)
    (h : ∀ i < n, f i (S i) = some (S (i + 1))) : forUp n f (S 0) = some (S n) := by
  induction n with
  | zero => rfl
  | succ n ih => rw [forUp, ih fun i hi => h i (Nat.lt_succ_of_lt hi), Option.bind_some, h n n.lt_succ_self]

/-- A loop that keeps `P`. -/
theorem forUp_inv {n : ℕ} {f : ℕ → σ → Option σ} (P : ℕ → σ → Prop) {s : σ} (hs : P 0 s)
    (h : ∀ i < n, ∀ s, P i s → ∃ s', f i s = some s' ∧ P (i + 1) s') : ∃ s', forUp n f s = some s' ∧ P n s' := by
  induction n with
  | zero => exact ⟨s, rfl, hs⟩
  | succ n ih =>
    obtain ⟨s₁, hs₁, hP⟩ := ih fun i hi => h i (Nat.lt_succ_of_lt hi)
    obtain ⟨s₂, hs₂, hP⟩ := h n n.lt_succ_self s₁ hP
    exact ⟨s₂, by rw [forUp, hs₁, Option.bind_some, hs₂], hP⟩

theorem forUp_congr {n : ℕ} {f g : ℕ → σ → Option σ} (h : ∀ i < n, f i = g i) (s : σ) :
    forUp n f s = forUp n g s := by
  induction n with
  | zero => rfl
  | succ n ih => rw [forUp, forUp, ih fun i hi => h i (Nat.lt_succ_of_lt hi), h n n.lt_succ_self]

/-- A loop in two parts. -/
theorem forUp_add (m n : ℕ) (f : ℕ → σ → Option σ) (s : σ) :
    forUp (m + n) f s = (forUp m f s).bind (forUp n fun i => f (m + i)) := by
  induction n with
  | zero => simp [forUp]
  | succ n ih => rw [← Nat.add_assoc, forUp, ih, Option.bind_assoc]; rfl

/-! ### Sums -/

theorem sum_abs_le {n : ℕ} {f : ℕ → ℤ} {B : ℤ} (h : ∀ i < n, |f i| ≤ B) :
    |∑ i ∈ range n, f i| ≤ n * B := by
  refine (abs_sum_le_sum_abs f (range n)).trans ?_
  simpa using sum_le_card_nsmul (range n) (fun i => |f i|) B fun i hi => h i (mem_range.1 hi)

theorem prefix_abs_le {n i : ℕ} {f : ℕ → ℤ} {B : ℤ} (h : ∀ i < n, |f i| ≤ B) (hi : i < n) :
    |∑ j ∈ range i, f j| + |f i| ≤ n * B := by
  have hB : 0 ≤ B := (abs_nonneg _).trans (h i hi)
  have hsum := sum_abs_le (n := i) fun j hj => h j (hj.trans hi)
  have hle : ((i : ℤ) + 1) * B ≤ n * B := mul_le_mul_of_nonneg_right (by exact_mod_cast hi) hB
  linarith [h i hi]

theorem forUp_mac {n : ℕ} {a b : ℕ → ℤ} {B : ℤ} (h : ∀ j < n, |a j * b j| ≤ B)
    (hn : n * B < 2147483648) :
    forUp n (fun j s => mac s (a j) (b j)) 0 = some (∑ j ∈ range n, a j * b j) := by
  refine forUp_eq (fun i => ∑ j ∈ range i, a j * b j) fun i hi => ?_
  rw [mac_eq (lt_of_le_of_lt (prefix_abs_le h hi) hn), sum_range_succ]

/-- Two sums in one loop. -/
theorem forUp_mac_pair {n : ℕ} {a b c d : ℕ → ℤ} {B : ℤ} (h : ∀ j < n, |a j * b j| ≤ B)
    (h' : ∀ j < n, |c j * d j| ≤ B) (hn : n * B < 2147483648) :
    forUp n (fun j s => do
      let s₀ ← mac s.1 (a j) (b j)
      let s₁ ← mac s.2 (c j) (d j)
      some (s₀, s₁)) ((0, 0) : ℤ × ℤ) =
      some (∑ j ∈ range n, a j * b j, ∑ j ∈ range n, c j * d j) := by
  refine forUp_eq (fun i => (∑ j ∈ range i, a j * b j, ∑ j ∈ range i, c j * d j)) fun i hi => ?_
  simp only [mac_eq (lt_of_le_of_lt (prefix_abs_le h hi) hn),
    mac_eq (lt_of_le_of_lt (prefix_abs_le h' hi) hn), Option.bind_eq_bind, Option.bind_some, sum_range_succ]

theorem sum_range_mul {M : Type*} [AddCommMonoid M] (n m : ℕ) (f : ℕ → M) :
    ∑ e ∈ range (n * m), f e = ∑ i ∈ range n, ∑ j ∈ range m, f (i * m + j) := by
  induction n with
  | zero => simp
  | succ n ih => rw [Nat.succ_mul, sum_range_add, ih, sum_range_succ]

end Kappai.Checked
