import Mathlib.Data.List.Perm.Basic
import Mathlib.Data.List.Nodup
import Mathlib.Data.Nat.Notation
import Mathlib.Tactic.Common
import Kappai.Lib.RowMoves
import Mathlib.Data.List.Basic
import Mathlib.Logic.Function.Basic
import Mathlib.Tactic.Ring

/-! Lanes: programs over a family of buffers, each of which keeps to cells of its own. They may run in
any order, and a sweep over the lanes for each step of a loop does what the whole loop does in each
lane. -/

namespace Kappai

namespace Lanes

variable {B α ι τ : Type*}

/-- The lanes in `lanes` have no cell in common. -/
def Apart (lanes : List ι) (own : ι → B → ℕ → Prop) : Prop :=
  ∀ i ∈ lanes, ∀ j ∈ lanes, ∀ b a, own i b a → own j b a → i = j

/-- A program writes cells of its lane, `writes`, and what it writes depends on cells of its lane,
`reads`. -/
structure Local (lanes : List ι) (own reads writes : ι → B → ℕ → Prop)
    (F : ι → (B → ℕ → α) → B → ℕ → α) : Prop where
  reads_own : ∀ i ∈ lanes, ∀ b a, reads i b a → own i b a
  writes_own : ∀ i ∈ lanes, ∀ b a, writes i b a → own i b a
  outside : ∀ i ∈ lanes, ∀ m b a, ¬ writes i b a → F i m b a = m b a
  inside : ∀ i ∈ lanes, ∀ m m', (∀ b a, reads i b a → m b a = m' b a) →
    ∀ b a, writes i b a → F i m b a = F i m' b a

/-- The programs of some lanes, one after the other. -/
def sweep (F : ι → (B → ℕ → α) → B → ℕ → α) (order : List ι) (m : B → ℕ → α) : B → ℕ → α :=
  order.foldl (fun m i => F i m) m

variable {lanes order order' : List ι} {own reads writes writes' : ι → B → ℕ → Prop}
  {F G : ι → (B → ℕ → α) → B → ℕ → α} {m m' : B → ℕ → α}

theorem Local.comp (hF : Local lanes own reads writes F) (hG : Local lanes own reads writes' G) :
    Local lanes own reads (fun i b a => writes i b a ∨ writes' i b a) fun i m => G i (F i m) where
  reads_own := hF.reads_own
  writes_own i hi b a h := h.elim (hF.writes_own i hi b a) (hG.writes_own i hi b a)
  outside i hi m b a h := by
    rw [not_or] at h
    rw [hG.outside i hi _ b a h.2, hF.outside i hi m b a h.1]
  inside i hi m m' h b a hw := by
    have hread : ∀ b a, reads i b a → F i m b a = F i m' b a := by
      intro b a hr
      by_cases hw : writes i b a
      · exact hF.inside i hi m m' h b a hw
      · rw [hF.outside i hi m b a hw, hF.outside i hi m' b a hw, h b a hr]
    by_cases hw' : writes' i b a
    · exact hG.inside i hi _ _ hread b a hw'
    · rw [hG.outside i hi _ b a hw', hG.outside i hi _ b a hw']
      exact hF.inside i hi m m' h b a (hw.resolve_right hw')

theorem Local.id (hr : ∀ i ∈ lanes, ∀ b a, reads i b a → own i b a) :
    Local lanes own reads (fun _ _ _ => False) fun _ (m : B → ℕ → α) => m :=
  ⟨hr, fun _ _ _ _ h => h.elim, fun _ _ _ _ _ _ => rfl, fun _ _ _ _ _ _ _ h => h.elim⟩

theorem Local.congr (hF : Local lanes own reads writes F)
    (h : ∀ i b a, writes i b a ↔ writes' i b a) : Local lanes own reads writes' F := by
  have heq : writes = writes' := by
    funext i b a
    exact propext (h i b a)
  exact heq ▸ hF

/-- A loop in each lane. -/
theorem Local.foldl {step : τ → ι → (B → ℕ → α) → B → ℕ → α} {wrote : τ → ι → B → ℕ → Prop}
    (hr : ∀ i ∈ lanes, ∀ b a, reads i b a → own i b a) (ts : List τ)
    (h : ∀ t ∈ ts, Local lanes own reads (wrote t) (step t)) :
    Local lanes own reads (fun i b a => ∃ t ∈ ts, wrote t i b a)
      fun i m => ts.foldl (fun m t => step t i m) m := by
  induction ts with
  | nil => exact (Local.id hr).congr fun i b a => by simp
  | cons t ts ih =>
    have hrest := ih fun t' ht' => h t' (by simp [ht'])
    exact ((h t (by simp)).comp hrest).congr fun i b a => by simp

theorem sweep_outside (hF : Local lanes own reads writes F) (hsub : ∀ i ∈ order, i ∈ lanes)
    {b : B} {a : ℕ} (h : ∀ i ∈ order, ¬ writes i b a) : sweep F order m b a = m b a := by
  induction order generalizing m with
  | nil => rfl
  | cons i order ih =>
    rw [sweep, List.foldl_cons, ← sweep, ih (fun j hj => hsub j (by simp [hj]))
      fun j hj => h j (by simp [hj])]
    exact hF.outside i (hsub i (by simp)) m b a (h i (by simp))

/-- Each lane comes out as if its program had run alone. -/
theorem sweep_inside (hapart : Apart lanes own) (hF : Local lanes own reads writes F)
    (hnodup : order.Nodup) (hsub : ∀ i ∈ order, i ∈ lanes) {i : ι} (hi : i ∈ order) {b : B} {a : ℕ}
    (hw : own i b a) : sweep F order m b a = F i m b a := by
  induction order generalizing m with
  | nil => cases hi
  | cons j order ih =>
    rw [List.nodup_cons] at hnodup
    have hsub' : ∀ k ∈ order, k ∈ lanes := fun k hk => hsub k (by simp [hk])
    have hj : j ∈ lanes := hsub j (by simp)
    rw [sweep, List.foldl_cons, ← sweep]
    rcases List.mem_cons.1 hi with rfl | htail
    · refine sweep_outside hF hsub' fun k hk hwk => hnodup.1 ?_
      rwa [hapart i hj k (hsub' k hk) b a hw (hF.writes_own k (hsub' k hk) b a hwk)]
    · have hne : ∀ b a, own i b a → ¬ writes j b a := by
        rintro b a hown hwj
        obtain rfl := hapart i (hsub' i htail) j hj b a hown (hF.writes_own j hj b a hwj)
        exact hnodup.1 htail
      rw [ih hnodup.2 hsub' htail]
      by_cases hwi : writes i b a
      · exact hF.inside i (hsub' i htail) _ _ (fun b a hr =>
          hF.outside j hj m b a (hne b a (hF.reads_own i (hsub' i htail) b a hr))) b a hwi
      · rw [hF.outside i (hsub' i htail) _ b a hwi, hF.outside i (hsub' i htail) _ b a hwi]
        exact hF.outside j hj m b a (hne b a hw)

theorem sweep_other (hF : Local lanes own reads writes F) (hsub : ∀ i ∈ order, i ∈ lanes)
    {b : B} {a : ℕ} (h : ∀ i ∈ order, ¬ own i b a) : sweep F order m b a = m b a :=
  sweep_outside hF hsub fun i hi hw => h i hi (hF.writes_own i (hsub i hi) b a hw)

/-- What is written depends on what is read. -/
theorem sweep_congr (hapart : Apart lanes own) (hF : Local lanes own reads writes F)
    (hnodup : order.Nodup) (hsub : ∀ i ∈ order, i ∈ lanes)
    (h : ∀ i ∈ order, ∀ b a, reads i b a → m b a = m' b a) {b : B} {a : ℕ}
    (hcell : m b a = m' b a ∨ ∃ i ∈ order, writes i b a) :
    sweep F order m b a = sweep F order m' b a := by
  by_cases hw : ∃ i ∈ order, writes i b a
  · obtain ⟨i, hi, hw⟩ := hw
    have hown := hF.writes_own i (hsub i hi) b a hw
    rw [sweep_inside hapart hF hnodup hsub hi hown, sweep_inside hapart hF hnodup hsub hi hown]
    exact hF.inside i (hsub i hi) m m' (h i hi) b a hw
  · have heq := hcell.resolve_right hw
    push Not at hw
    rw [sweep_outside hF hsub hw, sweep_outside hF hsub hw, heq]

variable (hapart : Apart lanes own)

include hapart

/-- The order of the lanes is of no account. -/
theorem sweep_perm (hF : Local lanes own reads writes F) (hnodup : lanes.Nodup)
    (h : order.Perm lanes) : sweep F order m = sweep F lanes m := by
  funext b a
  by_cases hown : ∃ i ∈ lanes, own i b a
  · obtain ⟨i, hi, hown⟩ := hown
    rw [sweep_inside hapart hF (h.nodup_iff.2 hnodup) (fun j hj => h.subset hj) (h.symm.subset hi) hown,
      sweep_inside hapart hF hnodup (fun j hj => hj) hi hown]
  · push Not at hown
    rw [sweep_other hF (fun j hj => h.subset hj) fun i hi => hown i (h.subset hi),
      sweep_other hF (fun j hj => hj) hown]

theorem sweep_comp (hF : Local lanes own reads writes F) (hG : Local lanes own reads writes' G)
    (hnodup : lanes.Nodup) :
    sweep G lanes (sweep F lanes m) = sweep (fun i m => G i (F i m)) lanes m := by
  funext b a
  by_cases hown : ∃ i ∈ lanes, own i b a
  · obtain ⟨i, hi, hown⟩ := hown
    rw [sweep_inside hapart hG hnodup (fun j hj => hj) hi hown,
      sweep_inside hapart (hF.comp hG) hnodup (fun j hj => hj) hi hown]
    have hread : ∀ b a, own i b a → sweep F lanes m b a = F i m b a := fun b a ho =>
      sweep_inside hapart hF hnodup (fun j hj => hj) hi ho
    by_cases hw : writes' i b a
    · exact hG.inside i hi _ _ (fun b a hr => hread b a (hF.reads_own i hi b a hr)) b a hw
    · rw [hG.outside i hi _ b a hw, hG.outside i hi _ b a hw, hread b a hown]
  · push Not at hown
    rw [sweep_other hG (fun j hj => hj) hown, sweep_other hF (fun j hj => hj) hown,
      sweep_other (hF.comp hG) (fun j hj => hj) hown]

/-- A sweep over the lanes for each step does what the whole loop does in each lane. -/
theorem foldl_sweep {step : τ → ι → (B → ℕ → α) → B → ℕ → α} {wrote : τ → ι → B → ℕ → Prop}
    (hr : ∀ i ∈ lanes, ∀ b a, reads i b a → own i b a) (hnodup : lanes.Nodup) (ts : List τ)
    (h : ∀ t ∈ ts, Local lanes own reads (wrote t) (step t)) :
    ts.foldl (fun m t => sweep (step t) lanes m) m =
      sweep (fun i m => ts.foldl (fun m t => step t i m) m) lanes m := by
  induction ts generalizing m with
  | nil =>
    funext b a
    exact (sweep_outside (Local.id hr) (fun j hj => hj) fun i _ h => h).symm
  | cons t ts ih =>
    have hrest : ∀ t' ∈ ts, Local lanes own reads (wrote t') (step t') :=
      fun t' ht' => h t' (by simp [ht'])
    rw [List.foldl_cons, ih hrest,
      sweep_comp hapart (h t (by simp)) (Local.foldl hr ts hrest) hnodup]
    rfl

/-- What the sweeps write depends on what the lanes read at first. -/
theorem foldl_sweep_congr {step : τ → ι → (B → ℕ → α) → B → ℕ → α} {wrote : τ → ι → B → ℕ → Prop}
    (hnodup : lanes.Nodup) (ts : List τ)
    (hstep : ∀ t ∈ ts, Local lanes own reads (wrote t) (step t))
    (h : ∀ i ∈ lanes, ∀ b a, reads i b a → m b a = m' b a) {b : B} {a : ℕ}
    (hcell : m b a = m' b a ∨ ∃ t ∈ ts, ∃ i ∈ lanes, wrote t i b a) :
    ts.foldl (fun m t => sweep (step t) lanes m) m b a =
      ts.foldl (fun m t => sweep (step t) lanes m) m' b a := by
  induction ts generalizing m m' with
  | nil => simpa using hcell
  | cons t ts ih =>
    have ht : ∀ {b : B} {a : ℕ}, (m b a = m' b a ∨ ∃ i ∈ lanes, wrote t i b a) →
        sweep (step t) lanes m b a = sweep (step t) lanes m' b a :=
      fun hcell => sweep_congr hapart (hstep t (by simp)) hnodup (fun i hi => hi) h hcell
    refine ih (fun t' ht' => hstep t' (by simp [ht'])) (fun i hi b a hr => ht (.inl (h i hi b a hr))) ?_
    rcases hcell with heq | ⟨t', ht', hw⟩
    · exact .inl (ht (.inl heq))
    · rcases List.mem_cons.1 ht' with rfl | htail
      · exact .inl (ht (.inr hw))
      · exact .inr ⟨t', htail, hw⟩

end Lanes

/-! A window of the last values of a stream, kept in the cells of a memory. -/

namespace Window

open Strided

variable {α : Type*}

/-- The `n` cells from `off` on move down by one, and a new value comes last. -/
def push (mem : ℕ → α) (off n : ℕ) (x : α) : ℕ → α := fun a =>
  if off ≤ a ∧ a < off + n then (if a + 1 < off + n then mem (a + 1) else x) else mem a

variable {mem mem' : ℕ → α} {off n a : ℕ} {x : α}

theorem update_moveDown (hn : 0 < n) :
    Function.update (moveDown mem off 1 (n - 1)) (off + (n - 1)) x = push mem off n x := by
  funext a
  rw [Function.update_apply, moveDown, push]
  split_ifs <;> first | rfl | omega

theorem push_zero : push mem off 0 x = mem := by
  funext a
  exact if_neg (by omega)

theorem push_one : push mem off 1 x = Function.update mem off x := by
  funext a
  rw [Function.update_apply, push]
  split_ifs <;> first | rfl | omega

theorem push_outside (h : ¬ (off ≤ a ∧ a < off + n)) : push mem off n x a = mem a := if_neg h

/-- What a window becomes depends on the window only. -/
theorem push_congr (h : ∀ a, off ≤ a → a < off + n → mem a = mem' a) (hlo : off ≤ a)
    (hhi : a < off + n) : push mem off n x a = push mem' off n x a := by
  simp only [push, hlo, hhi, and_self, if_true]
  split_ifs with hlast
  · exact h (a + 1) (by omega) hlast
  · rfl

variable {K : Type*} [Add K] [Mul K]

/-- The sum over the taps, from `sum` on. -/
def taps (mem : ℕ → K) (off n : ℕ) (w : ℕ → K) (sum : K) : K :=
  (List.range n).foldl (fun sum k => sum + mem (off + k) * w k) sum

theorem taps_congr {mem mem' : ℕ → K} {off n : ℕ} (h : ∀ a, off ≤ a → a < off + n → mem a = mem' a)
    (w : ℕ → K) (sum : K) : taps mem off n w sum = taps mem' off n w sum := by
  refine List.foldl_ext _ _ _ fun s k hk => ?_
  have hk : k < n := List.mem_range.1 hk
  rw [h (off + k) (by omega) (by omega)]

end Window

end Kappai

/-! Loops over the columns and the rows of a family of buffers. A loop that writes the column it
reads does not see what it has written, whichever buffers are the same; a loop over rows does what
its body does to every row on its own. -/

namespace Kappai

variable {B α : Type*}

/-- The rows are stored one after the other. -/
def eachRow (n rows : ℕ) (F : ℕ → (B → ℕ → α) → B → ℕ → α) (m : B → ℕ → α) : B → ℕ → α :=
  (List.range rows).foldl (fun m r => F (r * n) m) m

/-- The body of a loop over rows reads and writes the row it is at. -/
structure RowLocal (n : ℕ) (F : ℕ → (B → ℕ → α) → B → ℕ → α) : Prop where
  outside : ∀ base m b a, a < base ∨ base + n ≤ a → F base m b a = m b a
  inside : ∀ base (m m' : B → ℕ → α), (∀ b, ∀ i < n, m b (base + i) = m' b (base + i)) →
    ∀ b, ∀ i < n, F base m b (base + i) = F base m' b (base + i)

variable {n rows : ℕ} {F G : ℕ → (B → ℕ → α) → B → ℕ → α} {m m' : B → ℕ → α}

theorem RowLocal.comp (hF : RowLocal n F) (hG : RowLocal n G) :
    RowLocal n fun base m => G base (F base m) where
  outside base m b a ha := by rw [hG.outside _ _ _ _ ha, hF.outside _ _ _ _ ha]
  inside base m m' h b i hi := hG.inside _ _ _ (hF.inside _ _ _ h) b i hi

theorem row_disjoint {r k i : ℕ} (hi : i < n) (hr : r ≠ k) :
    r * n + i < k * n ∨ k * n + n ≤ r * n + i := by
  rcases Nat.lt_or_gt_of_ne hr with h | h
  · exact Or.inl (by calc r * n + i < r * n + n := by omega
                     _ = (r + 1) * n := by ring
                     _ ≤ k * n := Nat.mul_le_mul_right _ h)
  · exact Or.inr (by calc k * n + n = (k + 1) * n := by ring
                     _ ≤ r * n := Nat.mul_le_mul_right _ h
                     _ ≤ r * n + i := Nat.le_add_right _ _)

/-- Every row comes out as if the body had run on it alone. -/
theorem RowLocal.eachRow_apply (h : RowLocal n F) (m : B → ℕ → α) (b : B) (r : ℕ) {i : ℕ}
    (hi : i < n) :
    eachRow n rows F m b (r * n + i) =
      if r < rows then F (r * n) m b (r * n + i) else m b (r * n + i) := by
  unfold eachRow
  induction rows generalizing b r i with
  | zero => rw [List.range_zero, List.foldl_nil, if_neg (Nat.not_lt_zero _)]
  | succ k ih =>
    rw [List.range_succ, List.foldl_append, List.foldl_cons, List.foldl_nil]
    by_cases hr : r = k
    · subst hr
      rw [if_pos (Nat.lt_succ_self r)]
      refine h.inside _ _ _ (fun b j hj => ?_) b i hi
      rw [ih b r hj, if_neg (Nat.lt_irrefl r)]
    · rw [h.outside _ _ _ _ (row_disjoint hi hr), ih b r hi]
      exact if_congr (by omega) rfl rfl

/-- Memories are the same if their rows are. -/
theorem rows_ext (hn : 0 < n) (h : ∀ b r, ∀ i < n, m b (r * n + i) = m' b (r * n + i)) : m = m' := by
  funext b a
  have := h b (a / n) (a % n) (Nat.mod_lt _ hn)
  rwa [Nat.div_add_mod' a n] at this

theorem RowLocal.eachRow_zero (h : RowLocal 0 F) (m : B → ℕ → α) : eachRow 0 rows F m = m := by
  have hF : ∀ base m, F base m = m := fun base m =>
    funext fun b => funext fun a => h.outside base m b a (by omega)
  unfold eachRow
  induction rows with
  | zero => rfl
  | succ k ih => rw [List.range_succ, List.foldl_append, ih, List.foldl_cons, List.foldl_nil, hF]

/-- A loop over rows whose body writes one buffer, in closed form. -/
theorem RowLocal.eachRow_eq [DecidableEq B] (h : RowLocal n F) {y : B}
    {g : ℕ → (B → ℕ → α) → ℕ → α}
    (hF : ∀ base m b, ∀ i < n,
      F base m b (base + i) = if b = y then g base m i else m b (base + i)) (m : B → ℕ → α) :
    eachRow n rows F m = fun b a =>
      if b = y ∧ a < rows * n then g (a / n * n) m (a % n) else m b a := by
  rcases n.eq_zero_or_pos with rfl | hn
  · rw [h.eachRow_zero]
    exact funext fun b => funext fun a => (if_neg (by omega)).symm
  · refine rows_ext hn fun b r i hi => ?_
    have hdiv : (r * n + i) / n = r := by
      rw [Nat.mul_comm, Nat.mul_add_div hn, Nat.div_eq_of_lt hi, Nat.add_zero]
    have hmod : (r * n + i) % n = i := by
      rw [Nat.mul_comm, Nat.mul_add_mod, Nat.mod_eq_of_lt hi]
    have hlt : r * n + i < rows * n ↔ r < rows := by rw [← Nat.div_lt_iff_lt_mul hn, hdiv]
    rw [h.eachRow_apply m b r hi, hF _ _ _ _ hi, hdiv, hmod]
    by_cases hr : r < rows
    · rw [if_pos hr]
      exact if_congr (by simp [hlt, hr]) rfl rfl
    · rw [if_neg hr, if_neg fun h => hr (hlt.mp h.2)]

/-- Two loops over the rows are one. -/
theorem RowLocal.eachRow_comp (hF : RowLocal n F) (hG : RowLocal n G) (m : B → ℕ → α) :
    eachRow n rows G (eachRow n rows F m) = eachRow n rows (fun base m => G base (F base m)) m := by
  rcases n.eq_zero_or_pos with rfl | hn
  · rw [hF.eachRow_zero, hG.eachRow_zero, (hF.comp hG).eachRow_zero]
  · refine rows_ext hn fun b r i hi => ?_
    rw [hG.eachRow_apply _ _ _ hi, (hF.comp hG).eachRow_apply _ _ _ hi]
    by_cases hr : r < rows
    · rw [if_pos hr, if_pos hr]
      refine hG.inside _ _ _ (fun b j hj => ?_) b i hi
      rw [hF.eachRow_apply _ _ _ hj, if_pos hr]
    · rw [if_neg hr, if_neg hr, hF.eachRow_apply _ _ _ hi, if_neg hr]

variable [DecidableEq B]

def putElem (m : B → ℕ → α) (b : B) (a : ℕ) (v : α) : B → ℕ → α :=
  Function.update m b (Function.update (m b) a v)

/-- `y[i] = f(i, column i)` for `n` columns from `base` on. -/
def sweep (y : B) (base n : ℕ) (f : ℕ → (B → α) → α) (m : B → ℕ → α) : B → ℕ → α :=
  (List.range n).foldl (fun m i => putElem m y (base + i) (f i fun b => m b (base + i))) m

theorem sweep_apply (y : B) (base n : ℕ) (f : ℕ → (B → α) → α) (m : B → ℕ → α) (b : B) (a : ℕ) :
    sweep y base n f m b a =
      if b = y ∧ base ≤ a ∧ a < base + n then f (a - base) fun b => m b a else m b a := by
  unfold sweep
  induction n generalizing b a with
  | zero => simp only [List.range_zero, List.foldl_nil]; rw [if_neg (by omega)]
  | succ n ih =>
    rw [List.range_succ, List.foldl_append, List.foldl_cons, List.foldl_nil, putElem]
    -- column `n` is as before the loop
    have hcol : (fun b => (List.range n).foldl (fun m i =>
        putElem m y (base + i) (f i fun b => m b (base + i))) m b (base + n)) =
        fun b => m b (base + n) := by
      funext b
      rw [ih b (base + n), if_neg (by omega)]
    rw [hcol]
    by_cases hb : b = y
    · subst hb
      rw [Function.update_self]
      by_cases ha : a = base + n
      · subst ha
        rw [Function.update_self, if_pos ⟨rfl, by omega, by omega⟩, Nat.add_sub_cancel_left]
      · rw [Function.update_of_ne ha, ih b a]
        exact if_congr (and_congr_right fun _ => by omega) rfl rfl
    · rw [Function.update_of_ne hb, ih b a, if_neg (fun h => hb h.1), if_neg (fun h => hb h.1)]

/-- A sweep whose factors are taken from the row. -/
theorem RowLocal.of_sweep (y : B) (f : (B → ℕ → α) → ℕ → (B → α) → α)
    (hf : ∀ row row' : B → ℕ → α, (∀ b, ∀ i < n, row b i = row' b i) → f row = f row') :
    RowLocal n fun base m => sweep y base n (f fun b i => m b (base + i)) m where
  outside base m b a ha := by rw [sweep_apply, if_neg (by omega)]
  inside base m m' h b i hi := by
    rw [sweep_apply, sweep_apply, hf _ _ h, h b i hi]
    exact if_congr Iff.rfl (by rw [show (fun b => m b (base + i)) = fun b => m' b (base + i) from
      funext fun b => h b i hi]) rfl

/-- A sweep over whole rows is one sweep if every column is treated alike. -/
theorem eachRow_sweep (y : B) (f : (B → α) → α) (m : B → ℕ → α) :
    eachRow n rows (fun base m => sweep y base n (fun _ => f) m) m =
      sweep y 0 (n * rows) (fun _ => f) m := by
  have h : RowLocal n fun base (m : B → ℕ → α) => sweep y base n (fun _ => f) m :=
    .of_sweep y (fun _ _ => f) fun _ _ _ => rfl
  rcases n.eq_zero_or_pos with rfl | hn
  · rw [h.eachRow_zero, Nat.zero_mul]
    rfl
  · refine rows_ext hn fun b r i hi => ?_
    have hlt : r * n + i < n * rows ↔ r < rows := by
      rw [Nat.mul_comm n rows, ← Nat.div_lt_iff_lt_mul hn, Nat.mul_comm r n,
        Nat.mul_add_div hn, Nat.div_eq_of_lt hi, Nat.add_zero]
    rw [h.eachRow_apply _ _ _ hi, sweep_apply, sweep_apply]
    by_cases hr : r < rows
    · rw [if_pos hr]
      exact if_congr (and_congr_right fun _ => by omega) rfl rfl
    · rw [if_neg hr, if_neg fun h => hr (hlt.mp (by omega))]

end Kappai
