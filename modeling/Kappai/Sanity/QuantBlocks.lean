import Kappai.Spec.QuantRows
import Kappai.Lib.Fill
import Mathlib.Algebra.BigOperators.Ring.Finset
import Mathlib.Algebra.Field.Basic
import Mathlib.Tactic.LinearCombination

/-! What the kernel of one block and the dequantiser of each type come to, and what the loops over the
rows of a matrix make of the blocks. -/

namespace Kappai.Quants

open Checked Finset

variable {F : Type} [Field F] (C : Floats F)

/-! ### Rows -/

section Rows

variable {dot : BlockDot F} {bpr n : ℕ} {v : ℕ → ℕ → F}

/-- The kernel of one block adds `v`. -/
def Adds (dot : BlockDot F) (n bpr : ℕ) (v : ℕ → ℕ → F) : Prop :=
  ∀ i < n, ∀ bi < bpr, ∀ acc, dot i bi acc = some (acc + v i bi)

theorem rowSum_eq (hdot : Adds dot n bpr v) {i : ℕ} (hi : i < n) :
    forUp bpr (dot i) 0 = some (∑ bi ∈ range bpr, v i bi) := by
  refine forUp_eq (fun b => ∑ bi ∈ range b, v i bi) fun bi hbi => ?_
  rw [hdot i hi bi hbi, sum_range_succ]

/-- What the rows of a matrix come out as. -/
def rowSums (v : ℕ → ℕ → F) (bpr out : ℕ) : ℕ → F := fun c => ∑ bi ∈ range bpr, v (c - out) bi

theorem singleRows_eq (hdot : Adds dot n bpr v) (i : ℕ) (hi : i ≤ n) (y : ℕ → F) (out : ℕ) :
    singleRows dot bpr i n y out = some (putRange y (out + i) (out + n) (rowSums v bpr out)) := by
  have h := forUp_eq (n := n - i)
    (f := fun j y => do
      let sumf ← forUp bpr (dot (i + j)) 0
      some (Function.update y (out + (i + j)) sumf))
    (fun j => putRange y (out + i) (out + (i + j)) (rowSums v bpr out)) fun j hj => by
      simp only [rowSum_eq hdot (show i + j < n by omega), Option.bind_eq_bind, Option.bind_some]
      rw [← Nat.add_assoc i j 1, ← Nat.add_assoc out (i + j) 1,
        ← putRange_succ y _ (show out + i ≤ out + (i + j) by omega), rowSums, Nat.add_sub_cancel_left]
  rw [Nat.add_zero, putRange_self, Nat.add_sub_cancel' hi] at h
  exact h

/-- The sums of a tile after `b` blocks. -/
def tileAt (v : ℕ → ℕ → F) (i b : ℕ) : ℕ → F := fun r => if r < 8 then ∑ bi ∈ range b, v (i + r) bi else 0

theorem tileStep_eq (hdot : Adds dot n bpr v) {i bi : ℕ} (hi : i + 8 ≤ n) (hbi : bi < bpr) :
    tileStep dot i bi (tileAt v i bi) = some (tileAt v i (bi + 1)) := by
  have h := forUp_eq (n := 8)
    (f := fun r sumf => do
      let s ← dot (i + r) bi (sumf r)
      some (Function.update sumf r s))
    (fun r r' => if r' < r then tileAt v i (bi + 1) r' else tileAt v i bi r') fun r hr => by
      simp only [hdot (i + r) (by omega) bi hbi, Option.bind_eq_bind, Option.bind_some, lt_irrefl, if_false]
      congr 1
      funext r'
      by_cases hr' : r' = r
      · subst hr'
        rw [Function.update_self, if_pos r'.lt_succ_self, tileAt, tileAt, if_pos hr, if_pos hr, sum_range_succ]
      · rw [Function.update_of_ne hr']
        exact if_congr (by omega) rfl rfl
  have hlast : (fun r' => if r' < 8 then tileAt v i (bi + 1) r' else tileAt v i bi r') = tileAt v i (bi + 1) := by
    funext r'
    by_cases hr' : r' < 8
    · rw [if_pos hr']
    · rw [if_neg hr', tileAt, tileAt, if_neg hr', if_neg hr']
  simp only [Nat.not_lt_zero, if_false] at h
  rw [hlast] at h
  exact h

theorem tileAt_zero (v : ℕ → ℕ → F) (i : ℕ) : tileAt v i 0 = fun _ => 0 :=
  funext fun r => by rw [tileAt, range_zero, sum_empty, ite_self]

theorem tileSums_eq (hdot : Adds dot n bpr v) {i : ℕ} (hi : i + 8 ≤ n) :
    tileSums dot bpr i = some (tileAt v i bpr) := by
  rw [tileSums, ← tileAt_zero v i]
  exact forUp_eq (tileAt v i) fun bi hbi => tileStep_eq hdot hi hbi

theorem tileSumsBlocked_eq (hdot : Adds dot n bpr v) {i : ℕ} (hi : i + 8 ≤ n) :
    tileSumsBlocked dot bpr i = some (tileAt v i bpr) := by
  have h := forUp_eq (n := (bpr + 63) / 64)
    (f := fun c => forFrom (c * 64) (if c * 64 + 64 < bpr then c * 64 + 64 else bpr) (tileStep dot i))
    (fun c => tileAt v i (min (c * 64) bpr)) fun c hc => by
      have hlow : c * 64 < bpr := by omega
      have hhigh : (if c * 64 + 64 < bpr then c * 64 + 64 else bpr) = min ((c + 1) * 64) bpr := by
        split_ifs <;> omega
      have hstep := forUp_eq (n := min ((c + 1) * 64) bpr - c * 64) (f := fun b => tileStep dot i (c * 64 + b))
        (fun b => tileAt v i (c * 64 + b)) fun b hb => tileStep_eq hdot hi (by omega)
      simp only [Nat.add_zero, Nat.add_sub_cancel' (show c * 64 ≤ min ((c + 1) * 64) bpr by omega)] at hstep
      rw [hhigh, forFrom, Nat.min_eq_left hlow.le, hstep]
  rw [Nat.zero_mul, Nat.zero_min, tileAt_zero, Nat.min_eq_right (by omega)] at h
  exact h

theorem tiledRows_eq (hdot : Adds dot n bpr v) {tile : ℕ → Option (ℕ → F)}
    (htile : ∀ i, i + 8 ≤ n → tile i = some (tileAt v i bpr)) (y : ℕ → F) (out : ℕ) :
    tiledRows dot bpr tile n y out = some (putRange y out (out + n) (rowSums v bpr out)) := by
  have h := forUp_eq (n := n / 8)
    (f := fun t y => do
      let sumf ← tile (t * 8)
      some ((List.range 8).foldl (fun y r => Function.update y (out + (t * 8 + r)) (sumf r)) y))
    (fun t => putRange y out (out + t * 8) (rowSums v bpr out)) fun t ht => by
      rw [htile (t * 8) (by omega), Option.bind_eq_bind, Option.bind_some, Nat.succ_mul, ← Nat.add_assoc,
        ← putRange_putRange y _ (Nat.le_add_right out (t * 8)) (Nat.le_add_right _ 8),
        ← foldl_putRange _ _ (out + t * 8) 8]
      congr 1
      refine List.foldl_ext _ _ _ fun y r hr => ?_
      rw [tileAt, if_pos (List.mem_range.1 hr), Nat.add_assoc, rowSums, Nat.add_sub_cancel_left]
  rw [Nat.zero_mul, Nat.add_zero, putRange_self] at h
  have hle : n / 8 * 8 ≤ n := by omega
  rw [tiledRows, h, Option.bind_eq_bind, Option.bind_some, singleRows_eq hdot _ hle,
    putRange_putRange y _ (Nat.le_add_right _ _) (by omega)]

end Rows

/-! ### Bounds -/

theorem int8_abs (x : Int8) : |x.toInt| ≤ 128 := abs_le.2 ⟨x.le_toInt, x.toInt_lt.le⟩

theorem low_le (b : UInt8) : low b ≤ 15 := Nat.and_le_right

theorem high_le (b : UInt8) : high b ≤ 15 := by
  have := b.toNat_lt
  rw [high, Nat.shiftRight_eq_div_pow]
  omega

theorem mul_abs_le {a b A B : ℤ} (ha : |a| ≤ A) (hb : |b| ≤ B) : |a * b| ≤ A * B := by
  rw [abs_mul]
  exact mul_le_mul ha hb (abs_nonneg b) ((abs_nonneg a).trans ha)

theorem natCast_abs_le {n m : ℕ} (h : n ≤ m) : |(n : ℤ)| ≤ m := by
  rw [Nat.abs_cast]
  exact_mod_cast h

/-! ### Blocks of 32 -/

/-- The values of a block whose bytes hold two each. -/
def halves {α : Type*} (lo hi : ℕ → α) (j : ℕ) : α := if j < 16 then lo j else hi (j - 16)

theorem sum_halves {M : Type*} [AddCommMonoid M] (f g : ℕ → M) :
    ∑ j ∈ range 32, halves f g j = ∑ j ∈ range 16, f j + ∑ j ∈ range 16, g j := by
  have hlow : ∀ j ∈ range 16, halves f g j = f j := fun j hj => if_pos (mem_range.1 hj)
  have hhigh : ∀ j ∈ range 16, halves f g (16 + j) = g j := fun j _ => by
    rw [halves, if_neg (by omega), Nat.add_sub_cancel_left]
  rw [show 32 = 16 + 16 from rfl, sum_range_add, sum_congr rfl hlow, sum_congr rfl hhigh]

theorem halvesDot_eq {lo hi : ℕ → ℤ} (hlo : ∀ j < 16, |lo j| ≤ 128) (hhi : ∀ j < 16, |hi j| ≤ 128)
    (d : UInt16) (xq8 : ℕ → Int8) (dXq acc : F) :
    halvesDot C lo hi d xq8 dXq acc = some (acc + ∑ j ∈ range 32,
      C.f16ToF32 d * ((halves lo hi j : ℤ) : F) * (dXq * ((xq8 j).toInt : F))) := by
  have hb₀ : ∀ j < 16, |lo j * (xq8 j).toInt| ≤ 16384 := fun j hj => mul_abs_le (hlo j hj) (int8_abs _)
  have hb₁ : ∀ j < 16, |hi j * (xq8 (j + 16)).toInt| ≤ 16384 := fun j hj => mul_abs_le (hhi j hj) (int8_abs _)
  have hs₀ := sum_abs_le hb₀
  have hs₁ := sum_abs_le hb₁
  have hsum := int32_eq (lt_of_le_of_lt ((abs_add_le _ _).trans (add_le_add hs₀ hs₁)) (by norm_num))
  have hsplit : ∀ j, ((halves lo hi j : ℤ) : F) * ((xq8 j).toInt : F) =
      halves (fun j => (lo j : F) * ((xq8 j).toInt : F)) (fun j => (hi j : F) * ((xq8 (j + 16)).toInt : F)) j := by
    intro j
    by_cases hj : j < 16
    · rw [halves, halves, if_pos hj, if_pos hj]
    · rw [halves, halves, if_neg hj, if_neg hj, Nat.sub_add_cancel (by omega)]
  rw [halvesDot, forUp_mac_pair hb₀ hb₁ (by norm_num)]
  simp only [hsum, Option.bind_eq_bind, Option.bind_some]
  have hmul : ∀ j, C.f16ToF32 d * ((halves lo hi j : ℤ) : F) * (dXq * ((xq8 j).toInt : F)) =
      C.f16ToF32 d * dXq * (((halves lo hi j : ℤ) : F) * ((xq8 j).toInt : F)) := fun j => by ring
  rw [sum_congr rfl fun j _ => hmul j, ← mul_sum, sum_congr rfl fun j _ => hsplit j, sum_halves, add_comm]
  push_cast
  rfl

theorem q8_0Dot_eq (blk : Q8_0Block) (xq8 : ℕ → Int8) (dXq acc : F) :
    q8_0Dot C blk xq8 dXq acc = some (acc + ∑ j ∈ range 32,
      C.f16ToF32 blk.d * ((blk.qs j).toInt : F) * (dXq * ((xq8 j).toInt : F))) := by
  have hb : ∀ j < 32, |(blk.qs j).toInt * (xq8 j).toInt| ≤ 16384 :=
    fun j _ => mul_abs_le (int8_abs _) (int8_abs _)
  rw [q8_0Dot, forUp_mac hb (by norm_num), Option.bind_eq_bind, Option.bind_some]
  have hmul : ∀ j, C.f16ToF32 blk.d * ((blk.qs j).toInt : F) * (dXq * ((xq8 j).toInt : F)) =
      C.f16ToF32 blk.d * dXq * (((blk.qs j).toInt : F) * ((xq8 j).toInt : F)) := fun j => by ring
  rw [sum_congr rfl fun j _ => hmul j, ← mul_sum, add_comm]
  push_cast
  rfl

/-! ### Blocks of 256 with minimums -/

theorem or_shift_le {a b : ℕ} (ha : a ≤ 15) (hb : b < 256) : a ||| (b >>> 6) <<< 4 ≤ 63 := by
  have hb' : (b >>> 6) <<< 4 < 2 ^ 6 := by
    rw [Nat.shiftRight_eq_div_pow, Nat.shiftLeft_eq]
    omega
  exact Nat.lt_succ_iff.1 (Nat.or_lt_two_pow (show a < 2 ^ 6 by omega) hb')

theorem getScaleMinK4_le (j : ℕ) (q : Bytes) : (getScaleMinK4 j q).1 ≤ 63 ∧ (getScaleMinK4 j q).2 ≤ 63 := by
  rw [getScaleMinK4]
  split_ifs
  · exact ⟨Nat.and_le_right, Nat.and_le_right⟩
  · exact ⟨or_shift_le (low_le _) (UInt8.toNat_lt _), or_shift_le (high_le _) (UInt8.toNat_lt _)⟩

/-- What one group of 64 adds to `sumi`. -/
def groupDot (lo hi : ℕ → ℕ → ℕ) (scales : Bytes) (q : ℕ → ℤ) (g : ℕ) : ℤ :=
  (getScaleMinK4 (2 * g) scales).1 * ∑ l ∈ range 32, lo g l * q (g * 64 + l) +
    (getScaleMinK4 (2 * g + 1) scales).1 * ∑ l ∈ range 32, hi g l * q (g * 64 + 32 + l)

/-- What one group of 64 adds to `summ`, by the sums of its quarters. -/
def groupMin (scales : Bytes) (bs : ℕ → ℤ) (g : ℕ) : ℤ :=
  (getScaleMinK4 (2 * g) scales).2 * (bs (4 * g) + bs (4 * g + 1)) +
    (getScaleMinK4 (2 * g + 1) scales).2 * (bs (4 * g + 2) + bs (4 * g + 3))

theorem kSums_eq {lo hi : ℕ → ℕ → ℕ} (hlo : ∀ g l, lo g l ≤ 31) (hhi : ∀ g l, hi g l ≤ 31) (scales : Bytes)
    (xq8 : ℕ → Int8) (bs : ℕ → Int16) :
    kSums lo hi scales xq8 bs = some
      (∑ g ∈ range 4, groupDot lo hi scales (fun e => (xq8 e).toInt) g,
        ∑ g ∈ range 4, groupMin scales (fun j => (bs j).toInt) g) := by
  have hscale : ∀ j, |((getScaleMinK4 j scales).1 : ℤ)| ≤ 63 := fun j => natCast_abs_le (getScaleMinK4_le j scales).1
  have hmin : ∀ j, |((getScaleMinK4 j scales).2 : ℤ)| ≤ 63 := fun j => natCast_abs_le (getScaleMinK4_le j scales).2
  have hb₀ : ∀ g, ∀ l < 32, |(lo g l : ℤ) * (xq8 (g * 64 + l)).toInt| ≤ 3968 :=
    fun g l _ => mul_abs_le (natCast_abs_le (hlo g l)) (int8_abs _)
  have hb₁ : ∀ g, ∀ l < 32, |(hi g l : ℤ) * (xq8 (g * 64 + 32 + l)).toInt| ≤ 3968 :=
    fun g l _ => mul_abs_le (natCast_abs_le (hhi g l)) (int8_abs _)
  have hbs : ∀ i j, |(bs i).toInt + (bs j).toInt| ≤ 65536 := fun i j =>
    (abs_add_le _ _).trans (add_le_add (abs_le.2 ⟨(bs i).le_toInt, (bs i).toInt_lt.le⟩)
      (abs_le.2 ⟨(bs j).le_toInt, (bs j).toInt_lt.le⟩))
  have hp₀ := fun g => (mul_abs_le (hscale (2 * g)) (sum_abs_le (hb₀ g))).trans
    (show _ ≤ (7999488 : ℤ) by norm_num)
  have hp₁ := fun g => (mul_abs_le (hscale (2 * g + 1)) (sum_abs_le (hb₁ g))).trans
    (show _ ≤ (7999488 : ℤ) by norm_num)
  have hm₀ := fun g => mul_abs_le (hmin (2 * g)) (hbs (4 * g) (4 * g + 1))
  have hm₁ := fun g => mul_abs_le (hmin (2 * g + 1)) (hbs (4 * g + 2) (4 * g + 3))
  have hp := fun g => (abs_add_le _ _).trans (add_le_add (hp₀ g) (hp₁ g))
  have hm := fun g => (abs_add_le _ _).trans (add_le_add (hm₀ g) (hm₁ g))
  refine forUp_eq (fun g => (∑ g ∈ range g, groupDot lo hi scales (fun e => (xq8 e).toInt) g,
    ∑ g ∈ range g, groupMin scales (fun j => (bs j).toInt) g)) fun g hg => ?_
  have hsumi := (abs_add_le _ _).trans (prefix_abs_le (f := groupDot lo hi scales fun e => (xq8 e).toInt)
    (fun g _ => hp g) hg)
  have hsumm := (sum_abs_le (f := groupMin scales fun j => (bs j).toInt) (n := g) fun j _ => hm j).trans
    (mul_le_mul_of_nonneg_right (show (g : ℤ) ≤ 4 by exact_mod_cast hg.le) (by norm_num))
  have hsumm₀ := (abs_add_le _ _).trans (add_le_add hsumm (hm₀ g))
  rw [forUp_mac_pair (hb₀ g) (hb₁ g) (by norm_num), sum_range_succ (groupDot lo hi scales _),
    sum_range_succ (groupMin scales _)]
  simp only [Option.bind_eq_bind, Option.bind_some, int32_eq (lt_of_le_of_lt (hp₀ g) (by norm_num)),
    int32_eq (lt_of_le_of_lt (hp₁ g) (by norm_num)), int32_eq (lt_of_le_of_lt (hp g) (by norm_num)),
    mac_eq (lt_of_le_of_lt (add_le_add hsumm (hm₀ g)) (by norm_num)),
    mac_eq (lt_of_le_of_lt (add_le_add hsumm₀ (hm₁ g)) (by norm_num))]
  have hlast := int32_eq (lt_of_le_of_lt hsumi (by norm_num))
  simp only [groupDot] at hlast ⊢
  rw [hlast, Option.bind_some, add_assoc, groupMin]

/-- `bsums` has the sums of the quants, sixteen by sixteen. -/
def Q8KBlock.Summed (xb : Q8KBlock F) : Prop :=
  ∀ j < 16, (xb.bsums j).toInt = ∑ ii ∈ range 16, (xb.qs (j * 16 + ii)).toInt

/-- The value of quant `e` of a block with minimums. -/
def kCell (d dmin : F) (scales : Bytes) (lo hi : ℕ → ℕ → ℕ) (e : ℕ) : F :=
  if e % 64 < 32 then
    d * (getScaleMinK4 (2 * (e / 64)) scales).1 * lo (e / 64) (e % 64) -
      dmin * (getScaleMinK4 (2 * (e / 64)) scales).2
  else
    d * (getScaleMinK4 (2 * (e / 64) + 1) scales).1 * hi (e / 64) (e % 64 - 32) -
      dmin * (getScaleMinK4 (2 * (e / 64) + 1) scales).2

theorem kCell_lo (d dmin : F) (scales : Bytes) (lo hi : ℕ → ℕ → ℕ) (g : ℕ) {l : ℕ} (hl : l < 32) :
    kCell d dmin scales lo hi (g * 64 + l) =
      d * (getScaleMinK4 (2 * g) scales).1 * lo g l - dmin * (getScaleMinK4 (2 * g) scales).2 := by
  have hdiv : (g * 64 + l) / 64 = g := by omega
  have hmod : (g * 64 + l) % 64 = l := by omega
  rw [kCell, hdiv, hmod, if_pos hl]

theorem kCell_hi (d dmin : F) (scales : Bytes) (lo hi : ℕ → ℕ → ℕ) (g : ℕ) {l : ℕ} (hl : l < 32) :
    kCell d dmin scales lo hi (g * 64 + (32 + l)) =
      d * (getScaleMinK4 (2 * g + 1) scales).1 * hi g l - dmin * (getScaleMinK4 (2 * g + 1) scales).2 := by
  have hdiv : (g * 64 + (32 + l)) / 64 = g := by omega
  have hmod : (g * 64 + (32 + l)) % 64 = 32 + l := by omega
  rw [kCell, hdiv, hmod, if_neg (by omega), Nat.add_sub_cancel_left]

theorem sum_affine (n : ℕ) (s m x : F) (a q : ℕ → F) :
    ∑ l ∈ range n, (s * a l - m) * (x * q l) = x * (s * ∑ l ∈ range n, a l * q l - m * ∑ l ∈ range n, q l) := by
  rw [mul_sum, mul_sum, ← sum_sub_distrib, mul_sum]
  exact sum_congr rfl fun l _ => by ring

omit [Field F] in
theorem Q8KBlock.Summed.half {xb : Q8KBlock F} (h : xb.Summed) {i : ℕ} (hi : i < 8) :
    ∑ l ∈ range 32, (xb.qs (i * 32 + l)).toInt = (xb.bsums (2 * i)).toInt + (xb.bsums (2 * i + 1)).toInt := by
  rw [h (2 * i) (by omega), h (2 * i + 1) (by omega), sum_range_add _ 16 16]
  refine congrArg₂ (· + ·) (sum_congr rfl fun l _ => ?_) (sum_congr rfl fun l _ => ?_)
  · rw [show 2 * i * 16 + l = i * 32 + l by ring]
  · rw [show (2 * i + 1) * 16 + l = i * 32 + (16 + l) by ring]

theorem kCells_sum {xb : Q8KBlock F} (h : xb.Summed) (d dmin : F) (scales : Bytes) (lo hi : ℕ → ℕ → ℕ) :
    ∑ e ∈ range 256, kCell d dmin scales lo hi e * (xb.d * ((xb.qs e).toInt : F)) =
      xb.d * (d * ((∑ g ∈ range 4, groupDot lo hi scales (fun e => (xb.qs e).toInt) g : ℤ) : F) -
        dmin * ((∑ g ∈ range 4, groupMin scales (fun j => (xb.bsums j).toInt) g : ℤ) : F)) := by
  push_cast
  rw [sum_range_mul 4 64, mul_sum, mul_sum, ← sum_sub_distrib, mul_sum]
  refine sum_congr rfl fun g hg => ?_
  have hg : g < 4 := mem_range.1 hg
  have hlow := h.half (i := 2 * g) (by omega)
  have hhigh := h.half (i := 2 * g + 1) (by omega)
  rw [show 2 * g * 32 = g * 64 by ring, show 2 * (2 * g) = 4 * g by ring] at hlow
  rw [show (2 * g + 1) * 32 = g * 64 + 32 by ring, show 2 * (2 * g + 1) = 4 * g + 2 by ring] at hhigh
  have hfirst : ∑ l ∈ range 32, kCell d dmin scales lo hi (g * 64 + l) * (xb.d * ((xb.qs (g * 64 + l)).toInt : F)) =
      xb.d * (d * (getScaleMinK4 (2 * g) scales).1 * ∑ l ∈ range 32, (lo g l : F) * ((xb.qs (g * 64 + l)).toInt : F) -
        dmin * (getScaleMinK4 (2 * g) scales).2 * ∑ l ∈ range 32, ((xb.qs (g * 64 + l)).toInt : F)) := by
    rw [← sum_affine]
    exact sum_congr rfl fun l hl => by rw [kCell_lo _ _ _ _ _ g (mem_range.1 hl)]
  have hsecond : ∑ l ∈ range 32,
        kCell d dmin scales lo hi (g * 64 + (32 + l)) * (xb.d * ((xb.qs (g * 64 + (32 + l))).toInt : F)) =
      xb.d * (d * (getScaleMinK4 (2 * g + 1) scales).1 *
          ∑ l ∈ range 32, (hi g l : F) * ((xb.qs (g * 64 + 32 + l)).toInt : F) -
        dmin * (getScaleMinK4 (2 * g + 1) scales).2 * ∑ l ∈ range 32, ((xb.qs (g * 64 + 32 + l)).toInt : F)) := by
    rw [← sum_affine]
    exact sum_congr rfl fun l hl => by rw [kCell_hi _ _ _ _ _ g (mem_range.1 hl), Nat.add_assoc]
  rw [sum_range_add _ 32 32, hfirst, hsecond, groupDot, groupMin, ← hlow, ← hhigh]
  push_cast
  ring

theorem q4KDot_eq (blk : Q4KBlock) {xb : Q8KBlock F} (h : xb.Summed) (acc : F) :
    q4KDot C blk xb acc = some (acc + ∑ e ∈ range 256,
      kCell (C.f16ToF32 blk.d) (C.f16ToF32 blk.dmin) blk.scales blk.lo blk.hi e * (xb.d * ((xb.qs e).toInt : F))) := by
  have hlo : ∀ g l, blk.lo g l ≤ 31 := fun g l => (low_le _).trans (by norm_num)
  have hhi : ∀ g l, blk.hi g l ≤ 31 := fun g l => (high_le _).trans (by norm_num)
  rw [q4KDot, kSums_eq hlo hhi, kCells_sum h, add_comm acc]
  rfl

theorem q5KDot_eq (blk : Q5KBlock) {xb : Q8KBlock F} (h : xb.Summed) (acc : F) :
    q5KDot C blk xb acc = some (acc + ∑ e ∈ range 256,
      kCell (C.f16ToF32 blk.d) (C.f16ToF32 blk.dmin) blk.scales blk.lo blk.hi e * (xb.d * ((xb.qs e).toInt : F))) := by
  have hbit : ∀ p : Prop, [Decidable p] → (if p then 16 else 0) ≤ 16 := fun p _ => by split_ifs <;> omega
  have hlo : ∀ g l, blk.lo g l ≤ 31 := fun g l => Nat.add_le_add (low_le _) (hbit _)
  have hhi : ∀ g l, blk.hi g l ≤ 31 := fun g l => Nat.add_le_add (high_le _) (hbit _)
  rw [q5KDot, kSums_eq hlo hhi, kCells_sum h, add_comm acc]
  rfl

/-! ### Dequantised cells -/

section Cells

variable {n bi : ℕ} (dst : ℕ → F)

omit [Field F] in
theorem dequantHalves_cell (lo hi : ℕ → ℕ → F) (hbi : bi < n) {j : ℕ} (hj : j < 32) :
    dequantHalves n dst lo hi (bi * 32 + j) = halves (lo bi) (hi bi) j := by
  refine foldl_range_fills hbi (fun dst => ?_) (fun i hi' hne dst => ?_) dst
  · by_cases hlow : j < 16
    · rw [halves, if_pos hlow]
      refine foldl_range_fills hlow (fun dst => ?_) (fun i hi' hne dst => ?_) dst
      · rw [Function.update_of_ne (by omega), Function.update_self]
      · rw [Function.update_of_ne (by omega), Function.update_of_ne (by omega)]
    · rw [halves, if_neg hlow]
      refine foldl_range_fills (j := j - 16) (by omega) (fun dst => ?_) (fun i hi' hne dst => ?_) dst
      · rw [show bi * 32 + (j - 16) + 16 = bi * 32 + j by omega, Function.update_self]
      · rw [Function.update_of_ne (by omega), Function.update_of_ne (by omega)]
  · refine foldl_range_keeps (fun i' hi'' dst => ?_) dst
    rw [Function.update_of_ne (by omega), Function.update_of_ne (by omega)]

theorem dequantK_cell (d dmin : ℕ → UInt16) (scales : ℕ → Bytes) (lo hi : ℕ → ℕ → ℕ → ℕ) (hbi : bi < n)
    {e : ℕ} (he : e < 256) :
    dequantK C n dst d dmin scales lo hi (bi * 256 + e) =
      kCell (C.f16ToF32 (d bi)) (C.f16ToF32 (dmin bi)) (scales bi) (lo bi) (hi bi) e := by
  refine foldl_range_fills hbi (fun dst => ?_) (fun i hi' hne dst => ?_) dst
  · refine foldl_range_fills (j := e / 64) (by omega) (fun dst => ?_) (fun g hg hne dst => ?_) dst
    · by_cases hlow : e % 64 < 32
      · rw [kCell, if_pos hlow]
        refine foldl_range_fills hlow (fun dst => ?_) (fun i hi' hne dst => ?_) dst
        · rw [Function.update_of_ne (by omega), show bi * 256 + e / 64 * 64 + e % 64 = bi * 256 + e by omega,
            Function.update_self]
        · rw [Function.update_of_ne (by omega), Function.update_of_ne (by omega)]
      · rw [kCell, if_neg hlow]
        refine foldl_range_fills (j := e % 64 - 32) (by omega) (fun dst => ?_) (fun i hi' hne dst => ?_) dst
        · rw [show bi * 256 + e / 64 * 64 + (e % 64 - 32) + 32 = bi * 256 + e by omega, Function.update_self]
        · rw [Function.update_of_ne (by omega), Function.update_of_ne (by omega)]
    · refine foldl_range_keeps (fun i' hi'' dst => ?_) dst
      rw [Function.update_of_ne (by omega), Function.update_of_ne (by omega)]
  · refine foldl_range_keeps (fun g hg dst => ?_) dst
    refine foldl_range_keeps (fun i' hi'' dst => ?_) dst
    rw [Function.update_of_ne (by omega), Function.update_of_ne (by omega)]

end Cells

/-! ### `Q6_K` -/

/-- What four values are at the quarters of 128 cells. -/
def quarters {α : Type*} (v₀ v₁ v₂ v₃ : ℕ → ℕ → α) (e : ℕ) : α :=
  (if e % 128 < 32 then v₀ else if e % 128 < 64 then v₁ else if e % 128 < 96 then v₂ else v₃) (e / 128) (e % 32)

theorem quarterLoops_cell {α : Type} {base : ℕ → ℕ} {y : ℕ} (hbase : ∀ it, base it = y + it * 128)
    (v₀ v₁ v₂ v₃ : ℕ → ℕ → α) (a : ℕ → α) {e : ℕ} (he : e < 256) :
    quarterLoops base v₀ v₁ v₂ v₃ a (y + e) = quarters v₀ v₁ v₂ v₃ e := by
  refine foldl_range_fills (j := e / 128) (by omega) (fun a => ?_) (fun it hit hne a => ?_) a
  · refine foldl_range_fills (j := e % 32) (by omega) (fun a => ?_) (fun l hl hne a => ?_) a
    · have h := hbase (e / 128)
      rw [quarters]
      split_ifs with h₀ h₁ h₂
      · rw [Function.update_of_ne (by omega), Function.update_of_ne (by omega), Function.update_of_ne (by omega),
          show base (e / 128) + e % 32 = y + e by omega, Function.update_self]
      · rw [Function.update_of_ne (by omega), Function.update_of_ne (by omega),
          show base (e / 128) + e % 32 + 32 = y + e by omega, Function.update_self]
      · rw [Function.update_of_ne (by omega),
          show base (e / 128) + e % 32 + 64 = y + e by omega, Function.update_self]
      · rw [show base (e / 128) + e % 32 + 96 = y + e by omega, Function.update_self]
    · have h := hbase (e / 128)
      rw [Function.update_of_ne (by omega), Function.update_of_ne (by omega), Function.update_of_ne (by omega),
        Function.update_of_ne (by omega)]
  · have h := hbase it
    refine foldl_range_keeps (fun l hl a => ?_) a
    rw [Function.update_of_ne (by omega), Function.update_of_ne (by omega), Function.update_of_ne (by omega),
      Function.update_of_ne (by omega)]

/-- The loops leave alone what lies beside their 256 cells. -/
theorem quarterLoops_keeps {α : Type} {base : ℕ → ℕ} {y : ℕ} (hbase : ∀ it, base it = y + it * 128)
    (v₀ v₁ v₂ v₃ : ℕ → ℕ → α) (a : ℕ → α) {c : ℕ} (hc : c < y ∨ y + 256 ≤ c) :
    quarterLoops base v₀ v₁ v₂ v₃ a c = a c := by
  refine foldl_range_keeps (fun it hit a => ?_) a
  have h := hbase it
  refine foldl_range_keeps (fun l hl a => ?_) a
  rw [Function.update_of_ne (by omega), Function.update_of_ne (by omega), Function.update_of_ne (by omega),
    Function.update_of_ne (by omega)]

theorem quarters_map {α β : Type*} (f : α → β) (v₀ v₁ v₂ v₃ : ℕ → ℕ → α) (e : ℕ) :
    f (quarters v₀ v₁ v₂ v₃ e) = quarters (fun it l => f (v₀ it l)) (fun it l => f (v₁ it l))
      (fun it l => f (v₂ it l)) (fun it l => f (v₃ it l)) e := by
  simp only [quarters]
  split_ifs <;> rfl

/-- The quants before they are cast to `int8_t`. -/
def q6At (ql qh : Bytes) : ℕ → ℤ :=
  quarters (fun it l => q6Quant (low (ql (it * 64 + l))) (highBits qh 0 it l))
    (fun it l => q6Quant (low (ql (it * 64 + l + 32))) (highBits qh 2 it l))
    (fun it l => q6Quant (high (ql (it * 64 + l))) (highBits qh 4 it l))
    fun it l => q6Quant (high (ql (it * 64 + l + 32))) (highBits qh 6 it l)

theorem q6KUnpack_cell (ql qh : Bytes) (a : ℕ → Int8) {e : ℕ} (he : e < 256) :
    q6KUnpack ql qh a e = Int8.ofInt (q6At ql qh e) := by
  rw [q6At, quarters_map Int8.ofInt, q6KUnpack, ← Nat.zero_add e,
    quarterLoops_cell (fun it => (Nat.zero_add _).symm) _ _ _ _ a he, Nat.zero_add]

/-- The value of quant `e` of a `Q6_K` block. -/
def q6Cell (b : Q6KBlock) (e : ℕ) : F :=
  C.f16ToF32 b.d * ((b.scales (e / 16)).toInt : F) * ((int8 (q6At b.ql b.qh e) : ℤ) : F)

theorem dequantQ6KBlock_cell (dst : ℕ → F) (b : Q6KBlock) (y : ℕ) {e : ℕ} (he : e < 256) :
    dequantQ6KBlock C dst b y (y + e) = q6Cell C b e := by
  have hscale : ∀ is, is = 2 * (e % 128 / 32) → e / 128 * 8 + (e % 32 / 16 + is) = e / 16 := fun is h => by omega
  rw [dequantQ6KBlock, quarterLoops_cell (fun it => rfl) _ _ _ _ dst he, q6Cell, q6At]
  simp only [quarters]
  split_ifs with h₀ h₁ h₂
  · rw [← hscale 0 (by omega)]
  · rw [← hscale 2 (by omega)]
  · rw [← hscale 4 (by omega)]
  · rw [← hscale 6 (by omega)]

theorem dequantQ6KRow_cell (p : Bytes) {n bi : ℕ} (hbi : bi < n) (dst : ℕ → F) {e : ℕ} (he : e < 256) :
    dequantQ6KRow C p n dst (bi * 256 + e) = q6Cell C (.read (p.after (bi * 210))) e := by
  refine foldl_range_fills hbi (fun dst => ?_) (fun i _ _ dst => ?_) dst
  · exact dequantQ6KBlock_cell C dst _ _ he
  · exact quarterLoops_keeps (fun it => rfl) _ _ _ _ dst (by omega)

theorem q6KDot_eq (b : Q6KBlock) (xq8 : ℕ → Int8) (dXq : F) (qUnpack : ℕ → Int8) (acc : F) :
    q6KDot C b xq8 dXq qUnpack acc =
      some (acc + ∑ e ∈ range 256, q6Cell C b e * (dXq * ((xq8 e).toInt : F))) := by
  let a := q6KUnpack b.ql b.qh qUnpack
  let p (j l : ℕ) : ℤ := (xq8 (j * 16 + l)).toInt * (a (j * 16 + l)).toInt
  let q (j l : ℕ) : ℤ := (xq8 (j * 16 + l + 8)).toInt * (a (j * 16 + l + 8)).toInt
  have hp : ∀ j l, |p j l| ≤ 16384 := fun j l => mul_abs_le (int8_abs _) (int8_abs _)
  have hq : ∀ j l, |q j l| ≤ 16384 := fun j l => mul_abs_le (int8_abs _) (int8_abs _)
  have hp₀ : ∀ j < 16, |(b.scales j).toInt * ∑ l ∈ range 8, p j l| ≤ 128 * 131072 :=
    fun j _ => mul_abs_le (int8_abs _) (sum_abs_le fun l _ => hp j l)
  have hp₁ : ∀ j < 16, |(b.scales j).toInt * ∑ l ∈ range 8, q j l| ≤ 128 * 131072 :=
    fun j _ => mul_abs_le (int8_abs _) (sum_abs_le fun l _ => hq j l)
  have hloop := forUp_congr (n := 16) (f := fun j s => do
      let l ← forUp 8 (fun l s => do
        let l0 ← mac s.1 (xq8 (j * 16 + l)).toInt (a (j * 16 + l)).toInt
        let l1 ← mac s.2 (xq8 (j * 16 + l + 8)).toInt (a (j * 16 + l + 8)).toInt
        some (l0, l1)) (0, 0)
      let acc0 ← mac s.1 (b.scales j).toInt l.1
      let acc1 ← mac s.2 (b.scales j).toInt l.2
      some (acc0, acc1))
    (g := fun j s => do
      let acc0 ← mac s.1 (b.scales j).toInt (∑ l ∈ range 8, p j l)
      let acc1 ← mac s.2 (b.scales j).toInt (∑ l ∈ range 8, q j l)
      some (acc0, acc1)) (fun j _ => by
    rw [forUp_mac_pair (fun l _ => hp j l) (fun l _ => hq j l) (by norm_num)]
    rfl) (0, 0)
  have hsum := int32_eq (lt_of_le_of_lt ((abs_add_le _ _).trans (add_le_add (sum_abs_le hp₀) (sum_abs_le hp₁)))
    (by norm_num))
  rw [q6KDot, hloop, forUp_mac_pair hp₀ hp₁ (by norm_num)]
  simp only [hsum, Option.bind_eq_bind, Option.bind_some]
  rw [add_comm, sum_range_mul 16 16, ← sum_add_distrib]
  push_cast
  rw [mul_sum]
  refine congrArg (fun x => some (acc + x)) (sum_congr rfl fun j hj => ?_)
  have hj : j < 16 := mem_range.1 hj
  have hcell : ∀ l < 16, q6Cell C b (j * 16 + l) * (dXq * ((xq8 (j * 16 + l)).toInt : F)) =
      C.f16ToF32 b.d * dXq * ((b.scales j).toInt : F) * (p j l : F) := by
    intro l hl
    have ha : int8 (q6At b.ql b.qh (j * 16 + l)) = (a (j * 16 + l)).toInt := by
      simp only [a, q6KUnpack_cell b.ql b.qh qUnpack (show j * 16 + l < 256 by omega), int8]
    rw [q6Cell, ha, show (j * 16 + l) / 16 = j by omega]
    simp only [p]
    push_cast
    ring
  rw [sum_congr rfl fun l hl => hcell l (mem_range.1 hl), sum_range_add _ 8 8, ← mul_sum, ← mul_sum]
  have hq' : ∀ l, (p j (8 + l) : F) = (q j l : F) := fun l => by
    simp only [p, q, Nat.add_comm 8, Nat.add_assoc]
  rw [sum_congr rfl fun l _ => hq' l]
  ring

/-! ### `IQ3_S` -/

theorem iq3sGrid_le (i j : ℕ) (hj : j < 4) : iq3sGrid i j ≤ 15 := by
  have htable : ∀ x ∈ ggmlIq3sGrid, ∀ j < 4, (x >>> (8 * j)) % 256 ≤ 15 := by decide +kernel
  rw [iq3sGrid, List.getD_eq_getElem?_getD]
  cases hx : ggmlIq3sGrid[i]? with
  | none => simp
  | some x => exact htable x (List.mem_of_getElem? hx) j hj

/-- Quant `e` of a group of 32. -/
def iq3sAt (qs signs : Bytes) (qh : UInt8) (e : ℕ) : ℤ :=
  let grid : ℤ := if e % 8 < 4 then iq3sGrid1 qs qh (e / 8) (e % 8) else iq3sGrid2 qs qh (e / 8) (e % 8 - 4)
  if (signs (e / 8)).toNat &&& kmaskIq2xs (e % 8) ≠ 0 then -grid else grid

theorem iq3sAt_abs (qs signs : Bytes) (qh : UInt8) (e : ℕ) : |iq3sAt qs signs qh e| ≤ 15 := by
  simp only [iq3sAt]
  split_ifs with h₀ h₁ h₁
  · rw [abs_neg]
    exact natCast_abs_le (iq3sGrid_le _ _ h₁)
  · rw [abs_neg]
    exact natCast_abs_le (iq3sGrid_le _ _ (by omega))
  · exact natCast_abs_le (iq3sGrid_le _ _ h₁)
  · exact natCast_abs_le (iq3sGrid_le _ _ (by omega))

theorem int8_eq {x : ℤ} (h : |x| ≤ 127) : int8 x = x := by
  obtain ⟨hlo, hhi⟩ := abs_le.1 h
  exact Int8.toInt_ofInt_of_le (by norm_num; omega) (by norm_num; omega)

theorem int8_grid (i : ℕ) {j : ℕ} (hj : j < 4) : int8 (iq3sGrid i j) = iq3sGrid i j :=
  int8_eq ((natCast_abs_le (iq3sGrid_le i j hj)).trans (by norm_num))

theorem iq3sUnpackHalf_cell (qs signs : Bytes) (qh : UInt8) (ap : ℕ) (a : ℕ → Int8) {e : ℕ} (he : e < 32) :
    iq3sUnpackHalf qs signs qh ap a (ap + e) = Int8.ofInt (iq3sAt qs signs qh e) := by
  refine foldl_range_fills (j := e / 8) (by omega) (fun a => ?_) (fun l hl hne a => ?_) a
  · by_cases hlow : e % 8 < 4
    · refine foldl_range_fills hlow (fun a => ?_) (fun j hj hne a => ?_) a
      · simp only []
        rw [Function.update_of_ne (by omega), show ap + e / 8 * 8 + e % 8 = ap + e by omega, Function.update_self,
          iq3sAt, if_pos hlow, iq3sGrid1, int8_grid _ hlow]
      · simp only []
        rw [Function.update_of_ne (by omega), Function.update_of_ne (by omega)]
    · have hhigh : e % 8 - 4 < 4 := by omega
      refine foldl_range_fills hhigh (fun a => ?_) (fun j hj hne a => ?_) a
      · simp only []
        rw [show ap + e / 8 * 8 + (e % 8 - 4) + 4 = ap + e by omega, Function.update_self,
          show e % 8 - 4 + 4 = e % 8 by omega, iq3sAt, if_neg hlow, iq3sGrid2, int8_grid _ hhigh]
      · simp only []
        rw [Function.update_of_ne (by omega), Function.update_of_ne (by omega)]
  · refine foldl_range_keeps (fun j hj a => ?_) a
    simp only []
    rw [Function.update_of_ne (by omega), Function.update_of_ne (by omega)]

theorem iq3sUnpackHalf_keeps (qs signs : Bytes) (qh : UInt8) (ap : ℕ) (a : ℕ → Int8) {c : ℕ}
    (hc : c < ap ∨ ap + 32 ≤ c) : iq3sUnpackHalf qs signs qh ap a c = a c := by
  refine foldl_range_keeps (fun l hl a => ?_) a
  refine foldl_range_keeps (fun j hj a => ?_) a
  simp only []
  rw [Function.update_of_ne (by omega), Function.update_of_ne (by omega)]

/-- Quant `e` of group `g`. -/
def iq3sQuant (b : Iq3SBlock) (g e : ℕ) : ℤ := iq3sAt (b.qs.after (g * 8)) (b.signs.after (g * 4)) (b.qh g) e

theorem iq3sUnpack_cell (b : Iq3SBlock) (a : ℕ → Int8) {g e : ℕ} (hg : g < 8) (he : e < 32) :
    (iq3sUnpackI8Generic b a (g * 32 + e)).toInt = iq3sQuant b g e := by
  have hcell : iq3sUnpackI8Generic b a (g * 32 + e) = Int8.ofInt (iq3sQuant b g e) := by
    refine foldl_range_fills (j := g / 2) (by omega) (fun a => ?_) (fun it hit hne a => ?_) a
    · by_cases hodd : g % 2 = 1
      · rw [show g * 32 + e = g / 2 * 64 + 32 + e by omega, iq3sUnpackHalf_cell _ _ _ _ _ he, iq3sQuant,
          show g / 2 * 16 + 8 = g * 8 by omega, show g / 2 * 8 + 4 = g * 4 by omega, show g / 2 * 2 + 1 = g by omega]
      · rw [iq3sUnpackHalf_keeps _ _ _ _ _ (by omega), show g * 32 + e = g / 2 * 64 + e by omega,
          iq3sUnpackHalf_cell _ _ _ _ _ he, iq3sQuant, show g / 2 * 16 = g * 8 by omega,
          show g / 2 * 8 = g * 4 by omega, show g / 2 * 2 = g by omega]
    · rw [iq3sUnpackHalf_keeps _ _ _ _ _ (by omega), iq3sUnpackHalf_keeps _ _ _ _ _ (by omega)]
  rw [hcell]
  exact int8_eq ((iq3sAt_abs _ _ _ e).trans (by norm_num))

/-- The value of quant `e` of group `g`. -/
def iq3sCell (b : Iq3SBlock) (g e : ℕ) : F :=
  C.f16ToF32 b.d * ((iq3sScale b.scales g : ℤ) : F) * ((iq3sQuant b g e : ℤ) : F)

theorem dequantIq3SHalf_cell (dst : ℕ → F) (qs signs : Bytes) (qh : UInt8) (db : F) (y : ℕ) {e : ℕ} (he : e < 32) :
    dequantIq3SHalf dst qs signs qh db y (y + e) = db * ((iq3sAt qs signs qh e : ℤ) : F) := by
  refine foldl_range_fills (j := e / 8) (by omega) (fun a => ?_) (fun l hl hne a => ?_) dst
  · refine foldl_range_fills (j := e % 8) (by omega) (fun a => ?_) (fun j hj hne a => ?_) a
    · rw [show y + e / 8 * 8 + e % 8 = y + e by omega, Function.update_self, iq3sAt]
      split_ifs <;> push_cast <;> ring
    · rw [Function.update_of_ne (by omega)]
  · refine foldl_range_keeps (fun j hj a => ?_) a
    rw [Function.update_of_ne (by omega)]

theorem dequantIq3SHalf_keeps (dst : ℕ → F) (qs signs : Bytes) (qh : UInt8) (db : F) (y : ℕ) {c : ℕ}
    (hc : c < y ∨ y + 32 ≤ c) : dequantIq3SHalf dst qs signs qh db y c = dst c := by
  refine foldl_range_keeps (fun l hl a => ?_) dst
  refine foldl_range_keeps (fun j hj a => ?_) a
  rw [Function.update_of_ne (by omega)]

theorem dequantIq3SBlock_cell (dst : ℕ → F) (b : Iq3SBlock) (y : ℕ) {g e : ℕ} (hg : g < 8) (he : e < 32) :
    dequantIq3SBlock C dst b y (y + (g * 32 + e)) = iq3sCell C b g e := by
  refine foldl_range_fills (j := g / 2) (by omega) (fun dst => ?_) (fun it hit hne dst => ?_) dst
  · by_cases hodd : g % 2 = 1
    · have hscale : iq3sScale b.scales g = 1 + 2 * high (b.scales (g / 2)) := by
        rw [iq3sScale, Nat.and_one_is_mod, hodd, if_pos one_ne_zero]
      rw [show y + (g * 32 + e) = y + g / 2 * 64 + 32 + e by omega, dequantIq3SHalf_cell _ _ _ _ _ _ he, iq3sCell,
        iq3sQuant, hscale, show g / 2 * 16 + 8 = g * 8 by omega, show g / 2 * 8 + 4 = g * 4 by omega,
        show g / 2 * 2 + 1 = g by omega]
      push_cast
      ring
    · have hscale : iq3sScale b.scales g = 1 + 2 * low (b.scales (g / 2)) := by
        rw [iq3sScale, Nat.and_one_is_mod, if_neg (by omega)]
      rw [dequantIq3SHalf_keeps _ _ _ _ _ _ (by omega), show y + (g * 32 + e) = y + g / 2 * 64 + e by omega,
        dequantIq3SHalf_cell _ _ _ _ _ _ he, iq3sCell, iq3sQuant, hscale, show g / 2 * 16 = g * 8 by omega,
        show g / 2 * 8 = g * 4 by omega, show g / 2 * 2 = g by omega]
      push_cast
      ring
  · rw [dequantIq3SHalf_keeps _ _ _ _ _ _ (by omega), dequantIq3SHalf_keeps _ _ _ _ _ _ (by omega)]

theorem dequantIq3SRow_cell (p : Bytes) {n bi : ℕ} (hbi : bi < n) (dst : ℕ → F) {e : ℕ} (he : e < 256) :
    dequantIq3SRow C p n dst (bi * 256 + e) = iq3sCell C (.read (p.after (bi * 110))) (e / 32) (e % 32) := by
  refine foldl_range_fills hbi (fun dst => ?_) (fun i _ hne dst => ?_) dst
  · rw [← dequantIq3SBlock_cell C dst _ _ (show e / 32 < 8 by omega) (show e % 32 < 32 by omega),
      show e / 32 * 32 + e % 32 = e by omega]
  · refine foldl_range_keeps (fun it hit dst => ?_) dst
    rw [dequantIq3SHalf_keeps _ _ _ _ _ _ (by omega), dequantIq3SHalf_keeps _ _ _ _ _ _ (by omega)]

theorem iq3SDot_eq (b : Iq3SBlock) (yb : Q8KBlock F) (a : ℕ → Int8) (acc : F) :
    iq3SDot C b yb a acc =
      some (acc + ∑ e ∈ range 256, iq3sCell C b (e / 32) (e % 32) * (yb.d * ((yb.qs e).toInt : F))) := by
  let p (g j : ℕ) : ℤ := (iq3sUnpackI8Generic b a (g * 32 + j)).toInt * (yb.qs (g * 32 + j)).toInt
  have hp : ∀ g j, |p g j| ≤ 16384 := fun g j => mul_abs_le (int8_abs _) (int8_abs _)
  have hscale : ∀ g, |iq3sScale b.scales g| ≤ 31 := by
    intro g
    have hlow := low_le (b.scales (g / 2))
    have hhigh := high_le (b.scales (g / 2))
    rw [iq3sScale]
    split_ifs <;> exact abs_le.2 ⟨by omega, by omega⟩
  have hs : ∀ g < 8, |iq3sScale b.scales g * ∑ j ∈ range 32, p g j| ≤ 31 * (32 * 16384) :=
    fun g _ => mul_abs_le (hscale g) (sum_abs_le fun j _ => hp g j)
  have hloop := forUp_congr (n := 8) (f := fun g s => do
      let groupSum ← forUp 32 (fun j s =>
        mac s (iq3sUnpackI8Generic b a (g * 32 + j)).toInt (yb.qs (g * 32 + j)).toInt) 0
      mac s (iq3sScale b.scales g) groupSum)
    (g := fun g s => mac s (iq3sScale b.scales g) (∑ j ∈ range 32, p g j)) (fun g _ => by
      rw [forUp_mac (fun j _ => hp g j) (by norm_num)]
      rfl) 0
  rw [iq3SDot, hloop, forUp_mac hs (by norm_num), Option.bind_eq_bind, Option.bind_some, add_comm,
    sum_range_mul 8 32]
  push_cast
  rw [mul_sum]
  refine congrArg (fun x => some (acc + x)) (sum_congr rfl fun g hg => ?_)
  have hg : g < 8 := mem_range.1 hg
  rw [mul_sum, mul_sum]
  refine sum_congr rfl fun j hj => ?_
  have hj : j < 32 := mem_range.1 hj
  rw [show (g * 32 + j) / 32 = g by omega, show (g * 32 + j) % 32 = j by omega, iq3sCell]
  simp only [p, iq3sUnpack_cell b a hg hj]
  push_cast
  ring

end Kappai.Quants
