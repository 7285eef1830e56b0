import Mathlib.Algebra.BigOperators.Ring.Finset
import Mathlib.Data.Nat.Notation
import Mathlib.Tactic.Abel
import Mathlib.Tactic.Linarith
import Mathlib.Tactic.Ring
import Kappai.Lib.Loop

/-! Two-dimensional convolutions with zero padding, of images that are enlarged by repetition, in exact
arithmetic. -/

namespace Kappai.DirectConv

open Finset

variable {R : Type*} [CommRing R]

/-- An image with its channels, by row and column. -/
abbrev Image (R : Type*) := ℕ → ℕ → ℕ → R

/-- An entry of an image with zeros around it. -/
def padded (height width : ℕ) (img : Image R) (y x : ℤ) (c : ℕ) : R :=
  if 0 ≤ y ∧ y < height ∧ 0 ≤ x ∧ x < width then img y.toNat x.toNat c else 0

/-- Every pixel repeated `2 ^ shift` times in both directions. -/
def enlarge (shift : ℕ) (img : Image R) : Image R := fun y x c => img (y / 2 ^ shift) (x / 2 ^ shift) c

/-- The convolution with a kernel of `k` rows and columns around the pixel. -/
def conv (k channels height width : ℕ) (kernel : ℕ → ℕ → ℕ → R) (img : Image R) (y x : ℕ) : R :=
  ∑ ky ∈ range k, ∑ kx ∈ range k, ∑ c ∈ range channels,
    kernel c ky kx * padded height width img (y + ky - ((k - 1) / 2 : ℕ)) (x + kx - ((k - 1) / 2 : ℕ)) c

theorem conv_congr {k channels height width : ℕ} {kernel kernel' : ℕ → ℕ → ℕ → R} {img : Image R}
    (h : ∀ c < channels, ∀ ky < k, ∀ kx < k, kernel c ky kx = kernel' c ky kx) (y x : ℕ) :
    conv k channels height width kernel img y x = conv k channels height width kernel' img y x :=
  sum_congr rfl fun ky hky => sum_congr rfl fun kx hkx => sum_congr rfl fun c hc => by
    rw [h c (mem_range.1 hc) ky (mem_range.1 hky) kx (mem_range.1 hkx)]

/-- A convolution sees nothing outside of the image. -/
theorem conv_congr_image {k channels height width : ℕ} {kernel : ℕ → ℕ → ℕ → R} {img img' : Image R}
    (h : ∀ y < height, ∀ x < width, ∀ c < channels, img y x c = img' y x c) (y x : ℕ) :
    conv k channels height width kernel img y x = conv k channels height width kernel img' y x :=
  sum_congr rfl fun ky _ => sum_congr rfl fun kx _ => sum_congr rfl fun c hc => by
    simp only [padded]
    split_ifs with hin
    · rw [h _ (by omega) _ (by omega) c (mem_range.1 hc)]
    · rfl

/-- The product of a row of weights with a patch is a convolution, if both list the channels of one place
after those of the other. -/
theorem sum_patch (k channels : ℕ) (f : ℕ → R) (g : ℕ → ℕ → ℕ → R)
    (h : ∀ ky < k, ∀ kx < k, ∀ c < channels, f ((ky * k + kx) * channels + c) = g ky kx c) :
    ∑ j ∈ range (k * k * channels), f j = ∑ ky ∈ range k, ∑ kx ∈ range k, ∑ c ∈ range channels, g ky kx c := by
  rw [Checked.sum_range_mul (k * k) channels, Checked.sum_range_mul k k]
  exact sum_congr rfl fun ky hky => sum_congr rfl fun kx hkx => sum_congr rfl fun c hc =>
    h ky (mem_range.1 hky) kx (mem_range.1 hkx) c (mem_range.1 hc)

/-- A convolution with one place is a product with the pixel. -/
theorem conv_one (channels height width : ℕ) (kernel : ℕ → ℕ → ℕ → R) (img : Image R) {y x : ℕ} (hy : y < height)
    (hx : x < width) :
    conv 1 channels height width kernel img y x = ∑ c ∈ range channels, kernel c 0 0 * img y x c := by
  have hin : 0 ≤ ((y : ℤ) + (0 : ℕ) - ((1 - 1) / 2 : ℕ)) ∧ ((y : ℤ) + (0 : ℕ) - ((1 - 1) / 2 : ℕ)) < height ∧
      0 ≤ ((x : ℤ) + (0 : ℕ) - ((1 - 1) / 2 : ℕ)) ∧ ((x : ℤ) + (0 : ℕ) - ((1 - 1) / 2 : ℕ)) < width := by omega
  simp only [conv, sum_range_one, padded, if_pos hin]
  exact sum_congr rfl fun c _ => by congr 2

/-! ### A kernel is known from its results -/

/-- The places of one direction that see the pixel `a`, of two, from the enlarged pixel `y`. -/
def Sees (shift y k a : ℕ) : Prop :=
  0 ≤ (y : ℤ) + k - 1 ∧ (y : ℤ) + k - 1 < 2 * 2 ^ shift ∧ ((y : ℤ) + k - 1).toNat / 2 ^ shift = a

instance (shift y k a : ℕ) : Decidable (Sees shift y k a) := inferInstanceAs (Decidable (_ ∧ _ ∧ _))

theorem sees_near {shift k : ℕ} (hk : k < 3) :
    (Sees shift (2 ^ shift) k 0 ↔ k = 0) ∧ (Sees shift (2 ^ shift - 1) k 1 ↔ k = 2) := by
  have hpos : 0 < 2 ^ shift := Nat.two_pow_pos shift
  generalize hn : 2 ^ shift = n at hpos
  have hcast : (2 : ℤ) ^ shift = n := by rw [← hn]; push_cast; rfl
  simp only [Sees, hcast, hn]
  constructor
  · constructor
    · rintro ⟨h0, -, hdiv⟩
      rcases Nat.div_eq_zero_iff.1 hdiv with h | h <;> omega
    · rintro rfl
      exact ⟨by omega, by omega, Nat.div_eq_of_lt (by omega)⟩
  · constructor
    · rintro ⟨h0, -, hdiv⟩
      by_contra hne
      rw [Nat.div_eq_of_lt (by omega)] at hdiv
      omega
    · rintro rfl
      refine ⟨by omega, by omega, ?_⟩
      rw [show ((n - 1 : ℕ) : ℤ) + (2 : ℕ) - 1 = n by omega, Int.toNat_natCast, Nat.div_self hpos]

/-- The place in the middle is seen beside the last one, or alone where nothing is enlarged. -/
theorem sees_middle {shift k : ℕ} (hk : k < 3) :
    Sees shift (2 ^ shift) k 1 ↔ k = 1 ∨ k = 2 ∧ shift ≠ 0 := by
  have hpos : 0 < 2 ^ shift := Nat.two_pow_pos shift
  have hone : 2 ^ shift = 1 ↔ shift = 0 := by
    constructor
    · intro h
      by_contra hne
      have := Nat.one_lt_two_pow hne
      omega
    · rintro rfl
      rfl
  generalize hn : 2 ^ shift = n at hpos hone
  have hcast : (2 : ℤ) ^ shift = n := by rw [← hn]; push_cast; rfl
  simp only [Sees, hcast, hn]
  constructor
  · rintro ⟨h0, hlt, hdiv⟩
    have hk0 : k ≠ 0 := by
      rintro rfl
      rw [Nat.div_eq_of_lt (by omega)] at hdiv
      omega
    by_cases hk1 : k = 1
    · exact .inl hk1
    · exact .inr ⟨by omega, fun h => by have := hone.2 h; omega⟩
  · rintro (rfl | ⟨rfl, hshift⟩)
    · refine ⟨by omega, by omega, ?_⟩
      rw [show (n : ℤ) + (1 : ℕ) - 1 = n by omega, Int.toNat_natCast, Nat.div_self hpos]
    · have hn1 : n ≠ 1 := fun h => hshift (hone.1 h)
      refine ⟨by omega, by omega, ?_⟩
      rw [show (n : ℤ) + (2 : ℕ) - 1 = (n + 1 : ℕ) by omega, Int.toNat_natCast]
      exact Nat.div_eq_of_lt_le (by omega) (by omega)

/-- Three numbers whose sums over what is seen of two pixels vanish are zero. -/
theorem eq_zero_of_sees (shift : ℕ) {v : ℕ → R}
    (h : ∀ y < 2 * 2 ^ shift, ∀ a < 2, (∑ k ∈ range 3, if Sees shift y k a then v k else 0) = 0) {k : ℕ}
    (hk : k < 3) : v k = 0 := by
  have hpos : 0 < 2 ^ shift := Nat.two_pow_pos shift
  have h0 := h (2 ^ shift) (by omega) 0 (by omega)
  have h1 := h (2 ^ shift) (by omega) 1 (by omega)
  have h2 := h (2 ^ shift - 1) (by omega) 1 (by omega)
  simp only [sum_range_succ, sum_range_zero, zero_add, (sees_near (by omega : 0 < 3)).1,
    (sees_near (by omega : 1 < 3)).1, (sees_near (by omega : 2 < 3)).1, (sees_near (by omega : 0 < 3)).2,
    (sees_near (by omega : 1 < 3)).2, (sees_near (by omega : 2 < 3)).2, sees_middle (by omega : 0 < 3),
    sees_middle (by omega : 1 < 3), sees_middle (by omega : 2 < 3)] at h0 h1 h2
  have hv0 : v 0 = 0 := by simpa using h0
  have hv2 : v 2 = 0 := by simpa using h2
  have hv1 : v 1 = 0 := by simpa [hv2] using h1
  obtain rfl | rfl | rfl : k = 0 ∨ k = 1 ∨ k = 2 := by omega
  · exact hv0
  · exact hv1
  · exact hv2

/-- The image of one channel with one pixel set. -/
def point (a b c : ℕ) : Image R := fun y x ch => if y = a ∧ x = b ∧ ch = c then 1 else 0

theorem padded_point {shift y x ky kx a b c ch : ℕ} :
    padded (2 * 2 ^ shift) (2 * 2 ^ shift) (enlarge shift (point a b c : Image R)) ((y : ℤ) + ky - 1)
      ((x : ℤ) + kx - 1) ch = if Sees shift y ky a ∧ Sees shift x kx b ∧ ch = c then 1 else 0 := by
  simp only [padded, enlarge, point, Sees, ← ite_and]
  refine if_congr ?_ rfl rfl
  push_cast
  tauto

theorem conv_point {shift channels y x a b c : ℕ} (hc : c < channels) (kernel : ℕ → ℕ → ℕ → R) :
    conv 3 channels (2 * 2 ^ shift) (2 * 2 ^ shift) kernel (enlarge shift (point a b c)) y x =
      ∑ ky ∈ range 3, if Sees shift y ky a then
        ∑ kx ∈ range 3, (if Sees shift x kx b then kernel c ky kx else 0) else 0 := by
  refine sum_congr rfl fun ky _ => ?_
  have hentry : ∀ kx, (∑ ch ∈ range channels, kernel ch ky kx * padded (2 * 2 ^ shift) (2 * 2 ^ shift)
      (enlarge shift (point a b c)) ((y : ℤ) + ky - ((3 - 1) / 2 : ℕ)) ((x : ℤ) + kx - ((3 - 1) / 2 : ℕ)) ch) =
      if Sees shift y ky a ∧ Sees shift x kx b then kernel c ky kx else 0 := by
    intro kx
    rw [sum_eq_single_of_mem c (mem_range.2 hc) fun ch _ hne => ?_]
    · rw [show (((3 - 1) / 2 : ℕ) : ℤ) = 1 from rfl, padded_point, mul_ite, mul_one, mul_zero]
      exact if_congr (by simp) rfl rfl
    · rw [show (((3 - 1) / 2 : ℕ) : ℤ) = 1 from rfl, padded_point, if_neg fun h => hne h.2.2, mul_zero]
  rw [sum_congr rfl fun kx _ => hentry kx]
  split_ifs with hy
  · exact sum_congr rfl fun kx _ => if_congr (and_iff_right hy) rfl rfl
  · exact sum_eq_zero fun kx _ => if_neg fun h => hy h.1

/-- Two kernels with the same results on every image of two by two pixels are the same. -/
theorem kernel_unique (shift channels : ℕ) (kernel kernel' : ℕ → ℕ → ℕ → R)
    (h : ∀ (img : Image R), ∀ y < 2 * 2 ^ shift, ∀ x < 2 * 2 ^ shift,
      conv 3 channels (2 * 2 ^ shift) (2 * 2 ^ shift) kernel (enlarge shift img) y x =
        conv 3 channels (2 * 2 ^ shift) (2 * 2 ^ shift) kernel' (enlarge shift img) y x)
    {c ky kx : ℕ} (hc : c < channels) (hky : ky < 3) (hkx : kx < 3) : kernel c ky kx = kernel' c ky kx := by
  have hrow : ∀ ky < 3, ∀ x < 2 * 2 ^ shift, ∀ b < 2,
      (∑ kx ∈ range 3, if Sees shift x kx b then kernel c ky kx - kernel' c ky kx else 0) = 0 := by
    intro ky hky x hx b _
    refine eq_zero_of_sees shift
      (v := fun ky => ∑ kx ∈ range 3, if Sees shift x kx b then kernel c ky kx - kernel' c ky kx else 0) ?_ hky
    intro y hy a _
    have := sub_eq_zero.2 (h (point a b c) y hy x hx)
    rw [conv_point hc, conv_point hc, ← sum_sub_distrib] at this
    refine (sum_congr rfl fun ky _ => ?_).trans this
    split_ifs
    · rw [← sum_sub_distrib]
      exact sum_congr rfl fun kx _ => by split_ifs <;> simp
    · simp
  exact sub_eq_zero.1 (eq_zero_of_sees shift (v := fun kx => kernel c ky kx - kernel' c ky kx)
    (fun x hx b hb => hrow ky hky x hx b hb) hkx)

end Kappai.DirectConv
