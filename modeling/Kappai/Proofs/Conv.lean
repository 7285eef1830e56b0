import Kappai.Lib.RowMoves
import Kappai.Spec.Conv

/-! A convolution by patches is the direct one, of the channels whose weights are loaded. -/

namespace Kappai

namespace ConvLayer

open Checked DirectConv Finset

variable {R E : Type*} [CommRing R]

/-! ### Weights -/

/-- Each element goes to its place, with the channels of one place together. -/
theorem reorder_apply {src : ℕ → E} {ic oc o c p : ℕ} (ho : o < oc) (hc : c < ic) (hp : p < 9) (dst : ℕ → E) :
    reorderConv3x3 src ic oc dst ((o * 9 + p) * ic + c) = src ((o * ic + c) * 9 + p) := by
  have hcell : ∀ o' c' p', c' < ic → p' < 9 → (o * 9 + p) * ic + c = (o' * 9 + p') * ic + c' →
      o = o' ∧ p = p' ∧ c = c' := by
    intro o' c' p' hc' hp' heq
    refine Strided.cell_inj hp hp' hc hc' (show Strided.cell 0 9 ic o p c = Strided.cell 0 9 ic o' p' c' from ?_)
    unfold Strided.cell
    linarith
  refine foldl_range_fills ho (fun dst => ?_) (fun o' _ hne dst => ?_) dst
  · refine foldl_range_fills hc (fun dst => ?_) (fun c' hc' hne dst => ?_) dst
    · refine foldl_range_fills hp (fun dst => Function.update_self _ _ _) (fun p' hp' hne dst => ?_) dst
      exact Function.update_of_ne (fun h => hne (hcell o c p' hc hp' h).2.1.symm) _ _
    · refine foldl_range_keeps (fun p' hp' dst => ?_) dst
      exact Function.update_of_ne (fun h => hne (hcell o c' p' hc' hp' h).2.2.symm) _ _
  · refine foldl_range_keeps (fun c' hc' dst => foldl_range_keeps (fun p' hp' dst => ?_) dst) dst
    exact Function.update_of_ne (fun h => hne (hcell o' c' p' hc' hp' h).1.symm) _ _

variable {decode : WeightType → E → R} {t : GgufTensor E} {bias : ℕ → R} {ic oc rowBegin rows : ℕ}

omit [CommRing R] in
theorem convLoad_three (hdims : t.dims = [3, 3, ic, oc]) (fresh : ℕ → E) :
    convLoad t bias rowBegin rows fresh = ⟨t.type, reorderConv3x3 t.data ic (ocOf t rows) fresh,
      fun i => bias (rowBegin + i), ic, ocOf t rows, 3⟩ := by
  simp [convLoad, hdims]

omit [CommRing R] in
theorem convLoad_one (hdims : t.dims = [1, 1, ic, oc] ∨ t.dims = [ic, oc]) (fresh : ℕ → E) :
    convLoad t bias rowBegin rows fresh = ⟨t.type, fun j => t.data (rowBegin * ic + j),
      fun i => bias (rowBegin + i), ic, ocOf t rows, 1⟩ := by
  rcases hdims with h | h <;> simp [convLoad, h]

/-! ### Patches -/

/-- What a cell of the patches of the pixels from `first` on holds. -/
def patchCell (h w shift ic first : ℕ) (inp : List R) (cell : ℕ) : R :=
  let pixel := first + cell / ic / 9
  let place := cell / ic % 9
  padded (h * 2 ^ shift) (w * 2 ^ shift) (enlarge shift (imageOf inp w ic))
    ((pixel / (w * 2 ^ shift) : ℕ) + (place / 3 : ℕ) - 1) ((pixel % (w * 2 ^ shift) : ℕ) + (place % 3 : ℕ) - 1)
    (cell % ic)

theorem patchCell_eq (h w shift first r : ℕ) {ic ky kx c : ℕ} (inp : List R) (hky : ky < 3) (hkx : kx < 3) (hc : c < ic) :
    patchCell h w shift ic first inp ((r * 9 + (ky * 3 + kx)) * ic + c) =
      padded (h * 2 ^ shift) (w * 2 ^ shift) (enlarge shift (imageOf inp w ic))
        (((first + r) / (w * 2 ^ shift) : ℕ) + ky - 1) (((first + r) % (w * 2 ^ shift) : ℕ) + kx - 1) c := by
  have hdiv : ((r * 9 + (ky * 3 + kx)) * ic + c) / ic = r * 9 + (ky * 3 + kx) := by
    rw [Nat.add_comm, Nat.add_mul_div_right _ _ (by omega), Nat.div_eq_of_lt hc, Nat.zero_add]
  have hmod : ((r * 9 + (ky * 3 + kx)) * ic + c) % ic = c := by
    rw [Nat.add_comm, Nat.add_mul_mod_self_right, Nat.mod_eq_of_lt hc]
  have hrow : (r * 9 + (ky * 3 + kx)) / 9 = r := by omega
  have hplace : (r * 9 + (ky * 3 + kx)) % 9 = ky * 3 + kx := by omega
  have hy : (ky * 3 + kx) / 3 = ky := by omega
  have hx : (ky * 3 + kx) % 3 = kx := by omega
  simp only [patchCell, hdiv, hmod, hrow, hplace, hy, hx]

/-- The place of a pixel that is looked at is outside of the image in both coordinate systems or in neither. -/
theorem shiftRight_inside (s : ℤ) (n shift : ℕ) : s >>> shift ≥ n ↔ ¬ s < (n * 2 ^ shift : ℕ) := by
  rw [Int.shiftRight_eq_div_pow, ge_iff_le, Int.le_ediv_iff_mul_le (by positivity), not_lt]
  push_cast
  rfl

theorem shiftRight_toNat {s : ℤ} (h0 : 0 ≤ s) (shift : ℕ) : s >>> shift = (s.toNat / 2 ^ shift : ℕ) := by
  obtain ⟨n, rfl⟩ := Int.eq_ofNat_of_zero_le h0
  rw [Int.shiftRight_eq_div_pow]
  norm_cast

variable {h w shift : ℕ} {inp : List R}

theorem im2colPlace_eq {first n r ky kx : ℕ} (hlen : inp.length = h * w * ic) (hky : ky < 3) (hkx : kx < 3)
    (col : ℕ → R) :
    im2colPlace ⟨first, n, w * 2 ^ shift, h, w, ic, shift⟩ inp r ky kx col =
      some (putRange col ((r * 9 + (ky * 3 + kx)) * ic) ((r * 9 + (ky * 3 + kx)) * ic + ic)
        (patchCell h w shift ic first inp)) := by
  have hcell : ∀ c < ic, _ := fun c hc =>
    patchCell_eq h w shift first r inp hky hkx hc
  simp only [im2colPlace]
  generalize (((first + r) / (w * 2 ^ shift) : ℕ) : ℤ) + ky - 1 = sy at hcell ⊢
  generalize (((first + r) % (w * 2 ^ shift) : ℕ) : ℤ) + kx - 1 = sx at hcell ⊢
  by_cases hin : 0 ≤ sy ∧ sy < (h * 2 ^ shift : ℕ) ∧ 0 ≤ sx ∧ sx < (w * 2 ^ shift : ℕ)
  · obtain ⟨hy0, hy, hx0, hx⟩ := id hin
    have hinside : ¬ (sy < 0 ∨ sx < 0 ∨ sy >>> shift ≥ (h : ℤ) ∨ sx >>> shift ≥ (w : ℤ)) := by
      rw [shiftRight_inside, shiftRight_inside]
      omega
    rw [if_neg hinside, shiftRight_toNat hy0, shiftRight_toNat hx0]
    have ha : sy.toNat / 2 ^ shift < h := Nat.div_lt_of_lt_mul (by rw [Nat.mul_comm]; omega)
    have hb : sx.toNat / 2 ^ shift < w := Nat.div_lt_of_lt_mul (by rw [Nat.mul_comm]; omega)
    simp only [padded, if_pos hin, enlarge, imageOf] at hcell
    generalize sy.toNat / 2 ^ shift = a at ha hcell ⊢
    generalize sx.toNat / 2 ^ shift = b at hb hcell ⊢
    have hfit : (a * w + b) * ic + ic ≤ h * w * ic := by
      have hrow : a * w + b + 1 ≤ h * w := by
        have := Nat.mul_le_mul_right w (Nat.succ_le_of_lt ha)
        rw [Nat.succ_mul] at this
        omega
      calc (a * w + b) * ic + ic = (a * w + b + 1) * ic := by ring
        _ ≤ h * w * ic := Nat.mul_le_mul_right ic hrow
    have hsrc : (0 : ℤ) ≤ ((a : ℤ) * w + b) * ic ∧ ((a : ℤ) * w + b) * ic + ic ≤ inp.length := by
      rw [hlen]
      exact ⟨by positivity, by exact_mod_cast hfit⟩
    rw [copyIn, if_pos hsrc]
    refine congrArg some (putRange_congr col fun c hc => ?_)
    rw [hcell c hc, Nat.add_sub_cancel_left]
    congr 2
  · have houtside : sy < 0 ∨ sx < 0 ∨ sy >>> shift ≥ (h : ℤ) ∨ sx >>> shift ≥ (w : ℤ) := by
      rw [shiftRight_inside, shiftRight_inside]
      omega
    rw [if_pos houtside]
    refine congrArg some (putRange_congr col fun c hc => ?_)
    rw [hcell c hc, padded, if_neg hin]

/-- The patches of the pixels from `first` on, one after the other. -/
theorem im2col3x3_eq {first n : ℕ} (hlen : inp.length = h * w * ic) (col : ℕ → R) :
    im2col3x3 ⟨first, n, w * 2 ^ shift, h, w, ic, shift⟩ inp col =
      some (putRange col 0 (n * 9 * ic) (patchCell h w shift ic first inp)) := by
  have hjoin : ∀ a b c : ℕ, a ≤ b → b ≤ c →
      putRange (putRange col 0 (a * ic) (patchCell h w shift ic first inp)) (a * ic) (b * ic)
          (patchCell h w shift ic first inp) =
        putRange col 0 (b * ic) (patchCell h w shift ic first inp) := fun a b _ hab _ =>
    putRange_putRange col _ (Nat.zero_le _) (Nat.mul_le_mul_right ic hab)
  have hrow : ∀ r ky, ky < 3 →
      forUp 3 (fun kx => im2colPlace ⟨first, n, w * 2 ^ shift, h, w, ic, shift⟩ inp r ky kx)
          (putRange col 0 ((r * 9 + ky * 3) * ic) (patchCell h w shift ic first inp)) =
        some (putRange col 0 ((r * 9 + (ky + 1) * 3) * ic) (patchCell h w shift ic first inp)) := by
    intro r ky hky
    rw [show (ky + 1) * 3 = ky * 3 + 3 by ring]
    refine forUp_eq (fun kx => putRange col 0 ((r * 9 + (ky * 3 + kx)) * ic) (patchCell h w shift ic first inp))
      (n := 3) fun kx hkx => ?_
    rw [im2colPlace_eq hlen hky hkx, ← Nat.succ_mul]
    exact congrArg some (hjoin _ _ _ (Nat.le_succ _) (Nat.le_refl _))
  have hpixel : ∀ r, forUp 3 (fun ky => forUp 3 fun kx =>
        im2colPlace ⟨first, n, w * 2 ^ shift, h, w, ic, shift⟩ inp r ky kx)
          (putRange col 0 (r * 9 * ic) (patchCell h w shift ic first inp)) =
        some (putRange col 0 ((r + 1) * 9 * ic) (patchCell h w shift ic first inp)) := by
    intro r
    have := forUp_eq (f := fun ky => forUp 3 fun kx =>
        im2colPlace ⟨first, n, w * 2 ^ shift, h, w, ic, shift⟩ inp r ky kx)
      (fun ky => putRange col 0 ((r * 9 + ky * 3) * ic) (patchCell h w shift ic first inp)) (n := 3)
      fun ky hky => hrow r ky hky
    rw [Nat.succ_mul]
    exact this
  have hrun := forUp_eq (f := fun r => forUp 3 fun ky => forUp 3 fun kx =>
      im2colPlace ⟨first, n, w * 2 ^ shift, h, w, ic, shift⟩ inp r ky kx)
    (fun r => putRange col 0 (r * 9 * ic) (patchCell h w shift ic first inp)) (n := n) fun r _ => hpixel r
  simp only [Nat.zero_mul, putRange_self] at hrun
  exact hrun

/-! ### Runs -/

theorem addBias_matmulBatch (w x y bias : ℕ → R) (base n k m : ℕ) :
    addBias (matmulBatch w x y base n k m) bias base m n = putRange y base (base + m * n) fun c =>
      (∑ j ∈ range k, w ((c - base) % n * k + j) * x ((c - base) / n * k + j)) + bias ((c - base) % n) := by
  funext i
  simp only [addBias, matmulBatch, putRange]
  split_ifs <;> rfl

/-- A row of reordered weights times a patch. -/
theorem patch_product {first n r o : ℕ} (ho : o < oc) (hr : r < n) (fresh : ℕ → E) (col : ℕ → R) :
    ∑ j ∈ range (9 * ic), decode t.type (reorderConv3x3 t.data ic oc fresh (o * (9 * ic) + j)) *
        putRange col 0 (n * 9 * ic) (patchCell h w shift ic first inp) (r * (9 * ic) + j) =
      conv 3 ic (h * 2 ^ shift) (w * 2 ^ shift) (weightOf decode t 3 ic o) (enlarge shift (imageOf inp w ic))
        ((first + r) / (w * 2 ^ shift)) ((first + r) % (w * 2 ^ shift)) := by
  refine sum_patch 3 ic _ (fun ky kx c => weightOf decode t 3 ic o c ky kx *
    padded (h * 2 ^ shift) (w * 2 ^ shift) (enlarge shift (imageOf inp w ic))
      (((first + r) / (w * 2 ^ shift) : ℕ) + ky - ((3 - 1) / 2 : ℕ))
      (((first + r) % (w * 2 ^ shift) : ℕ) + kx - ((3 - 1) / 2 : ℕ)) c) fun ky hky kx hkx c hc => ?_
  have hp : ky * 3 + kx < 9 := by omega
  have hwcell : o * (9 * ic) + ((ky * 3 + kx) * ic + c) = (o * 9 + (ky * 3 + kx)) * ic + c := by ring
  have hcell : r * (9 * ic) + ((ky * 3 + kx) * ic + c) = (r * 9 + (ky * 3 + kx)) * ic + c := by ring
  have hrange : (r * 9 + (ky * 3 + kx)) * ic + c < n * 9 * ic := by
    have : (r * 9 + (ky * 3 + kx) + 1) * ic ≤ n * 9 * ic := Nat.mul_le_mul_right ic (by omega)
    rw [Nat.succ_mul] at this
    omega
  have hplace : ((o * ic + c) * 3 + ky) * 3 + kx = (o * ic + c) * 9 + (ky * 3 + kx) := by ring
  rw [hwcell, hcell, reorder_apply ho hc hp, putRange, if_pos ⟨Nat.zero_le _, by simpa using hrange⟩,
    patchCell_eq h w shift first r inp hky hkx hc, weightOf, hplace]
  rfl

/-- What a cell of the output holds in the end: a convolution with the weights of the channel itself, and the
bias of the channel that was asked for. -/
def outCell (decode : WeightType → E → R) (t : GgufTensor E) (bias : ℕ → R) (k ic oc rowBegin rowWeights h w shift : ℕ)
    (inp : List R) (cell : ℕ) : R :=
  conv k ic (h * 2 ^ shift) (w * 2 ^ shift) (weightOf decode t k ic (rowWeights + cell % oc))
    (enlarge shift (imageOf inp w ic)) (cell / oc / (w * 2 ^ shift)) (cell / oc % (w * 2 ^ shift)) +
    bias (rowBegin + cell % oc)

theorem convChunk_eq (hlen : inp.length = h * w * ic) {fresh : ℕ → E} {c : ℕ} {s : (ℕ → R) × (ℕ → R)} {out : ℕ → R}
    (hc : c * colPixels < h * 2 ^ shift * (w * 2 ^ shift))
    (hfit : h * 2 ^ shift * (w * 2 ^ shift) + colPixels < 2 ^ 31)
    (hs : s.2 = putRange out 0 (c * colPixels * oc) (outCell decode t bias 3 ic oc rowBegin 0 h w shift inp)) :
    ∃ s', convChunk decode ⟨t.type, reorderConv3x3 t.data ic oc fresh, fun i => bias (rowBegin + i), ic, oc, 3⟩ inp
        (h * 2 ^ shift) (w * 2 ^ shift) shift c s = some s' ∧
      s'.2 = putRange out 0 (min ((c + 1) * colPixels) (h * 2 ^ shift * (w * 2 ^ shift)) * oc)
        (outCell decode t bias 3 ic oc rowBegin 0 h w shift inp) := by
  have hpow : 0 < 2 ^ shift := Nat.two_pow_pos shift
  generalize hpix : h * 2 ^ shift * (w * 2 ^ shift) = pixels at hc hfit ⊢
  have hint : int32 ((c * colPixels + colPixels : ℕ) : ℤ) = some ((c * colPixels + colPixels : ℕ) : ℤ) := by
    refine if_pos ?_
    omega
  have hend : min ((c + 1) * colPixels) pixels = c * colPixels + min colPixels (pixels - c * colPixels) := by
    rw [Nat.succ_mul]
    omega
  simp only [convChunk, Nat.mul_div_cancel _ hpow, hpix, im2col3x3_eq hlen, Option.bind_some, hint, Option.map_some]
  refine ⟨_, rfl, ?_⟩
  rw [addBias_matmulBatch, hs, hend, Nat.add_mul]
  refine (putRange_congr _ fun cell hcell => ?_).trans (putRange_putRange out _ (Nat.zero_le _) (Nat.le_add_right _ _))
  have hoc : 0 < oc := Nat.pos_of_mul_pos_left (Nat.zero_lt_of_lt hcell)
  have hcol : cell % oc < oc := Nat.mod_lt _ hoc
  have hrow : cell / oc < min colPixels (pixels - c * colPixels) := (Nat.div_lt_iff_lt_mul hoc).2 hcell
  have hdiv : (c * colPixels * oc + cell) / oc = c * colPixels + cell / oc := by
    rw [Nat.mul_comm _ oc, Nat.mul_add_div hoc]
  have hmod : (c * colPixels * oc + cell) % oc = cell % oc := Nat.mul_add_mod' _ _ _
  simp only [Nat.add_sub_cancel_left, outCell, hdiv, hmod, Nat.zero_add]
  rw [patch_product hcol hrow]

theorem int32_of_lt {n : ℕ} (h : n < 2 ^ 31) : int32 (n : ℤ) = some (n : ℤ) := if_pos (by omega)

/-- What `conv_forward` does with a kernel of three rows and columns. -/
theorem convForward_three (hdims : t.dims = [3, 3, ic, oc]) (hlen : inp.length = h * w * ic) (hic : 9 * ic < 2 ^ 31)
    (hfit : h * 2 ^ shift * (w * 2 ^ shift) + colPixels < 2 ^ 31) (fresh : ℕ → E) (col out : ℕ → R) :
    convForward decode (convLoad t bias rowBegin rows fresh) inp col out (h * 2 ^ shift) (w * 2 ^ shift) shift =
      some (putRange out 0 (h * 2 ^ shift * (w * 2 ^ shift) * ocOf t rows)
        (outCell decode t bias 3 ic (ocOf t rows) rowBegin 0 h w shift inp)) := by
  have hcols : colPixels = 16384 := rfl
  rw [convLoad_three hdims]
  simp only [convForward, int32_of_lt (show h * 2 ^ shift * (w * 2 ^ shift) < 2 ^ 31 by omega), int32_of_lt hic,
    Option.bind_some, show ¬ (3 : ℕ) = 1 by omega, if_false]
  obtain ⟨s, hs, hout⟩ := forUp_inv (n := (h * 2 ^ shift * (w * 2 ^ shift) + (colPixels - 1)) / colPixels)
    (f := convChunk decode ⟨t.type, reorderConv3x3 t.data ic (ocOf t rows) fresh, fun i => bias (rowBegin + i), ic,
      ocOf t rows, 3⟩ inp (h * 2 ^ shift) (w * 2 ^ shift) shift) (s := (col, out))
    (fun c s => s.2 = putRange out 0 (min (c * colPixels) (h * 2 ^ shift * (w * 2 ^ shift)) * ocOf t rows)
      (outCell decode t bias 3 ic (ocOf t rows) rowBegin 0 h w shift inp))
    (by simp only [Nat.zero_mul, Nat.zero_min, putRange_self])
    (fun c hc s hs => by
      have hlt : c * colPixels < h * 2 ^ shift * (w * 2 ^ shift) := by
        have := (Nat.le_div_iff_mul_le (by omega)).1 (Nat.succ_le_of_lt hc)
        rw [Nat.succ_mul] at this
        omega
      rw [Nat.min_eq_left hlt.le] at hs
      exact convChunk_eq hlen hlt hfit hs)
  have hall : h * 2 ^ shift * (w * 2 ^ shift) ≤
      (h * 2 ^ shift * (w * 2 ^ shift) + (colPixels - 1)) / colPixels * colPixels := by
    have := Nat.div_add_mod (h * 2 ^ shift * (w * 2 ^ shift) + (colPixels - 1)) colPixels
    have := Nat.mod_lt (h * 2 ^ shift * (w * 2 ^ shift) + (colPixels - 1)) (show 0 < colPixels by omega)
    rw [Nat.mul_comm _ colPixels]
    omega
  rw [hs, Option.map_some, hout, Nat.min_eq_right hall]

/-- What it does with one place, where nothing is to be enlarged. -/
theorem convForward_one (hdims : t.dims = [1, 1, ic, oc] ∨ t.dims = [ic, oc]) (hlen : inp.length = h * w * ic)
    (hfit : h * w + colPixels < 2 ^ 31) (fresh : ℕ → E) (col out : ℕ → R) :
    convForward decode (convLoad t bias rowBegin rows fresh) inp col out h w 0 =
      some (putRange out 0 (h * w * ocOf t rows)
        (outCell decode t bias 1 ic (ocOf t rows) rowBegin rowBegin h w 0 inp)) := by
  rw [convLoad_one hdims]
  simp only [convForward, int32_of_lt (show h * w < 2 ^ 31 by omega), Option.bind_some, if_true, hlen, le_refl,
    addBias_matmulBatch]
  rw [Nat.zero_add]
  refine congrArg some (putRange_congr_zero out fun cell hcell => ?_)
  have hoc : 0 < ocOf t rows := Nat.pos_of_mul_pos_left (Nat.zero_lt_of_lt hcell)
  have hpix : cell / ocOf t rows < h * w := (Nat.div_lt_iff_lt_mul hoc).2 hcell
  have hw : 0 < w := Nat.pos_of_mul_pos_left (Nat.zero_lt_of_lt hpix)
  have hrow : cell / ocOf t rows / w < h := (Nat.div_lt_iff_lt_mul hw).2 hpix
  simp only [Nat.sub_zero, outCell, pow_zero, Nat.mul_one]
  rw [conv_one ic h w _ _ hrow (Nat.mod_lt _ hw)]
  refine congrArg (· + bias (rowBegin + cell % ocOf t rows)) (sum_congr rfl fun j _ => ?_)
  simp only [weightOf, enlarge, imageOf, pow_zero, Nat.div_one, Nat.mul_one, Nat.add_zero, Nat.div_add_mod']
  congr 3
  ring

/-- A kernel of one place is not enlarged: the program goes on past the end of the input. -/
theorem convForward_one_enlarged (hdims : t.dims = [1, 1, ic, oc] ∨ t.dims = [ic, oc]) (hic : 0 < ic)
    (hshift : 0 < shift) (hlen : inp.length = ic) (fresh : ℕ → E) (col out : ℕ → R) :
    convForward decode (convLoad t bias rowBegin rows fresh) inp col out (1 * 2 ^ shift) (1 * 2 ^ shift) shift =
      none := by
  have hpow : 1 < 2 ^ shift := Nat.one_lt_two_pow (by omega)
  have hbig : ic < 2 ^ shift * 2 ^ shift * ic := by
    have : 1 * 1 < 2 ^ shift * 2 ^ shift := Nat.mul_lt_mul'' hpow hpow
    calc ic = 1 * ic := (Nat.one_mul ic).symm
      _ < 2 ^ shift * 2 ^ shift * ic := Nat.mul_lt_mul_of_pos_right (by omega) hic
  rw [convLoad_one hdims]
  simp only [convForward, hlen, Nat.one_mul, if_true, if_neg (by omega : ¬ 2 ^ shift * 2 ^ shift * ic ≤ ic)]
  cases int32 ((2 ^ shift * 2 ^ shift : ℕ) : ℤ) <;> rfl

/-- A cell of the output, by its row, column and channel. -/
theorem outCell_apply {k rowWeights y x o : ℕ} (hx : x < w * 2 ^ shift) (ho : o < oc) :
    outCell decode t bias k ic oc rowBegin rowWeights h w shift inp ((y * (w * 2 ^ shift) + x) * oc + o) =
      conv k ic (h * 2 ^ shift) (w * 2 ^ shift) (weightOf decode t k ic (rowWeights + o))
        (enlarge shift (imageOf inp w ic)) y x + bias (rowBegin + o) := by
  have hdiv : ((y * (w * 2 ^ shift) + x) * oc + o) / oc = y * (w * 2 ^ shift) + x := by
    rw [Nat.add_comm, Nat.add_mul_div_right _ _ (by omega), Nat.div_eq_of_lt ho, Nat.zero_add]
  have hmod : ((y * (w * 2 ^ shift) + x) * oc + o) % oc = o := by
    rw [Nat.add_comm, Nat.add_mul_mod_self_right, Nat.mod_eq_of_lt ho]
  have hrow : (y * (w * 2 ^ shift) + x) / (w * 2 ^ shift) = y := by
    rw [Nat.add_comm, Nat.add_mul_div_right _ _ (by omega), Nat.div_eq_of_lt hx, Nat.zero_add]
  have hcol : (y * (w * 2 ^ shift) + x) % (w * 2 ^ shift) = x := by
    rw [Nat.add_comm, Nat.add_mul_mod_self_right, Nat.mod_eq_of_lt hx]
  simp only [outCell, hdiv, hmod, hrow, hcol]

theorem outIndex_lt {y x o : ℕ} (hy : y < h * 2 ^ shift) (hx : x < w * 2 ^ shift) (ho : o < oc) :
    (y * (w * 2 ^ shift) + x) * oc + o < h * 2 ^ shift * (w * 2 ^ shift) * oc := by
  have hpix : y * (w * 2 ^ shift) + x + 1 ≤ h * 2 ^ shift * (w * 2 ^ shift) := by
    have := Nat.mul_le_mul_right (w * 2 ^ shift) (Nat.succ_le_of_lt hy)
    rw [Nat.succ_mul] at this
    omega
  have := Nat.mul_le_mul_right oc hpix
  rw [Nat.succ_mul] at this
  omega

/-! ### The convolution that is asked for -/

theorem convolves_of_outCell {k rowWeights : ℕ}
    (hrun : ∀ (h w : ℕ) (inp : List R) (fresh : ℕ → E) (col out : ℕ → R), inp.length = h * w * ic →
      k * k * ic < 2 ^ 31 → h * 2 ^ shift * (w * 2 ^ shift) + colPixels < 2 ^ 31 →
      convForward decode (convLoad t bias rowBegin rows fresh) inp col out (h * 2 ^ shift) (w * 2 ^ shift) shift =
        some (putRange out 0 (h * 2 ^ shift * (w * 2 ^ shift) * ocOf t rows)
          (outCell decode t bias k ic (ocOf t rows) rowBegin rowWeights h w shift inp)))
    (hweights : ∀ o < ocOf t rows, ∀ c < ic, ∀ ky < k, ∀ kx < k,
      weightOf decode t k ic (rowWeights + o) c ky kx = weightOf decode t k ic (rowBegin + o) c ky kx) :
    Convolves decode t bias k ic rowBegin rows shift := by
  intro h w inp fresh col out hlen hic hfit
  refine ⟨_, hrun h w inp fresh col out hlen hic hfit, fun y hy x hx o ho => ?_, fun i hi => if_neg (by omega)⟩
  rw [putRange, if_pos ⟨Nat.zero_le _, outIndex_lt hy hx ho⟩, outCell_apply hx ho, conv_congr (hweights o ho)]

/-- The entries of an image of two by two pixels, in the order of the input. -/
def square (ic : ℕ) (img : Image R) : List R := (List.range (2 * 2 * ic)).map fun i => img (i / ic / 2) (i / ic % 2) (i % ic)

omit [CommRing R] in
theorem square_length (ic : ℕ) (img : Image R) : (square ic img).length = 2 * 2 * ic := by simp [square]

theorem imageOf_square {img : Image R} {y x c : ℕ} (hy : y < 2) (hx : x < 2) (hc : c < ic) :
    imageOf (square ic img) 2 ic y x c = img y x c := by
  have hlt : (y * 2 + x) * ic + c < 2 * 2 * ic := by
    have : (y * 2 + x + 1) * ic ≤ 2 * 2 * ic := Nat.mul_le_mul_right ic (by omega)
    rw [Nat.succ_mul] at this
    omega
  have hdiv : ((y * 2 + x) * ic + c) / ic = y * 2 + x := by
    rw [Nat.add_comm, Nat.add_mul_div_right _ _ (by omega), Nat.div_eq_of_lt hc, Nat.zero_add]
  have hmod : ((y * 2 + x) * ic + c) % ic = c := by
    rw [Nat.add_comm, Nat.add_mul_mod_self_right, Nat.mod_eq_of_lt hc]
  rw [imageOf, List.getD_eq_getElem?_getD, List.getElem?_eq_getElem (by rw [square_length]; exact hlt),
    Option.getD_some]
  simp only [square, List.getElem_map, List.getElem_range, hdiv, hmod]
  rw [show (y * 2 + x) / 2 = y by omega, show (y * 2 + x) % 2 = x by omega]

/-- With the right results on every image of two by two pixels, the weights are the right ones. -/
theorem sameRows_of_convolves (hdims : t.dims = [3, 3, ic, oc]) (hic : 9 * ic < 2 ^ 31) (hshift : shift ≤ 14)
    (fresh : ℕ → E) (hconv : Convolves decode t bias 3 ic rowBegin rows shift) : SameRows decode t ic rowBegin rows := by
  have hpow : 2 ^ shift ≤ 2 ^ 14 := Nat.pow_le_pow_right (by omega) hshift
  have hfit : 2 * 2 ^ shift * (2 * 2 ^ shift) + colPixels < 2 ^ 31 := by
    have : 2 * 2 ^ shift * (2 * 2 ^ shift) ≤ 2 * 2 ^ 14 * (2 * 2 ^ 14) :=
      Nat.mul_le_mul (Nat.mul_le_mul_left 2 hpow) (Nat.mul_le_mul_left 2 hpow)
    have hcols : colPixels = 16384 := rfl
    omega
  intro o ho c hc ky hky kx hkx
  refine kernel_unique shift ic (weightOf decode t 3 ic o) (weightOf decode t 3 ic (rowBegin + o)) (fun img y hy x hx => ?_) hc hky hkx
  have himg : ∀ y < 2 * 2 ^ shift, ∀ x < 2 * 2 ^ shift, ∀ c < ic,
      enlarge shift (imageOf (square ic img) 2 ic) y x c = enlarge shift img y x c := fun y hy x hx c hc =>
    imageOf_square (Nat.div_lt_of_lt_mul (by omega)) (Nat.div_lt_of_lt_mul (by omega)) hc
  obtain ⟨out', hout, hcells, -⟩ := hconv 2 2 (square ic img) fresh (fun _ => 0) (fun _ => 0) (square_length ic img)
    hic hfit
  rw [convForward_three hdims (square_length ic img) hic hfit] at hout
  have hcell := hcells y hy x hx o ho
  rw [← Option.some.inj hout, putRange, if_pos ⟨Nat.zero_le _, outIndex_lt hy hx ho⟩, outCell_apply hx ho,
    Nat.zero_add, add_left_inj, conv_congr_image himg, conv_congr_image himg] at hcell
  exact hcell

/-- A convolution is that of the channels that were asked for where these have the weights of the first ones, if
the kernel has three rows, and where nothing is enlarged, if it has one. -/
theorem convForward_spec (decode : WeightType → E → R) (t : GgufTensor E) (bias : ℕ → R) (k ic oc rowBegin rows shift : ℕ)
    (fresh : ℕ → E) (hdims : ConvDims t.dims k ic oc) :
    (k = 3 ∧ SameRows decode t ic rowBegin rows ∨ k = 1 ∧ shift = 0 →
      Convolves decode t bias k ic rowBegin rows shift) ∧
    (0 < ic → k * k * ic < 2 ^ 31 → shift ≤ 14 → Convolves decode t bias k ic rowBegin rows shift →
      k = 3 ∧ SameRows decode t ic rowBegin rows ∨ k = 1 ∧ shift = 0) := by
  constructor
  · rintro (⟨rfl, hsame⟩ | ⟨rfl, rfl⟩)
    · obtain ⟨-, hdims⟩ | ⟨h, -⟩ := hdims
      · refine convolves_of_outCell (fun h w inp fresh col out hlen hic hfit =>
          convForward_three hdims hlen hic hfit fresh col out) fun o ho => ?_
        rw [Nat.zero_add]
        exact hsame o ho
      · omega
    · obtain ⟨h, -⟩ | ⟨-, hdims⟩ := hdims
      · omega
      · refine convolves_of_outCell (fun h w inp fresh col out hlen hic hfit => ?_) fun o _ c _ ky _ kx _ => rfl
        simp only [pow_zero, Nat.mul_one] at hfit ⊢
        exact convForward_one hdims hlen hfit fresh col out
  · intro hpos hic hshift hconv
    obtain ⟨rfl, hdims⟩ | ⟨rfl, hdims⟩ := hdims
    · exact .inl ⟨rfl, sameRows_of_convolves hdims hic hshift fresh hconv⟩
    · refine .inr ⟨rfl, ?_⟩
      by_contra hne
      have hfit : 1 * 2 ^ shift * (1 * 2 ^ shift) + colPixels < 2 ^ 31 := by
        have hpow : 2 ^ shift ≤ 2 ^ 14 := Nat.pow_le_pow_right (by omega) hshift
        have : 1 * 2 ^ shift * (1 * 2 ^ shift) ≤ 1 * 2 ^ 14 * (1 * 2 ^ 14) :=
          Nat.mul_le_mul (Nat.mul_le_mul_left 1 hpow) (Nat.mul_le_mul_left 1 hpow)
        have hcols : colPixels = 16384 := rfl
        omega
      obtain ⟨out', hout, -⟩ := hconv 1 1 (List.replicate ic 0) fresh (fun _ => 0) (fun _ => 0) (by simp) hic hfit
      rw [convForward_one_enlarged hdims hpos (Nat.pos_of_ne_zero hne) (by simp)] at hout
      cases hout

section Examples

/-- Two output channels, whose weights are `0` to `8` and `9` to `17`. -/
def twoChannels : GgufTensor ℤ := ⟨.f32, [3, 3, 1, 2], fun j => j⟩

def plain (_ : WeightType) (x : ℤ) : ℤ := x

/-- Both channels at once, with every pixel repeated twice. -/
theorem convForward_spec_of_whole : Convolves plain twoChannels (fun o => (o : ℤ)) 3 1 0 0 1 :=
  (convForward_spec plain twoChannels (fun o => (o : ℤ)) 3 1 2 0 0 1 (fun _ => 0) (.inl ⟨rfl, rfl⟩)).1
    (.inl ⟨rfl, fun o _ c _ ky _ kx _ => by rw [Nat.zero_add]⟩)

/-- The second channel alone: the weight in the middle is that of the first channel, the bias that of the
second. A kernel of one place on an image that is to be enlarged reads after its end. -/
theorem convForward_of_second :
    ((convForward plain (convLoad twoChannels (fun o => (100 * o : ℤ)) 1 1 fun _ => 0) [1] (fun _ => 0) (fun _ => 0)
      1 1 0).map fun out => out 0) = some 104 ∧
    DirectConv.conv 3 1 1 1 (weightOf plain twoChannels 3 1 1) (imageOf [1] 1 1) 0 0 + 100 = 113 ∧
    ¬ Convolves plain twoChannels (fun o => (100 * o : ℤ)) 3 1 1 1 0 ∧
    ¬ Convolves plain ⟨.f16, [1, 1], fun _ => (1 : ℤ)⟩ (fun _ => 0) 1 1 0 0 1 := by
  refine ⟨by decide +kernel, by decide +kernel, fun h => ?_, fun h => ?_⟩
  · obtain ⟨out', hout, hcells, -⟩ := h 1 1 [1] (fun _ => 0) (fun _ => 0) (fun _ => 0) rfl (by decide) (by decide)
    have hcode : (some out').map (fun out => out 0) = some 104 := by rw [← hout]; decide +kernel
    have hcell : out' 0 = 113 := (hcells 0 (by decide) 0 (by decide) 0 (by decide)).trans (by decide +kernel)
    rw [Option.map_some, hcell] at hcode
    exact absurd hcode (by decide)
  · obtain ⟨out', hout, -⟩ := h 1 1 [1] (fun _ => 0) (fun _ => 0) (fun _ => 0) rfl (by decide) (by decide)
    have : (some out').isNone = true := by rw [← hout]; decide +kernel
    cases this

end Examples

end ConvLayer

end Kappai
