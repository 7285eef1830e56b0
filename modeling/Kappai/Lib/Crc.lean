import Mathlib

/-! Cyclic redundancy checks as remainders of polynomials over two elements, and the register that
computes them: its bit `i` is the coefficient of `X ^ (w - 1 - i)`, and a table holds what eight shifts
make of each byte. -/

namespace Kappai

open Polynomial

variable {w : ℕ}

noncomputable def regPoly (c : BitVec w) : (ZMod 2)[X] :=
  ∑ i ∈ Finset.range w, if c.getLsbD i then X ^ (w - 1 - i) else 0

/-- `p` has the coefficients below `X ^ w`. -/
noncomputable def crcGenerator (p : BitVec w) : (ZMod 2)[X] := X ^ w + regPoly p

/-- The bits of a byte, the lowest one first. -/
noncomputable def bytePoly (b : UInt8) : (ZMod 2)[X] :=
  ∑ i ∈ Finset.range 8, if b.toBitVec.getLsbD i then X ^ (7 - i) else 0

noncomputable def msgPoly (bytes : List UInt8) : (ZMod 2)[X] :=
  bytes.foldl (fun m b => X ^ 8 * m + bytePoly b) 0

/-- The remainder of the message times `X ^ w`, where `init` is in the register before the message. -/
noncomputable def crcRemainder (p init : BitVec w) (bytes : List UInt8) : (ZMod 2)[X] :=
  (X ^ (8 * bytes.length) * regPoly init + X ^ w * msgPoly bytes) %ₘ crcGenerator p

/-- One bit leaves the register. -/
def shiftOut (p c : BitVec w) : BitVec w := if c.getLsbD 0 then p ^^^ (c >>> 1) else c >>> 1

/-- The entry of byte `n` in the table. -/
def crcEntry (p n : BitVec w) : BitVec w := (shiftOut p)^[8] n

def crcStep (p c : BitVec w) (b : UInt8) : BitVec w :=
  crcEntry p ((c ^^^ b.toBitVec.setWidth w) &&& 0xff) ^^^ (c >>> 8)

theorem regPoly_xor (a b : BitVec w) : regPoly (a ^^^ b) = regPoly a + regPoly b := by
  rw [regPoly, regPoly, regPoly, ← Finset.sum_add_distrib]
  refine Finset.sum_congr rfl fun i _ => ?_
  rw [BitVec.getLsbD_xor]
  cases a.getLsbD i <;> cases b.getLsbD i <;> simp [CharTwo.add_self_eq_zero]

theorem degree_regPoly (c : BitVec w) : (regPoly c).degree < w := by
  rw [regPoly]
  refine (degree_sum_le _ _).trans_lt ((Finset.sup_lt_iff (WithBot.bot_lt_coe w)).mpr fun i hi => ?_)
  have hlt := Finset.mem_range.mp hi
  split_ifs
  · rw [degree_X_pow]
    exact Nat.cast_lt.mpr (by omega)
  · rw [degree_zero]
    exact WithBot.bot_lt_coe w

theorem monic_crcGenerator (p : BitVec w) : (crcGenerator p).Monic :=
  monic_X_pow_add (degree_regPoly p)

theorem degree_crcGenerator (p : BitVec w) : (crcGenerator p).degree = w := by
  rw [crcGenerator, degree_add_eq_left_of_degree_lt, degree_X_pow]
  rw [degree_X_pow]
  exact degree_regPoly p

/-- The register holds the remainder of whatever it is congruent to. -/
theorem modByMonic_eq_regPoly {p c : BitVec w} {m : (ZMod 2)[X]} (h : crcGenerator p ∣ m - regPoly c) :
    m %ₘ crcGenerator p = regPoly c := by
  rw [modByMonic_eq_of_dvd_sub (monic_crcGenerator p) h, modByMonic_eq_self_iff (monic_crcGenerator p),
    degree_crcGenerator]
  exact degree_regPoly c

theorem regPoly_injective : Function.Injective (regPoly (w := w)) := by
  intro a b h
  refine BitVec.eq_of_getLsbD_eq fun i hi => ?_
  have hcoeff : ∀ c : BitVec w, (regPoly c).coeff (w - 1 - i) = if c.getLsbD i then 1 else 0 := by
    intro c
    rw [regPoly, finsetSum_coeff, Finset.sum_eq_single i]
    · split_ifs <;> simp
    · intro j hj hne
      have hlt := Finset.mem_range.mp hj
      split_ifs
      · rw [coeff_X_pow, if_neg (by omega)]
      · simp
    · exact fun hout => absurd (Finset.mem_range.mpr hi) hout
  have heq := congrArg (fun q => q.coeff (w - 1 - i)) h
  simp only [hcoeff] at heq
  cases ha : a.getLsbD i <;> cases hb : b.getLsbD i <;> simp [ha, hb] at heq ⊢

theorem X_mul_regPoly (c : BitVec w) :
    X * regPoly c = (if c.getLsbD 0 then X ^ w else 0) + regPoly (c >>> 1) := by
  cases w with
  | zero => simp [regPoly, BitVec.getLsbD_of_ge]
  | succ w =>
    rw [regPoly, regPoly, Finset.sum_range_succ', Finset.sum_range_succ, mul_add, Finset.mul_sum,
      add_comm]
    congr 1
    · rw [mul_ite, mul_zero, ← pow_succ']
      rfl
    · rw [BitVec.getLsbD_ushiftRight, BitVec.getLsbD_of_ge c (1 + w) (by omega)]
      simp only [Bool.false_eq_true, if_false, add_zero]
      refine Finset.sum_congr rfl fun i hi => ?_
      have hlt := Finset.mem_range.mp hi
      rw [BitVec.getLsbD_ushiftRight, mul_ite, mul_zero, ← pow_succ', Nat.add_comm 1 i,
        show w + 1 - 1 - (i + 1) + 1 = w + 1 - 1 - i by omega]

/-- Bits that leave are bits that are not there. -/
theorem regPoly_ushiftRight (c : BitVec w) (k : ℕ) (h : ∀ i < k, c.getLsbD i = false) :
    regPoly (c >>> k) = X ^ k * regPoly c := by
  induction k with
  | zero => simp
  | succ k ih =>
    have hbit : (c >>> k).getLsbD 0 = false := by
      rw [BitVec.getLsbD_ushiftRight]
      exact h k (Nat.lt_succ_self k)
    have hstep := X_mul_regPoly (c >>> k)
    rw [hbit, ← BitVec.shiftRight_add, ih fun i hi => h i (hi.trans (Nat.lt_succ_self k))] at hstep
    simp only [Bool.false_eq_true, if_false, zero_add] at hstep
    rw [← hstep, pow_succ']
    ring

theorem shiftOut_congr (p c : BitVec w) : crcGenerator p ∣ X * regPoly c - regPoly (shiftOut p c) := by
  rw [X_mul_regPoly, shiftOut]
  split_ifs
  · rw [regPoly_xor]
    refine ⟨1, ?_⟩
    rw [crcGenerator, mul_one, CharTwo.sub_eq_add]
    linear_combination (regPoly (c >>> 1)) * CharTwo.two_eq_zero (R := (ZMod 2)[X])
  · simp

theorem crcEntry_congr (p c : BitVec w) :
    crcGenerator p ∣ X ^ 8 * regPoly c - regPoly (crcEntry p c) := by
  have key : ∀ n, crcGenerator p ∣ X ^ n * regPoly c - regPoly ((shiftOut p)^[n] c) := by
    intro n
    induction n with
    | zero => simp
    | succ n ih =>
      rw [Function.iterate_succ_apply']
      have hstep := shiftOut_congr p ((shiftOut p)^[n] c)
      have hsum := dvd_add (dvd_mul_of_dvd_right ih X) hstep
      convert hsum using 1
      ring
  exact key 8

theorem X_pow_mul_regPoly_byte (hw : 8 ≤ w) (b : UInt8) :
    X ^ 8 * regPoly (b.toBitVec.setWidth w) = X ^ w * bytePoly b := by
  obtain ⟨v, rfl⟩ := Nat.exists_eq_add_of_le hw
  rw [regPoly, bytePoly, Finset.sum_range_add, Finset.sum_eq_zero (s := Finset.range v), add_zero,
    Finset.mul_sum, Finset.mul_sum]
  · refine Finset.sum_congr rfl fun i hi => ?_
    have hlt := Finset.mem_range.mp hi
    rw [BitVec.getLsbD_setWidth, decide_eq_true (by omega), Bool.true_and, mul_ite, mul_ite, mul_zero,
      mul_zero, ← pow_add, ← pow_add, show 8 + (8 + v - 1 - i) = 8 + v + (7 - i) by omega]
  · intro i _
    rw [BitVec.getLsbD_setWidth, BitVec.getLsbD_of_ge _ _ (Nat.le_add_right 8 i), Bool.and_false]
    rfl

theorem getLsbD_byteMask (i : ℕ) :
    (0xff : BitVec w).getLsbD i = (decide (i < w) && decide (i < 8)) := by
  rw [show (0xff : BitVec w) = BitVec.ofNat w (2 ^ 8 - 1) from rfl, BitVec.getLsbD_ofNat,
    Nat.testBit_two_pow_sub_one]

theorem byteMask_split (v : BitVec w) : (v &&& 0xff) ^^^ (v &&& ~~~0xff) = v := by
  refine BitVec.eq_of_getLsbD_eq fun i hi => ?_
  rw [BitVec.getLsbD_xor, BitVec.getLsbD_and, BitVec.getLsbD_and, BitVec.getLsbD_not, getLsbD_byteMask]
  cases v.getLsbD i <;> cases decide (i < 8) <;> simp [hi]

theorem byteMask_shift (v : BitVec w) : (v &&& ~~~0xff) >>> 8 = v >>> 8 := by
  refine BitVec.eq_of_getLsbD_eq fun i _ => ?_
  rw [BitVec.getLsbD_ushiftRight, BitVec.getLsbD_ushiftRight, BitVec.getLsbD_and, BitVec.getLsbD_not,
    getLsbD_byteMask, decide_eq_false (show ¬8 + i < 8 by omega)]
  by_cases hi : 8 + i < w
  · simp [hi]
  · simp [hi, BitVec.getLsbD_of_ge v (8 + i) (Nat.le_of_not_lt hi)]

theorem xor_byte_shift (c : BitVec w) (b : UInt8) : (c ^^^ b.toBitVec.setWidth w) >>> 8 = c >>> 8 := by
  refine BitVec.eq_of_getLsbD_eq fun i _ => ?_
  rw [BitVec.getLsbD_ushiftRight, BitVec.getLsbD_ushiftRight, BitVec.getLsbD_xor,
    BitVec.getLsbD_setWidth, BitVec.getLsbD_of_ge b.toBitVec (8 + i) (Nat.le_add_right 8 i),
    Bool.and_false, Bool.xor_false]

/-- A byte goes through the register by its entry of the table. -/
theorem crcStep_congr (hw : 8 ≤ w) (p c : BitVec w) (b : UInt8) :
    crcGenerator p ∣ X ^ 8 * regPoly c + X ^ w * bytePoly b - regPoly (crcStep p c b) := by
  set v := c ^^^ b.toBitVec.setWidth w with hv
  have hshift := regPoly_ushiftRight (v &&& ~~~0xff) 8 fun i hi => by
    rw [BitVec.getLsbD_and, BitVec.getLsbD_not, getLsbD_byteMask]
    simp [hi, show i < w by omega]
  have hsum : X ^ 8 * regPoly c + X ^ w * bytePoly b =
      X ^ 8 * regPoly (v &&& 0xff) + regPoly (c >>> 8) := by
    rw [← X_pow_mul_regPoly_byte hw, ← mul_add, ← regPoly_xor, ← hv, ← xor_byte_shift c b, ← hv,
      ← byteMask_shift v, hshift, ← mul_add, ← regPoly_xor, byteMask_split]
  rw [hsum, crcStep, regPoly_xor, add_sub_add_right_eq_sub]
  exact crcEntry_congr p (v &&& 0xff)

theorem msgPoly_cons (b : UInt8) (bytes : List UInt8) :
    msgPoly (b :: bytes) = X ^ (8 * bytes.length) * bytePoly b + msgPoly bytes := by
  have key : ∀ (bytes : List UInt8) (m : (ZMod 2)[X]),
      bytes.foldl (fun m b => X ^ 8 * m + bytePoly b) m =
        X ^ (8 * bytes.length) * m + msgPoly bytes := by
    intro bytes
    induction bytes with
    | nil => simp [msgPoly]
    | cons b bytes ih =>
      intro m
      rw [msgPoly, List.foldl_cons, List.foldl_cons, ih, ih, List.length_cons, mul_add 8, pow_add]
      ring
  rw [msgPoly, List.foldl_cons, key]
  ring

/-- After a message the register holds its remainder. -/
theorem crcSteps_eq (hw : 8 ≤ w) (p init : BitVec w) (bytes : List UInt8) :
    regPoly (bytes.foldl (crcStep p) init) = crcRemainder p init bytes := by
  have key : ∀ c, crcGenerator p ∣ X ^ (8 * bytes.length) * regPoly c + X ^ w * msgPoly bytes -
      regPoly (bytes.foldl (crcStep p) c) := by
    induction bytes with
    | nil => simp [msgPoly]
    | cons b bytes ih =>
      intro c
      have hrest := ih (crcStep p c b)
      have hfirst := dvd_mul_of_dvd_right (crcStep_congr hw p c b) (X ^ (8 * bytes.length))
      have hsum := dvd_add hfirst hrest
      rw [List.foldl_cons, msgPoly_cons, List.length_cons]
      convert hsum using 1
      rw [mul_add 8, pow_add]
      ring
  exact (modByMonic_eq_regPoly (key init)).symm

end Kappai
