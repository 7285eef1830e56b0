import Mathlib.Tactic.Set
import Kappai.Spec.VkRope

/-! The rope tables on the device are those of the call, as long as no table is found in place that was not
uploaded there as far as it is needed. -/

namespace Kappai

namespace VkRope

variable {A V T : Type}

section Upload

theorem upload_size {b : Option (DevBuf V)} {n : ℕ} {table : ℕ → V} {u : Upload V} {d : DevBuf V}
    (h : d ∈ (upload b n table u).1) : ∃ d' ∈ b, d.size = d'.size := by
  cases b with
  | none => cases h
  | some d' =>
    cases u with
    | done =>
      obtain rfl := Option.some.inj h
      exact ⟨d', rfl, rfl⟩
    | failed left =>
      obtain rfl := Option.some.inj h
      exact ⟨d', rfl, rfl⟩

theorem upload_ok {b : Option (DevBuf V)} {n : ℕ} {table : ℕ → V} {u : Upload V}
    (h : (upload b n table u).2 = .ok) : ∃ d, b = some d ∧
      (upload b n table u).1 = some { d with data := fun i => if i < n then table i else d.data i } := by
  cases b with
  | none => cases h
  | some d =>
    cases u with
    | done => exact ⟨d, rfl, rfl⟩
    | failed left => cases h

/-- What is written is there, if it fits. -/
theorem upload_holds {b : Option (DevBuf V)} {n : ℕ} {table : ℕ → V} {u : Upload V}
    (h : (upload b n table u).2 = .ok) (hsize : ∀ d ∈ b, n ≤ d.size) :
    Holds (upload b n table u).1 n table := by
  obtain ⟨d, rfl, hd⟩ := upload_ok h
  exact ⟨_, hd, hsize d rfl, fun i hi => if_pos hi⟩

/-- What was there of the table stays. -/
theorem upload_holds_max {b : Option (DevBuf V)} {n m : ℕ} {table : ℕ → V} {u : Upload V}
    (h : (upload b n table u).2 = .ok) (hsize : ∀ d ∈ b, n ≤ d.size) (hold : Holds b m table) :
    Holds (upload b n table u).1 (max m n) table := by
  obtain ⟨d, rfl, hd⟩ := upload_ok h
  obtain ⟨d', hd', hm, hdata⟩ := hold
  obtain rfl : d = d' := Option.some.inj hd'
  refine ⟨_, hd, max_le hm (hsize d rfl), fun i hi => ?_⟩
  by_cases hin : i < n
  · exact if_pos hin
  · exact (if_neg hin).trans (hdata i (by omega))

theorem Holds.mono {b : Option (DevBuf V)} {n m : ℕ} {table : ℕ → V} (h : Holds b n table) (hm : m ≤ n) :
    Holds b m table := by
  obtain ⟨d, hd, hsize, hdata⟩ := h
  exact ⟨d, hd, le_trans hm hsize, fun i hi => hdata i (by omega)⟩

end Upload

section Pair

variable (mem : A → ℕ → V)

/-- A pair of buffers is at least as large as its capacity, and has the floats of its tables that were
given. -/
structure SlotOk (sl : Slot A V) (given : ℕ) : Prop where
  cap : 0 ≤ sl.cap
  cosSize : ∀ d ∈ sl.cosBuf, sl.cap ≤ d.size
  sinSize : ∀ d ∈ sl.sinBuf, sl.cap ≤ d.size
  held : 0 < given → ∃ c s, sl.cosBase = some c ∧ sl.sinBase = some s ∧
    Holds sl.cosBuf given (mem c) ∧ Holds sl.sinBuf given (mem s)

variable {mem} {sl : Slot A V} {given : ℕ} {need : ℤ} {ans : Answers V}

/-- A pair that a call failed on promises its sizes only. -/
theorem SlotOk.lost (h : SlotOk mem sl given) : SlotOk mem sl 0 :=
  ⟨h.cap, h.cosSize, h.sinSize, fun h0 => absurd h0 (lt_irrefl 0)⟩

theorem grow_of_le (h : need ≤ sl.cap) : grow sl need ans = (sl, .ok) := if_neg (by omega)

theorem grow_sizes (hneed : 0 < need) (h : SlotOk mem sl given) : SlotOk mem (grow sl need ans).1 0 := by
  by_cases hcap : need ≤ sl.cap
  · rw [grow_of_le hcap]
    exact h.lost
  · unfold grow
    rw [if_pos (by omega)]
    cases ans.allocCos with
    | none => exact ⟨h.cap, by simp, by simp, by simp⟩
    | some c =>
      cases ans.allocSin with
      | none =>
        refine ⟨h.cap, fun d hd => ?_, by simp, by simp⟩
        obtain rfl := Option.some.inj hd
        simp only
        omega
      | some s =>
        refine ⟨by simp only; omega, fun d hd => ?_, fun d hd => ?_, by simp⟩
        · obtain rfl := Option.some.inj hd
          simp only
          omega
        · obtain rfl := Option.some.inj hd
          simp only
          omega

theorem grow_cap (h : (grow sl need ans).2 = .ok) : need ≤ (grow sl need ans).1.cap := by
  by_cases hcap : need ≤ sl.cap
  · rw [grow_of_le hcap]
    exact hcap
  · unfold grow at h ⊢
    rw [if_pos (by omega)] at h ⊢
    cases hc : ans.allocCos with
    | none => rw [hc] at h; cases h
    | some c =>
      cases hs : ans.allocSin with
      | none => rw [hc, hs] at h; cases h
      | some s => exact Int.le_refl need

theorem fits (hneed : need ≤ sl.cap) {b : Option (DevBuf V)} (h : ∀ d ∈ b, sl.cap ≤ d.size) :
    ∀ d ∈ b, need.toNat ≤ d.size := fun d hd => by
  have := h d hd
  omega

/-- A pair whose write failed promises its sizes only. -/
private theorem sizes_of_upload {b b' : Option (DevBuf V)} {n m : ℕ} {t t' : ℕ → V} {u u' : Upload V}
    (h : SlotOk mem sl given) (hb : b = sl.cosBuf) (hb' : b' = sl.sinBuf) :
    SlotOk mem { sl with cosBuf := (upload b n t u).1, sinBuf := (upload b' m t' u').1 } 0 := by
  subst hb hb'
  refine ⟨h.cap, fun d hd => ?_, fun d hd => ?_, by simp⟩
  · obtain ⟨d', hd', hsize⟩ := upload_size hd
    rw [hsize]
    exact h.cosSize d' hd'
  · obtain ⟨d', hd', hsize⟩ := upload_size hd
    rw [hsize]
    exact h.sinSize d' hd'

section Fill

variable [DecidableEq A] {c s : A}

theorem keyed_iff : sl.keyed c s = true ↔ sl.cosBase = some c ∧ sl.sinBase = some s := by
  simp [Slot.keyed]

/-- After an upload the pair has what `givenAfter` says, and all that is needed where it succeeds. -/
theorem fill_spec (half : ℤ) (c s : A) (ans : Answers V) (hneed : 0 < need) (h : SlotOk mem sl given) :
    SlotOk mem (fill mem sl need half c s ans).1
      (givenAfter sl need c s (fill mem sl need half c s ans).2 given) ∧
    ((fill mem sl need half c s ans).2 = .ok →
      Holds (fill mem sl need half c s ans).1.cosBuf need.toNat (mem c) ∧
      Holds (fill mem sl need half c s ans).1.sinBuf need.toNat (mem s)) := by
  have hg : SlotOk mem (grow sl need ans).1 0 := grow_sizes hneed h
  unfold fill
  by_cases hok : (grow sl need ans).2 = .ok
  · have hcap := grow_cap hok
    simp only [hok, ne_eq, not_true_eq_false, if_false]
    generalize hgrown : grow sl need ans = g at *
    by_cases hcos : (upload g.1.cosBuf need.toNat (mem c) ans.writeCos).2 = .ok
    · simp only [hcos, not_true_eq_false, if_false]
      by_cases hsin : (upload g.1.sinBuf need.toNat (mem s) ans.writeSin).2 = .ok
      · simp only [hsin, not_true_eq_false, if_false]
        have hsizes : SlotOk mem { g.1 with
            cosBuf := (upload g.1.cosBuf need.toNat (mem c) ans.writeCos).1
            sinBuf := (upload g.1.sinBuf need.toNat (mem s) ans.writeSin).1 } 0 :=
          sizes_of_upload hg rfl rfl
        have hc := upload_holds hcos (fits hcap hg.cosSize)
        have hs := upload_holds hsin (fits hcap hg.sinSize)
        refine ⟨⟨hsizes.cap, hsizes.cosSize, hsizes.sinSize, fun _ => ⟨c, s, rfl, rfl, ?_⟩⟩, fun _ => ⟨hc, hs⟩⟩
        unfold givenAfter
        rw [if_neg (by simp)]
        by_cases hsame : need ≤ sl.cap ∧ sl.keyed c s = true
        · -- the same tables in the same buffers
          rw [if_pos hsame]
          obtain ⟨hle, hkey⟩ := hsame
          rw [grow_of_le hle] at hgrown
          subst hgrown
          rcases Nat.eq_zero_or_pos given with h0 | hpos
          · rw [h0, Nat.zero_max]
            exact ⟨hc, hs⟩
          · obtain ⟨c', s', hc', hs', hcHeld, hsHeld⟩ := h.held hpos
            obtain ⟨hkc, hks⟩ := keyed_iff.1 hkey
            obtain rfl : c = c' := Option.some.inj (hkc.symm.trans hc')
            obtain rfl : s = s' := Option.some.inj (hks.symm.trans hs')
            exact ⟨upload_holds_max hcos (fits hcap hg.cosSize) hcHeld,
              upload_holds_max hsin (fits hcap hg.sinSize) hsHeld⟩
        · rw [if_neg hsame]
          exact ⟨hc, hs⟩
      · rw [if_pos hsin, givenAfter, if_pos hsin]
        exact ⟨sizes_of_upload hg rfl rfl, fun h => absurd h hsin⟩
    · rw [if_pos hcos, givenAfter, if_pos hcos]
      refine ⟨⟨hg.cap, fun d hd => ?_, hg.sinSize, by simp⟩, fun h => absurd h hcos⟩
      obtain ⟨d', hd', hsize⟩ := upload_size hd
      rw [hsize]
      exact hg.cosSize d' hd'
  · simp only [if_pos hok]
    rw [givenAfter, if_pos hok]
    exact ⟨hg, fun h => absurd h hok⟩

end Fill

end Pair

section Calls

variable {D : Type} (ar : Arith V T D) (mem : A → ℕ → V)

/-- The table of the factors is the one for what is kept about it, if the last build succeeded. -/
structure FactorsOk (ff : FactorTable A V T) (built : Bool) : Prop where
  cap : 0 ≤ ff.cap ∧ ff.cap < 2 ^ 31
  size : ∀ d ∈ ff.buf, ff.cap ≤ 4 * d.size
  held : built = true → ∀ f ∈ ff.base,
    Holds ff.buf (factorFloats ff.nCtx ff.headDim) (factorTable ar (mem f) ff.headDim ff.theta ff.nCtx)

/-- What holds between the calls. -/
structure Inv (p : Priv A V T) (h : Hist) : Prop where
  pair : ∀ side, SlotOk mem (p.slot side) (h.given side)
  factors : FactorsOk ar mem p.ff h.ff

variable {ar mem} {p : Priv A V T} {h : Hist}

theorem Inv.init (theta zero : T) : Inv ar mem (Priv.init theta zero : Priv A V T) Hist.init := by
  refine ⟨fun side => ?_, ⟨by simp [Priv.init], by simp [Priv.init], by simp [Hist.init]⟩⟩
  have hempty : SlotOk mem (Slot.empty : Slot A V) 0 := ⟨Int.le_refl 0, by simp [Slot.empty],
    by simp [Slot.empty], by simp⟩
  cases side <;> exact hempty

@[simp] theorem setSlot_nCtxStored (side : Side) (sl : Slot A V) :
    (p.setSlot side sl).nCtxStored = p.nCtxStored := by
  cases side <;> rfl

@[simp] theorem setSlot_ff (side : Side) (sl : Slot A V) : (p.setSlot side sl).ff = p.ff := by
  cases side <;> rfl

@[simp] theorem slot_setSlot (side : Side) (sl : Slot A V) : (p.setSlot side sl).slot side = sl := by
  cases side <;> rfl

theorem slot_setSlot_of_ne {side side' : Side} (hne : side' ≠ side) (sl : Slot A V) :
    (p.setSlot side sl).slot side' = p.slot side' := by
  cases side <;> cases side' <;> first | rfl | exact absurd rfl hne

@[simp] theorem given_setGiven (side : Side) (n : ℕ) : (h.setGiven side n).given side = n := by
  cases side <;> rfl

theorem given_setGiven_of_ne {side side' : Side} (hne : side' ≠ side) (n : ℕ) :
    (h.setGiven side n).given side' = h.given side' := by
  cases side <;> cases side' <;> first | rfl | exact absurd rfl hne

@[simp] theorem setGiven_ff (side : Side) (n : ℕ) : (h.setGiven side n).ff = h.ff := by
  cases side <;> rfl

@[simp] theorem slot_active (a : Option Side) (side : Side) :
    Priv.slot { p with active := a } side = p.slot side := by
  cases side <;> rfl

@[simp] theorem setGiven_given (side : Side) : h.setGiven side (h.given side) = h := by
  cases side <;> rfl

/-- Only one pair of buffers changes. -/
theorem Inv.setSlot (hinv : Inv ar mem p h) {side : Side} {sl : Slot A V} {n : ℕ} (hsl : SlotOk mem sl n) :
    Inv ar mem (p.setSlot side sl) (h.setGiven side n) := by
  refine ⟨fun side' => ?_, by simpa using hinv.factors⟩
  by_cases hside : side' = side
  · rw [hside, slot_setSlot, given_setGiven]
    exact hsl
  · rw [slot_setSlot_of_ne hside, given_setGiven_of_ne hside]
    exact hinv.pair side'

theorem Inv.setActive (hinv : Inv ar mem p h) (a : Option Side) : Inv ar mem { p with active := a } h :=
  ⟨fun side => by cases side; exacts [hinv.pair .main, hinv.pair .alt], hinv.factors⟩

theorem sizeOfInt_of_lt {x : ℤ} (h : 0 ≤ x ∧ x < 2 ^ 31) : (sizeOfInt x : ℤ) = x := by
  rw [sizeOfInt, Int.emod_eq_of_lt] <;> omega

theorem factorBytes_bmod {n m : ℤ} (h : factorBytes n m < 2 ^ 31) :
    ((factorBytes n m : ℕ) : ℤ).bmod (2 ^ 32) = factorBytes n m := by
  rw [Int.bmod_eq_of_le] <;> omega

/-- The buffer is as large as the table. -/
theorem growFactors_spec {ff : FactorTable A V T} {built : Bool} (hff : FactorsOk ar mem ff built) {n m : ℤ}
    (hfit : factorBytes n m < 2 ^ 31) (ans : FactorAnswers V) :
    FactorsOk ar mem (growFactors ff (factorBytes n m) ans).1 false ∧
    ((growFactors ff (factorBytes n m) ans).2 = .ok →
      ∀ d ∈ (growFactors ff (factorBytes n m) ans).1.buf, factorFloats n m ≤ d.size) := by
  have hcap := sizeOfInt_of_lt hff.cap
  have hbytes : factorBytes n m = factorFloats n m * 4 := rfl
  unfold growFactors
  by_cases hbig : factorBytes n m > sizeOfInt ff.cap
  · rw [if_pos hbig]
    cases ans.alloc with
    | none => exact ⟨⟨hff.cap, by simp, by simp⟩, fun h => by cases h⟩
    | some d =>
      simp only [factorBytes_bmod hfit]
      refine ⟨⟨by simp only; omega, fun d' hd => ?_, by simp⟩, fun _ d' hd => ?_⟩
      · obtain rfl := Option.some.inj hd
        simp only
        omega
      · obtain rfl := Option.some.inj hd
        simp only
        omega
  · rw [if_neg hbig]
    refine ⟨⟨hff.cap, hff.size, by simp⟩, fun _ d hd => ?_⟩
    have := hff.size d hd
    omega

theorem Inv.setFactors (hinv : Inv ar mem p h) {ff : FactorTable A V T} {built : Bool}
    (hff : FactorsOk ar mem ff built) : Inv ar mem { p with ff := ff } { h with ff := built } :=
  ⟨fun side => by cases side; exacts [hinv.pair .main, hinv.pair .alt], hff⟩

variable [DecidableEq A] [DecidableEq T]

theorem intMul_of_lt {x y : ℤ} (hx : 0 < x) (hy : 0 < y) (h : x * y < 2 ^ 31) : intMul x y = x * y := by
  have hpos := Int.mul_pos hx hy
  rw [intMul, Int.bmod_eq_of_le] <;> omega

theorem keyed_of_not_needUpload {sl : Slot A V} {need half : ℤ} {c s : A}
    (h : needUpload sl need half c s = false) : sl.keyed c s = true := by
  simp only [needUpload, Bool.or_eq_false_iff, Bool.not_eq_false'] at h
  exact h.2

/-- A sound call for the buffers keeps the invariant and binds the tables. -/
theorem ensure_spec (hinv : Inv ar mem p h) {half : ℤ} {c s : A} {ans : Answers V}
    (hsound : Sound p h (.ensure half c s ans)) :
    Inv ar mem (ensureRopeBufs mem p half c s ans).1
      (h.step p (.ensure half c s ans) (ensureRopeBufs mem p half c s ans).2) ∧
    ((ensureRopeBufs mem p half c s ans).2 = .ok →
      Bound ar mem (ensureRopeBufs mem p half c s ans).1 (.ensure half c s ans)) := by
  unfold ensureRopeBufs Hist.step
  by_cases hbad : p.nCtxStored ≤ 0 ∨ half ≤ 0
  · simp only [hbad, if_true]
    exact ⟨hinv, fun h => by cases h⟩
  · rw [not_or, Int.not_le, Int.not_le] at hbad
    obtain ⟨hfit, hplace⟩ := hsound hbad.1 hbad.2
    have hneed : intMul p.nCtxStored half = p.nCtxStored * half := intMul_of_lt hbad.1 hbad.2 hfit
    have hpos : 0 < p.nCtxStored * half := Int.mul_pos hbad.1 hbad.2
    have hgood : ¬ (p.nCtxStored ≤ 0 ∨ half ≤ 0) := by omega
    simp only [if_neg hgood, hneed]
    set side := selectSide p c s with hside
    cases hup : needUpload (p.slot side) (p.nCtxStored * half) half c s with
    | true =>
      obtain ⟨hsl, hheld⟩ := fill_spec half c s ans hpos (hinv.pair side)
      simp only [if_true]
      by_cases hok : (fill mem (p.slot side) (p.nCtxStored * half) half c s ans).2 = .ok
      · simp only [hok, ne_eq, not_true_eq_false, if_false]
        rw [hok] at hsl
        refine ⟨(hinv.setSlot hsl).setActive _, fun _ => ⟨side, rfl, ?_⟩⟩
        rw [slot_active, slot_setSlot]
        simp only [setSlot_nCtxStored]
        exact hheld hok
      · simp only [if_pos hok]
        exact ⟨hinv.setSlot hsl, fun h => absurd h hok⟩
    | false =>
      simp only [Bool.false_eq_true, if_false, ne_eq, not_true_eq_false]
      have hlt := hplace hup
      obtain ⟨c', s', hc, hs, hcHeld, hsHeld⟩ := (hinv.pair side).held (by omega)
      obtain ⟨hkc, hks⟩ := keyed_iff.1 (keyed_of_not_needUpload hup)
      obtain rfl : c = c' := Option.some.inj (hkc.symm.trans hc)
      obtain rfl : s = s' := Option.some.inj (hks.symm.trans hs)
      have hsame : Inv ar mem (p.setSlot side (p.slot side)) (h.setGiven side (h.given side)) :=
        hinv.setSlot (hinv.pair side)
      rw [setGiven_given] at hsame
      refine ⟨hsame.setActive _, fun _ => ⟨side, rfl, ?_⟩⟩
      rw [slot_active, slot_setSlot]
      simp only [setSlot_nCtxStored]
      exact ⟨hcHeld.mono (by omega), hsHeld.mono (by omega)⟩

/-- A sound call with factors keeps the invariant and binds their table. -/
theorem factors_spec (hinv : Inv ar mem p h) {headDim : ℤ} {f : A} {ans : FactorAnswers V}
    (hsound : Sound p h (.factors headDim f ans)) :
    Inv ar mem (factorTablesGet ar mem p headDim f ans).1
      (h.step p (.factors headDim f ans) (factorTablesGet ar mem p headDim f ans).2) ∧
    ((factorTablesGet ar mem p headDim f ans).2 = .ok →
      Bound ar mem (factorTablesGet ar mem p headDim f ans).1 (.factors headDim f ans)) := by
  unfold factorTablesGet Hist.step
  by_cases hbad : p.nCtxStored ≤ 0 ∨ headDim.tdiv 2 ≤ 0
  · simp only [hbad, if_true]
    exact ⟨hinv, fun h => by cases h⟩
  · rw [not_or, Int.not_le, Int.not_le] at hbad
    obtain ⟨hfit, hplace⟩ := hsound hbad.1 hbad.2
    have hgood : ¬ (p.nCtxStored ≤ 0 ∨ headDim.tdiv 2 ≤ 0) := by omega
    simp only [if_neg hgood]
    cases hstale : tableStale p headDim f with
    | true =>
      obtain ⟨hg, hsize⟩ := growFactors_spec hinv.factors hfit ans
      simp only [if_true, buildFactors]
      by_cases hok : (growFactors p.ff (factorBytes p.nCtxStored headDim) ans).2 = .ok
      · have hsize := hsize hok
        simp only [hok, ne_eq, not_true_eq_false, if_false]
        generalize growFactors p.ff (factorBytes p.nCtxStored headDim) ans = g at *
        set table := factorTable ar (mem f) headDim p.ropeTheta p.nCtxStored
        have hsizes : ∀ d ∈ (upload g.1.buf (factorFloats p.nCtxStored headDim) table ans.write).1,
            g.1.cap ≤ 4 * d.size := fun d hd => by
          obtain ⟨d', hd', hsz⟩ := upload_size hd
          rw [hsz]
          exact hg.size d' hd'
        by_cases hup : (upload g.1.buf (factorFloats p.nCtxStored headDim) table ans.write).2 = .ok
        · have hheld := upload_holds hup hsize
          simp only [hup, not_true_eq_false, if_false, decide_true]
          refine ⟨hinv.setFactors ⟨hg.cap, hsizes, fun _ f' hf' => ?_⟩, fun _ => hheld⟩
          obtain rfl := Option.some.inj hf'
          exact hheld
        · simp only [if_pos hup, decide_eq_false hup]
          exact ⟨hinv.setFactors ⟨hg.cap, hsizes, by simp⟩, fun h => absurd h hup⟩
      · simp only [if_pos hok, decide_eq_false hok]
        exact ⟨hinv.setFactors hg, fun h => absurd h hok⟩
    | false =>
      have hbuilt := hplace hstale
      refine ⟨hinv, fun _ => ?_⟩
      simp only [tableStale, Bool.or_eq_false_iff, decide_eq_false_iff_not, not_not] at hstale
      obtain ⟨⟨⟨⟨-, hbase⟩, hhead⟩, hctx⟩, htheta⟩ := hstale
      have hheld := hinv.factors.held hbuilt f hbase
      rwa [hhead, hctx, htheta] at hheld

theorem step_spec (hinv : Inv ar mem p h) {op : Op A V T} (hsound : Sound p h op) :
    Inv ar mem (step ar mem p op).1 (h.step p op (step ar mem p op).2) ∧
    ((step ar mem p op).2 = .ok → Bound ar mem (step ar mem p op).1 op) := by
  cases op with
  | setCtx n => exact ⟨⟨fun side => by cases side; exacts [hinv.pair .main, hinv.pair .alt], hinv.factors⟩,
      fun _ => trivial⟩
  | setTheta theta => exact ⟨⟨fun side => by cases side; exacts [hinv.pair .main, hinv.pair .alt],
      hinv.factors⟩, fun _ => trivial⟩
  | ensure half c s ans => exact ensure_spec hinv hsound
  | factors headDim f ans => exact factors_spec hinv hsound

theorem Inv.run (hinv : Inv ar mem p h) {ops : List (Op A V T)} (hsound : SoundRun ar mem p h ops) :
    BoundRun ar mem p ops := by
  induction ops generalizing p h with
  | nil => trivial
  | cons op ops ih =>
    obtain ⟨hop, hops⟩ := hsound
    obtain ⟨hnext, hbound⟩ := step_spec hinv hop
    exact ⟨hbound, ih hnext hops⟩

/-- In a run of sound calls every call that returns `OK` binds the tables that it was asked for. -/
theorem ropeRun_spec (ar : Arith V T D) (mem : A → ℕ → V) (theta zero : T) (ops : List (Op A V T))
    (hsound : SoundRun ar mem (Priv.init theta zero) Hist.init ops) :
    BoundRun ar mem (Priv.init theta zero) ops :=
  (Inv.init theta zero).run hsound

end Calls

section Examples

/-- Tables of numbers, the `i`-th entry of the table at `a` being `100 * a + i`. -/
def numbered (a i : ℕ) : ℕ := 100 * a + i

/-- Arithmetic on numbers, for a table of factors. -/
def plainArith : Arith ℕ ℕ ℕ := ⟨id, fun _ => false, fun _ => true, 0, 1, (· * ·), id, fun _ _ => 2, id, id, 1, 0⟩

/-- All answers are good, and new buffers are full of nines. -/
def good : Answers ℕ := ⟨some fun _ => 9, some fun _ => 9, .done, .done⟩

/-- Two tables in turn, and the table of factors. -/
def plainOps : List (Op ℕ ℕ ℕ) :=
  [.setCtx 2, .ensure 1 1 2 good, .ensure 1 3 4 good, .ensure 1 1 2 good, .setCtx 3, .ensure 1 1 2 good,
    .factors 2 5 ⟨some fun _ => 9, .done⟩]

instance (p : Priv ℕ ℕ ℕ) (h : Hist) (op : Op ℕ ℕ ℕ) : Decidable (Sound p h op) := by
  cases op <;> unfold Sound <;> infer_instance

theorem ropeRun_spec_of_plain : BoundRun plainArith numbered (Priv.init 0 0) plainOps :=
  ropeRun_spec plainArith numbered 0 0 plainOps
    ⟨by decide, by decide, by decide, by decide, by decide, by decide, by decide, trivial⟩

/-- The second table of `plainOps` put aside for one with fewer positions, and the positions made more. -/
def evictOps : List (Op ℕ ℕ ℕ) :=
  [.setCtx 2, .ensure 1 1 2 good, .ensure 1 3 4 good, .setCtx 1, .ensure 1 5 6 good, .setCtx 2,
    .ensure 1 5 6 good]

/-- A pair of buffers that could not be made larger is taken as it was when the cache is small again. -/
def failOps : List (Op ℕ ℕ ℕ) :=
  [.setCtx 1, .ensure 1 1 2 good, .setCtx 2, .ensure 1 1 2 ⟨none, none, .done, .done⟩, .setCtx 1,
    .ensure 1 1 2 good]

def final (ops : List (Op ℕ ℕ ℕ)) : Priv ℕ ℕ ℕ :=
  ops.foldl (fun p op => (step plainArith numbered p op).1) (Priv.init 0 0)

/-- The last calls of both runs return `OK`. One binds a cosine of another table, one no buffer. -/
theorem run_of_evict :
    ((final evictOps).main.cosBuf.map fun d => d.data 1) = some (numbered 1 1) ∧
    (step plainArith numbered (final evictOps) (.ensure 1 5 6 good)).2 = .ok ∧
    ¬ BoundRun plainArith numbered (Priv.init 0 0) evictOps ∧
    (final failOps).active = some .main ∧ (final failOps).main.cosBuf.isNone = true ∧
    ¬ BoundRun plainArith numbered (Priv.init 0 0) failOps := by
  refine ⟨by decide, by decide, fun h => ?_, by decide, by decide, fun h => ?_⟩
  · obtain ⟨-, -, -, -, -, -, h, -⟩ := h
    obtain ⟨side, hside, ⟨d, hd, -, hdata⟩, -⟩ := h (by decide)
    obtain rfl := Option.some.inj hside
    obtain rfl := Option.some.inj hd
    exact absurd (hdata 1 (by decide)) (by decide)
  · obtain ⟨-, -, -, -, -, h, -⟩ := h
    obtain ⟨side, hside, ⟨d, hd, -, -⟩, -⟩ := h (by decide)
    obtain rfl := Option.some.inj hside
    cases hd

end Examples

end VkRope

end Kappai
