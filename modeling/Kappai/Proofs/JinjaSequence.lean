import Kappai.Spec.JinjaText
import Mathlib.Data.Int.Order.Basic
import Mathlib.Tactic.Linarith
import Mathlib.Tactic.Ring
import Kappai.Spec.JinjaEval

/-! Slices and ranges of a template are those of Python unless a number on the way does not fit a
`long`. -/

namespace Kappai.Jinja

variable {lo hi step i : ℤ}

theorem checked_of_inLong {x : ℤ} (h : InLong x) : checked x = some x := if_pos h

theorem checked_of_not {x : ℤ} (h : ¬InLong x) : checked x = none := if_neg h

section Count

theorem ceil_nonpos {d w : ℤ} (hw : 0 < w) (hd : d ≤ 0) : ((d + w - 1) / w).toNat = 0 := by
  have hlt : (d + w - 1) / w < 1 := Int.ediv_lt_of_lt_mul hw (by omega)
  omega

theorem ceil_pos {d w : ℤ} (hw : 0 < w) (hd : 0 < d) :
    ((d + w - 1) / w).toNat = ((d - w + w - 1) / w).toNat + 1 := by
  have hsub : d + w - 1 = (d - w + w - 1) + 1 * w := by ring
  have hnonneg : 0 ≤ (d - w + w - 1) / w := Int.ediv_nonneg (by omega) hw.le
  rw [hsub, Int.add_mul_ediv_right _ _ hw.ne']
  omega

/-- `i` is before the end on the way of `step`. -/
def Before (step stop i : ℤ) : Prop := (0 < step ∧ i < stop) ∨ (step < 0 ∧ stop < i)

theorem pyCount_of_not (hstep : step ≠ 0) (h : ¬Before step hi lo) : pyCount lo hi step = 0 := by
  unfold Before at h
  unfold pyCount
  split_ifs with hpos
  · exact ceil_nonpos hpos (by omega)
  · exact ceil_nonpos (by omega) (by omega)

theorem pyCount_of_before (h : Before step hi lo) :
    pyCount lo hi step = pyCount (lo + step) hi step + 1 := by
  unfold Before at h
  unfold pyCount
  split_ifs with hpos
  · rw [ceil_pos hpos (by omega), show hi - lo - step = hi - (lo + step) by ring]
  · rw [ceil_pos (by omega) (by omega), show lo - hi - -step = lo + step - hi by ring]

theorem pyRange_of_before (h : Before step hi lo) :
    pyRange lo hi step = lo :: pyRange (lo + step) hi step := by
  unfold pyRange
  rw [pyCount_of_before h, List.range_succ_eq_map, List.map_cons, List.map_map]
  congr 1
  · simp
  · refine List.map_congr_left fun k _ => ?_
    simp only [Function.comp_apply, Nat.succ_eq_add_one]
    push_cast
    ring

/-- Every number of a range is before its end. -/
theorem before_of_mem (hstep : step ≠ 0) {x : ℤ} (h : x ∈ pyRange lo hi step) :
    Before step hi x ∧ (0 < step → lo ≤ x) ∧ (step < 0 → x ≤ lo) := by
  generalize hc : pyCount lo hi step = c at *
  induction c generalizing lo with
  | zero => simp [pyRange, hc] at h
  | succ c ih =>
    have hbefore : Before step hi lo := by
      by_contra hnot
      rw [pyCount_of_not hstep hnot] at hc
      omega
    rw [pyRange_of_before hbefore] at h
    rcases List.mem_cons.1 h with rfl | h
    · exact ⟨hbefore, fun _ => le_rfl, fun _ => le_rfl⟩
    · obtain ⟨hx, hpos, hneg⟩ := ih h (by rw [pyCount_of_before hbefore] at hc; omega)
      exact ⟨hx, fun h => by have := hpos h; omega, fun h => by have := hneg h; omega⟩

end Count

/-- The loop visits Python's range, unless the number after the last does not fit. -/
theorem stepsFrom_eq (hstep : step ≠ 0) {stop : ℤ} {fuel : ℕ} (hi : InLong i)
    (hfuel : pyCount i stop step < fuel) :
    stepsFrom step stop fuel i =
      if pyCount i stop step = 0 ∨ InLong (i + pyCount i stop step * step)
      then some (pyRange i stop step) else none := by
  induction fuel generalizing i with
  | zero => omega
  | succ fuel ih =>
    rw [stepsFrom]
    by_cases hbefore : Before step stop i
    · have hcount := pyCount_of_before hbefore
      have hlast : i + (pyCount i stop step : ℤ) * step =
          i + step + (pyCount (i + step) stop step : ℤ) * step := by
        rw [hcount]
        push_cast
        ring
      rw [if_pos (show _ ∨ _ from hbefore)]
      by_cases hnext : InLong (i + step)
      · rw [checked_of_inLong hnext, Option.bind_eq_bind, Option.bind_some, ih hnext (by omega), hlast,
          pyRange_of_before hbefore]
        by_cases hfits : pyCount (i + step) stop step = 0 ∨
            InLong (i + step + (pyCount (i + step) stop step : ℤ) * step)
        · have hfits' : InLong (i + step + (pyCount (i + step) stop step : ℤ) * step) := by
            rcases hfits with hzero | hfits
            · simpa [hzero] using hnext
            · exact hfits
          rw [if_pos hfits, if_pos (Or.inr hfits')]
          rfl
        · have hfits' := not_or.1 hfits
          rw [if_neg hfits, if_neg (not_or.2 ⟨by omega, hfits'.2⟩)]
          rfl
      · rw [checked_of_not hnext, Option.bind_eq_bind, Option.bind_none, if_neg]
        refine not_or.2 ⟨by omega, fun hfits => hnext ?_⟩
        rw [hlast] at hfits
        have hc : (0 : ℤ) ≤ pyCount (i + step) stop step := Int.natCast_nonneg _
        unfold InLong Before at *
        rcases hbefore with ⟨hpos, -⟩ | ⟨hneg, -⟩
        · have := mul_nonneg hc hpos.le
          omega
        · have := mul_nonpos_of_nonneg_of_nonpos hc hneg.le
          omega
    · have hzero := pyCount_of_not hstep hbefore
      rw [if_neg (show ¬(_ ∨ _) from hbefore), if_pos (Or.inl hzero), pyRange, hzero]
      rfl

section Slice

variable {n : ℕ}

theorem sliceStart_eq (hstep : step ≠ 0) (x : ℤ) : sliceStart x n step = pyBound n step x := by
  have hsign := lt_or_gt_of_ne hstep
  unfold sliceStart pyBound
  dsimp only
  split_ifs <;> omega

theorem sliceEnd_eq (x : ℤ) : sliceEnd x n step = pyBound n step x := by
  unfold sliceEnd pyBound
  dsimp only
  split_ifs <;> omega

theorem slicePositions_eq (hstep : step ≠ 0) (start stop : Option ℤ) :
    slicePositions n start stop step =
      stepsFrom step (pyStop n step stop) (n + 1) (pyStart n step start) := by
  have hstart : (start.map fun x => sliceStart x n step).getD (if 0 < step then 0 else (n : ℤ) - 1) =
      pyStart n step start := by
    cases start with
    | none => rfl
    | some x => exact sliceStart_eq hstep x
  have hstop : (stop.map fun x => sliceEnd x n step).getD (if 0 < step then (n : ℤ) else -1) =
      pyStop n step stop := by
    cases stop with
    | none => rfl
    | some x => exact sliceEnd_eq x
  unfold slicePositions
  dsimp only
  rw [hstart, hstop]

/-- Both ends of a slice lie in the sequence or next to it. -/
theorem pyBound_mem (x : ℤ) : (0 < step → 0 ≤ pyBound n step x ∧ pyBound n step x ≤ n) ∧
    (¬0 < step → -1 ≤ pyBound n step x ∧ pyBound n step x < n) := by
  unfold pyBound
  dsimp only
  split_ifs <;> constructor <;> intro _ <;> omega

theorem pyStart_mem (n : ℕ) (step : ℤ) (start : Option ℤ) :
    (0 < step → 0 ≤ pyStart n step start ∧ pyStart n step start ≤ n) ∧
    (¬0 < step → -1 ≤ pyStart n step start ∧ pyStart n step start < n) := by
  cases start with
  | none => unfold pyStart; dsimp only; split_ifs <;> constructor <;> intro _ <;> omega
  | some x => exact pyBound_mem x

theorem pyStop_mem (n : ℕ) (step : ℤ) (stop : Option ℤ) :
    (0 < step → 0 ≤ pyStop n step stop ∧ pyStop n step stop ≤ n) ∧
    (¬0 < step → -1 ≤ pyStop n step stop ∧ pyStop n step stop < n) := by
  cases stop with
  | none => unfold pyStop; dsimp only; split_ifs <;> constructor <;> intro _ <;> omega
  | some x => exact pyBound_mem x

/-- A slice has positions of the sequence only. -/
theorem pySlice_mem (hstep : step ≠ 0) (start stop : Option ℤ) {x : ℤ}
    (h : x ∈ pySlice n start stop step) : 0 ≤ x ∧ x < n := by
  obtain ⟨hbefore, hpos, hneg⟩ := before_of_mem hstep h
  have hstart := pyStart_mem n step start
  have hstop := pyStop_mem n step stop
  unfold Before at hbefore
  omega

/-- A rounded-up quotient is not larger than its dividend, and loses less than a divisor. -/
theorem ceil_le {d w : ℤ} (hw : 0 < w) : ((d + w - 1) / w).toNat ≤ d.toNat := by
  rcases Int.lt_or_le 0 d with hd | hd
  · have hle : (d + w - 1) / w ≤ d := by
      refine Int.ediv_le_of_le_mul hw ?_
      have := mul_nonneg (show 0 ≤ d - 1 by omega) (show 0 ≤ w - 1 by omega)
      linarith [show (d - 1) * (w - 1) = d * w - d - w + 1 by ring]
    omega
  · rw [ceil_nonpos hw hd]
    exact Nat.zero_le _

theorem ceil_mul_le {d w : ℤ} (hw : 0 < w) (hd : 0 < d) :
    (((d + w - 1) / w).toNat : ℤ) * w ≤ d + w - 1 := by
  have hnonneg : 0 ≤ (d + w - 1) / w := Int.ediv_nonneg (by omega) hw.le
  rw [Int.toNat_of_nonneg hnonneg]
  exact Int.ediv_mul_le _ hw.ne'

/-- Downwards the numbers stay above the end, and the one after the last is a step below at most. -/
theorem inLong_after_down (hneg : step < 0) (hbefore : hi < lo) (hlo : InLong lo)
    (hstep : longMin ≤ hi + 1 + step) : InLong (lo + pyCount lo hi step * step) := by
  have hcount : pyCount lo hi step = ((lo - hi + -step - 1) / -step).toNat := by
    rw [pyCount, if_neg (by omega)]
  have hmul := ceil_mul_le (d := lo - hi) (w := -step) (by omega) (by omega)
  rw [← hcount] at hmul
  have hle : (pyCount lo hi step : ℤ) * step ≤ 0 :=
    mul_nonpos_of_nonneg_of_nonpos (Int.natCast_nonneg _) hneg.le
  unfold InLong at *
  rw [mul_neg] at hmul
  omega

/-- A slice visits the positions of Python's, unless the position after the last one does not fit. -/
theorem slice_python (hn : (n : ℤ) ≤ longMax) (hstep : step ≠ 0) (hlong : InLong step)
    (start stop : Option ℤ) :
    slicePositions n start stop step = some (pySlice n start stop step) ↔
      SliceFits n start stop step := by
  have hstart := pyStart_mem n step start
  have hstop := pyStop_mem n step stop
  have hmin : longMin ≤ -1 := by decide
  rw [slicePositions_eq hstep, SliceFits, pySlice]
  generalize pyStart n step start = lo at *
  generalize pyStop n step stop = hi at *
  have hlo : InLong lo := by
    unfold InLong
    by_cases hpos : 0 < step
    · have := hstart.1 hpos
      omega
    · have := hstart.2 hpos
      omega
  have hfuel : pyCount lo hi step < n + 1 := by
    unfold pyCount
    split_ifs with hpos
    · have := ceil_le (d := hi - lo) hpos
      have := hstart.1 hpos
      have := hstop.1 hpos
      omega
    · have := ceil_le (d := lo - hi) (show 0 < -step by omega)
      have := hstart.2 hpos
      have := hstop.2 hpos
      omega
  rw [stepsFrom_eq hstep hlo hfuel]
  by_cases hbefore : Before step hi lo
  · have hcount := pyCount_of_before hbefore
    rcases hbefore with ⟨hpos, hlt⟩ | ⟨hneg, hlt⟩
    · split_ifs with hfits
      · exact iff_of_true rfl fun _ _ => hfits.resolve_left (by omega)
      · exact iff_of_false (fun h => by cases h) fun h => hfits (Or.inr (h hpos hlt))
    · have hstop' := hstop.2 (by omega)
      have hfits := inLong_after_down hneg hlt hlo (by unfold InLong at hlong; omega)
      rw [if_pos (Or.inr hfits)]
      exact iff_of_true rfl fun hpos => by omega
  · have hzero := pyCount_of_not hstep hbefore
    rw [if_pos (Or.inl hzero)]
    unfold Before at hbefore
    exact iff_of_true rfl fun hpos hlt => absurd (Or.inl ⟨hpos, hlt⟩) hbefore

end Slice

section Range

/-- What follows the count in a range. -/
def rangeTail (lo hi step : ℤ) : Option (Option (List ℤ)) :=
  if (maxRangeElems : ℤ) < pyCount lo hi step then some none
  else some <$> stepsFrom step hi (maxRangeElems + 1) lo

theorem rangeTail_right (hstep : step ≠ 0) (hlo : InLong lo) :
    (rangeTail lo hi step = if (pyRange lo hi step).length ≤ maxRangeElems
      then some (some (pyRange lo hi step)) else some none) ↔
      (0 < pyCount lo hi step → pyCount lo hi step ≤ maxRangeElems →
        InLong (lo + pyCount lo hi step * step)) := by
  have hlen : (pyRange lo hi step).length = pyCount lo hi step := by
    rw [pyRange, List.length_map, List.length_range]
  rw [hlen, rangeTail]
  by_cases hmax : pyCount lo hi step ≤ maxRangeElems
  · rw [if_neg (by omega), if_pos hmax, stepsFrom_eq hstep hlo (by omega)]
    split_ifs with hfits
    · exact iff_of_true rfl fun hpos _ => hfits.resolve_left (by omega)
    · obtain ⟨hpos, hnot⟩ := not_or.1 hfits
      exact iff_of_false (fun h => by cases h) fun h => hnot (h (by omega) hmax)
  · rw [if_pos (by omega), if_neg hmax]
    exact iff_of_true rfl fun _ h => absurd h hmax

theorem count_up (hpos : 0 < step) (hlt : lo < hi) :
    (hi - lo + step - 1) / step = (pyCount lo hi step : ℤ) := by
  rw [pyCount, if_pos hpos, Int.toNat_of_nonneg (Int.ediv_nonneg (by omega) hpos.le)]

theorem count_down (hneg : step < 0) (hlt : hi < lo) :
    (lo - hi + -step - 1) / -step = (pyCount lo hi step : ℤ) := by
  rw [pyCount, if_neg (by omega), Int.toNat_of_nonneg (Int.ediv_nonneg (by omega) (by omega))]

theorem rangeNumbers_up (hpos : 0 < step) :
    rangeNumbers lo hi step =
      if InLong (hi - lo) ∧ (lo < hi → InLong (hi - lo + step)) then rangeTail lo hi step
      else none := by
  have hne := hpos.ne'
  by_cases hspan : InLong (hi - lo)
  · have hchecked := checked_of_inLong hspan
    by_cases hlt : lo < hi
    · have hcount := count_up hpos hlt
      by_cases htop : InLong (hi - lo + step)
      · have hchecked' := checked_of_inLong htop
        simp [rangeNumbers, rangeTail, *]
      · have hchecked' := checked_of_not htop
        simp [rangeNumbers, *]
    · have hzero : pyCount lo hi step = 0 := pyCount_of_not hne (by unfold Before; omega)
      simp [rangeNumbers, rangeTail, *]
  · have hchecked := checked_of_not hspan
    simp [rangeNumbers, *]

theorem rangeNumbers_down (hneg : step < 0) :
    rangeNumbers lo hi step =
      if InLong (lo - hi) ∧ (hi < lo → InLong (-step) ∧ InLong (lo - hi + -step))
      then rangeTail lo hi step else none := by
  have hne := hneg.ne
  have hnot : ¬0 < step := hneg.not_gt
  by_cases hspan : InLong (lo - hi)
  · have hchecked := checked_of_inLong hspan
    by_cases hlt : hi < lo
    · have hcount := count_down hneg hlt
      by_cases hwidth : InLong (-step)
      · have hchecked' := checked_of_inLong hwidth
        by_cases htop : InLong (lo - hi + -step)
        · have hchecked'' := checked_of_inLong htop
          rw [if_pos ⟨hspan, fun _ => ⟨hwidth, htop⟩⟩, rangeTail, ← hcount]
          simp [rangeNumbers, -Int.ediv_neg, *]
        · have hchecked'' := checked_of_not htop
          simp [rangeNumbers, *]
      · have hchecked' := checked_of_not hwidth
        simp [rangeNumbers, *]
    · have hzero : pyCount lo hi step = 0 := pyCount_of_not hne (by unfold Before; omega)
      simp [rangeNumbers, rangeTail, *]
  · have hchecked := checked_of_not hspan
    simp [rangeNumbers, *]

/-- A range is Python's or too long, unless one of its numbers does not fit. -/
theorem range_python (hstep : step ≠ 0) (hlo : InLong lo) :
    RangeRight lo hi step ↔ RangeFits lo hi step := by
  have hnone : none ≠ if (pyRange lo hi step).length ≤ maxRangeElems
      then some (some (pyRange lo hi step)) else some none := by
    split_ifs <;> exact (Option.some_ne_none _).symm
  have hright : RangeRight lo hi step ↔ rangeNumbers lo hi step =
      if (pyRange lo hi step).length ≤ maxRangeElems then some (some (pyRange lo hi step))
      else some none := by
    unfold RangeRight
    split_ifs <;> rfl
  rw [hright, RangeFits, ← rangeTail_right hstep hlo]
  rcases lt_or_gt_of_ne hstep with hneg | hpos
  · rw [rangeNumbers_down hneg]
    by_cases hfits : InLong (lo - hi) ∧ (hi < lo → InLong (-step) ∧ InLong (lo - hi + -step))
    · rw [if_pos hfits]
      exact ⟨fun h => ⟨fun hpos => by omega, fun _ => hfits, h⟩, fun h => h.2.2⟩
    · rw [if_neg hfits]
      exact iff_of_false hnone fun h => hfits (h.2.1 hneg)
  · rw [rangeNumbers_up hpos]
    by_cases hfits : InLong (hi - lo) ∧ (lo < hi → InLong (hi - lo + step))
    · rw [if_pos hfits]
      exact ⟨fun h => ⟨fun _ => hfits, fun hneg => by omega, h⟩, fun h => h.2.2⟩
    · rw [if_neg hfits]
      exact iff_of_false hnone fun h => hfits (h.1 hpos)

end Range

/-- For bounds and steps over the whole range of `long`: the loop of a slice visits exactly the
positions of Python's slice, all of them in the sequence, if and only if the position after the last
fits; a range is Python's or too long if and only if its distances and the number after its last fit. -/
theorem sequences_python (step : ℤ) :
    (∀ (n : ℕ) (start stop : Option ℤ), (n : ℤ) ≤ longMax → (∀ x ∈ start, InLong x) →
      (∀ x ∈ stop, InLong x) → InLong step → step ≠ 0 →
        (slicePositions n start stop step = some (pySlice n start stop step) ∧
          (∀ i ∈ pySlice n start stop step, 0 ≤ i ∧ i < n) ↔ SliceFits n start stop step)) ∧
      ∀ lo hi : ℤ, InLong lo → InLong hi → InLong step → step ≠ 0 →
        (RangeRight lo hi step ↔ RangeFits lo hi step) := by
  refine ⟨fun n start stop hn _ _ hlong hstep => ?_, fun lo hi hlo _ _ hstep => ?_⟩
  · rw [and_iff_left fun i hi => pySlice_mem hstep start stop hi]
    exact slice_python hn hstep hlong start stop
  · exact range_python hstep hlo

/-- The slice of three elements from 1 on with the largest step, and the whole range of `long`. -/
theorem sequences_overflow :
    (slicePositions 3 (some 1) none longMax = none ∧ pySlice 3 (some 1) none longMax = [1]) ∧
      rangeNumbers longMin longMax 1 = none ∧ rangeNumbers (longMax - 1) longMax 2 = none ∧
        pyRange (longMax - 1) longMax 2 = [longMax - 1] := by
  decide +kernel

/-! What happens to a value while a template is rendered. Only two things change an object that
exists, a turn of the loop it belongs to and an attribute that is set; every other value stays what it is. -/

variable {F : Type}

/-- Between the two moments no turn of a loop and no attribute was about an object that the value at
`v` consists of. -/
def Undisturbed (older newer : Moment F) (v : Addr) : Prop :=
  ∀ path a, older.heap.follow v path = some a →
    ∀ e ∈ newer.events.drop older.events.length, a ∉ e.objects

/-- Whatever could be read of the value at `v`, at any depth, is still read there. -/
def SameContents (older newer : Moment F) (v : Addr) : Prop :=
  ∀ path o, older.heap.read v path = some o → newer.heap.read v path = some o

variable {older newer : Moment F} {v : Addr}

/-- The value itself is one of the objects it consists of. -/
theorem Undisturbed.obj (h : Undisturbed older newer v) (hle : older ≤ newer) {o : Obj F}
    (ho : older.heap[v]? = some o) : newer.heap[v]? = some o := by
  obtain ⟨new, he, hk⟩ := hle
  refine hk v o ho fun e hmem => h [] v rfl e ?_
  rwa [he, List.drop_left]

theorem Undisturbed.child (h : Undisturbed older newer v) {o : Obj F} {i : ℕ} {b : Addr}
    (ho : older.heap[v]? = some o) (hb : o.children[i]? = some b) : Undisturbed older newer b := by
  intro path a ha
  refine h (i :: path) a ?_
  simpa [Heap.follow, ho, hb] using ha

theorem Undisturbed.follow {path : List ℕ} (h : Undisturbed older newer v) (hle : older ≤ newer)
    {a : Addr} (ha : older.heap.follow v path = some a) : newer.heap.follow v path = some a := by
  induction path generalizing v with
  | nil => exact ha
  | cons i path ih =>
    obtain ⟨o, ho, hrest⟩ := Option.bind_eq_some_iff.1 ha
    obtain ⟨b, hb, hpath⟩ := Option.bind_eq_some_iff.1 hrest
    have hnew : newer.heap.follow b path = some a := ih (h.child ho hb) hpath
    simpa [Heap.follow, h.obj hle ho, hb] using hnew

theorem Undisturbed.at_end {path : List ℕ} (h : Undisturbed older newer v) {a : Addr}
    (ha : older.heap.follow v path = some a) : Undisturbed older newer a := by
  induction path generalizing v with
  | nil => rwa [← Option.some.inj ha]
  | cons i path ih =>
    obtain ⟨o, ho, hrest⟩ := Option.bind_eq_some_iff.1 ha
    obtain ⟨b, hb, hpath⟩ := Option.bind_eq_some_iff.1 hrest
    exact ih (h.child ho hb) hpath

theorem sameContents_of_le (hle : older ≤ newer) (h : Undisturbed older newer v) :
    SameContents older newer v := by
  intro path o ho
  obtain ⟨a, ha, hread⟩ := Option.bind_eq_some_iff.1 ho
  exact Option.bind_eq_some_iff.2 ⟨a, h.follow hle ha, (h.at_end ha).obj hle hread⟩

/-- In every rendering, of any two moments the later one still has each value of the earlier one that
was not disturbed in between. -/
theorem moments_sameContents (P : Platform F) (depth : ℕ) (prog : List Stmt) (heap : Heap F)
    (globals : Addr) :
    (moments P depth prog heap globals).Pairwise fun older newer =>
      ∀ v, Undisturbed older newer v → SameContents older newer v := by
  have hrise : State.start heap globals ≤ (renderRun P depth prog heap globals).2 :=
    (execStmts (interp P depth) prog).le (State.start heap globals)
  have hmoments : (moments P depth prog heap globals).Pairwise (· ≤ ·) := Traced.pairwise hrise rfl
  exact hmoments.imp fun hle v h => sameContents_of_le hle h

/-- A platform for templates without floating point numbers. -/
def noFloats : Platform Unit where
  strtod _ := ()
  text _ := []
  isZero _ := true
  isfinite _ := true
  add _ _ := ()
  sub _ _ := ()
  eq _ _ := true
  lt _ _ := false
  le _ _ := true
  strftimeNow _ := []

/-- The integer that an attribute of a name is, with its address. -/
def Moment.intAttr (m : Moment F) (name attr : Text) : Option (Addr × ℤ) := do
  let target ← scopeLookup m.scopes name
  let a ← dictGet (m.heap.obj target) attr
  match m.heap[a]? with
  | some (.int n) => some (a, n)
  | _ => none

theorem Moment.heap_of_intAttr {m : Moment F} {name attr : Text} {a : Addr} {n : ℤ}
    (h : m.intAttr name attr = some (a, n)) : m.heap[a]? = some (.int n) := by
  obtain ⟨target, -, h⟩ := Option.bind_eq_some_iff.1 h
  obtain ⟨b, -, h⟩ := Option.bind_eq_some_iff.1 h
  split at h
  · next k hb =>
    obtain ⟨rfl, rfl⟩ := Prod.mk.inj (Option.some.inj h)
    exact hb
  · cases h

/-- The program of a source, or an empty one. -/
def programOf (src : String) : List Stmt := ((jinjaCompile src.toList).bind Except.toOption).getD []

/-- The first turn's number is put into a namespace and read there, then and after the loop. -/
def keepIndex : String :=
  "{% set ns = namespace() %}{% for x in [1, 2] %}{% if loop.first %}{% set ns.x = loop.index %}" ++
    "{{ ns.x }}{% endif %}{% endfor %}{{ ns.x }}"

/-- The attribute is set once. It holds one value, which is 1 at first and then 2. -/
theorem moments_loopIndex :
    (jinjaRender noFloats 10 (programOf keepIndex) [] 0).bind Except.toOption = some ['1', '2'] ∧
      ∃ i j : ℕ, ∃ older newer v, i < j ∧ (moments noFloats 10 (programOf keepIndex) [] 0)[i]? = some older ∧
        (moments noFloats 10 (programOf keepIndex) [] 0)[j]? = some newer ∧
        older.intAttr ['n', 's'] ['x'] = some (v, 1) ∧
        newer.intAttr ['n', 's'] ['x'] = some (v, 2) ∧ ¬ SameContents older newer v := by
  -- one evaluation of the program for all that is read of it
  have hrun : ((jinjaRender noFloats 10 (programOf keepIndex) [] 0).bind Except.toOption,
      [12, 16].map fun i => (moments noFloats 10 (programOf keepIndex) [] 0)[i]?.bind fun m =>
        m.intAttr ['n', 's'] ['x']) = (some ['1', '2'], [some (5, 1), some (5, 2)]) := by decide +kernel
  obtain ⟨htext, hread⟩ := Prod.mk.inj hrun
  obtain ⟨hi, hj⟩ := List.cons.inj hread
  have hj := (List.cons.inj hj).1
  obtain ⟨older, hi, hold⟩ := Option.bind_eq_some_iff.1 hi
  obtain ⟨newer, hj, hnew⟩ := Option.bind_eq_some_iff.1 hj
  refine ⟨htext, 12, 16, older, newer, 5, by decide, hi, hj, hold, hnew, fun h => ?_⟩
  have hone : newer.heap[5]? = some (.int 1) := h [] (.int 1) (Moment.heap_of_intAttr hold)
  rw [Moment.heap_of_intAttr hnew] at hone
  cases hone

end Kappai.Jinja
