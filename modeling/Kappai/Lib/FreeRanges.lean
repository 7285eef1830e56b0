import Mathlib.Algebra.BigOperators.Group.List.Basic
import Mathlib.Data.List.Pairwise
import Mathlib.Data.Nat.Notation
import Mathlib.Tactic.Common
import Mathlib.Algebra.Order.BigOperators.Group.Finset
import Mathlib.Order.Interval.Finset.Nat
import Mathlib.Algebra.Ring.Nat

/-! Free ranges of a block of memory: they rise, none is empty and there is something between one and the
next. A request takes the front of the first range where it fits, and what is given back joins its
neighbours. -/

namespace Kappai

/-- The bytes from `off` to `off + size`. -/
structure ByteRange where
  off : ℕ
  size : ℕ
deriving DecidableEq, Repr

namespace ByteRange

def stop (r : ByteRange) : ℕ := r.off + r.size

/-- Two ranges have no byte in common. -/
def Apart (r q : ByteRange) : Prop := r.stop ≤ q.off ∨ q.stop ≤ r.off

theorem Apart.symm {r q : ByteRange} (h : Apart r q) : Apart q r := Or.symm h

/-- The first multiple of `align` from `x` on. -/
def alignUp (x align : ℕ) : ℕ := (x + (align - 1)) / align * align

theorem le_alignUp {align : ℕ} (h : 0 < align) (x : ℕ) : x ≤ alignUp x align := by
  have hmod := Nat.div_add_mod' (x + (align - 1)) align
  have hlt := Nat.mod_lt (x + (align - 1)) h
  rw [alignUp]
  omega

theorem dvd_alignUp (x align : ℕ) : align ∣ alignUp x align := Nat.dvd_mul_left _ _

theorem alignUp_of_dvd {x align : ℕ} (h : 0 < align) (hx : align ∣ x) : alignUp x align = x := by
  obtain ⟨k, rfl⟩ := hx
  rw [alignUp, Nat.mul_add_div h, Nat.div_eq_of_lt (by omega), Nat.add_zero, Nat.mul_comm]

/-- What lies before the first byte that is aligned. -/
def slack (r : ByteRange) (align : ℕ) : ℕ := alignUp r.off align - r.off

/-- An aligned request of `size` bytes has room. -/
def fits (align size : ℕ) (r : ByteRange) : Bool := decide (r.slack align < r.size) && decide (size ≤ r.size - r.slack align)

theorem fits_iff {align size : ℕ} {r : ByteRange} (hsize : 0 < size) :
    r.fits align size = true ↔ r.slack align + size ≤ r.size := by
  rw [fits, Bool.and_eq_true, decide_eq_true_iff, decide_eq_true_iff]
  omega

end ByteRange

namespace FreeRanges

open ByteRange

/-- The ranges rise, none is empty and no two adjoin. -/
structure Spaced (rs : List ByteRange) : Prop where
  rise : rs.Pairwise fun r q => r.stop < q.off
  pos : ∀ r ∈ rs, 0 < r.size

def total (rs : List ByteRange) : ℕ := (rs.map (·.size)).sum

@[simp] theorem total_nil : total [] = 0 := rfl

@[simp] theorem total_cons (r : ByteRange) (rs : List ByteRange) : total (r :: rs) = r.size + total rs := rfl

@[simp] theorem total_append (rs qs : List ByteRange) : total (rs ++ qs) = total rs + total qs := by
  rw [total, List.map_append, List.sum_append, total, total]

/-- What a request leaves of the range it is put in. -/
def rest (align size : ℕ) (r : ByteRange) : List ByteRange :=
  if r.size - r.slack align - size > 0 then
    [⟨r.off + r.slack align + size, r.size - r.slack align - size⟩]
  else []

/-- The first range where a request fits: where it begins, and the ranges that are left. -/
def take (align size : ℕ) : List ByteRange → Option (ℕ × List ByteRange)
  | [] => none
  | r :: rs =>
    if r.fits align size then some (alignUp r.off align, rest align size r ++ rs)
    else (take align size rs).map fun p => (p.1, r :: p.2)

/-- A range joined with the one before it, if they adjoin. -/
def joinLeft (before : List ByteRange) (m : ByteRange) : List ByteRange × ByteRange :=
  match before.getLast? with
  | none => (before, m)
  | some p => if p.stop = m.off then (before.dropLast, ⟨p.off, p.size + m.size⟩) else (before, m)

def joinRight (m : ByteRange) : List ByteRange → ByteRange × List ByteRange
  | [] => (m, [])
  | q :: after => if m.stop = q.off then (⟨m.off, m.size + q.size⟩, after) else (m, q :: after)

/-- A range put in its place and joined with its neighbours. -/
def give (rs : List ByteRange) (m : ByteRange) : List ByteRange :=
  let left := joinLeft (rs.takeWhile fun r => decide (r.off < m.off)) m
  let right := joinRight left.2 (rs.dropWhile fun r => decide (r.off < m.off))
  left.1 ++ right.1 :: right.2

section Take

variable {align size : ℕ} {rs qs : List ByteRange} {off : ℕ}

/-- The range that a request is put in. -/
def firstFit (align size : ℕ) (rs : List ByteRange) : Option ByteRange := rs.find? (fits align size)

/-- What a request takes lies in one range, of which the rest is left. -/
theorem take_eq_some (h : take align size rs = some (off, qs)) :
    ∃ before r after, rs = before ++ r :: after ∧ qs = before ++ rest align size r ++ after ∧
      off = alignUp r.off align ∧ firstFit align size rs = some r ∧ r.fits align size = true := by
  induction rs generalizing off qs with
  | nil => cases h
  | cons r rs ih =>
    rw [take] at h
    split_ifs at h with hfits
    · obtain ⟨hoff, hqs⟩ := Prod.mk.inj (Option.some.inj h)
      exact ⟨[], r, rs, rfl, hqs.symm, hoff.symm, List.find?_cons_of_pos hfits, hfits⟩
    · obtain ⟨p, hp, heq⟩ := Option.map_eq_some_iff.1 h
      obtain ⟨before, q, after, rfl, hqs, hoff, hfirst, hq⟩ := ih hp
      obtain ⟨hoff', hqs'⟩ := Prod.mk.inj heq
      refine ⟨r :: before, q, after, rfl, ?_, hoff'.symm.trans hoff, ?_, hq⟩
      · rw [← hqs', hqs]
        rfl
      · rw [firstFit, List.find?_cons_of_neg hfits]
        exact hfirst

theorem mem_rest {r q : ByteRange} (hfits : r.slack align + size ≤ r.size) (hq : q ∈ rest align size r) :
    q.off = r.off + r.slack align + size ∧ q.stop = r.stop ∧ 0 < q.size := by
  rw [rest] at hq
  split_ifs at hq with hpos
  · rw [List.mem_singleton.1 hq]
    refine ⟨rfl, ?_, hpos⟩
    simp only [stop]
    omega
  · cases hq

theorem total_rest {r : ByteRange} (hfits : r.slack align + size ≤ r.size) :
    total (rest align size r) + size + r.slack align = r.size := by
  rw [rest]
  split_ifs with hpos
  · simp only [total_cons, total_nil]
    omega
  · simp only [total_nil]
    omega

theorem Spaced.rest (h : Spaced rs) (hsize : 0 < size) (htake : take align size rs = some (off, qs)) :
    Spaced qs := by
  obtain ⟨before, r, after, rfl, rfl, -, -, hfits⟩ := take_eq_some htake
  rw [fits_iff hsize] at hfits
  have hrise := h.rise
  rw [List.pairwise_append, List.pairwise_cons] at hrise
  obtain ⟨hbefore, ⟨hr, hafter⟩, hacross⟩ := hrise
  constructor
  · rw [List.append_assoc, List.pairwise_append, List.pairwise_append]
    refine ⟨hbefore, ⟨?_, hafter, ?_⟩, ?_⟩
    · rw [FreeRanges.rest]
      split_ifs <;> simp
    · intro q hq a ha
      rw [(mem_rest hfits hq).2.1]
      exact hr a ha
    · intro b hb q hq
      rcases List.mem_append.1 hq with hq | hq
      · have := hacross b hb r List.mem_cons_self
        rw [(mem_rest hfits hq).1]
        omega
      · exact hacross b hb q (List.mem_cons_of_mem _ hq)
  · intro q hq
    simp only [List.mem_append] at hq
    rcases hq with (hq | hq) | hq
    · exact h.pos q (by simp [hq])
    · exact (mem_rest hfits hq).2.2
    · exact h.pos q (by simp [hq])

end Take

section Give

variable {before after rs : List ByteRange} {m : ByteRange}

/-- What a join makes of `m`, which reaches as far as before and covers what it has joined. -/
structure JoinedLeft (before : List ByteRange) (m : ByteRange) (p : List ByteRange × ByteRange) : Prop where
  sub : ∀ r ∈ p.1, r ∈ before
  rise : p.1.Pairwise fun r q => r.stop < q.off
  gap : ∀ r ∈ p.1, r.stop < p.2.off
  stop : p.2.stop = m.stop
  from_ : p.2.off = m.off ∨ ∃ r ∈ before, r.stop = m.off ∧ p.2.off = r.off
  total : total p.1 + p.2.size = FreeRanges.total before + m.size

theorem joinLeft_spec (hrise : before.Pairwise fun r q => r.stop < q.off) (hpos : ∀ r ∈ before, 0 < r.size)
    (hle : ∀ r ∈ before, r.stop ≤ m.off) : JoinedLeft before m (joinLeft before m) := by
  rcases List.eq_nil_or_concat before with rfl | ⟨init, p, rfl⟩
  · exact ⟨by simp [joinLeft], by simp [joinLeft], by simp [joinLeft], rfl, Or.inl rfl, rfl⟩
  · rw [List.concat_eq_append] at *
    rw [List.pairwise_append] at hrise
    obtain ⟨hinit, -, hacross⟩ := hrise
    have hp := hle p (by simp)
    have hppos := hpos p (by simp)
    have hgap : ∀ r ∈ init, r.stop < p.off := fun r hr => hacross r hr p List.mem_cons_self
    simp only [joinLeft, List.getLast?_append, List.getLast?_singleton, Option.some_or]
    split_ifs with htouch
    · rw [List.dropLast_concat]
      refine ⟨fun r hr => by simp [hr], hinit, hgap, ?_, Or.inr ⟨p, by simp, htouch, rfl⟩, ?_⟩
      · simp only [ByteRange.stop] at *
        omega
      · simp only [total_append, total_cons, total_nil]
        omega
    · refine ⟨fun r hr => hr, ?_, fun r hr => ?_, rfl, Or.inl rfl, rfl⟩
      · rw [List.pairwise_append]
        exact ⟨hinit, by simp, hacross⟩
      · rcases List.mem_append.1 hr with hr | hr
        · have := hgap r hr
          simp only [ByteRange.stop] at *
          omega
        · rw [List.mem_singleton.1 hr]
          exact Nat.lt_of_le_of_ne hp htouch

structure JoinedRight (after : List ByteRange) (m : ByteRange) (p : ByteRange × List ByteRange) : Prop where
  sub : ∀ r ∈ p.2, r ∈ after
  rise : p.2.Pairwise fun r q => r.stop < q.off
  gap : ∀ r ∈ p.2, p.1.stop < r.off
  off : p.1.off = m.off
  upTo : p.1.stop = m.stop ∨ ∃ r ∈ after, r.off = m.stop ∧ p.1.stop = r.stop
  total : p.1.size + total p.2 = m.size + FreeRanges.total after

theorem joinRight_spec (hrise : after.Pairwise fun r q => r.stop < q.off) (hpos : ∀ r ∈ after, 0 < r.size)
    (hle : ∀ r ∈ after, m.stop ≤ r.off) : JoinedRight after m (joinRight m after) := by
  cases after with
  | nil => exact ⟨by simp [joinRight], by simp [joinRight], by simp [joinRight], rfl, Or.inl rfl, rfl⟩
  | cons q after =>
    rw [List.pairwise_cons] at hrise
    have hq := hle q List.mem_cons_self
    have hqpos := hpos q List.mem_cons_self
    rw [joinRight]
    split_ifs with htouch
    · have hstop : (⟨m.off, m.size + q.size⟩ : ByteRange).stop = q.stop := by
        simp only [ByteRange.stop] at *
        omega
      refine ⟨fun r hr => List.mem_cons_of_mem _ hr, hrise.2, fun r hr => ?_, rfl,
        Or.inr ⟨q, List.mem_cons_self, htouch.symm, hstop⟩, ?_⟩
      · rw [hstop]
        exact hrise.1 r hr
      · simp only [total_cons]
        omega
    · refine ⟨fun r hr => hr, List.pairwise_cons.2 hrise, fun r hr => ?_, rfl, Or.inl rfl, rfl⟩
      rcases List.mem_cons.1 hr with rfl | hr
      · exact Nat.lt_of_le_of_ne hq htouch
      · have := hrise.1 r hr
        simp only [ByteRange.stop] at *
        omega

/-- The ranges below and above the place of `m`. -/
structure Around (rs : List ByteRange) (m : ByteRange) (before after : List ByteRange) : Prop where
  split : rs = before ++ after
  below : ∀ r ∈ before, r.stop ≤ m.off
  above : ∀ r ∈ after, m.stop ≤ r.off

theorem Spaced.around (h : Spaced rs) (hapart : ∀ r ∈ rs, m.Apart r) :
    Around rs m (rs.takeWhile fun r => decide (r.off < m.off)) (rs.dropWhile fun r => decide (r.off < m.off)) := by
  have hmem : ∀ r, r ∈ rs.dropWhile (fun r => decide (r.off < m.off)) → r ∈ rs := fun r hr =>
    List.dropWhile_subset _ hr
  have hfirst : ∀ r ∈ (rs.dropWhile fun r => decide (r.off < m.off)).head?, m.off ≤ r.off := by
    intro r hr
    have := List.head?_dropWhile_not (fun r : ByteRange => decide (r.off < m.off)) rs
    rw [Option.mem_def.1 hr] at this
    exact Nat.not_lt.1 (of_decide_eq_false (by simpa using this))
  have hrise : (rs.dropWhile fun r => decide (r.off < m.off)).Pairwise fun r q => r.stop < q.off :=
    h.rise.sublist (List.dropWhile_sublist _)
  have hhigh : ∀ r ∈ rs.dropWhile (fun r => decide (r.off < m.off)), m.off ≤ r.off := by
    cases hl : rs.dropWhile fun r => decide (r.off < m.off) with
    | nil => simp
    | cons q after =>
      rw [hl] at hfirst hrise
      have hq := hfirst q rfl
      intro r hr
      rcases List.mem_cons.1 hr with rfl | hr
      · exact hq
      · have := (List.pairwise_cons.1 hrise).1 r hr
        simp only [ByteRange.stop] at this
        omega
  refine ⟨List.takeWhile_append_dropWhile.symm, fun r hr => ?_, fun r hr => ?_⟩
  · have hlt : r.off < m.off := of_decide_eq_true (List.all_eq_true.1 List.all_takeWhile r hr)
    rcases hapart r (List.takeWhile_subset _ hr) with h' | h'
    · simp only [ByteRange.stop] at h'
      omega
    · exact h'
  · have hle := hhigh r hr
    have hpos := h.pos r (hmem r hr)
    rcases hapart r (hmem r hr) with h' | h'
    · exact h'
    · simp only [ByteRange.stop] at h'
      omega

/-- What is free once `m` is given back. -/
structure Given (rs : List ByteRange) (m : ByteRange) (qs : List ByteRange) : Prop where
  spaced : Spaced qs
  total : total qs = FreeRanges.total rs + m.size
  apart : ∀ r : ByteRange, 0 < r.size → r.Apart m → (∀ q ∈ rs, r.Apart q) → ∀ q ∈ qs, r.Apart q
  upTo : ∀ n, m.stop ≤ n → (∀ q ∈ rs, q.stop ≤ n) → ∀ q ∈ qs, q.stop ≤ n

theorem Spaced.give (h : Spaced rs) (hm : 0 < m.size) (hapart : ∀ r ∈ rs, m.Apart r) :
    Given rs m (give rs m) := by
  have haround := h.around hapart
  rw [FreeRanges.give]
  generalize rs.takeWhile (fun r => decide (r.off < m.off)) = before at haround ⊢
  generalize rs.dropWhile (fun r => decide (r.off < m.off)) = after at haround ⊢
  obtain ⟨rfl, hbelow, habove⟩ := haround
  obtain ⟨hriseb, hrisea, hacross⟩ := List.pairwise_append.1 h.rise
  have hl := joinLeft_spec hriseb (fun r hr => h.pos r (List.mem_append_left _ hr)) hbelow
  generalize joinLeft before m = left at hl
  have hr := joinRight_spec (m := left.2) hrisea (fun r hr => h.pos r (List.mem_append_right _ hr))
    fun r hr => by rw [hl.stop]; exact habove r hr
  generalize joinRight left.2 after = right at hr
  have hcover : left.2.off ≤ m.off ∧ m.stop ≤ right.1.stop := by
    constructor
    · rcases hl.from_ with h | ⟨r, hr, htouch, h⟩
      · exact Nat.le_of_eq h
      · simp only [ByteRange.stop] at htouch
        omega
    · rcases hr.upTo with h | ⟨r, hr, htouch, h⟩
      · exact Nat.le_of_eq (hl.stop.symm.trans h.symm)
      · rw [h, ← hl.stop, ← htouch]
        exact Nat.le_add_right _ _
  refine ⟨⟨?_, ?_⟩, ?_, ?_, ?_⟩
  · refine List.pairwise_append.2 ⟨hl.rise, List.pairwise_cons.2 ⟨hr.gap, hr.rise⟩, fun r hr' q hq => ?_⟩
    rcases List.mem_cons.1 hq with rfl | hq
    · rw [hr.off]
      exact hl.gap r hr'
    · exact hacross r (hl.sub r hr') q (hr.sub q hq)
  · intro q hq
    rcases List.mem_append.1 hq with hq | hq
    · exact h.pos q (List.mem_append_left _ (hl.sub q hq))
    · rcases List.mem_cons.1 hq with rfl | hq
      · have := hr.off
        simp only [ByteRange.stop] at hcover
        omega
      · exact h.pos q (List.mem_append_right _ (hr.sub q hq))
  · have h1 := hl.total
    have h2 := hr.total
    simp only [total_append, total_cons]
    omega
  · intro r hpos hrm hrest q hq
    rcases List.mem_append.1 hq with hq | hq
    · exact hrest q (List.mem_append_left _ (hl.sub q hq))
    · rcases List.mem_cons.1 hq with rfl | hq
      · -- the range that was joined: the part on the left, `m`, and the part on the right
        have hleft : r.stop ≤ left.2.off ∨ m.off ≤ r.off := by
          rcases hl.from_ with h' | ⟨p, hp, htouch, h'⟩
          · rcases hrm with hrm | hrm
            · exact Or.inl (by omega)
            · exact Or.inr (by simp only [ByteRange.stop] at hrm; omega)
          · rcases hrest p (List.mem_append_left _ hp) with hrp | hrp
            · exact Or.inl (by omega)
            · exact Or.inr (by omega)
        have hright : r.stop ≤ m.stop ∨ right.1.stop ≤ r.off := by
          rcases hr.upTo with h' | ⟨p, hp, htouch, h'⟩
          · rcases hrm with hrm | hrm
            · exact Or.inl (by simp only [ByteRange.stop] at hrm ⊢; omega)
            · exact Or.inr (by rw [h', hl.stop]; exact hrm)
          · rcases hrest p (List.mem_append_right _ hp) with hrp | hrp
            · exact Or.inl (by rw [← hl.stop, ← htouch]; exact hrp)
            · exact Or.inr (by rw [h']; exact hrp)
        simp only [ByteRange.Apart, ByteRange.stop] at hrm hleft hright hcover ⊢
        have := hr.off
        omega
      · exact hrest q (List.mem_append_right _ (hr.sub q hq))
  · intro n hmn hall q hq
    rcases List.mem_append.1 hq with hq | hq
    · exact hall q (List.mem_append_left _ (hl.sub q hq))
    · rcases List.mem_cons.1 hq with rfl | hq
      · rcases hr.upTo with h' | ⟨p, hp, -, h'⟩
        · rw [h', hl.stop]
          exact hmn
        · rw [h']
          exact hall p (List.mem_append_right _ hp)
      · exact hall q (List.mem_append_right _ (hr.sub q hq))

/-- Ranges that rise from `lo` to `n` and add up to all of it are one range. -/
theorem Spaced.whole {n : ℕ} (h : Spaced rs) (hn : 0 < n) (hle : ∀ r ∈ rs, r.stop ≤ n)
    (htotal : total rs = n) : rs = [⟨0, n⟩] := by
  have hsum : ∀ (qs : List ByteRange) (lo : ℕ), qs.Pairwise (fun r q => r.stop < q.off) →
      (∀ q ∈ qs, lo ≤ q.off ∧ q.stop ≤ n) → total qs ≤ n - lo := by
    intro qs
    induction qs with
    | nil => exact fun _ _ _ => Nat.zero_le _
    | cons q qs ih =>
      intro lo hrise hin
      have hq := hin q List.mem_cons_self
      have hrest := ih q.stop (List.pairwise_cons.1 hrise).2 fun p hp =>
        ⟨Nat.le_of_lt ((List.pairwise_cons.1 hrise).1 p hp), (hin p (List.mem_cons_of_mem _ hp)).2⟩
      simp only [total_cons, ByteRange.stop] at hq hrest ⊢
      omega
  cases rs with
  | nil => exact absurd htotal.symm (Nat.ne_of_gt hn)
  | cons r rs =>
    obtain ⟨hgap, hrise⟩ := List.pairwise_cons.1 h.rise
    have hr := hle r List.mem_cons_self
    cases rs with
    | nil =>
      simp only [total_cons, total_nil, ByteRange.stop] at htotal hr
      obtain ⟨off, size⟩ := r
      simp only at htotal hr
      obtain rfl : size = n := by omega
      obtain rfl : off = 0 := by omega
      rfl
    | cons q qs =>
      -- the gap before `q` is missing from the total
      have hq := hgap q List.mem_cons_self
      have hrest := hsum (q :: qs) q.off hrise fun p hp => by
        refine ⟨?_, hle p (List.mem_cons_of_mem _ hp)⟩
        rcases List.mem_cons.1 hp with rfl | hp
        · exact Nat.le_refl _
        · have := (List.pairwise_cons.1 hrise).1 p hp
          simp only [ByteRange.stop] at this
          omega
      have hqn := hle q (List.mem_cons_of_mem _ List.mem_cons_self)
      simp only [total_cons, ByteRange.stop] at htotal hq hrest hqn
      omega

end Give

end FreeRanges

/-! Ranges of a buffer: `n` of them, inside its `total` cells and apart from each other. -/

structure Regions (n : ℕ) (start size : ℕ → ℕ) (total : ℕ) : Prop where
  inside : ∀ i < n, start i + size i ≤ total
  apart : ∀ i < n, ∀ j < n, i ≠ j →
    Disjoint (Finset.Ico (start i) (start i + size i)) (Finset.Ico (start j) (start j + size j))

namespace Regions

variable {n total : ℕ} {start size : ℕ → ℕ}

theorem disjoint_of_le {a b c d : ℕ} (h : b ≤ c) : Disjoint (Finset.Ico a b) (Finset.Ico c d) := by
  rw [Finset.disjoint_left]
  intro x hx hx'
  rw [Finset.mem_Ico] at hx hx'
  omega

/-- Ranges that follow one another. -/
theorem consecutive (hinside : ∀ i < n, start i + size i ≤ total)
    (hnext : ∀ i j, i < j → j < n → start i + size i ≤ start j) : Regions n start size total where
  inside := hinside
  apart i hi j hj hne := by
    rcases Nat.lt_or_gt_of_ne hne with hlt | hlt
    · exact disjoint_of_le (hnext i j hlt hj)
    · exact (disjoint_of_le (hnext j i hlt hi)).symm

/-- Empty ranges that start at the buffer's first cell. -/
theorem empty (hstart : ∀ i < n, start i = 0) (hsize : ∀ i < n, size i = 0) :
    Regions n start size total :=
  consecutive (fun i hi => by rw [hstart i hi, hsize i hi]; exact Nat.zero_le _)
    fun i j hij hj => by
      rw [hstart i (hij.trans hj), hsize i (hij.trans hj)]
      exact Nat.zero_le _

theorem sum_le (h : Regions n start size total) : ∑ i ∈ Finset.range n, size i ≤ total := by
  have hdisj : ∀ i ∈ Finset.range n, ∀ j ∈ Finset.range n, i ≠ j →
      Disjoint (Finset.Ico (start i) (start i + size i)) (Finset.Ico (start j) (start j + size j)) :=
    fun i hi j hj => h.apart i (Finset.mem_range.1 hi) j (Finset.mem_range.1 hj)
  have hsub : (Finset.range n).biUnion (fun i => Finset.Ico (start i) (start i + size i)) ⊆
      Finset.range total := by
    intro x hx
    obtain ⟨i, hi, hx⟩ := Finset.mem_biUnion.1 hx
    have := h.inside i (Finset.mem_range.1 hi)
    rw [Finset.mem_Ico] at hx
    rw [Finset.mem_range]
    omega
  calc ∑ i ∈ Finset.range n, size i
      = ∑ i ∈ Finset.range n, (Finset.Ico (start i) (start i + size i)).card := by
        simp [Nat.card_Ico]
    _ = ((Finset.range n).biUnion fun i => Finset.Ico (start i) (start i + size i)).card :=
        (Finset.card_biUnion hdisj).symm
    _ ≤ (Finset.range total).card := Finset.card_le_card hsub
    _ = total := Finset.card_range total

/-- Where there is room for `n` ranges of the smallest size only, all have that size. -/
theorem size_eq {m : ℕ} (h : Regions n start size (n * m)) (hm : ∀ i < n, m ≤ size i) :
    ∀ i < n, size i = m := by
  intro i hi
  have hsum : ∑ i ∈ Finset.range n, m ≤ ∑ i ∈ Finset.range n, size i :=
    Finset.sum_le_sum fun j hj => hm j (Finset.mem_range.1 hj)
  have heq : ∑ i ∈ Finset.range n, m = ∑ i ∈ Finset.range n, size i := by
    refine le_antisymm hsum (h.sum_le.trans ?_)
    rw [Finset.sum_const_nat fun _ _ => rfl, Finset.card_range]
  have hall := (Finset.sum_eq_sum_iff_of_le fun j hj => hm j (Finset.mem_range.1 hj)).1 heq
  exact (hall i (Finset.mem_range.2 hi)).symm

end Regions

end Kappai
