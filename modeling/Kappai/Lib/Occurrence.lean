import Mathlib.Data.List.Infix
import Mathlib.Data.List.TakeDrop
import Mathlib.Tactic.Common

/-! Where a pattern occurs in a text, the first such place, and what more text does to it. -/

namespace Kappai

variable {α : Type*}

/-- `p` begins at position `k` of `t`. The empty pattern occurs everywhere, also at the end. -/
def OccursAt (p t : List α) (k : ℕ) : Prop := k ≤ t.length ∧ p <+: t.drop k

namespace OccursAt

variable {p t u : List α} {k : ℕ}

theorem add_length_le (h : OccursAt p t k) : k + p.length ≤ t.length := by
  have := h.2.length_le
  rw [List.length_drop] at this
  have := h.1
  omega

theorem lt_length (h : OccursAt p t k) (hp : p ≠ []) : k < t.length := by
  have := h.add_length_le
  have := List.length_pos_of_ne_nil hp
  omega

theorem append (h : OccursAt p t k) (u : List α) : OccursAt p (t ++ u) k := by
  refine ⟨by rw [List.length_append]; exact h.1.trans (Nat.le_add_right _ _), ?_⟩
  rw [List.drop_append_of_le_length h.1]
  exact h.2.trans (List.prefix_append _ _)

/-- An occurrence that ends inside the first part is one of the first part. -/
theorem of_append (h : OccursAt p (t ++ u) k) (hle : k + p.length ≤ t.length) :
    OccursAt p t k := by
  refine ⟨by omega, ?_⟩
  have hpre := h.2
  rw [List.drop_append_of_le_length (by omega)] at hpre
  exact List.prefix_of_prefix_length_le hpre (List.prefix_append _ _)
    (by rw [List.length_drop]; omega)

theorem drop_iff {d : ℕ} (hd : d ≤ t.length) :
    OccursAt p (t.drop d) k ↔ OccursAt p t (d + k) := by
  rw [OccursAt, OccursAt, List.drop_drop, List.length_drop]
  constructor
  · exact fun ⟨hk, h⟩ => ⟨by omega, h⟩
  · exact fun ⟨hk, h⟩ => ⟨by omega, h⟩

/-- Of two occurrences, the one that begins later and ends earlier lies in the other pattern,
before its last place. -/
theorem inside {q : List α} {i j : ℕ} (hp : OccursAt p t i) (hq : OccursAt q t j) (hle : i ≤ j)
    (hend : j + q.length < i + p.length) : OccursAt q p.dropLast (j - i) := by
  obtain ⟨r, hr⟩ := hp.2
  have hne : p ≠ [] := by
    rintro rfl
    rw [List.length_nil] at hend
    omega
  have hsplit : t.drop i = p.dropLast ++ (p.getLast hne :: r) := by
    rw [← hr, ← List.singleton_append, ← List.append_assoc, List.dropLast_append_getLast]
  have hqi : OccursAt q (t.drop i) (j - i) := by
    refine ⟨by rw [List.length_drop]; have := hq.1; omega, ?_⟩
    rw [List.drop_drop, show i + (j - i) = j by omega]
    exact hq.2
  rw [hsplit] at hqi
  exact hqi.of_append (by rw [List.length_dropLast]; omega)

end OccursAt

/-- The first occurrence. -/
def findAt [DecidableEq α] (p : List α) : List α → Option ℕ
  | [] => if p = [] then some 0 else none
  | a :: t => if p.isPrefixOf (a :: t) then some 0 else (findAt p t).map (· + 1)

section Find

variable {p t : List α} {k : ℕ}

theorem occursAt_zero : OccursAt p t 0 ↔ p <+: t := by
  rw [OccursAt, List.drop_zero]
  exact and_iff_right (Nat.zero_le _)

theorem occursAt_succ {a : α} : OccursAt p (a :: t) (k + 1) ↔ OccursAt p t k := by
  rw [OccursAt, OccursAt, List.length_cons, List.drop_succ_cons, Nat.succ_le_succ_iff]

variable [DecidableEq α]

theorem findAt_eq_none : findAt p t = none ↔ ∀ k, ¬OccursAt p t k := by
  induction t with
  | nil =>
    rw [findAt]
    constructor
    · intro h k hk
      have hp : p = [] := by
        have := hk.2
        rwa [List.drop_nil, List.prefix_nil] at this
      rw [if_pos hp] at h
      cases h
    · intro h
      refine if_neg fun hp => h 0 (occursAt_zero.2 ?_)
      rw [hp]
  | cons a t ih =>
    rw [findAt]
    split_ifs with hpre
    · constructor
      · exact fun h => by cases h
      · exact fun h => absurd (occursAt_zero.2 (List.isPrefixOf_iff_prefix.1 hpre)) (h 0)
    · rw [Option.map_eq_none_iff, ih]
      constructor
      · rintro h (_ | k)
        · exact fun hk => hpre (List.isPrefixOf_iff_prefix.2 (occursAt_zero.1 hk))
        · exact fun hk => h k (occursAt_succ.1 hk)
      · exact fun h k hk => h (k + 1) (occursAt_succ.2 hk)

theorem findAt_eq_some :
    findAt p t = some k ↔ OccursAt p t k ∧ ∀ j < k, ¬OccursAt p t j := by
  induction t generalizing k with
  | nil =>
    rw [findAt]
    constructor
    · intro h
      split_ifs at h with hp
      obtain rfl := Option.some.inj h
      exact ⟨occursAt_zero.2 (by rw [hp]), fun j hj => absurd hj (Nat.not_lt_zero j)⟩
    · rintro ⟨⟨hk, hpre⟩, -⟩
      rw [List.drop_nil, List.prefix_nil] at hpre
      rw [if_pos hpre, Nat.le_zero.1 hk]
  | cons a t ih =>
    rw [findAt]
    split_ifs with hpre
    · have h0 : OccursAt p (a :: t) 0 := occursAt_zero.2 (List.isPrefixOf_iff_prefix.1 hpre)
      constructor
      · rintro h
        obtain rfl := Option.some.inj h
        exact ⟨h0, fun j hj => absurd hj (Nat.not_lt_zero j)⟩
      · rintro ⟨-, hfirst⟩
        rcases Nat.eq_zero_or_pos k with rfl | hpos
        · rfl
        · exact absurd h0 (hfirst 0 hpos)
    · have h0 : ¬OccursAt p (a :: t) 0 := fun h =>
        hpre (List.isPrefixOf_iff_prefix.2 (occursAt_zero.1 h))
      rw [Option.map_eq_some_iff]
      constructor
      · rintro ⟨j, hj, rfl⟩
        obtain ⟨hocc, hfirst⟩ := ih.1 hj
        refine ⟨occursAt_succ.2 hocc, ?_⟩
        rintro (_ | i) hi
        · exact h0
        · exact fun h => hfirst i (by omega) (occursAt_succ.1 h)
      · rintro ⟨hocc, hfirst⟩
        cases k with
        | zero => exact absurd hocc h0
        | succ k =>
          exact ⟨k, ih.2 ⟨occursAt_succ.1 hocc, fun j hj h =>
            hfirst (j + 1) (by omega) (occursAt_succ.2 h)⟩, rfl⟩

end Find

/-- How often a pattern occurs, overlaps counted. -/
def occurrences [DecidableEq α] (p : List α) : List α → ℕ
  | [] => if p = [] then 1 else 0
  | a :: t => (if p.isPrefixOf (a :: t) then 1 else 0) + occurrences p t

/-- No occurrence of `p` in `x ++ v ++ y` touches `v`, or goes from `x` into `y`. -/
def Uncrossed (p x v y : List α) : Prop :=
  ∀ k, OccursAt p (x ++ v ++ y) k → k + p.length ≤ x.length ∨ x.length + v.length ≤ k

section Uncrossed

variable {p x v y : List α}

/-- Only at the two borders is there something to check. -/
theorem Uncrossed.of_borders (hv : ¬p <:+: v)
    (hx : ∀ w, w <+: p → w ≠ [] → w ≠ p → ¬w <:+ x) (hy : ∀ w, w <:+ p → w ≠ [] → w ≠ p → ¬w <+: y) :
    Uncrossed p x v y := by
  intro k hk
  by_contra hcon
  push Not at hcon
  obtain ⟨hend, hbegin⟩ := hcon
  have hne : p ≠ [] := fun h => hv (h ▸ List.nil_infix)
  obtain ⟨r, hr⟩ := hk.2
  by_cases hkx : k < x.length
  · -- it begins in `x` and goes beyond
    have hdrop : (x ++ v ++ y).drop k = x.drop k ++ (v ++ y) := by
      rw [List.append_assoc, List.drop_append_of_le_length hkx.le]
    have hw : x.drop k <+: p := by
      have hpre : x.drop k <+: p ++ r := by
        rw [hr, hdrop]
        exact List.prefix_append _ _
      refine List.prefix_of_prefix_length_le hpre (List.prefix_append _ _) ?_
      rw [List.length_drop]
      omega
    refine hx _ hw (fun h => ?_) (fun h => ?_) (List.drop_suffix k x)
    · have := congrArg List.length h
      rw [List.length_drop, List.length_nil] at this
      omega
    · have := congrArg List.length h
      rw [List.length_drop] at this
      omega
  · have hdrop : (x ++ v ++ y).drop k = v.drop (k - x.length) ++ y := by
      rw [List.append_assoc, List.drop_append, List.drop_eq_nil_of_le (by omega), List.nil_append,
        List.drop_append_of_le_length (by omega)]
    rw [hdrop] at hr
    by_cases hkv : k + p.length ≤ x.length + v.length
    · -- it lies in `v`
      have : p <+: v.drop (k - x.length) := by
        have hpre : v.drop (k - x.length) <+: p ++ r := by
          rw [hr]
          exact List.prefix_append _ _
        refine List.prefix_of_prefix_length_le (List.prefix_append _ _) hpre ?_
        rw [List.length_drop]
        omega
      exact hv (this.isInfix.trans (List.drop_suffix _ _).isInfix)
    · -- it begins in `v` and ends in `y`
      have hlen : (v.drop (k - x.length)).length < p.length := by
        rw [List.length_drop]
        omega
      have hw : p.drop (v.drop (k - x.length)).length <+: y := by
        have := congrArg (List.drop (v.drop (k - x.length)).length) hr
        rw [List.drop_append_of_le_length hlen.le, List.drop_left] at this
        exact ⟨r, this⟩
      refine hy _ (List.drop_suffix _ _) (fun h => ?_) (fun h => ?_) hw
      · have := congrArg List.length h
        rw [List.length_drop, List.length_nil] at this
        omega
      · have := congrArg List.length h
        rw [List.length_drop, List.length_drop] at this
        omega

theorem Uncrossed.left (h : Uncrossed p x v y) : Uncrossed p x [] v := by
  intro k hk
  rw [List.append_nil] at hk
  rcases h k (hk.append y) with h | h
  · exact Or.inl h
  · exact Or.inr (by rw [List.length_nil]; omega)

theorem Uncrossed.right (h : Uncrossed p x v y) : Uncrossed p (x ++ v) [] y := by
  intro k hk
  rw [List.append_nil] at hk
  rw [List.length_append, List.length_nil, Nat.add_zero]
  rcases h k hk with h | h
  · exact Or.inl (by omega)
  · exact Or.inr h

theorem Uncrossed.not_occursAt (h : Uncrossed p x v y) (hp : p ≠ []) (k : ℕ) : ¬OccursAt p v k := by
  intro hk
  have hlt := hk.lt_length hp
  have hpos := List.length_pos_of_ne_nil hp
  have hall : OccursAt p (x ++ v ++ y) (x.length + k) := by
    refine OccursAt.append ⟨by rw [List.length_append]; omega, ?_⟩ y
    rw [List.drop_append, List.drop_eq_nil_of_le (by omega), List.nil_append, Nat.add_sub_cancel_left]
    exact hk.2
  rcases h _ hall with h | h <;> omega

variable [DecidableEq α]

theorem findAt_append_left {k : ℕ} (hk : findAt p x = some k) : findAt p (x ++ y) = some k := by
  obtain ⟨hocc, hfirst⟩ := findAt_eq_some.1 hk
  refine findAt_eq_some.2 ⟨hocc.append y, fun j hj hj' => hfirst j hj (hj'.of_append ?_)⟩
  have := hocc.add_length_le
  omega

/-- Where the pattern is not in the first part, it is looked for in the second. -/
theorem findAt_append_right (hx : findAt p x = none) (h : Uncrossed p x [] y) :
    findAt p (x ++ y) = (findAt p y).map (x.length + ·) := by
  have hshift : ∀ k, OccursAt p (x ++ y) k ↔ ∃ j, k = x.length + j ∧ OccursAt p y j := by
    intro k
    constructor
    · intro hk
      rcases h k (by rwa [List.append_nil]) with hle | hle
      · exact absurd (hk.of_append hle) (findAt_eq_none.1 hx k)
      · rw [List.length_nil, Nat.add_zero] at hle
        obtain ⟨j, rfl⟩ := Nat.exists_eq_add_of_le hle
        refine ⟨j, rfl, ?_⟩
        have := (OccursAt.drop_iff (t := x ++ y) (d := x.length) (by simp)).2 hk
        rwa [List.drop_left] at this
    · rintro ⟨j, rfl, hj⟩
      refine (OccursAt.drop_iff (by simp)).1 ?_
      rwa [List.drop_left]
  cases hy : findAt p y with
  | none =>
    refine findAt_eq_none.2 fun k hk => ?_
    obtain ⟨j, -, hj⟩ := (hshift k).1 hk
    exact findAt_eq_none.1 hy j hj
  | some k =>
    obtain ⟨hocc, hfirst⟩ := findAt_eq_some.1 hy
    refine findAt_eq_some.2 ⟨(hshift _).2 ⟨k, rfl, hocc⟩, fun i hi hocc' => ?_⟩
    obtain ⟨j, rfl, hj⟩ := (hshift i).1 hocc'
    exact hfirst j (Nat.lt_of_add_lt_add_left hi) hj

theorem occurrences_eq_zero (hp : p ≠ []) (h : ∀ k, ¬OccursAt p v k) : occurrences p v = 0 := by
  induction v with
  | nil => exact if_neg hp
  | cons a v ih =>
    rw [occurrences, ih fun k hk => h (k + 1) (occursAt_succ.2 hk),
      if_neg fun hpre => h 0 (occursAt_zero.2 (List.isPrefixOf_iff_prefix.1 hpre))]

theorem occurrences_append (hp : p ≠ []) (h : Uncrossed p x [] y) :
    occurrences p (x ++ y) = occurrences p x + occurrences p y := by
  induction x with
  | nil => rw [List.nil_append, occurrences, if_neg hp, Nat.zero_add]
  | cons a x ih =>
    have hiff : p.isPrefixOf (a :: (x ++ y)) = p.isPrefixOf (a :: x) := by
      rw [Bool.eq_iff_iff, List.isPrefixOf_iff_prefix, List.isPrefixOf_iff_prefix]
      constructor
      · intro hpre
        have hocc : OccursAt p (a :: x ++ [] ++ y) 0 := by
          rw [List.append_nil]
          exact occursAt_zero.2 hpre
        rcases h 0 hocc with hle | hle
        · exact occursAt_zero.1 (OccursAt.of_append (u := y) (occursAt_zero.2 hpre) hle)
        · simp at hle
      · exact fun hpre => hpre.trans (List.prefix_append _ y)
    rw [List.cons_append, occurrences, occurrences, hiff, ih fun k hk => ?_, Nat.add_assoc]
    rcases h (k + 1) (occursAt_succ.2 hk) with h | h
    · exact Or.inl (by rw [List.length_cons] at h; omega)
    · exact Or.inr (by rw [List.length_cons] at h; omega)

theorem Uncrossed.occurrences (h : Uncrossed p x v y) (hp : p ≠ []) :
    occurrences p (x ++ v ++ y) = Kappai.occurrences p x + Kappai.occurrences p y := by
  rw [occurrences_append hp h.right, occurrences_append hp h.left,
    occurrences_eq_zero hp (h.not_occursAt hp), Nat.add_zero]

end Uncrossed

/-! Length of the longest common prefix of two lists. A cache that is compared with a
request keeps exactly this many entries; the lemmas say that the kept entries agree and
that the next one does not. -/

variable {α : Type*} [DecidableEq α]

def commonPrefix : List α → List α → ℕ
  | a :: as, b :: bs => if a = b then commonPrefix as bs + 1 else 0
  | _, _ => 0

@[simp] theorem commonPrefix_nil_left (bs : List α) : commonPrefix [] bs = 0 := rfl

@[simp] theorem commonPrefix_nil_right (as : List α) : commonPrefix as [] = 0 := by
  cases as <;> rfl

theorem commonPrefix_cons (a b : α) (as bs : List α) :
    commonPrefix (a :: as) (b :: bs) = if a = b then commonPrefix as bs + 1 else 0 := rfl

theorem commonPrefix_le_left (as bs : List α) : commonPrefix as bs ≤ as.length := by
  induction as generalizing bs with
  | nil => simp
  | cons a as ih =>
    cases bs with
    | nil => simp
    | cons b bs =>
      simp only [commonPrefix_cons, List.length_cons]
      split_ifs
      · exact Nat.succ_le_succ (ih bs)
      · exact Nat.zero_le _

theorem commonPrefix_le_right (as bs : List α) : commonPrefix as bs ≤ bs.length := by
  induction as generalizing bs with
  | nil => simp
  | cons a as ih =>
    cases bs with
    | nil => simp
    | cons b bs =>
      simp only [commonPrefix_cons, List.length_cons]
      split_ifs
      · exact Nat.succ_le_succ (ih bs)
      · exact Nat.zero_le _

theorem take_commonPrefix (as bs : List α) :
    as.take (commonPrefix as bs) = bs.take (commonPrefix as bs) := by
  induction as generalizing bs with
  | nil => simp
  | cons a as ih =>
    cases bs with
    | nil => simp
    | cons b bs =>
      simp only [commonPrefix_cons]
      split_ifs with h
      · rw [h, List.take_succ_cons, List.take_succ_cons, ih bs]
      · rfl

/-- Two lists agree on every prefix up to the common one. -/
theorem take_eq_of_le_commonPrefix {as bs : List α} {k : ℕ} (h : k ≤ commonPrefix as bs) :
    as.take k = bs.take k := by
  have := congrArg (List.take k) (take_commonPrefix as bs)
  simpa [List.take_take, Nat.min_eq_left h] using this

theorem getElem?_of_lt_commonPrefix {as bs : List α} {i : ℕ} (h : i < commonPrefix as bs) :
    as[i]? = bs[i]? := by
  have := congrArg (fun l => l[i]?) (take_commonPrefix as bs)
  simpa [List.getElem?_take, h] using this

/-- The whole of the left list is kept exactly when it is a prefix of the right one. -/
theorem commonPrefix_eq_length_left {as bs : List α} :
    commonPrefix as bs = as.length ↔ as <+: bs := by
  constructor
  · intro h
    have := take_commonPrefix as bs
    rw [h, List.take_length] at this
    exact this ▸ List.take_prefix _ _
  · rintro ⟨t, rfl⟩
    induction as with
    | nil => simp
    | cons a as ih => simpa [commonPrefix_cons] using ih

end Kappai
