import Mathlib.Data.List.DropRight
import Mathlib.Data.List.TakeWhile

/-! Texts compared up to what they begin with: the leading elements that satisfy `p` do not count. A
longer rest shows that two texts differ. -/

namespace Kappai

namespace Trimming

variable {α : Type*} {p : α → Bool} {x y z : List α}

theorem dropWhile_append_of_exists (h : ∃ a ∈ x, p a = false) :
    (x ++ y).dropWhile p = x.dropWhile p ++ y := by
  induction x with
  | nil => obtain ⟨a, ha, -⟩ := h; cases ha
  | cons a x ih =>
    obtain ⟨b, hb, hpb⟩ := h
    by_cases hpa : p a = true
    · have hbx : b ∈ x := (List.mem_cons.1 hb).resolve_left fun he => by simp [he, hpa] at hpb
      simpa [hpa] using ih ⟨b, hbx, hpb⟩
    · simp [hpa]

theorem dropWhile_ne_nil (h : ∃ a ∈ x, p a = false) : x.dropWhile p ≠ [] := by
  obtain ⟨a, ha, hp⟩ := h
  intro hnil
  exact absurd (List.dropWhile_eq_nil_iff.1 hnil a ha) (by simp [hp])

/-- Something in front that counts makes a text differ from every one that is not longer. -/
theorem dropWhile_ne_of_length_le (h : ∃ a ∈ x, p a = false) (hl : z.length ≤ y.length) :
    (x ++ y).dropWhile p ≠ z.dropWhile p := by
  intro he
  have hx : 0 < (x.dropWhile p).length := List.length_pos_iff.2 (dropWhile_ne_nil h)
  have hlen := congrArg List.length he
  rw [dropWhile_append_of_exists h, List.length_append] at hlen
  have hz : (z.dropWhile p).length ≤ z.length := List.length_dropWhile_le p z
  omega

theorem length_dropWhile_drop_le (k : ℕ) (l : List α) :
    ((l.drop k).dropWhile p).length ≤ (l.dropWhile p).length := by
  induction k generalizing l with
  | zero => exact le_rfl
  | succ k ih =>
    cases l with
    | nil => exact le_rfl
    | cons a t =>
      refine (ih t).trans ?_
      rw [List.dropWhile_cons]
      split
      · exact le_rfl
      · exact (List.length_dropWhile_le p t).trans (Nat.le_succ _)

/-- What is cut off at the beginning does not make up for something that counts behind it. -/
theorem dropWhile_append_ne_drop (h : ∃ a ∈ y, p a = false) (k : ℕ) :
    (x ++ y).dropWhile p ≠ (x.drop k).dropWhile p := by
  intro he
  have hle : ((x.drop k).dropWhile p).length ≤ (x.dropWhile p).length := length_dropWhile_drop_le k x
  have hy : 0 < (y.dropWhile p).length := List.length_pos_iff.2 (dropWhile_ne_nil h)
  have hpos : 0 < y.length := hy.trans_le (List.length_dropWhile_le p y)
  have hlen := congrArg List.length he
  rw [List.dropWhile_append] at hlen
  split at hlen
  · next hnil =>
    rw [List.isEmpty_iff] at hnil
    simp only [hnil, List.length_nil] at hle
    omega
  · rw [List.length_append] at hlen
    omega

/-- A text that begins with something that counts is not the same without it. -/
theorem dropWhile_cons_ne_drop {a : α} (h : p a = false) {k : ℕ} (hk : 0 < k) :
    (a :: x).dropWhile p ≠ ((a :: x).drop k).dropWhile p := by
  obtain ⟨k, rfl⟩ := Nat.exists_eq_succ_of_ne_zero hk.ne'
  rw [List.drop_succ_cons]
  exact dropWhile_ne_of_length_le (x := [a]) (y := x) (z := x.drop k) ⟨a, by simp, h⟩ (by simp)

/-! ### Both ends -/

theorem rdropWhile_cons_of_not {a : α} (h : p a = false) :
    (a :: x).rdropWhile p = a :: x.rdropWhile p := by
  unfold List.rdropWhile
  rw [List.reverse_cons, List.dropWhile_append]
  split
  · next hnil =>
    rw [List.isEmpty_iff] at hnil
    simp [hnil, h]
  · simp

/-- The two ends of a text can be trimmed in either order. -/
theorem dropWhile_rdropWhile (p : α → Bool) (l : List α) :
    (l.rdropWhile p).dropWhile p = (l.dropWhile p).rdropWhile p := by
  induction l with
  | nil => simp
  | cons a l ih =>
    by_cases hp : p a = true
    · rw [List.dropWhile_cons_of_pos hp, ← ih]
      by_cases hall : l.rdropWhile p = []
      · have : (a :: l).rdropWhile p = [] := by
          rw [List.rdropWhile_eq_nil_iff] at hall ⊢
          simpa [hp] using hall
        rw [this, hall]
      · have : (a :: l).rdropWhile p = a :: l.rdropWhile p := by
          unfold List.rdropWhile at hall ⊢
          rw [List.reverse_cons, List.dropWhile_append, if_neg (by simpa using hall)]
          simp
        rw [this, List.dropWhile_cons_of_pos hp]
    · have hp : p a = false := by simpa using hp
      rw [rdropWhile_cons_of_not hp, List.dropWhile_cons_of_neg (by simp [hp]),
        List.dropWhile_cons_of_neg (by simp [hp]), rdropWhile_cons_of_not hp]

/-- Trimming an end of more is trimming it of that only. -/
theorem rdropWhile_rdropWhile {q : α → Bool} (hpq : ∀ a, p a = true → q a = true) (l : List α) :
    (l.rdropWhile p).rdropWhile q = l.rdropWhile q := by
  induction l using List.reverseRecOn with
  | nil => simp
  | append_singleton l a ih =>
    by_cases hp : p a = true
    · rw [List.rdropWhile_concat_pos _ _ _ hp, ih, List.rdropWhile_concat_pos _ _ _ (hpq a hp)]
    · rw [List.rdropWhile_concat_neg _ _ _ hp]

theorem length_rdropWhile (p : α → Bool) (l : List α) :
    (l.rdropWhile p).length = l.length - (l.rtakeWhile p).length := by
  have := congrArg List.length (List.rdropWhile_append_rtakeWhile (p := p) (l := l))
  rw [List.length_append] at this
  omega

theorem take_length_rdropWhile (p : α → Bool) (l : List α) :
    l.take (l.length - (l.rtakeWhile p).length) = l.rdropWhile p := by
  rw [← length_rdropWhile]
  exact List.prefix_iff_eq_take.1 (List.rdropWhile_prefix p l) |>.symm

/-- A text with something that counts is another one when its end is trimmed. -/
theorem dropWhile_ne_rdropWhile {q : α → Bool} (hpq : ∀ a, p a = true → q a = true)
    (hl : ∃ a ∈ x, q a = false) (hend : x.rtakeWhile p ≠ []) :
    x.dropWhile q ≠ (x.rdropWhile p).dropWhile q := by
  have hsplit := List.rdropWhile_append_rtakeWhile (p := p) (l := x)
  have hfront : ∃ a ∈ x.rdropWhile p, q a = false := by
    obtain ⟨a, ha, hq⟩ := hl
    rw [← hsplit] at ha
    rcases List.mem_append.1 ha with ha | ha
    · exact ⟨a, ha, hq⟩
    · rw [hpq a (List.mem_rtakeWhile_imp ha)] at hq
      cases hq
  intro he
  have := congrArg List.length he
  nth_rewrite 1 [← hsplit] at this
  rw [dropWhile_append_of_exists hfront, List.length_append] at this
  exact hend (List.length_eq_zero_iff.1 (by omega))

end Trimming

end Kappai
