import Mathlib.Data.List.Basic
import Mathlib.Tactic.Common

/-! Records written one after the other, each closed by a terminator that does not occur
inside one. -/

namespace Kappai

namespace Framing

variable {α : Type*} {t : α}

def terminated (t : α) (xs : List (List α)) : List α := xs.flatMap (· ++ [t])

@[simp] theorem terminated_nil : terminated t [] = [] := rfl

@[simp] theorem terminated_cons (x : List α) (xs : List (List α)) :
    terminated t (x :: xs) = x ++ t :: terminated t xs := by
  simp [terminated]

/-- Both texts are cut at their first terminator. -/
theorem append_cons_inj {x y u v : List α} (hx : t ∉ x) (hy : t ∉ y)
    (h : x ++ t :: u = y ++ t :: v) : x = y ∧ u = v := by
  induction x generalizing y with
  | nil =>
    cases y with
    | nil => exact ⟨rfl, (List.cons.inj h).2⟩
    | cons b y => exact absurd ((List.cons.inj h).1 ▸ List.mem_cons_self) hy
  | cons a x ih =>
    cases y with
    | nil => exact absurd ((List.cons.inj h).1 ▸ List.mem_cons_self) hx
    | cons b y =>
      obtain ⟨rfl, htail⟩ := List.cons.inj h
      obtain ⟨rfl, huv⟩ :=
        ih (List.not_mem_of_not_mem_cons hx) (List.not_mem_of_not_mem_cons hy) htail
      exact ⟨rfl, huv⟩

/-- The records can be read back. -/
theorem terminated_inj {xs ys : List (List α)} (hx : ∀ x ∈ xs, t ∉ x) (hy : ∀ y ∈ ys, t ∉ y)
    (h : terminated t xs = terminated t ys) : xs = ys := by
  induction xs generalizing ys with
  | nil =>
    cases ys with
    | nil => rfl
    | cons y ys => simp at h
  | cons x xs ih =>
    cases ys with
    | nil => simp at h
    | cons y ys =>
      rw [terminated_cons, terminated_cons] at h
      obtain ⟨rfl, hrest⟩ := append_cons_inj (hx x List.mem_cons_self) (hy y List.mem_cons_self) h
      rw [ih (fun z hz => hx z (List.mem_cons_of_mem _ hz))
        (fun z hz => hy z (List.mem_cons_of_mem _ hz)) hrest]

end Framing

/-! Sequences in which something stands between any two elements that clash: after an element of a first
kind, one of a second kind comes only with a separator in between. -/

variable {γ : Type*} (first second sep : γ → Prop)

def Parted (l : List γ) : Prop :=
  ∀ l₁ x l₂ y l₃, l = l₁ ++ x :: (l₂ ++ y :: l₃) → first x → second y → ∃ z ∈ l₂, sep z

/-- An element of the first kind that no separator follows. -/
def Unparted (l : List γ) : Prop := ∃ l₁ x l₂, l = l₁ ++ x :: l₂ ∧ first x ∧ ∀ z ∈ l₂, ¬ sep z

variable {first second sep} {l : List γ} {c : γ}

theorem parted_nil : Parted first second sep [] := fun l₁ x l₂ y l₃ h => by
  cases l₁ <;> cases h

theorem not_unparted_nil : ¬ Unparted first sep [] := fun ⟨l₁, x, l₂, h, _⟩ => by
  cases l₁ <;> cases h

theorem unparted_append : Unparted first sep (l ++ [c]) ↔
    first c ∨ Unparted first sep l ∧ ¬ sep c := by
  constructor
  · rintro ⟨l₁, x, l₂, h, hx, hsep⟩
    rcases List.eq_nil_or_concat l₂ with rfl | ⟨l₂, z, rfl⟩
    · obtain ⟨-, hc⟩ := List.append_inj' h rfl
      obtain rfl : c = x := List.head_eq_of_cons_eq hc
      exact Or.inl hx
    · rw [List.concat_eq_append] at h hsep
      rw [← List.cons_append, ← List.append_assoc] at h
      obtain ⟨hl, hc⟩ := List.append_inj' h rfl
      obtain rfl : c = z := List.head_eq_of_cons_eq hc
      refine Or.inr ⟨⟨l₁, x, l₂, hl, hx, fun z hz => hsep z ?_⟩, hsep c ?_⟩
      · exact List.mem_append_left _ hz
      · exact List.mem_append_right _ (List.mem_singleton.2 rfl)
  · rintro (hc | ⟨⟨l₁, x, l₂, rfl, hx, hsep⟩, hc⟩)
    · exact ⟨l, c, [], rfl, hc, fun z hz => absurd hz List.not_mem_nil⟩
    · refine ⟨l₁, x, l₂ ++ [c], by simp, hx, fun z hz => ?_⟩
      rcases List.mem_append.1 hz with hz | hz
      · exact hsep z hz
      · rwa [List.mem_singleton.1 hz]

/-- An element may follow that clashes with nothing that is not parted from it. -/
theorem Parted.append (h : Parted first second sep l)
    (hc : second c → ¬ Unparted first sep l) : Parted first second sep (l ++ [c]) := by
  intro l₁ x l₂ y l₃ hl hx hy
  rcases List.eq_nil_or_concat l₃ with rfl | ⟨l₃, z, rfl⟩
  · have hsplit : l ++ [c] = (l₁ ++ x :: l₂) ++ [y] := by rw [hl]; simp
    obtain ⟨hl', hyc⟩ := List.append_inj' hsplit rfl
    obtain rfl : c = y := List.head_eq_of_cons_eq hyc
    by_contra hno
    push Not at hno
    exact hc hy ⟨l₁, x, l₂, hl', hx, hno⟩
  · have hsplit : l ++ [c] = (l₁ ++ x :: (l₂ ++ y :: l₃)) ++ [z] := by rw [hl]; simp
    exact h l₁ x l₂ y l₃ (List.append_inj' hsplit rfl).1 hx hy

end Kappai
