import Mathlib.Data.Nat.Notation
import Mathlib.Logic.Function.Basic

/-! A heap of numbered allocations, and holders each of which has one allocation at most. -/

namespace OwnedHeap

variable {α ι : Type}

/-- The number of the next allocation, and what is known of the ones that are live. -/
structure Heap (α : Type) where
  next : ℕ
  live : ℕ → Option α

namespace Heap

def empty : Heap α := ⟨0, fun _ => none⟩

/-- A new allocation; its number is the old `next`. -/
def alloc (h : Heap α) (a : α) : Heap α := ⟨h.next + 1, Function.update h.live h.next (some a)⟩

def free (h : Heap α) (i : ℕ) : Heap α := ⟨h.next, Function.update h.live i none⟩

/-- What a holder has is freed. -/
def drop (h : Heap α) : Option (ℕ × α) → Heap α
  | some (i, _) => h.free i
  | none => h

end Heap

/-- What the holders say they have is live, and no two have the same. -/
structure Owned (h : Heap α) (hold : ι → Option (ℕ × α)) : Prop where
  fresh : ∀ i, h.next ≤ i → h.live i = none
  live : ∀ x i a, hold x = some (i, a) → h.live i = some a
  inj : ∀ x y i a b, hold x = some (i, a) → hold y = some (i, b) → x = y

namespace Owned

variable {h : Heap α} {hold hold' : ι → Option (ℕ × α)} {x : ι} {i : ℕ} {a : α}

theorem empty (hnone : ∀ y, hold y = none) : Owned Heap.empty hold := by
  refine ⟨fun _ _ => rfl, fun y i a hy => ?_, fun y z i a b hy => ?_⟩
  · rw [hnone y] at hy
    cases hy
  · rw [hnone y] at hy
    cases hy

theorem lt_next (ho : Owned h hold) (hx : hold x = some (i, a)) : i < h.next := by
  by_contra hge
  have hlive := ho.live x i a hx
  rw [ho.fresh i (by omega)] at hlive
  cases hlive

theorem live_free_of_ne {j : ℕ} (hj : j ≠ i) : (h.free i).live j = h.live j := Function.update_of_ne hj _ _

theorem live_alloc_of_ne {j : ℕ} (hj : j ≠ h.next) : (h.alloc a).live j = h.live j :=
  Function.update_of_ne hj _ _

/-- A holder may forget what it has. -/
theorem forget (ho : Owned h hold) (hsub : ∀ y, hold' y = hold y ∨ hold' y = none) : Owned h hold' := by
  have hold_of : ∀ y i a, hold' y = some (i, a) → hold y = some (i, a) := by
    intro y i a hy
    rcases hsub y with h | h
    · rwa [← h]
    · rw [h] at hy
      cases hy
  exact ⟨ho.fresh, fun y i a hy => ho.live y i a (hold_of y i a hy),
    fun y z i a b hy hz => ho.inj y z i a b (hold_of y i a hy) (hold_of z i b hz)⟩

/-- A holder gives up what it has. -/
theorem free (ho : Owned h hold) (hx : hold x = some (i, a)) (hnone : hold' x = none)
    (hrest : ∀ y, y ≠ x → hold' y = hold y) : Owned (h.free i) hold' := by
  have hsub : ∀ y, hold' y = hold y ∨ hold' y = none := by
    intro y
    by_cases hy : y = x
    · exact Or.inr (hy ▸ hnone)
    · exact Or.inl (hrest y hy)
  have hf := ho.forget hsub
  refine ⟨fun j hj => ?_, fun y j b hy => ?_, hf.inj⟩
  · by_cases hji : j = i
    · subst hji
      exact Function.update_self _ _ _
    · rw [live_free_of_ne hji]
      exact ho.fresh j hj
  · have hyx : y ≠ x := by
      rintro rfl
      rw [hnone] at hy
      cases hy
    have hji : j ≠ i := by
      rintro rfl
      exact hyx (ho.inj y x j b a ((hrest y hyx).symm.trans hy) hx)
    rw [live_free_of_ne hji]
    exact hf.live y j b hy

/-- A holder takes a new allocation. -/
theorem alloc (ho : Owned h hold) (hx : hold' x = some (h.next, a))
    (hrest : ∀ y, y ≠ x → hold' y = hold y) : Owned (h.alloc a) hold' := by
  have hold_of : ∀ y j b, y ≠ x → hold' y = some (j, b) → hold y = some (j, b) := fun y j b hyx hy =>
    (hrest y hyx).symm.trans hy
  refine ⟨fun j hj => ?_, fun y j b hy => ?_, fun y z j b c hy hz => ?_⟩
  · have hj' : h.next + 1 ≤ j := hj
    rw [live_alloc_of_ne (by omega)]
    exact ho.fresh j (by omega)
  · by_cases hyx : y = x
    · subst hyx
      obtain ⟨rfl, rfl⟩ := Prod.mk.inj (Option.some.inj (hx.symm.trans hy))
      exact Function.update_self _ _ _
    · have hlt := ho.lt_next (hold_of y j b hyx hy)
      rw [live_alloc_of_ne (by omega)]
      exact ho.live y j b (hold_of y j b hyx hy)
  · by_cases hyx : y = x
    · by_cases hzx : z = x
      · exact hyx.trans hzx.symm
      · subst hyx
        obtain ⟨rfl, -⟩ := Prod.mk.inj (Option.some.inj (hx.symm.trans hy))
        have := ho.lt_next (hold_of z _ c hzx hz)
        omega
    · by_cases hzx : z = x
      · subst hzx
        obtain ⟨rfl, -⟩ := Prod.mk.inj (Option.some.inj (hx.symm.trans hz))
        have := ho.lt_next (hold_of y _ b hyx hy)
        omega
      · exact ho.inj y z j b c (hold_of y j b hyx hy) (hold_of z j c hzx hz)

/-- A holder gives up what it has, if it has anything. -/
theorem drop (ho : Owned h hold) (hnone : hold' x = none) (hrest : ∀ y, y ≠ x → hold' y = hold y) :
    Owned (h.drop (hold x)) hold' := by
  cases hx : hold x with
  | none =>
    refine ho.forget fun y => ?_
    by_cases hy : y = x
    · exact Or.inr (hy ▸ hnone)
    · exact Or.inl (hrest y hy)
  | some p => exact ho.free hx hnone hrest

/-- A holder takes a new allocation for what it has. -/
theorem replace (ho : Owned h hold) (hx : hold' x = some ((h.drop (hold x)).next, a))
    (hrest : ∀ y, y ≠ x → hold' y = hold y) : Owned ((h.drop (hold x)).alloc a) hold' := by
  classical
  have hmid : Owned (h.drop (hold x)) (Function.update hold x none) :=
    ho.drop (Function.update_self _ _ _) fun y hy => Function.update_of_ne hy _ _
  exact hmid.alloc hx fun y hy => (hrest y hy).trans (Function.update_of_ne hy _ _).symm

end Owned

end OwnedHeap
