import Kappai.Sanity.MemPlan
import Mathlib.Tactic.Common

/-! The slots of one buffer are never live at one time, and the buffers are apart and large
enough. -/

namespace Kappai

open RecipeOp

/-- A slot is in hidden use over the range, or a value stored in it is live over it. -/
def CgGraph.StoredRange (g : CgGraph) (a : Slot) (r : CgRange) : Prop :=
  (∃ v < g.values.length, g.HasStorage v ∧ (g.value v).slot = some a ∧ g.range v = r) ∨
    ∃ u ∈ g.hiddenUses, u.slot = a ∧ u.range = r

/-- As `StoredRange`, with the values that are views of another slot's. -/
def CgGraph.LiveRange (g : CgGraph) (a : Slot) (r : CgRange) : Prop :=
  (∃ v < g.values.length, 0 ≤ (g.range v).stop ∧ (g.value v).slot = some a ∧ g.range v = r) ∨
    ∃ u ∈ g.hiddenUses, u.slot = a ∧ u.range = r

def CgGraph.SwapSlot (g : CgGraph) (a : Slot) : Prop :=
  ∃ n ∈ g.nodes, n.kind = .swap ∧ ∃ v ∈ n.ins ++ n.outs, (g.value v).slot = some a

/-- Ranges of two slots that overlap in one of the graphs are a conflict. -/
theorem has_of_overlap {gs : List CgGraph} {g : CgGraph} (hg : g ∈ gs) {a b : Slot} (hab : a ≠ b)
    {r r' : CgRange} (hr : g.StoredRange a r) (hr' : g.StoredRange b r') (ho : r.Overlaps r') :
    (gs.foldl Interference.collectGraph .empty).Has a b := by
  refine foldl_reaches (P := (Interference.Has · a b))
    (fun x g h => h.mono (Interference.collectGraph_grows x g)) (fun x => ?_) hg _
  rcases hr with ⟨v, hv, hsv, hva, rfl⟩ | ⟨u, hu, rfl, rfl⟩ <;>
    rcases hr' with ⟨w, hw, hsw, hwb, rfl⟩ | ⟨t, ht, rfl, rfl⟩
  · exact Interference.has_of_values hsv hsw hv hw hva hwb hab ho x
  · exact (Interference.has_of_use_value ht hsv hv hva hab.symm ho x).symm
  · exact Interference.has_of_use_value hu hsw hw hwb hab ⟨ho.2, ho.1⟩ x
  · exact Interference.has_of_uses hu ht hab ho x

theorem pinned_of_swapSlot {gs : List CgGraph} {g : CgGraph} (hg : g ∈ gs) {a : Slot}
    (h : g.SwapSlot a) : a ∈ (gs.foldl Interference.collectGraph .empty).pinned := by
  obtain ⟨n, hn, hk, v, hv, ha⟩ := h
  exact foldl_reaches (P := fun x : Interference => a ∈ x.pinned)
    (fun x g h => (Interference.collectGraph_grows x g).pinned h)
    (Interference.pinned_of_swap hn hk hv ha) hg _

/-- Two slots of one buffer are never live at one time in a graph and never swapped, and a slot of
a swap has its buffer to itself. -/
theorem MemPlan.rep_apart {gs : List CgGraph} {d : MemDims} {isHybrid : Bool} {a b : Slot}
    (hab : a ≠ b) (hrep : (build (some gs) d isHybrid).rep a = (build (some gs) d isHybrid).rep b)
    {g : CgGraph} (hg : g ∈ gs) :
    (∀ r r', g.StoredRange a r → g.StoredRange b r' → ¬ r.Overlaps r') ∧ ¬ g.SwapSlot a := by
  have hgroups := build_grouped gs d isHybrid
  exact ⟨fun r r' hr hr' ho => hgroups.free a b hab hrep (has_of_overlap hg hab hr hr' ho),
    fun h => (hgroups.aliasable a b hab hrep).2 (pinned_of_swapSlot hg h)⟩

/-- The plan is safe for the values that have storage of their own, and so is its layout for as
many rows as an `int` rounds up and an arena as `size_t` counts. -/
theorem memPlan_safe (gs : List CgGraph) (d : MemDims) (isHybrid : Bool) :
    let p := MemPlan.build (some gs) d isHybrid
    (∀ a b, a ≠ b → p.rep a = p.rep b → ∀ g ∈ gs,
        (∀ r r', g.StoredRange a r → g.StoredRange b r' → ¬ r.Overlaps r') ∧
          ¬ g.SwapSlot a ∧ ¬ g.SwapSlot b) ∧
      ∀ n ≤ 2147483584, p.arenaBytes n < 2 ^ 64 →
        let l := MemLayout.compute p n
        n ≤ l.bucket ∧
          (∀ a, p.planned a = true → 256 ∣ l.offset a ∧ 256 ∣ l.cap a ∧
            p.rowElems a * l.bucket.toNat * 4 ≤ l.cap a ∧ l.offset a + l.cap a ≤ l.total) ∧
          ∀ a b, p.planned a = true → p.planned b = true → p.rep a ≠ p.rep b →
            l.offset a + l.cap a ≤ l.offset b ∨ l.offset b + l.cap b ≤ l.offset a := by
  intro p
  refine ⟨fun a b hab hrep g hg => ?_, fun n hn hfit => ?_⟩
  · obtain ⟨hfree, hswap⟩ := MemPlan.rep_apart hab hrep hg
    exact ⟨hfree, hswap, (MemPlan.rep_apart hab.symm hrep.symm hg).2⟩
  · have hroot : ∀ s, p.planned s = true → p.IsRoot (p.rep s) := by
      intro s hs
      refine ⟨?_, (MemPlan.build_grouped gs d isHybrid).root s⟩
      by_cases hself : p.rep s = s
      · rwa [hself]
      · exact (MemPlan.build_rep_planned gs d isHybrid s hself).2
    have hspans := MemLayout.compute_spans hroot hn (by simpa using hfit)
    intro l
    refine ⟨?_, fun a ha => ⟨hspans.aligned a ha, ?_, ?_, hspans.inside a ha⟩, hspans.apart⟩
    · rw [show l.bucket = _ from hspans.rows]
      exact (memRowsBucket_spec hn).1
    · rw [show l.cap a = _ from hspans.cap a ha]
      exact dvd_roundUp _
    · rw [show l.cap a = _ from hspans.cap a ha, show l.bucket = _ from hspans.rows]
      have hrow := MemPlan.le_groupRows p.planned p.rep d.slotRowElems ha
      refine le_trans ?_ (le_roundUp _)
      exact Nat.mul_le_mul_right _ (Nat.mul_le_mul_right _ hrow)

/-- A layer that stores to `FFN_GATE` and later to `FFN_GATE_UP`, of which a second value of
`FFN_GATE` is a view. -/
def gateViewRecipe : ModelRecipe where
  preOps := [mkEmbdLookup]
  layerOps := [mkMatmul .x .ffnGate widxGate 8 8, mkAdd .x .ffnGate, mkMatmul .x .ffnGateUp 13 16 8,
    mkFfnActivateFused .ffnGateUp .ffnAct, mkAdd .x .ffnAct]
  postOps := [mkMatmul .x .logits 3 8 8]

def gateViewPlan : MemPlan :=
  .build (some [graphBuild gateViewRecipe]) ⟨8, 8, 8, 8, 8, 16, 8, 0, 0, 0, 0, 0⟩ false

theorem gateViewPlan_safe :
    gateViewPlan.rep .ffnGate = gateViewPlan.rep .ffnGateUp ∧
      512 ≤ (MemLayout.compute gateViewPlan 5).cap .ffnGate := by
  have h := (memPlan_safe [graphBuild gateViewRecipe] ⟨8, 8, 8, 8, 8, 16, 8, 0, 0, 0, 0, 0⟩
    false).2 5 (by decide) (by decide +kernel)
  exact ⟨by decide +kernel, (h.2.1 .ffnGate (by decide +kernel)).2.2.1⟩

/-- A view is live in a slot whose buffer then holds what it is a view of, and the number of rows
wraps where it is rounded up. -/
theorem memPlan_unsafe :
    (¬ ∀ a b, a ≠ b → gateViewPlan.rep a = gateViewPlan.rep b → ∀ r r',
        (graphBuild gateViewRecipe).LiveRange a r → (graphBuild gateViewRecipe).LiveRange b r' →
        ¬ r.Overlaps r') ∧
      memRowsBucket 2147483585 < 2147483585 := by
  refine ⟨fun h => ?_, by decide⟩
  refine h .ffnGate .ffnGateUp (by decide) (by decide +kernel) ⟨3, 3⟩ ⟨3, 4⟩ (Or.inl ⟨4, ?_⟩)
    (Or.inl ⟨3, ?_⟩) (by decide)
  · decide +kernel
  · decide +kernel

end Kappai
