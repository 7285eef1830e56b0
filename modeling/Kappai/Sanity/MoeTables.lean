import Kappai.Sanity.MoeStream
import Mathlib.Data.List.Pairwise
import Mathlib.Data.List.Perm.Basic

/-! The tables of the expert cache against its slots, and the misses under way. -/

namespace Kappai

namespace MoeStreamLayer

/-- Tables and slots agree: a table entry leads to a slot of that expert and a slot's expert to
its entry; no expert but the one that is being moved is in both the LRU and the tier; what is
ready is loaded; what is not ready or not given out yet is not in use. -/
structure Tables (L : MoeStreamLayer) (moved : Option ℕ) : Prop where
  lru : ∀ e i, L.eidToLru e = some i → i < L.nLru ∧ (L.lruSlots i).eid = some e
  lruOwn : ∀ i < L.nLru, ∀ e, (L.lruSlots i).eid = some e → L.eidToLru e = some i
  tier : ∀ e t, L.eidToTier e = some t → t < L.tierCap ∧ (L.tierSlots t).eid = some e
  tierOwn : ∀ t < L.tierCap, ∀ e, (L.tierSlots t).eid = some e → L.eidToTier e = some t
  apart : ∀ e i, L.eidToLru e = some i → L.eidToTier e = none ∨ moved = some e
  lruLoaded : ∀ i < L.nLru, (L.lruSlots i).ioReady = true → ∀ e, (L.lruSlots i).eid = some e →
    (L.lruSlots i).heapBuf = some e
  tierLoaded : ∀ t < L.tierCap, ∀ e, (L.tierSlots t).eid = some e →
    (L.tierSlots t).ioReady = true ∧ (L.tierSlots t).dev = some e
  idle : ∀ i < L.nLru, (L.lruSlots i).ioReady = false → (L.lruSlots i).inuse = 0
  unpinned : ∀ i < L.nLru, (L.lruSlots i).pinned = false
  unused : ∀ i, L.nLru ≤ i → L.lruSlots i = .fresh

variable {L : MoeStreamLayer} {moved : Option ℕ}

theorem Tables.rekeyed (hT : Tables L moved) (h : IndexHeap) (f : ℕ → UInt32) (d : ℕ) :
    Tables (L.rekeyed h f d) moved :=
  ⟨hT.lru, hT.lruOwn, hT.tier, hT.tierOwn, hT.apart, hT.lruLoaded, hT.tierLoaded, hT.idle,
    hT.unpinned, hT.unused⟩

/-- A slot in the state it may be left in without an expert. -/
structure Vacant (s : MoeExpertSlot) : Prop where
  eid : s.eid = none
  idle : s.ioReady = false → s.inuse = 0
  unpinned : s.pinned = false

/-- An LRU slot is emptied, and the entry of its expert with it. -/
theorem Tables.vacate (hT : Tables L moved) {i : ℕ} (hi : i < L.nLru) {s : MoeExpertSlot}
    (hs : Vacant s) : Tables ((L.unmapLru i).setLru i s) moved := by
  have hmap : ∀ e k, L.unmapped i e = some k ↔ L.eidToLru e = some k ∧ k ≠ i := by
    intro e k
    unfold unmapped
    cases he : (L.lruSlots i).eid with
    | none =>
      refine ⟨fun h => ⟨h, ?_⟩, fun h => h.1⟩
      rintro rfl
      cases he.symm.trans (hT.lru e k h).2
    | some e' =>
      have hown := hT.lruOwn i hi e' he
      simp only [if_pos hown, Function.update_apply]
      split_ifs with hee
      · subst hee
        rw [hown]
        simp only [false_iff, not_and, not_not]
        rintro h
        exact (Option.some.inj h).symm
      · refine ⟨fun h => ⟨h, ?_⟩, fun h => h.1⟩
        rintro rfl
        exact hee (Option.some.inj ((hT.lru e k h).2.symm.trans he))
  have hslot : ∀ k, k ≠ i → Function.update L.lruSlots i s k = L.lruSlots k := fun k hk =>
    Function.update_of_ne hk _ _
  have hself : Function.update L.lruSlots i s i = s := Function.update_self ..
  refine ⟨fun e k h => ?_, fun k hk e h => ?_, hT.tier, hT.tierOwn, fun e k h => ?_,
    fun k hk hr e h => ?_, hT.tierLoaded, fun k hk hr => ?_, fun k hk => ?_, fun k hk => ?_⟩
  · obtain ⟨hk, hki⟩ := (hmap e k).mp h
    have hlru := hT.lru e k hk
    exact ⟨hlru.1, by rw [← hlru.2]; exact congrArg _ (hslot k hki)⟩
  · rcases eq_or_ne k i with rfl | hki
    · cases hs.eid.symm.trans ((congrArg _ hself).symm.trans h)
    · have h' : (L.lruSlots k).eid = some e := (congrArg _ (hslot k hki)).symm.trans h
      exact (hmap e k).mpr ⟨hT.lruOwn k hk e h', hki⟩
  · exact hT.apart e k ((hmap e k).mp h).1
  · rcases eq_or_ne k i with rfl | hki
    · cases hs.eid.symm.trans ((congrArg _ hself).symm.trans h)
    · simp only [setLru, unmapLru, hslot k hki] at h hr ⊢
      exact hT.lruLoaded k hk hr e h
  · rcases eq_or_ne k i with rfl | hki
    · simp only [setLru, unmapLru, hself] at hr ⊢
      exact hs.idle hr
    · simp only [setLru, unmapLru, hslot k hki] at hr ⊢
      exact hT.idle k hk hr
  · rcases eq_or_ne k i with rfl | hki
    · simp only [setLru, unmapLru, hself]
      exact hs.unpinned
    · simp only [setLru, unmapLru, hslot k hki]
      exact hT.unpinned k hk
  · have hki : k ≠ i := by
      rintro rfl
      exact absurd hi (Nat.not_lt.mpr hk)
    exact (hslot k hki).trans (hT.unused k hk)

/-- A slot in the state it may be given to expert `e`. -/
structure Occupied (s : MoeExpertSlot) (e : ℕ) : Prop where
  eid : s.eid = some e
  loaded : s.ioReady = true → s.heapBuf = some e
  idle : s.ioReady = false → s.inuse = 0
  unpinned : s.pinned = false

/-- An empty LRU slot is given to an expert that is in no other. -/
theorem Tables.occupy (hT : Tables L moved) {i e : ℕ} (hi : i < L.nLru)
    (hnone : (L.lruSlots i).eid = none) (hlru : L.eidToLru e = none)
    (htier : L.eidToTier e = none ∨ moved = some e) {s : MoeExpertSlot} (hs : Occupied s e) :
    Tables ((L.setLru i s).mapLru e (some i)) moved := by
  have hslot : ∀ k, k ≠ i → Function.update L.lruSlots i s k = L.lruSlots k := fun k hk =>
    Function.update_of_ne hk _ _
  have hself : Function.update L.lruSlots i s i = s := Function.update_self ..
  have hmap : ∀ e', e' ≠ e → Function.update L.eidToLru e (some i) e' = L.eidToLru e' :=
    fun e' he => Function.update_of_ne he _ _
  have hne : ∀ e' k, L.eidToLru e' = some k → e' ≠ e ∧ k ≠ i := by
    intro e' k h
    refine ⟨?_, ?_⟩
    · rintro rfl
      cases hlru.symm.trans h
    · rintro rfl
      cases hnone.symm.trans (hT.lru e' k h).2
  refine ⟨fun e' k h => ?_, fun k hk e' h => ?_, hT.tier, hT.tierOwn, fun e' k h => ?_,
    fun k hk hr e' h => ?_, hT.tierLoaded, fun k hk hr => ?_, fun k hk => ?_, fun k hk => ?_⟩
  · rcases eq_or_ne e' e with rfl | hee
    · obtain rfl : i = k := by simpa [mapLru] using h
      exact ⟨hi, (congrArg _ hself).trans hs.eid⟩
    · have h' : L.eidToLru e' = some k := (hmap e' hee).symm.trans h
      exact ⟨(hT.lru e' k h').1, (congrArg _ (hslot k (hne e' k h').2)).trans (hT.lru e' k h').2⟩
  · rcases eq_or_ne k i with rfl | hki
    · have h' : s.eid = some e' := (congrArg _ hself).symm.trans h
      obtain rfl : e = e' := Option.some.inj (hs.eid.symm.trans h')
      exact Function.update_self ..
    · have h' : (L.lruSlots k).eid = some e' := (congrArg _ (hslot k hki)).symm.trans h
      have hown := hT.lruOwn k hk e' h'
      exact (hmap e' (hne e' k hown).1).trans hown
  · rcases eq_or_ne e' e with rfl | hee
    · exact htier
    · exact hT.apart e' k ((hmap e' hee).symm.trans h)
  · rcases eq_or_ne k i with rfl | hki
    · simp only [setLru, mapLru, hself] at h hr ⊢
      obtain rfl : e = e' := Option.some.inj (hs.eid.symm.trans h)
      exact hs.loaded hr
    · simp only [setLru, mapLru, hslot k hki] at h hr ⊢
      exact hT.lruLoaded k hk hr e' h
  · rcases eq_or_ne k i with rfl | hki
    · simp only [setLru, mapLru, hself] at hr ⊢
      exact hs.idle hr
    · simp only [setLru, mapLru, hslot k hki] at hr ⊢
      exact hT.idle k hk hr
  · rcases eq_or_ne k i with rfl | hki
    · simp only [setLru, mapLru, hself]
      exact hs.unpinned
    · simp only [setLru, mapLru, hslot k hki]
      exact hT.unpinned k hk
  · have hki : k ≠ i := by
      rintro rfl
      exact absurd hi (Nat.not_lt.mpr hk)
    exact (hslot k hki).trans (hT.unused k hk)

/-- The next slot is given out, empty. -/
theorem Tables.grow (hT : Tables L moved) : Tables { L with nLru := L.nLru + 1 } moved := by
  have hfresh : L.lruSlots L.nLru = .fresh := hT.unused L.nLru le_rfl
  refine ⟨fun e k h => ⟨Nat.lt_succ_of_lt (hT.lru e k h).1, (hT.lru e k h).2⟩, fun k hk e h => ?_,
    hT.tier, hT.tierOwn, hT.apart, fun k hk hr e h => ?_, hT.tierLoaded, fun k hk hr => ?_,
    fun k hk => ?_, fun k hk => hT.unused k (Nat.le_of_succ_le hk)⟩
  all_goals rcases Nat.lt_succ_iff_lt_or_eq.mp hk with hk' | rfl
  · exact hT.lruOwn k hk' e h
  · rw [hfresh] at h
    cases h
  · exact hT.lruLoaded k hk' hr e h
  · rw [hfresh] at h
    cases h
  · exact hT.idle k hk' hr
  · dsimp only
    rw [hfresh]
    rfl
  · exact hT.unpinned k hk'
  · dsimp only
    rw [hfresh]
    rfl

theorem Tables.moving (hT : Tables L none) (moved : Option ℕ) : Tables L moved :=
  ⟨hT.lru, hT.lruOwn, hT.tier, hT.tierOwn,
    fun e i h => Or.inl ((hT.apart e i h).resolve_right (by simp)), hT.lruLoaded, hT.tierLoaded,
    hT.idle, hT.unpinned, hT.unused⟩

/-- The move is over once the expert has left one of the two. -/
theorem Tables.settle (hT : Tables L moved)
    (hout : ∀ e ∈ moved, L.eidToLru e = none ∨ L.eidToTier e = none) : Tables L none := by
  refine ⟨hT.lru, hT.lruOwn, hT.tier, hT.tierOwn, fun e i h => Or.inl ?_, hT.lruLoaded,
    hT.tierLoaded, hT.idle, hT.unpinned, hT.unused⟩
  rcases hT.apart e i h with htier | hmoved
  · exact htier
  · rcases hout e hmoved with hlru | htier
    · cases hlru.symm.trans h
    · exact htier

/-- A slot keeps its expert and is read, loaded or marked. -/
theorem Tables.reload (hT : Tables L moved) {i : ℕ} (hi : i < L.nLru) {s : MoeExpertSlot}
    (heid : s.eid = (L.lruSlots i).eid)
    (hload : s.ioReady = true → ∀ e, s.eid = some e → s.heapBuf = some e)
    (hidle : s.ioReady = false → s.inuse = 0) (hpin : s.pinned = false) :
    Tables (L.setLru i s) moved := by
  have hslot : ∀ k, k ≠ i → Function.update L.lruSlots i s k = L.lruSlots k := fun k hk =>
    Function.update_of_ne hk _ _
  have hself : Function.update L.lruSlots i s i = s := Function.update_self ..
  have heids : ∀ k, (Function.update L.lruSlots i s k).eid = (L.lruSlots k).eid := by
    intro k
    rcases eq_or_ne k i with rfl | hki
    · rw [hself, heid]
    · rw [hslot k hki]
  refine ⟨fun e k h => ⟨(hT.lru e k h).1, (heids k).trans (hT.lru e k h).2⟩,
    fun k hk e h => hT.lruOwn k hk e ((heids k).symm.trans h), hT.tier, hT.tierOwn, hT.apart,
    fun k hk hr e h => ?_, hT.tierLoaded, fun k hk hr => ?_, fun k hk => ?_, fun k hk => ?_⟩
  · rcases eq_or_ne k i with rfl | hki
    · simp only [setLru, hself] at h hr ⊢
      exact hload hr e h
    · simp only [setLru, hslot k hki] at h hr ⊢
      exact hT.lruLoaded k hk hr e h
  · rcases eq_or_ne k i with rfl | hki
    · simp only [setLru, hself] at hr ⊢
      exact hidle hr
    · simp only [setLru, hslot k hki] at hr ⊢
      exact hT.idle k hk hr
  · rcases eq_or_ne k i with rfl | hki
    · simp only [setLru, hself]
      exact hpin
    · simp only [setLru, hslot k hki]
      exact hT.unpinned k hk
  · have hki : k ≠ i := by
      rintro rfl
      exact absurd hi (Nat.not_lt.mpr hk)
    exact (hslot k hki).trans (hT.unused k hk)

/-- A tier slot is read. -/
theorem Tables.retier (hT : Tables L moved) (t : ℕ) {s : MoeExpertSlot}
    (heid : s.eid = (L.tierSlots t).eid) (hready : s.ioReady = (L.tierSlots t).ioReady)
    (hdev : s.dev = (L.tierSlots t).dev) : Tables (L.setTier t s) moved := by
  have hsame : ∀ k, (Function.update L.tierSlots t s k).eid = (L.tierSlots k).eid ∧
      (Function.update L.tierSlots t s k).ioReady = (L.tierSlots k).ioReady ∧
      (Function.update L.tierSlots t s k).dev = (L.tierSlots k).dev := by
    intro k
    rcases eq_or_ne k t with rfl | hkt
    · rw [Function.update_self]
      exact ⟨heid, hready, hdev⟩
    · rw [Function.update_of_ne hkt]
      exact ⟨rfl, rfl, rfl⟩
  refine ⟨hT.lru, hT.lruOwn, fun e k h => ⟨(hT.tier e k h).1, (hsame k).1.trans (hT.tier e k h).2⟩,
    fun k hk e h => hT.tierOwn k hk e ((hsame k).1.symm.trans h), hT.apart, hT.lruLoaded,
    fun k hk e h => ?_, hT.idle, hT.unpinned, hT.unused⟩
  obtain ⟨hready', hdev'⟩ := hT.tierLoaded k hk e ((hsame k).1.symm.trans h)
  exact ⟨(hsame k).2.1.trans hready', (hsame k).2.2.trans hdev'⟩

/-- A tier slot is given up. -/
theorem Tables.unplace (hT : Tables L moved) {t e : ℕ} (ht : t < L.tierCap)
    (he : (L.tierSlots t).eid = some e) : Tables ((L.mapTier e none).tierRelease t) moved := by
  have hslot : ∀ k, k ≠ t → Function.update L.tierSlots t
      { L.tierSlots t with dev := none, eid := none, lastUsed := 0 } k = L.tierSlots k :=
    fun k hk => Function.update_of_ne hk _ _
  have hself : (Function.update L.tierSlots t
      { L.tierSlots t with dev := none, eid := none, lastUsed := 0 } t).eid = none := by
    rw [Function.update_self]
  have hmap : ∀ e' k, Function.update L.eidToTier e none e' = some k ↔
      L.eidToTier e' = some k ∧ k ≠ t := by
    intro e' k
    rcases eq_or_ne e' e with rfl | hee
    · rw [Function.update_self, hT.tierOwn t ht e' he]
      simp only [Option.some.injEq, reduceCtorEq, false_iff, not_and, not_not]
      exact fun h => h.symm
    · rw [Function.update_of_ne hee]
      refine ⟨fun h => ⟨h, ?_⟩, fun h => h.1⟩
      rintro rfl
      exact hee (Option.some.inj ((hT.tier e' k h).2.symm.trans he))
  refine ⟨hT.lru, hT.lruOwn, fun e' k h => ?_, fun k hk e' h => ?_, fun e' k h => ?_,
    hT.lruLoaded, fun k hk e' h => ?_, hT.idle, hT.unpinned, hT.unused⟩
  · obtain ⟨hk, hkt⟩ := (hmap e' k).mp h
    exact ⟨(hT.tier e' k hk).1, (congrArg _ (hslot k hkt)).trans (hT.tier e' k hk).2⟩
  · rcases eq_or_ne k t with rfl | hkt
    · cases hself.symm.trans h
    · exact (hmap e' k).mpr ⟨hT.tierOwn k hk e' ((congrArg _ (hslot k hkt)).symm.trans h), hkt⟩
  · refine (hT.apart e' k h).imp_left fun hnone => ?_
    simp only [tierRelease, setTier, mapTier, Function.update_apply]
    split_ifs
    · rfl
    · exact hnone
  · rcases eq_or_ne k t with rfl | hkt
    · cases hself.symm.trans h
    · have hload := hT.tierLoaded k hk e' ((congrArg _ (hslot k hkt)).symm.trans h)
      simpa only [tierRelease, setTier, mapTier, hslot k hkt] using hload

/-- A free tier slot is given to an expert that is nowhere. -/
theorem Tables.place (hT : Tables L moved) {t e : ℕ} (ht : t < L.tierCap)
    (hnone : (L.tierSlots t).eid = none) (hlru : L.eidToLru e = none)
    (htier : L.eidToTier e = none) {s : MoeExpertSlot} (heid : s.eid = some e)
    (hload : s.ioReady = true ∧ s.dev = some e) : Tables (L.placeTier t e s) moved := by
  have hslot : ∀ k, k ≠ t → Function.update L.tierSlots t s k = L.tierSlots k := fun k hk =>
    Function.update_of_ne hk _ _
  have hself : Function.update L.tierSlots t s t = s := Function.update_self ..
  have hmap : ∀ e', e' ≠ e → Function.update L.eidToTier e (some t) e' = L.eidToTier e' :=
    fun e' he => Function.update_of_ne he _ _
  have hne : ∀ e' k, L.eidToTier e' = some k → e' ≠ e ∧ k ≠ t := by
    intro e' k h
    refine ⟨?_, ?_⟩
    · rintro rfl
      cases htier.symm.trans h
    · rintro rfl
      cases hnone.symm.trans (hT.tier e' k h).2
  refine ⟨hT.lru, hT.lruOwn, fun e' k h => ?_, fun k hk e' h => ?_, fun e' k h => ?_,
    hT.lruLoaded, fun k hk e' h => ?_, hT.idle, hT.unpinned, hT.unused⟩
  · rcases eq_or_ne e' e with rfl | hee
    · obtain rfl : t = k := by simpa [placeTier, mapTier] using h
      exact ⟨ht, (congrArg _ hself).trans heid⟩
    · have h' : L.eidToTier e' = some k := (hmap e' hee).symm.trans h
      exact ⟨(hT.tier e' k h').1, (congrArg _ (hslot k (hne e' k h').2)).trans (hT.tier e' k h').2⟩
  · rcases eq_or_ne k t with rfl | hkt
    · have h' : s.eid = some e' := (congrArg _ hself).symm.trans h
      obtain rfl : e = e' := Option.some.inj (heid.symm.trans h')
      exact Function.update_self ..
    · have hown := hT.tierOwn k hk e' ((congrArg _ (hslot k hkt)).symm.trans h)
      exact (hmap e' (hne e' k hown).1).trans hown
  · refine (hT.apart e' k h).imp_left fun hno => ?_
    have hee : e' ≠ e := by
      rintro rfl
      cases hlru.symm.trans h
    exact (hmap e' hee).trans hno
  · rcases eq_or_ne k t with rfl | hkt
    · have h' : s.eid = some e' := (congrArg _ hself).symm.trans h
      obtain rfl : e = e' := Option.some.inj (heid.symm.trans h')
      simpa only [placeTier, mapTier, setTier, hself] using hload
    · have hold := hT.tierLoaded k hk e' ((congrArg _ (hslot k hkt)).symm.trans h)
      simpa only [placeTier, mapTier, setTier, hslot k hkt] using hold

/-- What a miss under way relies on: generations only grow, and under the same generation a slot
that is not ready stays so and keeps its expert. -/
structure Progress (L L' : MoeStreamLayer) : Prop where
  nLru : L.nLru ≤ L'.nLru
  gen : ∀ i < L.nLru, (L.lruSlots i).gen ≤ (L'.lruSlots i).gen
  pending : ∀ i < L.nLru, (L.lruSlots i).ioReady = false →
    (L'.lruSlots i).gen = (L.lruSlots i).gen →
    (L'.lruSlots i).ioReady = false ∧ (L'.lruSlots i).eid = (L.lruSlots i).eid

theorem Progress.of_eq {L' : MoeStreamLayer} (hn : L'.nLru = L.nLru)
    (hs : L'.lruSlots = L.lruSlots) : Progress L L' := by
  refine ⟨hn.ge, fun i _ => ?_, fun i _ hr _ => ?_⟩
  · rw [hs]
  · rw [hs]
    exact ⟨hr, rfl⟩

theorem Progress.trans {L' L'' : MoeStreamLayer} (h : Progress L L') (h' : Progress L' L'') :
    Progress L L'' := by
  refine ⟨h.nLru.trans h'.nLru, fun i hi => ?_, fun i hi hr hg => ?_⟩
  · exact (h.gen i hi).trans (h'.gen i (Nat.lt_of_lt_of_le hi h.nLru))
  · have hi' := Nat.lt_of_lt_of_le hi h.nLru
    have hge := h.gen i hi
    have hge' := h'.gen i hi'
    obtain ⟨hr', he'⟩ := h.pending i hi hr (by omega)
    obtain ⟨hr'', he''⟩ := h'.pending i hi' hr' (by omega)
    exact ⟨hr'', he''.trans he'⟩

/-- One slot changes: it was ready, or its generation grew, or it stays as a miss knows it. -/
theorem Progress.slot {L' : MoeStreamLayer} (hn : L'.nLru = L.nLru) {i : ℕ} {s : MoeExpertSlot}
    (hs : L'.lruSlots = Function.update L.lruSlots i s) (hgen : (L.lruSlots i).gen ≤ s.gen)
    (hpend : (L.lruSlots i).ioReady = false → s.gen = (L.lruSlots i).gen →
      s.ioReady = false ∧ s.eid = (L.lruSlots i).eid) : Progress L L' := by
  refine ⟨hn.ge, fun k _ => ?_, fun k _ => ?_⟩
  all_goals
    rw [hs]
    rcases eq_or_ne k i with rfl | hki
  · rwa [Function.update_self]
  · rw [Function.update_of_ne hki]
  · rwa [Function.update_self]
  · rw [Function.update_of_ne hki]
    exact fun hr _ => ⟨hr, rfl⟩

/-- The device tier and the pinned slots are as they were. -/
structure SameOthers (L L' : MoeStreamLayer) : Prop where
  tierCap : L'.tierCap = L.tierCap
  tierSlots : L'.tierSlots = L.tierSlots
  eidToTier : L'.eidToTier = L.eidToTier
  nPinned : L'.nPinned = L.nPinned
  pinnedSlots : L'.pinnedSlots = L.pinnedSlots
  eidToPinned : L'.eidToPinned = L.eidToPinned

/-- Slot `i` is newly the expert's, with a generation no miss knows. -/
structure NewSlot (L L' : MoeStreamLayer) (i e : ℕ) : Prop where
  lt : i < L'.nLru
  eid : (L'.lruSlots i).eid = some e
  ioReady : (L'.lruSlots i).ioReady = false
  inuse : (L'.lruSlots i).inuse = 0
  pinned : (L'.lruSlots i).pinned = false
  mapped : L'.eidToLru e = some i
  gen : i < L.nLru → (L.lruSlots i).gen < (L'.lruSlots i).gen

/-- A slot just given out may be filled at once: no miss knows its generation. -/
theorem NewSlot.progress {L' L'' : MoeStreamLayer} {i e : ℕ} (hnew : NewSlot L L' i e)
    (hprog : Progress L L') (hn : L''.nLru = L'.nLru)
    (hs : ∀ k ≠ i, L''.lruSlots k = L'.lruSlots k)
    (hgen : (L'.lruSlots i).gen ≤ (L''.lruSlots i).gen) : Progress L L'' := by
  refine ⟨hn ▸ hprog.nLru, fun k hk => ?_, fun k hk hr hg => ?_⟩
  · rcases eq_or_ne k i with rfl | hki
    · exact (hprog.gen k hk).trans hgen
    · rw [hs k hki]
      exact hprog.gen k hk
  · rcases eq_or_ne k i with rfl | hki
    · have hlt := hnew.gen hk
      omega
    · rw [hs k hki] at hg ⊢
      exact hprog.pending k hk hr hg

theorem NewSlot.progress_set {L' : MoeStreamLayer} {i e : ℕ} (hnew : NewSlot L L' i e)
    (hprog : Progress L L') {s : MoeExpertSlot} (hgen : s.gen = (L'.lruSlots i).gen) :
    Progress L (L'.setLru i s) := by
  refine hnew.progress hprog rfl (fun k hk => Function.update_of_ne hk _ _) ?_
  simp only [setLru, Function.update_self, hgen, le_refl]

theorem unmapped_of_none {i e : ℕ} (hlru : L.eidToLru e = none) : L.unmapped i e = none := by
  unfold unmapped
  cases (L.lruSlots i).eid with
  | none => exact hlru
  | some e' =>
    dsimp only
    split_ifs
    · rw [Function.update_apply]
      split_ifs
      · rfl
      · exact hlru
    · exact hlru

theorem layerInsertLru_tables (hH : HeapWf L) (hT : Tables L moved) {e : ℕ}
    (hlru : L.eidToLru e = none) (htier : L.eidToTier e = none ∨ moved = some e) (now : UInt64) :
    Tables (L.layerInsertLru e now).1 moved ∧ Progress L (L.layerInsertLru e now).1 ∧
      SameOthers L (L.layerInsertLru e now).1 ∧
      ∀ i ∈ (L.layerInsertLru e now).2, NewSlot L (L.layerInsertLru e now).1 i e := by
  rcases layerInsertLru_spec hH e now with
    ⟨h, heq, -⟩ | ⟨h, f, d, heq, -⟩ | ⟨i, hi, huse, h, f, d, heq, -⟩
  all_goals rw [heq]
  · refine ⟨hT.rekeyed h L.lruFreq L.decayCounter, Progress.of_eq rfl rfl,
      ⟨rfl, rfl, rfl, rfl, rfl, rfl⟩, by simp⟩
  · have hfresh : L.lruSlots L.nLru = .fresh := hT.unused L.nLru le_rfl
    have hocc : Occupied (filled (L.lruSlots L.nLru) e now) e := by
      refine ⟨rfl, (fun hr => by cases hr), fun _ => ?_, rfl⟩
      rw [hfresh]
      rfl
    have hnew := hT.grow.occupy (Nat.lt_succ_self L.nLru) (by dsimp only; rw [hfresh]; rfl) hlru
      htier hocc
    refine ⟨hnew.rekeyed h f d, ⟨Nat.le_succ _, fun k hk => ?_, fun k hk => ?_⟩,
      ⟨rfl, rfl, rfl, rfl, rfl, rfl⟩, ?_⟩
    · exact (congrArg _ (Function.update_of_ne (Nat.ne_of_lt hk) _ _)).ge
    · have hsame : Function.update L.lruSlots L.nLru (filled (L.lruSlots L.nLru) e now) k =
          L.lruSlots k := Function.update_of_ne (Nat.ne_of_lt hk) _ _
      exact fun hr _ => ⟨(congrArg _ hsame).trans hr, congrArg _ hsame⟩
    · rintro i hi
      obtain rfl : L.nLru = i := Option.mem_some_iff.mp hi
      have hself : Function.update L.lruSlots L.nLru (filled (L.lruSlots L.nLru) e now) L.nLru =
          filled (L.lruSlots L.nLru) e now := Function.update_self ..
      refine ⟨Nat.lt_succ_self _, congrArg _ hself, congrArg _ hself, ?_, congrArg _ hself,
        Function.update_self .., fun hlt => absurd hlt (Nat.lt_irrefl _)⟩
      exact (congrArg _ hself).trans (hocc.idle rfl)
  · have hvac : Vacant { L.lruSlots i with eid := none } :=
      ⟨rfl, fun _ => huse, hT.unpinned i hi⟩
    have hself : (L.dropVictim i).lruSlots i =
        { L.lruSlots i with gen := (L.lruSlots i).gen + 1, dev := none, heapBuf := none } :=
      Function.update_self ..
    have hocc : Occupied (filled ((L.dropVictim i).lruSlots i) e now) e := by
      refine ⟨rfl, (fun hr => by cases hr), fun _ => ?_, rfl⟩
      rw [hself]
      exact huse
    have hslots : ((L.dropVictim i).given i ((L.dropVictim i).lruSlots i) e now).lruSlots =
        Function.update L.lruSlots i (filled ((L.dropVictim i).lruSlots i) e now) := by
      simp only [given, setLru, mapLru, dropVictim, unmapLru, Function.update_idem]
    have hnew := (hT.vacate hi hvac).occupy hi (by simp [setLru, unmapLru])
      (unmapped_of_none hlru) htier hocc
    have heq' : ((L.unmapLru i).setLru i { L.lruSlots i with eid := none }).given i
        ((L.dropVictim i).lruSlots i) e now =
        (L.dropVictim i).given i ((L.dropVictim i).lruSlots i) e now := by
      simp only [given, setLru, mapLru, dropVictim, unmapLru, Function.update_idem]
    have hgen : (filled ((L.dropVictim i).lruSlots i) e now).gen = (L.lruSlots i).gen + 1 := by
      rw [hself]
      rfl
    refine ⟨?_, Progress.slot rfl hslots (by omega) (by omega), ⟨rfl, rfl, rfl, rfl, rfl, rfl⟩, ?_⟩
    · have hre := hnew.rekeyed h f d
      rwa [show (((L.unmapLru i).setLru i { L.lruSlots i with eid := none }).setLru i
        (filled ((L.dropVictim i).lruSlots i) e now)).mapLru e (some i) = _ from heq'] at hre
    · rintro k hk
      obtain rfl : i = k := Option.mem_some_iff.mp hk
      have hat : ((L.dropVictim i).given i ((L.dropVictim i).lruSlots i) e now).lruSlots i =
          filled ((L.dropVictim i).lruSlots i) e now := by
        rw [hslots, Function.update_self]
      refine ⟨hi, congrArg _ hat, congrArg _ hat, ?_, congrArg _ hat, Function.update_self ..,
        fun _ => ?_⟩
      · exact (congrArg _ hat).trans (hocc.idle rfl)
      · have hg : (((L.dropVictim i).given i ((L.dropVictim i).lruSlots i) e now).lruSlots i).gen =
            (L.lruSlots i).gen + 1 := (congrArg _ hat).trans hgen
        exact Nat.lt_of_lt_of_eq (Nat.lt_succ_self _) hg.symm

/-- The slot `lru_slot_clear` leaves. -/
def cleared (s : MoeExpertSlot) : MoeExpertSlot :=
  { s with gen := s.gen + 1, dev := none, heapBuf := none, eid := none, lastUsed := 0 }

theorem lruSlotClear_eq (i : ℕ) (clock : UInt64) :
    ∃ h f d, L.lruSlotClear i clock =
      ((L.unmapLru i).setLru i (cleared (L.lruSlots i))).rekeyed h f d := ⟨_, _, _, rfl⟩

theorem cleared_vacant (hT : Tables L moved) {i : ℕ} (hi : i < L.nLru)
    (huse : (L.lruSlots i).inuse = 0) : Vacant (cleared (L.lruSlots i)) :=
  ⟨rfl, fun _ => huse, hT.unpinned i hi⟩

theorem lruSlotClear_tables (hT : Tables L moved) {i : ℕ} (hi : i < L.nLru)
    (huse : (L.lruSlots i).inuse = 0) (clock : UInt64) :
    Tables (L.lruSlotClear i clock) moved ∧ Progress L (L.lruSlotClear i clock) ∧
      SameOthers L (L.lruSlotClear i clock) := by
  obtain ⟨h, f, d, heq⟩ := lruSlotClear_eq (L := L) i clock
  rw [heq]
  refine ⟨(hT.vacate hi (cleared_vacant hT hi huse)).rekeyed h f d,
    Progress.slot (i := i) (s := cleared (L.lruSlots i)) rfl rfl (Nat.le_succ _) fun _ hg => ?_,
    ⟨rfl, rfl, rfl, rfl, rfl, rfl⟩⟩
  exact absurd hg (Nat.succ_ne_self _)

theorem unmapped_self (hT : Tables L moved) {i e : ℕ} (hi : i < L.nLru)
    (he : (L.lruSlots i).eid = some e) : L.unmapped i e = none := by
  unfold unmapped
  rw [he]
  dsimp only
  rw [if_pos (hT.lruOwn i hi e he), Function.update_self]

/-- The slot of a movable expert is cleared and, if the copy goes well, given to `e`. -/
theorem lruSlotRefill_tables (hT : Tables L moved) {i e : ℕ} (hi : i < L.nLru)
    (hready : (L.lruSlots i).ioReady = true) (huse : (L.lruSlots i).inuse = 0)
    (hlru : L.eidToLru e = none) (htier : L.eidToTier e = none ∨ moved = some e)
    (copied : Bool) (clock : UInt64) :
    Tables (L.lruSlotRefill i e copied clock) moved ∧
      Progress L (L.lruSlotRefill i e copied clock) ∧
      SameOthers L (L.lruSlotRefill i e copied clock) ∧
      ∀ e' ≠ e, (L.lruSlotRefill i e copied clock).eidToLru e' = L.unmapped i e' := by
  obtain ⟨hclear, hprog, hsame⟩ := lruSlotClear_tables hT hi huse clock
  cases copied with
  | false => exact ⟨hclear, hprog, hsame, fun e' _ => rfl⟩
  | true =>
    have heq : ∃ h f d, L.lruSlotRefill i e true clock =
        (((L.lruSlotClear i clock).setLru i { (L.lruSlots i).fromExpertDesc e with
          heapBuf := some e, lastUsed := clock, ioReady := true }).mapLru e (some i)).rekeyed h f d :=
      ⟨_, _, _, rfl⟩
    obtain ⟨h, f, d, heq⟩ := heq
    rw [heq]
    have hocc : Occupied { (L.lruSlots i).fromExpertDesc e with
        heapBuf := some e, lastUsed := clock, ioReady := true } e :=
      ⟨rfl, fun _ => rfl, (fun hr => by cases hr), rfl⟩
    have hnone : ((L.lruSlotClear i clock).lruSlots i).eid = none := by
      obtain ⟨h', f', d', heq'⟩ := lruSlotClear_eq (L := L) i clock
      rw [heq']
      exact congrArg _ (Function.update_self ..)
    have hslots : (L.lruSlotClear i clock).lruSlots =
        Function.update L.lruSlots i (cleared (L.lruSlots i)) := rfl
    refine ⟨(hclear.occupy hi hnone (unmapped_of_none hlru) htier hocc).rekeyed h f d, ?_,
      ⟨rfl, rfl, rfl, rfl, rfl, rfl⟩, fun e' he => Function.update_of_ne he _ _⟩
    refine Progress.slot (i := i) (s := { (L.lruSlots i).fromExpertDesc e with
      heapBuf := some e, lastUsed := clock, ioReady := true }) rfl ?_ le_rfl fun hr => ?_
    · simp only [rekeyed, mapLru, setLru, hslots, Function.update_idem]
    · rw [hready] at hr
      cases hr

/-- A slot is read: only its time and its use count change. -/
theorem setSlot_tables (hT : Tables L moved) {r : SlotRef} (hr : ∀ i, r = .lru i → i < L.nLru)
    {s : MoeExpertSlot} (hs : s = { L.slot r with lastUsed := s.lastUsed, inuse := s.inuse })
    (hidle : (L.slot r).ioReady = false → (L.slot r).inuse = 0 → s.inuse = 0) :
    Tables (L.setSlot s r) moved ∧ Progress L (L.setSlot s r) ∧
      (L.setSlot s r).nLru = L.nLru := by
  cases r with
  | pinned i =>
    exact ⟨⟨hT.lru, hT.lruOwn, hT.tier, hT.tierOwn, hT.apart, hT.lruLoaded, hT.tierLoaded, hT.idle,
      hT.unpinned, hT.unused⟩, Progress.of_eq rfl rfl, rfl⟩
  | tier t =>
    refine ⟨hT.retier t ?_ ?_ ?_, Progress.of_eq rfl rfl, rfl⟩
    all_goals
      rw [hs]
      rfl
  | lru i =>
    have hi := hr i rfl
    have heid : s.eid = (L.lruSlots i).eid := by rw [hs]; rfl
    have hbuf : s.heapBuf = (L.lruSlots i).heapBuf := by rw [hs]; rfl
    have hready : s.ioReady = (L.lruSlots i).ioReady := by rw [hs]; rfl
    have hgen : s.gen = (L.lruSlots i).gen := by rw [hs]; rfl
    have hpin : s.pinned = (L.lruSlots i).pinned := by rw [hs]; rfl
    refine ⟨hT.reload hi heid ?_ ?_ (hpin.trans (hT.unpinned i hi)),
      Progress.slot (i := i) (s := s) rfl rfl hgen.ge fun hr _ => ⟨hready.trans hr, heid⟩, rfl⟩
    · intro hr e he
      rw [hbuf]
      exact hT.lruLoaded i hi (hready.symm.trans hr) e (heid.symm.trans he)
    · intro hr
      have hr' : (L.lruSlots i).ioReady = false := hready.symm.trans hr
      exact hidle hr' (hT.idle i hi hr')

theorem liveSlotFind_lru {e i : ℕ} (h : L.liveSlotFind e = some (.lru i)) : i < L.nLru := by
  have hlru : ∀ r, liveSlotFind.lru L e = some r → r = .lru i → i < L.nLru := by
    rintro r hr rfl
    unfold liveSlotFind.lru at hr
    split at hr
    · split_ifs at hr with hif
      obtain rfl : _ = i := SlotRef.lru.inj (Option.some.inj hr)
      exact hif.1
    · cases hr
  have hother : ∀ r, liveSlotFind.other L e = some r → r = .lru i → i < L.nLru := by
    intro r hr hri
    unfold liveSlotFind.other at hr
    split at hr
    · split_ifs at hr
      · rw [hri] at hr
        cases hr
      · exact hlru r hr hri
    · exact hlru r hr hri
  unfold liveSlotFind at h
  split at h
  · split_ifs at h
    · cases h
    · exact hother _ h rfl
  · exact hother _ h rfl

/-- An expert that is not found is nowhere. -/
theorem liveSlotFind_none (hT : Tables L moved) {e : ℕ} (h : L.liveSlotFind e = none) :
    L.eidToLru e = none ∧ L.eidToTier e = none := by
  have hlru : liveSlotFind.lru L e = none → L.eidToLru e = none := by
    intro hl
    cases he : L.eidToLru e with
    | none => rfl
    | some i => simp [liveSlotFind.lru, he, hT.lru e i he] at hl
  have hother : liveSlotFind.other L e = none → L.eidToLru e = none ∧ L.eidToTier e = none := by
    intro ho
    cases he : L.eidToTier e with
    | none =>
      simp only [liveSlotFind.other, he] at ho
      exact ⟨hlru ho, rfl⟩
    | some t => simp [liveSlotFind.other, he, hT.tier e t he] at ho
  unfold liveSlotFind at h
  split at h
  · split_ifs at h
    exact hother h
  · exact hother h

/-- A pinned entry leads to the slot of its expert, or to one whose copy failed; what a pinned
slot holds is loaded, and its expert's entry leads to no later slot. -/
structure PinnedTables (L : MoeStreamLayer) : Prop where
  table : ∀ e p, L.eidToPinned e = some p →
    p < L.nPinned ∧ ((L.pinnedSlots p).eid = some e ∨ (L.pinnedSlots p).eid = none)
  loaded : ∀ p < L.nPinned, ∀ e, (L.pinnedSlots p).eid = some e → (L.pinnedSlots p).Loaded
  own : ∀ p < L.nPinned, ∀ e, (L.pinnedSlots p).eid = some e →
    ∃ q ≤ p, L.eidToPinned e = some q

theorem PinnedTables.same (hP : PinnedTables L) {L' : MoeStreamLayer} (h : SameOthers L L') :
    PinnedTables L' := by
  obtain ⟨-, -, -, hn, hs, he⟩ := h
  refine ⟨fun e p hp => ?_, fun p hp e => ?_, fun p hp e => ?_⟩
  · rw [hn, hs]
    exact hP.table e p (he ▸ hp)
  · rw [hs]
    exact hP.loaded p (hn ▸ hp) e
  · rw [hs, he]
    exact hP.own p (hn ▸ hp) e

theorem PinnedTables.setSlot (hP : PinnedTables L) {r : SlotRef} {s : MoeExpertSlot}
    (hs : s = { L.slot r with lastUsed := s.lastUsed, inuse := s.inuse }) :
    PinnedTables (L.setSlot s r) := by
  cases r with
  | tier t => exact ⟨hP.table, hP.loaded, hP.own⟩
  | lru i => exact ⟨hP.table, hP.loaded, hP.own⟩
  | pinned i =>
    have hsame : ∀ p, (Function.update L.pinnedSlots i s p).eid = (L.pinnedSlots p).eid ∧
        ((Function.update L.pinnedSlots i s p).Loaded ↔ (L.pinnedSlots p).Loaded) := by
      intro p
      rcases eq_or_ne p i with rfl | hpi
      · rw [Function.update_self, hs]
        exact ⟨rfl, Iff.rfl⟩
      · rw [Function.update_of_ne hpi]
        exact ⟨rfl, Iff.rfl⟩
    refine ⟨fun e p hp => ?_, fun p hp e he => ?_, fun p hp e he => ?_⟩
    · have htable := hP.table e p hp
      exact ⟨htable.1, by rw [← (hsame p).1] at htable; exact htable.2⟩
    · exact (hsame p).2.mpr (hP.loaded p hp e ((hsame p).1.symm.trans he))
    · exact hP.own p hp e ((hsame p).1.symm.trans he)

/-- What an operation leaves for the rest of the layer. -/
structure Kept (L L' : MoeStreamLayer) : Prop where
  tables : Tables L' none
  pinned : PinnedTables L'
  progress : Progress L L'

theorem Kept.trans {L' L'' : MoeStreamLayer} (h : Kept L L') (h' : Kept L' L'') : Kept L L'' :=
  ⟨h'.tables, h'.pinned, h.progress.trans h'.progress⟩

section Operations

variable (hT : Tables L none) (hP : PinnedTables L)
include hT hP

theorem layerFind_kept (e : ℕ) (now : UInt64) : Kept L (L.layerFind e now).1 ∧
    ∀ r ∈ (L.layerFind e now).2, ∀ i, r = .lru i → i < (L.layerFind e now).1.nLru := by
  unfold layerFind
  cases hf : L.liveSlotFind e with
  | none => exact ⟨⟨hT, hP, Progress.of_eq rfl rfl⟩, by simp⟩
  | some r =>
    have hr : ∀ i, r = .lru i → i < L.nLru := by
      rintro i rfl
      exact liveSlotFind_lru hf
    have hs : ({ L.slot r with lastUsed := now } : MoeExpertSlot) =
      { L.slot r with lastUsed := now, inuse := (L.slot r).inuse } := rfl
    obtain ⟨hset, hprog, hn⟩ := setSlot_tables hT hr hs fun _ h => h
    have hpin := hP.setSlot hs
    have hkept : Kept L (L.setSlot { L.slot r with lastUsed := now } r) := ⟨hset, hpin, hprog⟩
    cases r with
    | pinned i => exact ⟨hkept, by simp⟩
    | tier i => exact ⟨hkept, by simp⟩
    | lru i =>
      refine ⟨⟨?_, ⟨hpin.table, hpin.loaded, hpin.own⟩, ⟨hprog.nLru, hprog.gen, hprog.pending⟩⟩, ?_⟩
      · exact hset.rekeyed _ _ _
      · rintro r hr' k rfl
        obtain rfl : i = k := SlotRef.lru.inj (Option.mem_some_iff.mp hr')
        exact hr i rfl

theorem takeReady_kept (e : ℕ) (now : UInt64) : Kept L (L.takeReady e now) := by
  obtain ⟨hkept, hlru⟩ := layerFind_kept hT hP e now
  unfold takeReady
  generalize L.layerFind e now = out at hkept hlru ⊢
  obtain ⟨L', r⟩ := out
  cases r with
  | none => exact hkept
  | some r =>
    dsimp only
    split_ifs with hready
    · have hs : ({ L'.slot r with inuse := (L'.slot r).inuse + 1 } : MoeExpertSlot) =
        { L'.slot r with lastUsed := (L'.slot r).lastUsed, inuse := (L'.slot r).inuse + 1 } := rfl
      obtain ⟨hset, hprog, -⟩ := setSlot_tables hkept.tables (hlru r rfl) hs
        (fun hno => by rw [hready] at hno; cases hno)
      exact hkept.trans ⟨hset, hkept.pinned.setSlot hs, hprog⟩
    · exact hkept

theorem release_kept (e : ℕ) : Kept L (L.release e) := by
  unfold release
  cases hf : L.liveSlotFind e with
  | none => exact ⟨hT, hP, Progress.of_eq rfl rfl⟩
  | some r =>
    have hr : ∀ i, r = .lru i → i < L.nLru := by
      rintro i rfl
      exact liveSlotFind_lru hf
    have hs : ({ L.slot r with inuse := (L.slot r).inuse - 1 } : MoeExpertSlot) =
      { L.slot r with lastUsed := (L.slot r).lastUsed, inuse := (L.slot r).inuse - 1 } := rfl
    obtain ⟨hset, hprog, -⟩ := setSlot_tables hT hr hs fun _ h => by dsimp only; omega
    exact ⟨hset, hP.setSlot hs, hprog⟩

theorem lruSlotClear_kept {i : ℕ} (hi : i < L.nLru) (huse : (L.lruSlots i).inuse = 0)
    (clock : UInt64) : Kept L (L.lruSlotClear i clock) := by
  obtain ⟨htab, hprog, hsame⟩ := lruSlotClear_tables hT hi huse clock
  exact ⟨htab, hP.same hsame, hprog⟩

omit hP in
/-- What a movable LRU slot holds goes up whole. -/
theorem tierUpload_loaded {i e : ℕ} (hi : i < L.nLru) (he : (L.lruSlots i).eid = some e)
    (hready : (L.lruSlots i).ioReady = true) :
    (tierUpload (L.lruSlots i) e).eid = some e ∧ (tierUpload (L.lruSlots i) e).ioReady = true ∧
      (tierUpload (L.lruSlots i) e).dev = some e :=
  ⟨rfl, rfl, hT.lruLoaded i hi hready e he⟩

theorem tierPromote_kept {i : ℕ} (hi : i < L.nLru) (hmove : (L.lruSlots i).movable = true)
    {victim : Option ℕ}
    (hvictim : ∀ v ∈ victim, v < L.tierCap ∧ (L.tierSlots v).movable = true)
    (uploaded copied : Bool) (clock : UInt64) :
    Kept L (L.tierPromote i victim uploaded copied clock) := by
  have hstay : Kept L L := ⟨hT, hP, Progress.of_eq rfl rfl⟩
  simp only [MoeExpertSlot.movable, Bool.and_eq_true, beq_iff_eq] at hmove
  obtain ⟨⟨-, hready⟩, huse⟩ := hmove
  unfold tierPromote
  cases he : (L.lruSlots i).eid with
  | none => exact hstay
  | some e =>
    have hown := hT.lruOwn i hi e he
    have htier : L.eidToTier e = none := (hT.apart e i hown).resolve_right (by simp)
    obtain ⟨heid, hload⟩ := tierUpload_loaded hT hi he hready
    dsimp only
    split
    · rename_i dst hfree
      have hdst : dst < L.tierCap ∧ (L.tierSlots dst).eid = none := by
        have hmem := List.mem_of_find?_eq_some hfree
        have hnone := List.find?_some hfree
        exact ⟨List.mem_range.mp hmem, by simpa using hnone⟩
      cases uploaded with
      | false => exact hstay
      | true =>
        obtain ⟨htab, hprog, hsame⟩ := lruSlotClear_tables hT hi huse clock
        refine ⟨htab.place hdst.1 hdst.2 (unmapped_self hT hi he) htier heid hload, ?_, ?_⟩
        · have hpin := hP.same hsame
          exact ⟨hpin.table, hpin.loaded, hpin.own⟩
        · exact ⟨hprog.nLru, hprog.gen, hprog.pending⟩
    · rename_i v hv
      obtain ⟨hvlt, -⟩ := hvictim v rfl
      cases hve : (L.tierSlots v).eid with
      | none => exact hstay
      | some ve =>
        cases uploaded with
        | false => exact hstay
        | true =>
          have hvtier := hT.tierOwn v hvlt ve hve
          have hvlru : L.eidToLru ve = none := by
            cases hl : L.eidToLru ve with
            | none => rfl
            | some k =>
              have hno := (hT.apart ve k hl).resolve_right (by simp)
              cases hvtier.symm.trans hno
          have hne : e ≠ ve := by
            rintro rfl
            cases hvlru.symm.trans hown
          obtain ⟨htab, hprog, hsame, hmap⟩ := lruSlotRefill_tables (hT.moving (some ve)) hi hready
            huse hvlru (Or.inr rfl) copied clock
          have hpin := hP.same hsame
          cases copied with
          | false =>
            refine ⟨htab.settle fun e' he' => Or.inl ?_, hpin, hprog⟩
            obtain rfl : ve = e' := Option.some.inj he'
            exact unmapped_of_none hvlru
          | true =>
            have hlt' : v < (L.lruSlotRefill i ve true clock).tierCap := by
              rw [hsame.tierCap]
              exact hvlt
            have hve' : ((L.lruSlotRefill i ve true clock).tierSlots v).eid = some ve := by
              rw [hsame.tierSlots]
              exact hve
            have hout := htab.unplace hlt' hve'
            refine ⟨Tables.place (hout.settle fun e' he' => Or.inr ?_) hlt' ?_ ?_ ?_ heid hload,
              ⟨hpin.table, hpin.loaded, hpin.own⟩, ⟨hprog.nLru, hprog.gen, hprog.pending⟩⟩
            · obtain rfl : ve = e' := Option.some.inj he'
              exact Function.update_self ..
            · exact congrArg _ (Function.update_self ..)
            · exact (hmap e hne).trans (unmapped_self hT hi he)
            · exact (Function.update_of_ne hne _ _).trans
                ((congrFun hsame.eidToTier e).trans htier)
    · exact hstay

theorem tierDemote_kept (hH : HeapWf L) {t : ℕ} (ht : t < L.tierCap) (copied : Bool)
    (clock : UInt64) : Kept L (L.tierDemote t copied clock) := by
  have hstay : Kept L L := ⟨hT, hP, Progress.of_eq rfl rfl⟩
  unfold tierDemote
  cases he : (L.tierSlots t).eid with
  | none => exact hstay
  | some e =>
    have htier := hT.tierOwn t ht e he
    have hlru : L.eidToLru e = none := by
      cases hl : L.eidToLru e with
      | none => rfl
      | some k =>
        have hno := (hT.apart e k hl).resolve_right (by simp)
        cases htier.symm.trans hno
    have hins := layerInsertLru_tables hH (hT.moving (some e)) hlru (Or.inr rfl) clock
    have hnone : (L.layerInsertLru e clock).2 = none →
        (L.layerInsertLru e clock).1.eidToLru e = none := by
      intro hn
      rcases layerInsertLru_spec hH e clock with
        ⟨h, heq, -⟩ | ⟨h, f, d, heq, -⟩ | ⟨i, -, -, h, f, d, heq, -⟩
      · rw [heq]
        exact hlru
      · rw [heq] at hn
        cases hn
      · rw [heq] at hn
        cases hn
    dsimp only
    generalize L.layerInsertLru e clock = out at hins hnone ⊢
    obtain ⟨L', i⟩ := out
    obtain ⟨htab, hprog, hsame, hnew⟩ := hins
    have hpin := hP.same hsame
    cases i with
    | none =>
      refine ⟨htab.settle fun e' he' => Or.inl ?_, hpin, hprog⟩
      obtain rfl : e = e' := Option.some.inj he'
      exact hnone rfl
    | some i =>
      have hslot := hnew i rfl
      obtain ⟨hi, hieid, hiready, hiuse, -, -, -⟩ := hnew i rfl
      cases copied with
      | true =>
        have hre := htab.reload (s := { (L'.lruSlots i).fromExpertDesc e with
            heapBuf := some e, ioReady := true }) hi hieid.symm
          (fun _ e' he' => he') (fun hr => by cases hr) rfl
        have hlt' : t < L'.tierCap := by
          rw [hsame.tierCap]
          exact ht
        have hte : (L'.tierSlots t).eid = some e := by
          rw [hsame.tierSlots]
          exact he
        have hp := hslot.progress_set hprog (s := { (L'.lruSlots i).fromExpertDesc e with
          heapBuf := some e, ioReady := true }) rfl
        refine ⟨(hre.unplace hlt' hte).settle fun e' he' => Or.inr ?_, ⟨hpin.table, hpin.loaded, hpin.own⟩,
          ⟨hp.nLru, hp.gen, hp.pending⟩⟩
        obtain rfl : e = e' := Option.some.inj he'
        exact Function.update_self ..
      | false =>
        obtain ⟨hclear, hprog', hsame'⟩ := lruSlotClear_tables htab hi hiuse clock
        have hat : (L'.lruSlotClear i clock).lruSlots i = cleared (L'.lruSlots i) :=
          Function.update_self ..
        have hre := hclear.reload (s := { (L'.lruSlotClear i clock).lruSlots i with
            ioReady := true }) hi rfl (fun _ e' he' => ?_) (fun hr => by cases hr) ?_
        · have hpin' := hpin.same hsame'
          have hslots : ((L'.lruSlotClear i clock).setLru i
              { (L'.lruSlotClear i clock).lruSlots i with ioReady := true }).lruSlots =
              Function.update L'.lruSlots i
                { (L'.lruSlotClear i clock).lruSlots i with ioReady := true } :=
            Function.update_idem ..
          have hp : Progress L ((L'.lruSlotClear i clock).setLru i
              { (L'.lruSlotClear i clock).lruSlots i with ioReady := true }) := by
            refine hslot.progress hprog rfl (fun k hk => ?_) ?_
            · rw [hslots, Function.update_of_ne hk]
            · rw [hslots, Function.update_self, hat]
              exact Nat.le_succ _
          refine ⟨hre.settle fun e' he' => Or.inl ?_, ⟨hpin'.table, hpin'.loaded, hpin'.own⟩, hp⟩
          obtain rfl : e = e' := Option.some.inj he'
          exact unmapped_self htab hi hieid
        · dsimp only at he'
          rw [hat] at he'
          cases he'
        · dsimp only
          rw [hat]
          exact htab.unpinned i hi

end Operations

/-- A miss under way: if its slot is still of its generation, the slot waits for it. -/
structure MissOk (L : MoeStreamLayer) (me : MoeMissEntry) (i : ℕ) : Prop where
  lt : i < L.nLru
  gen : me.gen ≤ (L.lruSlots i).gen
  waits : (L.lruSlots i).gen = me.gen →
    (L.lruSlots i).ioReady = false ∧ (L.lruSlots i).eid = some me.eid
  tmpEid : me.tmp.eid = some me.eid
  tmpPinned : me.tmp.pinned = false
  tmpGen : me.tmp.gen = me.gen

theorem MissOk.progress {me : MoeMissEntry} {i : ℕ} (hm : MissOk L me i) {L' : MoeStreamLayer}
    (hprog : Progress L L') : MissOk L' me i where
  lt := Nat.lt_of_lt_of_le hm.lt hprog.nLru
  gen := hm.gen.trans (hprog.gen i hm.lt)
  waits := by
    intro hg
    have hge := hprog.gen i hm.lt
    have hle := hm.gen
    obtain ⟨hr, he⟩ := hm.waits (by omega)
    obtain ⟨hr', he'⟩ := hprog.pending i hm.lt hr (by omega)
    exact ⟨hr', he'.trans he⟩
  tmpEid := hm.tmpEid
  tmpPinned := hm.tmpPinned
  tmpGen := hm.tmpGen

/-- The commit of a miss keeps the tables; the slot keeps its generation. -/
theorem missCommit_tables (hT : Tables L none) {me : MoeMissEntry}
    (hm : ∀ i, me.slot = some i → MissOk L me i) (fetched : Bool) :
    Tables (L.missCommit me fetched) none ∧ SameOthers L (L.missCommit me fetched) ∧
      (L.missCommit me fetched).nLru = L.nLru ∧
      ∀ i, (me.slot = some i ∧ (L.lruSlots i).gen = me.gen ∧
          ((L.missCommit me fetched).lruSlots i).gen = me.gen) ∨
        (L.missCommit me fetched).lruSlots i = L.lruSlots i := by
  have hstay : Tables L none ∧ SameOthers L L ∧ L.nLru = L.nLru ∧
      ∀ i, (me.slot = some i ∧ (L.lruSlots i).gen = me.gen ∧ (L.lruSlots i).gen = me.gen) ∨
        L.lruSlots i = L.lruSlots i :=
    ⟨hT, ⟨rfl, rfl, rfl, rfl, rfl, rfl⟩, rfl, fun _ => Or.inr rfl⟩
  unfold missCommit
  cases hslot : me.slot with
  | none => exact ⟨hT, ⟨rfl, rfl, rfl, rfl, rfl, rfl⟩, rfl, fun _ => Or.inr rfl⟩
  | some i =>
    rw [hslot] at hstay
    have hmi := hm i hslot
    by_cases hg : (L.lruSlots i).gen = me.gen
    · obtain ⟨hr, he⟩ := hmi.waits hg
      have huse := hT.idle i hmi.lt hr
      have hpin := hT.unpinned i hmi.lt
      have hset : ∀ (L' : MoeStreamLayer) (s : MoeExpertSlot), L'.lruSlots =
          Function.update L.lruSlots i s → s.gen = me.gen →
          ∀ k, (some i = some k ∧ (L.lruSlots k).gen = me.gen ∧ (L'.lruSlots k).gen = me.gen) ∨
            L'.lruSlots k = L.lruSlots k := by
        intro L' s hs hsg k
        rw [hs]
        rcases eq_or_ne k i with rfl | hki
        · rw [Function.update_self]
          exact Or.inl ⟨rfl, hg, hsg⟩
        · exact Or.inr (Function.update_of_ne hki _ _)
      dsimp only
      rw [if_pos hg]
      cases fetched with
      | true =>
        simp only [if_true, huse]
        refine ⟨hT.reload hmi.lt (hmi.tmpEid.trans he.symm) ?_ ?_ hmi.tmpPinned,
          ⟨rfl, rfl, rfl, rfl, rfl, rfl⟩, rfl, hset _ _ rfl hmi.tmpGen⟩
        · exact fun _ e' he' => he'
        · exact fun hno => by cases hno
      | false =>
        simp only [Bool.false_eq_true, if_false, huse, if_true, hpin, hmi.lt]
        have hvac : Vacant { L.lruSlots i with eid := none, heapBuf := none } :=
          ⟨rfl, fun _ => huse, hpin⟩
        have hat : ((L.unmapLru i).setLru i
            { L.lruSlots i with eid := none, heapBuf := none }).lruSlots i =
            { L.lruSlots i with eid := none, heapBuf := none } := Function.update_self ..
        have hre := (hT.vacate hmi.lt hvac).reload (i := i) (s := { ((L.unmapLru i).setLru i
          { L.lruSlots i with eid := none, heapBuf := none }).lruSlots i with ioReady := true })
          hmi.lt rfl (fun _ e' he' => by rw [hat] at he'; cases he')
          (fun hno => by cases hno) (by rw [hat]; exact hpin)
        simp only [hpin, huse] at hre ⊢
        refine ⟨hre, ⟨rfl, rfl, rfl, rfl, rfl, rfl⟩, rfl, ?_⟩
        refine hset _ _ (Function.update_idem ..) ?_
        simp only [setLru, Function.update_self]
        exact hg
    · dsimp only
      rw [if_neg hg]
      exact hstay

end MoeStreamLayer

open MoeStreamLayer

/-- Two misses for one slot are of different generations. -/
def Apart (a b : MoeMissEntry) : Prop :=
  ∀ i, a.slot = some i → b.slot = some i → a.gen ≠ b.gen

theorem Apart.symm {a b : MoeMissEntry} (h : Apart a b) : Apart b a :=
  fun i hb ha => (h i ha hb).symm

structure MoeInv (s : MoeStream) : Prop where
  heap : HeapWf s.layer
  tables : Tables s.layer none
  pinned : PinnedTables s.layer
  misses : ∀ me ∈ s.misses, ∀ i, me.slot = some i → MissOk s.layer me i
  apart : s.misses.Pairwise Apart

theorem MoeInv.kept {s : MoeStream} (hs : MoeInv s) {L : MoeStreamLayer} (hL : HeapWf L)
    (hk : Kept s.layer L) : MoeInv { s with layer := L } where
  heap := hL
  tables := hk.tables
  pinned := hk.pinned
  misses := fun me hme i hi => (hs.misses me hme i hi).progress hk.progress
  apart := hs.apart

theorem MoeInv.miss {s : MoeStream} (hs : MoeInv s) {e : ℕ} (hnone : s.layer.liveSlotFind e = none)
    (now : UInt64) : MoeInv (s.miss e now) := by
  obtain ⟨hlru, htier⟩ := liveSlotFind_none hs.tables hnone
  obtain ⟨htab, hprog, hsame, hnew⟩ :=
    layerInsertLru_tables hs.heap hs.tables hlru (Or.inl htier) now
  have hheap := hs.heap.layerInsertLru e now
  unfold MoeStream.miss
  generalize s.layer.layerInsertLru e now = out at htab hprog hsame hnew hheap ⊢
  obtain ⟨L, i⟩ := out
  have hpin := hs.pinned.same hsame
  cases i with
  | none =>
    refine ⟨hheap, htab, hpin, fun me hme k hk => ?_, ?_⟩
    · rcases List.mem_append.mp hme with hme | hme
      · exact (hs.misses me hme k hk).progress hprog
      · rw [List.mem_singleton.mp hme] at hk
        cases hk
    · refine List.pairwise_append.mpr ⟨hs.apart, List.pairwise_singleton _ _, ?_⟩
      intro a _ b hb k _ hbk
      rw [List.mem_singleton.mp hb] at hbk
      cases hbk
  | some i =>
    have hslot := hnew i rfl
    obtain ⟨hi, hieid, hiready, hiuse, hipin, -, higen⟩ := hnew i rfl
    have hre := htab.reload (s := (L.lruSlots i).fromExpertDesc e) hi hieid.symm
      (fun hr => by cases hiready.symm.trans hr) (fun _ => hiuse) rfl
    have hat : (L.setLru i ((L.lruSlots i).fromExpertDesc e)).lruSlots i =
        (L.lruSlots i).fromExpertDesc e := Function.update_self ..
    have hp : Progress s.layer (L.setLru i ((L.lruSlots i).fromExpertDesc e)) :=
      hslot.progress_set hprog rfl
    refine ⟨⟨hheap.indexes, hheap.count, hheap.cap, hheap.capMax⟩, hre,
      ⟨hpin.table, hpin.loaded, hpin.own⟩, fun me hme k hk => ?_, ?_⟩
    · rcases List.mem_append.mp hme with hme | hme
      · exact (hs.misses me hme k hk).progress hp
      · obtain rfl := List.mem_singleton.mp hme
        obtain rfl : i = k := Option.some.inj hk
        refine ⟨hi, ?_, fun _ => ?_, rfl, rfl, rfl⟩
        · rw [hat]
        · rw [hat]
          exact ⟨hiready, rfl⟩
    · refine List.pairwise_append.mpr ⟨hs.apart, List.pairwise_singleton _ _, ?_⟩
      intro a ha b hb k hak hbk
      obtain rfl := List.mem_singleton.mp hb
      obtain rfl : i = k := Option.some.inj hbk
      have hold := hs.misses a ha i hak
      have hlt := higen hold.lt
      have hle := hold.gen
      have hgen : ((L.lruSlots i).fromExpertDesc e).gen = (L.lruSlots i).gen := rfl
      dsimp only at hlt ⊢
      omega

theorem MoeInv.commit {s : MoeStream} (hs : MoeInv s) {k : ℕ} {me : MoeMissEntry}
    (hk : s.misses[k]? = some me) (fetched : Bool) :
    MoeInv ⟨s.layer.missCommit me fetched, s.misses.eraseIdx k⟩ := by
  have hmem : me ∈ s.misses := List.mem_of_getElem? hk
  obtain ⟨hlt, hget⟩ := List.getElem?_eq_some_iff.mp hk
  have hperm : (me :: s.misses.eraseIdx k).Perm s.misses := by
    rw [← hget]
    exact List.getElem_cons_eraseIdx_perm hlt
  have hpair := (hperm.pairwise_iff fun h => Apart.symm h).mpr hs.apart
  obtain ⟨hfrom, hrest⟩ := List.pairwise_cons.mp hpair
  obtain ⟨htab, hsame, hn, hslots⟩ :=
    missCommit_tables hs.tables (hs.misses me hmem) fetched
  refine ⟨hs.heap.missCommit me fetched, htab, hs.pinned.same hsame, fun b hb i hbi => ?_, hrest⟩
  have hold := hs.misses b (List.mem_of_mem_eraseIdx hb) i hbi
  rcases hslots i with ⟨hmi, hg, hg'⟩ | hsl
  · have hne := hfrom b hb i hmi hbi
    refine ⟨by rw [hn]; exact hold.lt, ?_, fun hgb => ?_, hold.tmpEid, hold.tmpPinned, hold.tmpGen⟩
    · rw [hg', ← hg]
      exact hold.gen
    · exact absurd (hg'.symm.trans hgb) hne
  · refine ⟨by rw [hn]; exact hold.lt, ?_, ?_, hold.tmpEid, hold.tmpPinned, hold.tmpGen⟩
    · rw [hsl]
      exact hold.gen
    · rw [hsl]
      exact hold.waits

theorem MoeInv.apply {s : MoeStream} (hs : MoeInv s) (op : MoeOp) : MoeInv (s.apply op) := by
  cases op with
  | lookup e now => exact hs.kept (hs.heap.takeReady e now) (takeReady_kept hs.tables hs.pinned e now)
  | miss e now =>
    simp only [MoeStream.apply]
    split_ifs with hnone
    · exact hs.miss hnone now
    · exact hs
  | commit k fetched =>
    simp only [MoeStream.apply]
    split
    · exact hs.commit ‹_› fetched
    · exact hs
  | release e => exact hs.kept (hs.heap.release e) (release_kept hs.tables hs.pinned e)
  | evict i clock =>
    simp only [MoeStream.apply]
    split_ifs with hif
    · have huse : (s.layer.lruSlots i).inuse = 0 := by
        have hmove := hif.2
        simp only [MoeExpertSlot.movable, Bool.and_eq_true, beq_iff_eq] at hmove
        exact hmove.2
      exact hs.kept (hs.heap.lruSlotClear i clock)
        (lruSlotClear_kept hs.tables hs.pinned hif.1 huse clock)
    · exact hs
  | promote i victim uploaded copied clock =>
    simp only [MoeStream.apply]
    split_ifs with hif
    · exact hs.kept (hs.heap.tierPromote i victim uploaded copied clock)
        (tierPromote_kept hs.tables hs.pinned hif.1 hif.2.1 hif.2.2 uploaded copied clock)
    · exact hs
  | demote t copied clock =>
    simp only [MoeStream.apply]
    split_ifs with hif
    · exact hs.kept (hs.heap.tierDemote t copied clock)
        (tierDemote_kept hs.tables hs.pinned hs.heap hif.1 copied clock)
    · exact hs

end Kappai
