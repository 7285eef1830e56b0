import Kappai.Sanity.MoeTables
import Kappai.Spec.MoeExperts

/-! What the operations on a layer do to use counts and to slots in use. -/

namespace Kappai

/-- The slot still holds the same weights, for the same expert. -/
structure SameWeights (s s' : MoeExpertSlot) : Prop where
  eid : s'.eid = s.eid
  heapBuf : s'.heapBuf = s.heapBuf
  dev : s'.dev = s.dev
  gen : s'.gen = s.gen
  ioReady : s'.ioReady = s.ioReady

theorem SameWeights.refl (s : MoeExpertSlot) : SameWeights s s := ⟨rfl, rfl, rfl, rfl, rfl⟩

theorem SameWeights.trans {a b c : MoeExpertSlot} (h : SameWeights a b) (h' : SameWeights b c) :
    SameWeights a c :=
  ⟨h'.eid.trans h.eid, h'.heapBuf.trans h.heapBuf, h'.dev.trans h.dev, h'.gen.trans h.gen,
    h'.ioReady.trans h.ioReady⟩

namespace MoeStreamLayer

variable {L L' L'' : MoeStreamLayer}

@[simp] theorem slot_setSlot (s : MoeExpertSlot) (r r' : SlotRef) :
    (L.setSlot s r).slot r' = if r' = r then s else L.slot r' := by
  cases r <;> cases r' <;>
    simp [setSlot, slot, setPinned, setTier, setLru, Function.update_apply]

/-- Slots in use keep their weights, and use counts stay, but that of one slot that is taken. -/
structure Takes (L L' : MoeStreamLayer) (took : Option SlotRef) : Prop where
  use : ∀ r, (L'.slot r).inuse = (L.slot r).inuse + if took = some r then 1 else 0
  same : ∀ r, 0 < (L.slot r).inuse → SameWeights (L.slot r) (L'.slot r)

theorem Takes.of_slots (h : ∀ r, (L'.slot r).inuse = (L.slot r).inuse)
    (h' : ∀ r, 0 < (L.slot r).inuse → SameWeights (L.slot r) (L'.slot r)) : Takes L L' none :=
  ⟨fun r => by rw [h r, if_neg (by simp), Nat.add_zero], h'⟩

theorem Takes.refl (L : MoeStreamLayer) : Takes L L none :=
  .of_slots (fun _ => rfl) fun _ _ => .refl _

theorem Takes.trans {took : Option SlotRef} (h : Takes L L' none) (h' : Takes L' L'' took) :
    Takes L L'' took where
  use := fun r => by rw [h'.use r, h.use r, if_neg (by simp), Nat.add_zero]
  same := fun r hr => (h.same r hr).trans (h'.same r (by rw [h.use r, if_neg (by simp)]; exact hr))

theorem Takes.mono {took : Option SlotRef} (h : Takes L L' took) (r : SlotRef) :
    (L.slot r).inuse ≤ (L'.slot r).inuse := by
  rw [h.use r]
  exact Nat.le_add_right _ _

/-- Experts with an LRU or a tier slot. -/
def Resident (L : MoeStreamLayer) (e : ℕ) : Prop :=
  (∃ i < L.nLru, (L.lruSlots i).eid = some e) ∨ ∃ t < L.tierCap, (L.tierSlots t).eid = some e

/-- No slot is put to sleep but the new one, no expert moves in but the new one, and the pinned
slots stay. -/
structure Tame (L L' : MoeStreamLayer) (new : Option (ℕ × ℕ)) : Prop where
  nLru : L.nLru ≤ L'.nLru
  tierCap : L'.tierCap = L.tierCap
  wakes : ∀ i < L'.nLru, (L'.lruSlots i).ioReady = false → (∃ e, new = some (i, e)) ∨
    (i < L.nLru ∧ (L.lruSlots i).ioReady = false ∧ (L'.lruSlots i).gen = (L.lruSlots i).gen)
  resident : ∀ e, L'.Resident e → (∃ i, new = some (i, e)) ∨ L.Resident e
  nPinned : L'.nPinned = L.nPinned
  eidToPinned : L'.eidToPinned = L.eidToPinned
  pinned : ∀ p, (L'.pinnedSlots p).eid = (L.pinnedSlots p).eid ∧
    (L'.pinnedSlots p).ioReady = (L.pinnedSlots p).ioReady

theorem Tame.trans {new : Option (ℕ × ℕ)} (h : Tame L L' none) (h' : Tame L' L'' new) :
    Tame L L'' new where
  nLru := h.nLru.trans h'.nLru
  tierCap := h'.tierCap.trans h.tierCap
  wakes := fun i hi hr => by
    rcases h'.wakes i hi hr with hnew | ⟨hi', hr', hg'⟩
    · exact Or.inl hnew
    · rcases h.wakes i hi' hr' with ⟨e, he⟩ | ⟨hi'', hr'', hg''⟩
      · cases he
      · exact Or.inr ⟨hi'', hr'', hg'.trans hg''⟩
  resident := fun e he => by
    rcases h'.resident e he with hnew | he'
    · exact Or.inl hnew
    · rcases h.resident e he' with ⟨i, hi⟩ | hres
      · cases hi
      · exact Or.inr hres
  nPinned := h'.nPinned.trans h.nPinned
  eidToPinned := h'.eidToPinned.trans h.eidToPinned
  pinned := fun p => ⟨(h'.pinned p).1.trans (h.pinned p).1, (h'.pinned p).2.trans (h.pinned p).2⟩

/-- One LRU slot changes. -/
theorem Tame.slot {new : Option (ℕ × ℕ)} {i : ℕ} (hn : L'.nLru = L.nLru)
    (hs : ∀ k ≠ i, L'.lruSlots k = L.lruSlots k) (hsame : SameOthers L L')
    (hi : (L'.lruSlots i).ioReady = false → (∃ e, new = some (i, e)) ∨
      ((L.lruSlots i).ioReady = false ∧ (L'.lruSlots i).gen = (L.lruSlots i).gen))
    (he : ∀ e, (L'.lruSlots i).eid = some e → (∃ i, new = some (i, e)) ∨ L.Resident e) :
    Tame L L' new where
  nLru := hn.ge
  tierCap := hsame.tierCap
  wakes := fun k hk hr => by
    rcases eq_or_ne k i with rfl | hki
    · rcases hi hr with hnew | ⟨hr', hg⟩
      · exact Or.inl hnew
      · exact Or.inr ⟨hn ▸ hk, hr', hg⟩
    · rw [hs k hki] at hr ⊢
      exact Or.inr ⟨hn ▸ hk, hr, rfl⟩
  resident := fun e hres => by
    rcases hres with ⟨k, hk, hke⟩ | ⟨t, ht, hte⟩
    · rcases eq_or_ne k i with rfl | hki
      · exact he e hke
      · rw [hs k hki] at hke
        exact Or.inr (Or.inl ⟨k, hn ▸ hk, hke⟩)
    · rw [hsame.tierCap] at ht
      rw [hsame.tierSlots] at hte
      exact Or.inr (Or.inr ⟨t, ht, hte⟩)
  nPinned := hsame.nPinned
  eidToPinned := hsame.eidToPinned
  pinned := fun p => by rw [hsame.pinnedSlots]; exact ⟨rfl, rfl⟩

/-! ### Reads -/

/-- Only times of use, use counts and the heap have changed. -/
structure Read (L L' : MoeStreamLayer) : Prop where
  nLru : L'.nLru = L.nLru
  tierCap : L'.tierCap = L.tierCap
  nPinned : L'.nPinned = L.nPinned
  eidToLru : L'.eidToLru = L.eidToLru
  eidToTier : L'.eidToTier = L.eidToTier
  eidToPinned : L'.eidToPinned = L.eidToPinned
  weights : ∀ r, SameWeights (L.slot r) (L'.slot r)

theorem Read.refl (L : MoeStreamLayer) : Read L L :=
  ⟨rfl, rfl, rfl, rfl, rfl, rfl, fun _ => .refl _⟩

theorem Read.trans (h : Read L L') (h' : Read L' L'') : Read L L'' :=
  ⟨h'.nLru.trans h.nLru, h'.tierCap.trans h.tierCap, h'.nPinned.trans h.nPinned,
    h'.eidToLru.trans h.eidToLru, h'.eidToTier.trans h.eidToTier,
    h'.eidToPinned.trans h.eidToPinned, fun r => (h.weights r).trans (h'.weights r)⟩

theorem Read.tame (h : Read L L') : Tame L L' none where
  nLru := h.nLru.ge
  tierCap := h.tierCap
  wakes := fun i hi hr => Or.inr ⟨h.nLru ▸ hi, (h.weights (.lru i)).ioReady.symm.trans hr,
    (h.weights (.lru i)).gen⟩
  resident := fun e hres => by
    rcases hres with ⟨i, hi, he⟩ | ⟨t, ht, he⟩
    · exact Or.inr (Or.inl ⟨i, h.nLru ▸ hi, (h.weights (.lru i)).eid.symm.trans he⟩)
    · exact Or.inr (Or.inr ⟨t, h.tierCap ▸ ht, (h.weights (.tier t)).eid.symm.trans he⟩)
  nPinned := h.nPinned
  eidToPinned := h.eidToPinned
  pinned := fun p => ⟨(h.weights (.pinned p)).eid, (h.weights (.pinned p)).ioReady⟩

theorem Read.liveSlotFind (h : Read L L') (e : ℕ) : L'.liveSlotFind e = L.liveSlotFind e := by
  have hlru := fun i => (h.weights (.lru i)).eid
  have htier := fun i => (h.weights (.tier i)).eid
  have hpinned := fun i => (h.weights (.pinned i)).eid
  simp only [slot] at hlru htier hpinned
  simp only [MoeStreamLayer.liveSlotFind, liveSlotFind.other, liveSlotFind.lru, h.nLru, h.tierCap,
    h.nPinned, h.eidToLru, h.eidToTier, h.eidToPinned, hlru, htier, hpinned]

theorem setSlot_read {r : SlotRef} {s : MoeExpertSlot} (hs : SameWeights (L.slot r) s) :
    Read L (L.setSlot s r) := by
  have hw : ∀ r', SameWeights (L.slot r') ((L.setSlot s r).slot r') := by
    intro r'
    rw [slot_setSlot]
    split_ifs with h
    · rw [h]
      exact hs
    · exact .refl _
  cases r with
  | pinned i => exact ⟨rfl, rfl, rfl, rfl, rfl, rfl, hw⟩
  | tier i => exact ⟨rfl, rfl, rfl, rfl, rfl, rfl, hw⟩
  | lru i => exact ⟨rfl, rfl, rfl, rfl, rfl, rfl, hw⟩

theorem rekeyed_read (h : IndexHeap) (f : ℕ → UInt32) (d : ℕ) : Read L (L.rekeyed h f d) :=
  ⟨rfl, rfl, rfl, rfl, rfl, rfl, fun r => by cases r <;> exact .refl _⟩

/-- `layer_find` finds the live slot and reads it. -/
theorem layerFind_read (e : ℕ) (now : UInt64) :
    Read L (L.layerFind e now).1 ∧ (L.layerFind e now).2 = L.liveSlotFind e ∧
      ∀ r, ((L.layerFind e now).1.slot r).inuse = (L.slot r).inuse := by
  unfold layerFind
  cases L.liveSlotFind e with
  | none => exact ⟨.refl L, rfl, fun _ => rfl⟩
  | some r =>
    have hread : Read L (L.setSlot { L.slot r with lastUsed := now } r) :=
      setSlot_read ⟨rfl, rfl, rfl, rfl, rfl⟩
    have huse : ∀ r', ((L.setSlot { L.slot r with lastUsed := now } r).slot r').inuse =
        (L.slot r').inuse := by
      intro r'
      rw [slot_setSlot]
      split_ifs with h
      · rw [h]
      · rfl
    cases r with
    | pinned i => exact ⟨hread, rfl, huse⟩
    | tier i => exact ⟨hread, rfl, huse⟩
    | lru i =>
      refine ⟨hread.trans (rekeyed_read _ _ _), rfl, fun r' => ?_⟩
      rw [← huse r']
      cases r' <;> rfl

/-- A lookup that finds a ready slot takes it; any other changes nothing that counts. -/
theorem lookup_cases (e : ℕ) (now : UInt64) :
    Read L (L.lookup e now).1 ∧ (L.lookup e now).1 = L.takeReady e now ∧
      match (L.lookup e now).2 with
      | .absent => L.liveSlotFind e = none ∧ Takes L (L.lookup e now).1 none
      | .notReady => (∃ r, L.liveSlotFind e = some r ∧ (L.slot r).ioReady = false) ∧
          Takes L (L.lookup e now).1 none
      | .ready out => ∃ r, L.liveSlotFind e = some r ∧ (L.slot r).ioReady = true ∧
          out.held = some r ∧ out.owned = false ∧ SameWeights (L.slot r) out.slot ∧
          Takes L (L.lookup e now).1 (some r) := by
  obtain ⟨hread, hfind, huse⟩ := layerFind_read (L := L) e now
  have hquiet : Takes L (L.layerFind e now).1 none :=
    .of_slots huse fun r _ => hread.weights r
  unfold lookup takeReady
  generalize L.layerFind e now = out at hread hfind huse hquiet ⊢
  obtain ⟨L', r⟩ := out
  cases r with
  | none => exact ⟨hread, rfl, hfind.symm, hquiet⟩
  | some r =>
    have hweights := hread.weights r
    dsimp only at hread hfind huse hquiet hweights ⊢
    by_cases hready : (L'.slot r).ioReady = true
    · rw [if_pos hready, if_pos hready]
      have hset : Read L' (L'.setSlot { L'.slot r with inuse := (L'.slot r).inuse + 1 } r) :=
        setSlot_read ⟨rfl, rfl, rfl, rfl, rfl⟩
      refine ⟨hread.trans hset, rfl, r, hfind.symm, hweights.ioReady.symm.trans hready, rfl, rfl,
        ?_, hquiet.trans ⟨fun r' => ?_, fun r' _ => hset.weights r'⟩⟩
      · exact hweights.trans ⟨rfl, rfl, rfl, rfl, hready.symm⟩
      · rw [slot_setSlot]
        by_cases hr : r' = r
        · rw [if_pos hr, if_pos (by rw [hr]), hr]
        · rw [if_neg hr, if_neg fun h => hr (Option.some.inj h).symm, Nat.add_zero]
    · rw [if_neg hready, if_neg hready]
      exact ⟨hread, rfl, ⟨r, hfind.symm, hweights.ioReady.symm.trans (by simpa using hready)⟩,
        hquiet⟩

/-! ### The insert of a miss -/

variable {moved : Option ℕ}

/-- Two layers whose slots and whose tier and pinned tables agree, as far as use goes. -/
theorem Takes.of_lru {i : ℕ} (hs : ∀ k ≠ i, L'.lruSlots k = L.lruSlots k)
    (hsame : SameOthers L L') (hi : (L.lruSlots i).inuse = 0) (hi' : (L'.lruSlots i).inuse = 0) :
    Takes L L' none := by
  refine .of_slots (fun r => ?_) fun r hr => ?_
  · cases r with
    | pinned p => simp only [slot, hsame.pinnedSlots]
    | tier t => simp only [slot, hsame.tierSlots]
    | lru k =>
      simp only [slot]
      rcases eq_or_ne k i with rfl | hki
      · rw [hi, hi']
      · rw [hs k hki]
  · cases r with
    | pinned p => simp only [slot, hsame.pinnedSlots]; exact .refl _
    | tier t => simp only [slot, hsame.tierSlots]; exact .refl _
    | lru k =>
      have hki : k ≠ i := by
        rintro rfl
        simp only [slot, hi, Nat.lt_irrefl] at hr
      simp only [slot, hs k hki]
      exact .refl _

/-- The insert touches no slot but the one it returns, which was not in use. -/
theorem layerInsertLru_slots (hH : HeapWf L) (hT : Tables L moved) (e : ℕ) (now : UInt64) :
    ((L.layerInsertLru e now).2 = none → Read L (L.layerInsertLru e now).1 ∧
      Takes L (L.layerInsertLru e now).1 none) ∧
      ∀ i ∈ (L.layerInsertLru e now).2, (L.lruSlots i).inuse = 0 ∧
        (∀ k ≠ i, (L.layerInsertLru e now).1.lruSlots k = L.lruSlots k) ∧
        ∀ k < (L.layerInsertLru e now).1.nLru, k ≠ i → k < L.nLru := by
  rcases layerInsertLru_spec hH e now with
    ⟨h, heq, -⟩ | ⟨h, f, d, heq, -⟩ | ⟨i, hi, huse, h, f, d, heq, -⟩
  all_goals rw [heq]
  · refine ⟨fun _ => ⟨rekeyed_read h L.lruFreq L.decayCounter, .of_slots (fun r => ?_) fun r _ => ?_⟩,
      by simp⟩
    · cases r <;> rfl
    · exact (rekeyed_read h L.lruFreq L.decayCounter).weights r
  · refine ⟨by simp, fun i hi => ?_⟩
    obtain rfl : L.nLru = i := Option.mem_some_iff.mp hi
    refine ⟨by rw [hT.unused L.nLru le_rfl]; rfl, fun k hk => Function.update_of_ne hk _ _,
      fun k hk hne => ?_⟩
    have hlt : k < L.nLru + 1 := hk
    omega
  · refine ⟨by simp, fun j hj => ?_⟩
    obtain rfl : i = j := Option.mem_some_iff.mp hj
    refine ⟨huse, fun k hk => ?_, fun k hk _ => hk⟩
    simp only [MoeStreamLayer.rekeyed, given, setLru, mapLru, dropVictim, unmapLru,
      Function.update_of_ne hk]

/-- Slot `i` is given to `e`, which was nowhere; the other slots stay. -/
structure Inserted (L L' : MoeStreamLayer) (i e : ℕ) : Prop where
  new : NewSlot L L' i e
  others : SameOthers L L'
  slots : ∀ k ≠ i, L'.lruSlots k = L.lruSlots k
  nLru : L.nLru ≤ L'.nLru
  lt : ∀ k < L'.nLru, k ≠ i → k < L.nLru

theorem Inserted.tame {i e : ℕ} (h : Inserted L L' i e) : Tame L L' (some (i, e)) where
  nLru := h.nLru
  tierCap := h.others.tierCap
  wakes := fun k hk hr => by
    rcases eq_or_ne k i with rfl | hki
    · exact Or.inl ⟨e, rfl⟩
    · rw [h.slots k hki] at hr ⊢
      exact Or.inr ⟨h.lt k hk hki, hr, rfl⟩
  resident := fun e' hres => by
    rcases hres with ⟨k, hk, hke⟩ | ⟨t, ht, hte⟩
    · rcases eq_or_ne k i with rfl | hki
      · rw [h.new.eid] at hke
        exact Or.inl ⟨k, by rw [Option.some.inj hke]⟩
      · rw [h.slots k hki] at hke
        exact Or.inr (Or.inl ⟨k, h.lt k hk hki, hke⟩)
    · rw [h.others.tierCap] at ht
      rw [h.others.tierSlots] at hte
      exact Or.inr (Or.inr ⟨t, ht, hte⟩)
  nPinned := h.others.nPinned
  eidToPinned := h.others.eidToPinned
  pinned := fun p => by rw [h.others.pinnedSlots]; exact ⟨rfl, rfl⟩

/-! ### The moves of the tier -/

/-- One tier slot changes. -/
structure Retiered (L L' : MoeStreamLayer) (t : ℕ) (s : MoeExpertSlot) : Prop where
  nLru : L'.nLru = L.nLru
  lruSlots : L'.lruSlots = L.lruSlots
  tierCap : L'.tierCap = L.tierCap
  tierSlots : L'.tierSlots = Function.update L.tierSlots t s
  nPinned : L'.nPinned = L.nPinned
  pinnedSlots : L'.pinnedSlots = L.pinnedSlots
  eidToPinned : L'.eidToPinned = L.eidToPinned

theorem Retiered.trans {t : ℕ} {s s' : MoeExpertSlot} (h : Retiered L L' t s)
    (h' : Retiered L' L'' t s') : Retiered L L'' t s' :=
  ⟨h'.nLru.trans h.nLru, h'.lruSlots.trans h.lruSlots, h'.tierCap.trans h.tierCap,
    by rw [h'.tierSlots, h.tierSlots, Function.update_idem], h'.nPinned.trans h.nPinned,
    h'.pinnedSlots.trans h.pinnedSlots, h'.eidToPinned.trans h.eidToPinned⟩

theorem placeTier_retiered (t e : ℕ) (s : MoeExpertSlot) : Retiered L (L.placeTier t e s) t s :=
  ⟨rfl, rfl, rfl, rfl, rfl, rfl, rfl⟩

theorem tierRelease_retiered (t e : ℕ) : Retiered L ((L.mapTier e none).tierRelease t) t
    { L.tierSlots t with dev := none, eid := none, lastUsed := 0 } :=
  ⟨rfl, rfl, rfl, rfl, rfl, rfl, rfl⟩

/-- A tier slot that is not in use is refilled. -/
theorem Retiered.takes {t : ℕ} {s : MoeExpertSlot} (h : Retiered L L' t s)
    (huse : (L.tierSlots t).inuse = 0) (hs : s.inuse = 0) : Takes L L' none := by
  obtain ⟨-, hlru, -, htier, -, hp, -⟩ := h
  refine .of_slots (fun r => ?_) fun r hr => ?_
  · cases r with
    | pinned p => simp only [slot, hp]
    | lru i => simp only [slot, hlru]
    | tier k =>
      simp only [slot, htier, Function.update_apply]
      split_ifs with hk
      · rw [hk, huse, hs]
      · rfl
  · cases r with
    | pinned p => simp only [slot, hp]; exact .refl _
    | lru i => simp only [slot, hlru]; exact .refl _
    | tier k =>
      have hk : k ≠ t := by
        rintro rfl
        simp only [slot, huse, Nat.lt_irrefl] at hr
      simp only [slot, htier, Function.update_of_ne hk]
      exact .refl _

variable {L₀ : MoeStreamLayer}

/-- A tier slot is emptied, or given an expert that was there. -/
theorem Tame.retier {new : Option (ℕ × ℕ)} (h : Tame L₀ L new) {t : ℕ} {s : MoeExpertSlot}
    (hre : Retiered L L' t s) (hs : ∀ e, s.eid = some e → L₀.Resident e) : Tame L₀ L' new where
  nLru := h.nLru.trans hre.nLru.ge
  tierCap := hre.tierCap.trans h.tierCap
  wakes := fun i hi hr => by
    rw [hre.lruSlots] at hr ⊢
    exact h.wakes i (hre.nLru ▸ hi) hr
  resident := fun e hres => by
    rcases hres with ⟨k, hk, hke⟩ | ⟨k, hk, hke⟩
    · rw [hre.lruSlots] at hke
      exact h.resident e (Or.inl ⟨k, hre.nLru ▸ hk, hke⟩)
    · rw [hre.tierSlots, Function.update_apply] at hke
      split_ifs at hke with hkt
      · exact Or.inr (hs e hke)
      · exact h.resident e (Or.inr ⟨k, hre.tierCap ▸ hk, hke⟩)
  nPinned := hre.nPinned.trans h.nPinned
  eidToPinned := hre.eidToPinned.trans h.eidToPinned
  pinned := fun p => by rw [hre.pinnedSlots]; exact h.pinned p

/-- The slot just given out is filled or emptied under the same lock. -/
theorem Tame.fill {i e : ℕ} (h : Tame L₀ L (some (i, e))) (he : L₀.Resident e)
    (hn : L'.nLru = L.nLru) (hs : ∀ k ≠ i, L'.lruSlots k = L.lruSlots k) (hsame : SameOthers L L')
    (hr : (L'.lruSlots i).ioReady = true)
    (hse : ∀ e', (L'.lruSlots i).eid = some e' → e' = e) : Tame L₀ L' none where
  nLru := h.nLru.trans hn.ge
  tierCap := hsame.tierCap.trans h.tierCap
  wakes := fun k hk hkr => by
    rcases eq_or_ne k i with rfl | hki
    · cases hr.symm.trans hkr
    · rw [hs k hki] at hkr ⊢
      rcases h.wakes k (hn ▸ hk) hkr with ⟨e', he'⟩ | hold
      · exact absurd (congrArg Prod.fst (Option.some.inj he')).symm hki
      · exact Or.inr hold
  resident := fun e' hres => by
    have hold : L.Resident e' → L₀.Resident e' := by
      intro hold
      rcases h.resident e' hold with ⟨k, hk⟩ | hold
      · obtain rfl : e = e' := congrArg Prod.snd (Option.some.inj hk)
        exact he
      · exact hold
    rcases hres with ⟨k, hk, hke⟩ | ⟨t, ht, hte⟩
    · rcases eq_or_ne k i with rfl | hki
      · rw [hse e' hke]
        exact Or.inr he
      · rw [hs k hki] at hke
        exact Or.inr (hold (Or.inl ⟨k, hn ▸ hk, hke⟩))
    · rw [hsame.tierCap] at ht
      rw [hsame.tierSlots] at hte
      exact Or.inr (hold (Or.inr ⟨t, ht, hte⟩))
  nPinned := hsame.nPinned.trans h.nPinned
  eidToPinned := hsame.eidToPinned.trans h.eidToPinned
  pinned := fun p => by rw [hsame.pinnedSlots]; exact h.pinned p

theorem Tame.refl (L : MoeStreamLayer) : Tame L L none := (Read.refl L).tame

/-- No tier slot without an expert is in use. -/
def FreeIdle (L : MoeStreamLayer) : Prop :=
  ∀ t < L.tierCap, (L.tierSlots t).eid = none → (L.tierSlots t).inuse = 0

section

variable (hT : Tables L none)
include hT

theorem lruSlotClear_slots {i : ℕ} (hi : i < L.nLru) (hready : (L.lruSlots i).ioReady = true)
    (huse : (L.lruSlots i).inuse = 0) (clock : UInt64) :
    Takes L (L.lruSlotClear i clock) none ∧ Tame L (L.lruSlotClear i clock) none := by
  obtain ⟨-, -, hsame⟩ := lruSlotClear_tables hT hi huse clock
  have hslots : ∀ k ≠ i, (L.lruSlotClear i clock).lruSlots k = L.lruSlots k :=
    fun k hk => Function.update_of_ne hk _ _
  have hat : (L.lruSlotClear i clock).lruSlots i = cleared (L.lruSlots i) := Function.update_self ..
  refine ⟨.of_lru hslots hsame huse (by rw [hat]; exact huse), .slot rfl hslots hsame (fun hr => ?_)
    fun e he => ?_⟩
  · rw [hat] at hr
    cases hready.symm.trans hr
  · rw [hat] at he
    cases he

theorem lruSlotRefill_slots {i e : ℕ} (hi : i < L.nLru) (hready : (L.lruSlots i).ioReady = true)
    (huse : (L.lruSlots i).inuse = 0) (hres : L.Resident e) (copied : Bool) (clock : UInt64) :
    Takes L (L.lruSlotRefill i e copied clock) none ∧
      Tame L (L.lruSlotRefill i e copied clock) none := by
  cases copied with
  | false => exact lruSlotClear_slots hT hi hready huse clock
  | true =>
    have heq : ∃ h f d, L.lruSlotRefill i e true clock =
        (((L.lruSlotClear i clock).setLru i { (L.lruSlots i).fromExpertDesc e with
          heapBuf := some e, lastUsed := clock, ioReady := true }).mapLru e (some i)).rekeyed h f d :=
      ⟨_, _, _, rfl⟩
    obtain ⟨h, f, d, heq⟩ := heq
    obtain ⟨-, -, hclear⟩ := lruSlotClear_tables hT hi huse clock
    have hcleared : (L.lruSlotClear i clock).lruSlots =
        Function.update L.lruSlots i (cleared (L.lruSlots i)) := rfl
    have hn : (L.lruSlotClear i clock).nLru = L.nLru := rfl
    rw [heq]
    generalize L.lruSlotClear i clock = L' at hclear hcleared hn ⊢
    have hsame : SameOthers L ((((L'.setLru i { (L.lruSlots i).fromExpertDesc e with
        heapBuf := some e, lastUsed := clock, ioReady := true }).mapLru e (some i)).rekeyed h f d)) :=
      ⟨hclear.tierCap, hclear.tierSlots, hclear.eidToTier, hclear.nPinned, hclear.pinnedSlots,
        hclear.eidToPinned⟩
    have hslots : ((((L'.setLru i { (L.lruSlots i).fromExpertDesc e with
        heapBuf := some e, lastUsed := clock, ioReady := true }).mapLru e (some i)).rekeyed
          h f d)).lruSlots = Function.update L.lruSlots i { (L.lruSlots i).fromExpertDesc e with
            heapBuf := some e, lastUsed := clock, ioReady := true } := by
      simp only [MoeStreamLayer.rekeyed, mapLru, setLru, hcleared, Function.update_idem]
    refine ⟨.of_lru (i := i) (fun k hk => ?_) hsame huse ?_,
      .slot (i := i) hn (fun k hk => ?_) hsame (fun hr => ?_) fun e' he => ?_⟩
    · rw [hslots, Function.update_of_ne hk]
    · rw [hslots, Function.update_self]
      exact huse
    · rw [hslots, Function.update_of_ne hk]
    · rw [hslots, Function.update_self] at hr
      cases hr
    · rw [hslots, Function.update_self] at he
      obtain rfl : e = e' := Option.some.inj he
      exact Or.inr hres

theorem tierPromote_slots {i : ℕ} (hi : i < L.nLru) (hmove : (L.lruSlots i).movable = true)
    {victim : Option ℕ}
    (hvictim : ∀ v ∈ victim, v < L.tierCap ∧ (L.tierSlots v).movable = true)
    (uploaded copied : Bool) (clock : UInt64) :
    Tame L (L.tierPromote i victim uploaded copied clock) none ∧
      (L.FreeIdle → Takes L (L.tierPromote i victim uploaded copied clock) none) := by
  have hstay : Tame L L none ∧ (L.FreeIdle → Takes L L none) := ⟨.refl L, fun _ => .refl L⟩
  simp only [MoeExpertSlot.movable, Bool.and_eq_true, beq_iff_eq] at hmove
  obtain ⟨⟨-, hready⟩, huse⟩ := hmove
  unfold tierPromote
  cases he : (L.lruSlots i).eid with
  | none => exact hstay
  | some e =>
    have hplaced : ∀ e', (tierUpload (L.lruSlots i) e).eid = some e' → L.Resident e' := by
      intro e' he'
      obtain rfl : e = e' := Option.some.inj he'
      exact Or.inl ⟨i, hi, he⟩
    dsimp only
    split
    · rename_i dst hfree
      have hdst : dst < L.tierCap ∧ (L.tierSlots dst).eid = none := by
        have hmem := List.mem_of_find?_eq_some hfree
        have hnone := List.find?_some hfree
        exact ⟨List.mem_range.mp hmem, by simpa using hnone⟩
      cases uploaded with
      | false => exact hstay
      | true =>
        obtain ⟨htakes, htame⟩ := lruSlotClear_slots hT hi hready huse clock
        have hre := placeTier_retiered (L := L.lruSlotClear i clock) dst e
          (tierUpload (L.lruSlots i) e)
        exact ⟨htame.retier hre hplaced, fun hidle =>
          htakes.trans (hre.takes (hidle dst hdst.1 hdst.2) rfl)⟩
    · rename_i v hv
      obtain ⟨hvlt, hvmove⟩ := hvictim v rfl
      simp only [MoeExpertSlot.movable, Bool.and_eq_true, beq_iff_eq] at hvmove
      obtain ⟨-, hvuse⟩ := hvmove
      cases hve : (L.tierSlots v).eid with
      | none => exact hstay
      | some ve =>
        cases uploaded with
        | false => exact hstay
        | true =>
          obtain ⟨htakes, htame⟩ := lruSlotRefill_slots hT hi hready huse
            (Or.inr ⟨v, hvlt, hve⟩) copied clock
          cases copied with
          | false => exact ⟨htame, fun _ => htakes⟩
          | true =>
            simp only [if_true]
            have huse' := htakes.use (.tier v)
            simp only [slot, if_neg (Option.some_ne_none _).symm, Nat.add_zero, hvuse] at huse'
            generalize L.lruSlotRefill i ve true clock = L' at htakes htame huse' ⊢
            have hre := (tierRelease_retiered (L := L') v ve).trans
              (placeTier_retiered v e (tierUpload (L.lruSlots i) e))
            exact ⟨htame.retier hre hplaced, fun _ => htakes.trans (hre.takes huse' rfl)⟩
    · exact hstay

theorem tierDemote_slots (hH : HeapWf L) {t : ℕ} (ht : t < L.tierCap)
    (hmove : (L.tierSlots t).movable = true) (copied : Bool) (clock : UInt64) :
    Tame L (L.tierDemote t copied clock) none ∧ Takes L (L.tierDemote t copied clock) none := by
  simp only [MoeExpertSlot.movable, Bool.and_eq_true, beq_iff_eq] at hmove
  obtain ⟨-, htuse⟩ := hmove
  unfold tierDemote
  cases he : (L.tierSlots t).eid with
  | none => exact ⟨.refl L, .refl L⟩
  | some e =>
    have hres : L.Resident e := Or.inr ⟨t, ht, he⟩
    have htier := hT.tierOwn t ht e he
    have hlru : L.eidToLru e = none := by
      cases hl : L.eidToLru e with
      | none => rfl
      | some k =>
        have hno := (hT.apart e k hl).resolve_right (by simp)
        cases htier.symm.trans hno
    obtain ⟨-, hprog, hsame, hnew⟩ :=
      layerInsertLru_tables hH (hT.moving (some e)) hlru (Or.inr rfl) clock
    obtain ⟨hnone, hsome⟩ := layerInsertLru_slots hH hT e clock
    dsimp only
    generalize L.layerInsertLru e clock = out at hprog hsame hnew hnone hsome ⊢
    obtain ⟨L', i⟩ := out
    cases i with
    | none =>
      obtain ⟨hread, htakes⟩ := hnone rfl
      exact ⟨hread.tame, htakes⟩
    | some i =>
      obtain ⟨huse, hslots, hlt⟩ := hsome i rfl
      have hslot := hnew i rfl
      have htame := (Inserted.mk hslot hsame hslots hprog.nLru hlt).tame
      have htakes : Takes L L' none := .of_lru hslots hsame huse hslot.inuse
      cases copied with
      | true =>
        have hfill : Tame L (L'.setLru i { (L'.lruSlots i).fromExpertDesc e with
            heapBuf := some e, ioReady := true }) none := by
          refine htame.fill hres rfl (fun k hk => Function.update_of_ne hk _ _)
            ⟨rfl, rfl, rfl, rfl, rfl, rfl⟩ (congrArg _ (Function.update_self ..)) fun e' he' => ?_
          have hat : (some e : Option ℕ) = some e' :=
            (congrArg MoeExpertSlot.eid (Function.update_self ..)).symm.trans he'
          exact (Option.some.inj hat).symm
        have hset : Takes L' (L'.setLru i { (L'.lruSlots i).fromExpertDesc e with
            heapBuf := some e, ioReady := true }) none :=
          .of_lru (i := i) (fun k hk => Function.update_of_ne hk _ _) ⟨rfl, rfl, rfl, rfl, rfl, rfl⟩
            hslot.inuse ((congrArg _ (Function.update_self ..)).trans hslot.inuse)
        have htuse' : (L'.tierSlots t).inuse = 0 := by
          rw [hsame.tierSlots]
          exact htuse
        have hre := tierRelease_retiered (L := L'.setLru i { (L'.lruSlots i).fromExpertDesc e with
          heapBuf := some e, ioReady := true }) t e
        refine ⟨hfill.retier hre fun e' he' => ?_,
          (htakes.trans hset).trans (hre.takes htuse' htuse')⟩
        cases he'
      | false =>
        simp only [Bool.false_eq_true, if_false]
        have hat : ((L'.lruSlotClear i clock).setLru i
            { (L'.lruSlotClear i clock).lruSlots i with ioReady := true }).lruSlots i =
            { cleared (L'.lruSlots i) with ioReady := true } := by
          have hclear : (L'.lruSlotClear i clock).lruSlots i = cleared (L'.lruSlots i) :=
            Function.update_self ..
          simp only [setLru, Function.update_self, hclear]
        have hothers : ∀ k ≠ i, ((L'.lruSlotClear i clock).setLru i
            { (L'.lruSlotClear i clock).lruSlots i with ioReady := true }).lruSlots k =
            L'.lruSlots k := fun k hk =>
          (Function.update_of_ne hk _ _).trans (Function.update_of_ne hk _ _)
        refine ⟨htame.fill hres rfl hothers ⟨rfl, rfl, rfl, rfl, rfl, rfl⟩ (by rw [hat])
          (fun e' he' => ?_), htakes.trans (.of_lru hothers ⟨rfl, rfl, rfl, rfl, rfl, rfl⟩
            hslot.inuse (by rw [hat]; exact hslot.inuse))⟩
        rw [hat] at he'
        cases he'

end

/-! ### Misses -/

/-- An LRU slot is made ready, for the expert it was given to or for none. -/
theorem Tame.of_ready {i : ℕ} {s : MoeExpertSlot} (hi : i < L.nLru) (hn : L'.nLru = L.nLru)
    (hs : L'.lruSlots = Function.update L.lruSlots i s) (hsame : SameOthers L L')
    (hr : s.ioReady = true) (he : ∀ e, s.eid = some e → (L.lruSlots i).eid = some e) :
    Tame L L' none := by
  have hat : L'.lruSlots i = s := by rw [hs, Function.update_self]
  refine .slot (i := i) hn (fun k hk => by rw [hs, Function.update_of_ne hk]) hsame (fun hno => ?_)
    fun e he' => ?_
  · rw [hat, hr] at hno
    cases hno
  · rw [hat] at he'
    exact Or.inr (Or.inl ⟨i, hi, he e he'⟩)

/-- An LRU slot that was not in use is filled and taken. -/
theorem Takes.of_taken {i : ℕ} {s : MoeExpertSlot}
    (hs : L'.lruSlots = Function.update L.lruSlots i s) (hsame : SameOthers L L')
    (huse : (L.lruSlots i).inuse = 0) (hs1 : s.inuse = 1) : Takes L L' (some (.lru i)) := by
  refine ⟨fun r => ?_, fun r hr => ?_⟩
  · cases r with
    | pinned p => simp [slot, hsame.pinnedSlots]
    | tier t => simp [slot, hsame.tierSlots]
    | lru k =>
      simp only [slot, hs]
      rcases eq_or_ne k i with rfl | hki
      · rw [Function.update_self, if_pos rfl, huse, hs1]
      · rw [Function.update_of_ne hki, if_neg fun h => hki (SlotRef.lru.inj (Option.some.inj h)).symm,
          Nat.add_zero]
  · cases r with
    | pinned p => simp only [slot, hsame.pinnedSlots]; exact .refl _
    | tier t => simp only [slot, hsame.tierSlots]; exact .refl _
    | lru k =>
      have hki : k ≠ i := by
        rintro rfl
        simp only [slot, huse, Nat.lt_irrefl] at hr
      simp only [slot, hs, Function.update_of_ne hki]
      exact .refl _

/-- A commit that comes too late changes nothing. -/
theorem missCommit_late {me : MoeMissEntry}
    (hlate : ∀ i, me.slot = some i → (L.lruSlots i).gen ≠ me.gen) (fetched : Bool) :
    L.missCommit me fetched = L ∧ (MoeCall.commitOut L me fetched).held = none := by
  unfold missCommit MoeCall.commitOut
  cases hslot : me.slot with
  | none =>
    refine ⟨rfl, ?_⟩
    split_ifs
    · rfl
    · rfl
  | some i =>
    simp only [hlate i hslot, false_and, if_false, true_and]
    split_ifs
    · rfl
    · rfl

/-- A commit in time makes its slot ready, and takes it if the expert was fetched. -/
theorem missCommit_inTime (hT : Tables L none) {me : MoeMissEntry} {i : ℕ} (hslot : me.slot = some i)
    (hm : MissOk L me i) (hg : (L.lruSlots i).gen = me.gen) (fetched : Bool) :
    ∃ s : MoeExpertSlot, (L.missCommit me fetched).lruSlots = Function.update L.lruSlots i s ∧
      (L.missCommit me fetched).nLru = L.nLru ∧ SameOthers L (L.missCommit me fetched) ∧
      s.ioReady = true ∧ (L.lruSlots i).inuse = 0 ∧
      if fetched then
        s = { me.tmp with heapBuf := me.tmp.eid, ioReady := true, inuse := me.tmp.inuse + 1 } ∧
          MoeCall.commitOut L me fetched = ⟨{ me.tmp with heapBuf := me.tmp.eid, ioReady := true },
            false, some (.lru i)⟩
      else s.eid = none ∧ s.inuse = 0 ∧ MoeCall.commitOut L me fetched = .invalid := by
  obtain ⟨hr, -⟩ := hm.waits hg
  have huse := hT.idle i hm.lt hr
  have hpin := hT.unpinned i hm.lt
  unfold missCommit MoeCall.commitOut
  simp only [hslot, hg, huse, true_and, if_true]
  cases fetched with
  | true => exact ⟨_, rfl, rfl, ⟨rfl, rfl, rfl, rfl, rfl, rfl⟩, rfl, rfl, rfl⟩
  | false =>
    simp only [Bool.false_eq_true, if_false, hpin, hm.lt, if_true]
    refine ⟨_, Function.update_idem .., rfl, ⟨rfl, rfl, rfl, rfl, rfl, rfl⟩, rfl, ?_⟩
    simp [setLru]

/-- What a commit does to slots in use, and that its slot is ready after it if it was waiting. -/
theorem missCommit_slots (hT : Tables L none) {me : MoeMissEntry}
    (hm : ∀ i, me.slot = some i → MissOk L me i) (htmp : me.tmp.inuse = 0) (fetched : Bool) :
    Tame L (L.missCommit me fetched) none ∧
      Takes L (L.missCommit me fetched) (MoeCall.commitOut L me fetched).held ∧
      ∀ i, me.slot = some i → (L.lruSlots i).gen = me.gen →
        ((L.missCommit me fetched).lruSlots i).ioReady = true := by
  by_cases hin : ∃ i, me.slot = some i ∧ (L.lruSlots i).gen = me.gen
  · obtain ⟨i, hslot, hg⟩ := hin
    have hmi := hm i hslot
    obtain ⟨s, hs, hn, hsame, hr, huse, hout⟩ := missCommit_inTime hT hslot hmi hg fetched
    have he : ∀ e, s.eid = some e → (L.lruSlots i).eid = some e := by
      intro e he
      cases fetched with
      | true =>
        rw [if_pos rfl] at hout
        rw [hout.1] at he
        rw [(hmi.waits hg).2, ← hmi.tmpEid]
        exact he
      | false =>
        rw [if_neg (by simp)] at hout
        rw [hout.1] at he
        cases he
    refine ⟨.of_ready hmi.lt hn hs hsame hr he, ?_, fun k hk _ => ?_⟩
    · cases fetched with
      | true =>
        rw [if_pos rfl] at hout
        rw [hout.2]
        exact .of_taken hs hsame huse (by rw [hout.1, htmp])
      | false =>
        rw [if_neg (by simp)] at hout
        rw [hout.2.2]
        refine .of_lru (i := i) (fun k hk => ?_) hsame huse ?_
        · rw [hs, Function.update_of_ne hk]
        · rw [hs, Function.update_self, hout.2.1]
    · obtain rfl : i = k := Option.some.inj (hslot.symm.trans hk)
      rw [hs, Function.update_self, hr]
  · have hlate : ∀ i, me.slot = some i → (L.lruSlots i).gen ≠ me.gen :=
      fun i hi hg => hin ⟨i, hi, hg⟩
    obtain ⟨heq, hheld⟩ := missCommit_late hlate fetched
    rw [heq, hheld]
    exact ⟨.refl L, .refl L, fun i hi hg => absurd ⟨i, hi, hg⟩ hin⟩

/-- A released slot stays as it is but for its count. -/
theorem release_read (e : ℕ) : Read L (L.release e) ∧ ∀ r, ((L.release e).slot r).inuse =
    if L.liveSlotFind e = some r then (L.slot r).inuse - 1 else (L.slot r).inuse := by
  unfold release
  cases hf : L.liveSlotFind e with
  | none => exact ⟨.refl L, fun r => by rw [if_neg (by simp)]⟩
  | some r =>
    refine ⟨setSlot_read ⟨rfl, rfl, rfl, rfl, rfl⟩, fun r' => ?_⟩
    rw [slot_setSlot]
    by_cases hr : r' = r
    · rw [if_pos hr, if_pos (by rw [hr]), hr]
    · rw [if_neg hr, if_neg fun h => hr (Option.some.inj h).symm]

end MoeStreamLayer

end Kappai
