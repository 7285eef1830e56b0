import Kappai.Lib.Loop
import Kappai.Sanity.MoeOrder

/-! Which slot a full cache gives up. The heap stays in the order of frequency and recency in a run
whose every step compares scores that agree with it, and then the victim is the oldest slot not in
use. -/

namespace Kappai

namespace MoeStreamLayer

variable {L : MoeStreamLayer} {now : UInt64}

/-- What is written to a slot but its time of use is not seen by the heap. -/
theorem InOrder.setSlot (h : L.InOrder) {r : SlotRef} {s : MoeExpertSlot}
    (hs : s.lastUsed = (L.slot r).lastUsed) : (L.setSlot s r).InOrder := by
  refine h.same ?_
  cases r with
  | pinned i => exact ⟨rfl, rfl, rfl, fun _ => rfl⟩
  | tier i => exact ⟨rfl, rfl, rfl, fun _ => rfl⟩
  | lru i =>
    refine ⟨rfl, rfl, rfl, fun j => ?_⟩
    by_cases hj : j = i
    · subst hj
      change (L.lruFreq j).toNat * 2 ^ 64 + (Function.update L.lruSlots j s j).lastUsed.toNat = _
      rw [Function.update_self, hs]
      rfl
    · change (L.lruFreq j).toNat * 2 ^ 64 + (Function.update L.lruSlots i s j).lastUsed.toNat = _
      rw [Function.update_of_ne hj]
      rfl

theorem InOrder.setLru (h : L.InOrder) {i : ℕ} {s : MoeExpertSlot}
    (hs : s.lastUsed = (L.lruSlots i).lastUsed) : (L.setLru i s).InOrder :=
  h.setSlot (r := .lru i) hs

/-- A found LRU slot moves to where its new use puts it. -/
theorem InOrder.accessing (h : L.InOrder) {i : ℕ} (hi : i < L.nLru)
    (ha : (L.accessing i now).Agrees now) : ((L.accessing i now).heapTouch i now).InOrder :=
  h.touched _ hi rfl rfl rfl (fun _ hj => rank_setFreq_of_ne hj _ _) ha

theorem InOrder.lruSlotClear (h : L.InOrder) {i : ℕ} (hi : i < L.nLru)
    (ha : (L.clearing i).Agrees now) : (L.lruSlotClear i now).InOrder :=
  h.touched (L.clearing i) hi rfl rfl rfl
    (fun _ hj => rank_setFreq_of_ne (L := L.unmapLru i) hj _ _) ha

theorem InOrder.lruSlotRefill (h : L.InOrder) {i : ℕ} (e : ℕ) (copied : Bool) (hi : i < L.nLru)
    (hc : (L.clearing i).Agrees now) (hr : copied → (L.refilling i e now).Agrees now) :
    (L.lruSlotRefill i e copied now).InOrder := by
  have hclear := h.lruSlotClear hi hc
  cases copied with
  | false => exact hclear
  | true =>
    exact hclear.touched (L.refilling i e now) (i := i) hi rfl rfl rfl
      (fun _ hj => rank_setFreq_of_ne (L := L.lruSlotClear i now) hj _ _) (hr rfl)

/-- The scores that an operation compares agree with the order, and a commit writes back the time
of use it finds. -/
def inStep (L : MoeStreamLayer) (misses : List MoeMissEntry) : MoeOp → Bool
  | .lookup e now =>
    match L.liveSlotFind e with
    | some (.lru i) => (L.accessing i now).Agrees now
    | _ => true
  | .miss e now => L.liveSlotFind e = none → L.InsertsInOrder e now
  | .commit k fetched =>
    match misses[k]? with
    | some me =>
      match me.slot with
      | some i =>
        fetched ∧ (L.lruSlots i).gen = me.gen ∧ (L.lruSlots i).inuse = 0 →
          me.tmp.lastUsed = (L.lruSlots i).lastUsed
      | none => true
    | none => true
  | .release _ => true
  | .evict i clock => (L.clearing i).Agrees clock
  | .promote i victim uploaded copied clock =>
    match uploaded, L.tierFreeIndex, victim with
    | true, some _, _ => (L.clearing i).Agrees clock
    | true, none, some v =>
      (L.clearing i).Agrees clock ∧
        (copied → ∀ e ∈ (L.tierSlots v).eid, (L.refilling i e clock).Agrees clock)
    | _, _, _ => true
  | .demote t copied clock =>
    match (L.tierSlots t).eid with
    | none => true
    | some e =>
      L.InsertsInOrder e clock ∧
        (copied = false → ∀ i ∈ (L.layerInsertLru e clock).2,
          ((L.layerInsertLru e clock).1.clearing i).Agrees clock)

theorem InOrder.takeReady (h : L.InOrder) {e : ℕ} {misses : List MoeMissEntry}
    (hs : L.inStep misses (.lookup e now) = true) : (L.takeReady e now).InOrder := by
  have hfind : (L.layerFind e now).1.InOrder := by
    unfold layerFind
    simp only [inStep] at hs
    cases hr : L.liveSlotFind e with
    | none => exact h
    | some r =>
      rw [hr] at hs
      cases r with
      | pinned i => exact h.same ⟨rfl, rfl, rfl, fun _ => rfl⟩
      | tier i => exact h.same ⟨rfl, rfl, rfl, fun _ => rfl⟩
      | lru i => exact h.accessing (liveSlotFind_lru hr) (of_decide_eq_true hs)
  unfold MoeStreamLayer.takeReady
  generalize L.layerFind e now = out at hfind ⊢
  obtain ⟨L', r⟩ := out
  cases r with
  | none => exact hfind
  | some r =>
    dsimp only
    split_ifs
    · exact hfind.setSlot rfl
    · exact hfind

theorem InOrder.release (h : L.InOrder) (e : ℕ) : (L.release e).InOrder := by
  unfold MoeStreamLayer.release
  split
  · exact h.setSlot rfl
  · exact h

theorem InOrder.missCommit (h : L.InOrder) {me : MoeMissEntry} {fetched : Bool}
    (hs : ∀ i ∈ me.slot, fetched = true ∧ (L.lruSlots i).gen = me.gen ∧ (L.lruSlots i).inuse = 0 →
      me.tmp.lastUsed = (L.lruSlots i).lastUsed) : (L.missCommit me fetched).InOrder := by
  unfold MoeStreamLayer.missCommit
  split
  · exact h
  · rename_i i hslot
    dsimp only
    have hunmap : (L.unmapLru i).InOrder := h.same ⟨rfl, rfl, rfl, fun _ => rfl⟩
    split_ifs with hgen hf huse huse hpin hlt
    · exact h.setLru (hs i hslot ⟨hf, hgen, huse⟩)
    · exact h
    · refine InOrder.setLru ?_ rfl
      exact InOrder.setLru h rfl
    · refine InOrder.setLru ?_ rfl
      exact InOrder.setLru hunmap rfl
    · refine InOrder.setLru ?_ rfl
      exact InOrder.setLru h rfl
    · exact InOrder.setLru h rfl
    · exact h

theorem InOrder.placeTier (h : L.InOrder) (t e : ℕ) (s : MoeExpertSlot) :
    (L.placeTier t e s).InOrder := h.same ⟨rfl, rfl, rfl, fun _ => rfl⟩

theorem InOrder.tierRelease (h : L.InOrder) (e t : ℕ) :
    ((L.mapTier e none).tierRelease t).InOrder := h.same ⟨rfl, rfl, rfl, fun _ => rfl⟩

theorem InOrder.tierPromote (h : L.InOrder) {i : ℕ} (hi : i < L.nLru) {victim : Option ℕ}
    {uploaded copied : Bool} {misses : List MoeMissEntry}
    (hs : L.inStep misses (.promote i victim uploaded copied now) = true) :
    (L.tierPromote i victim uploaded copied now).InOrder := by
  unfold MoeStreamLayer.tierPromote
  cases (L.lruSlots i).eid with
  | none => exact h
  | some e =>
    cases uploaded with
    | false =>
      dsimp only
      split
      · exact h
      · split <;> exact h
      · exact h
    | true =>
      simp only [inStep] at hs
      cases hfree : L.tierFreeIndex with
      | some dst =>
        rw [hfree] at hs
        exact (h.lruSlotClear hi (of_decide_eq_true hs)).placeTier _ _ _
      | none =>
        cases victim with
        | none => exact h
        | some v =>
          rw [hfree] at hs
          obtain ⟨hc, hr⟩ := of_decide_eq_true hs
          dsimp only
          cases hve : (L.tierSlots v).eid with
          | none => exact h
          | some ve =>
            have hre := h.lruSlotRefill ve copied hi hc fun hcop => hr hcop ve hve
            cases copied with
            | false => exact hre
            | true => exact (hre.tierRelease ve v).placeTier _ _ _

theorem layerInsertLru_lt (hL : L.HeapWf) (e : ℕ) (now : UInt64) :
    ∀ i ∈ (L.layerInsertLru e now).2, i < (L.layerInsertLru e now).1.nLru := by
  intro i hi
  rcases layerInsertLru_spec hL e now with ⟨_, heq, -⟩ | ⟨_, _, _, heq, -⟩ |
    ⟨j, hj, -, _, _, _, heq, -⟩
  · rw [heq] at hi
    cases hi
  · rw [heq] at hi ⊢
    obtain rfl := Option.some.inj hi
    exact Nat.lt_succ_self _
  · rw [heq] at hi ⊢
    obtain rfl := Option.some.inj hi
    exact hj

theorem InOrder.tierDemote (h : L.InOrder) {t : ℕ} {copied : Bool} {misses : List MoeMissEntry}
    (hs : L.inStep misses (.demote t copied now) = true) : (L.tierDemote t copied now).InOrder := by
  unfold MoeStreamLayer.tierDemote
  simp only [inStep] at hs
  cases he : (L.tierSlots t).eid with
  | none => exact h
  | some e =>
    rw [he] at hs
    obtain ⟨hins, hclear⟩ := of_decide_eq_true hs
    have hin := h.layerInsertLru hins
    have hlt : ∀ i ∈ (L.layerInsertLru e now).2, i < (L.layerInsertLru e now).1.nLru :=
      layerInsertLru_lt h.wf e now
    dsimp only
    generalize L.layerInsertLru e now = out at hclear hin hlt ⊢
    obtain ⟨L', i⟩ := out
    cases i with
    | none => exact hin
    | some i =>
      cases copied with
      | true =>
        refine InOrder.tierRelease ?_ e t
        exact InOrder.setLru hin rfl
      | false => exact InOrder.setLru (hin.lruSlotClear (hlt i rfl) (hclear rfl i rfl)) rfl

end MoeStreamLayer

namespace MoeStream

def inStep (s : MoeStream) (op : MoeOp) : Bool := s.layer.inStep s.misses op

theorem inOrder_miss {s : MoeStream} (h : s.layer.InOrder) {e : ℕ} {now : UInt64}
    (hs : s.layer.InsertsInOrder e now) : (s.miss e now).layer.InOrder := by
  have hin := h.layerInsertLru hs
  unfold MoeStream.miss
  generalize s.layer.layerInsertLru e now = out at hin ⊢
  obtain ⟨L', i⟩ := out
  cases i with
  | none => exact hin
  | some i => exact MoeStreamLayer.InOrder.setLru hin rfl

theorem inOrder_apply {s : MoeStream} {op : MoeOp} (h : s.layer.InOrder) (hs : s.inStep op = true) :
    (s.apply op).layer.InOrder := by
  cases op with
  | lookup e now => exact h.takeReady hs
  | miss e now =>
    simp only [MoeStream.apply]
    split_ifs with hnone
    · exact inOrder_miss h (of_decide_eq_true hs hnone)
    · exact h
  | commit k fetched =>
    simp only [MoeStream.apply]
    cases hk : s.misses[k]? with
    | none => exact h
    | some me =>
      simp only [inStep, MoeStreamLayer.inStep, hk] at hs
      refine h.missCommit fun i hi => ?_
      rw [hi] at hs
      exact of_decide_eq_true hs
  | release e => exact h.release e
  | evict i clock =>
    simp only [MoeStream.apply]
    split_ifs with hif
    · exact h.lruSlotClear hif.1 (of_decide_eq_true hs)
    · exact h
  | promote i victim uploaded copied clock =>
    simp only [MoeStream.apply]
    split_ifs with hif
    · exact h.tierPromote hif.1 hs
    · exact h
  | demote t copied clock =>
    simp only [MoeStream.apply]
    split_ifs
    · exact h.tierDemote hs
    · exact h

theorem inOrder_init (lruCap tierCap : ℕ) (pins : List (ℕ × PinResult)) :
    (init lruCap tierCap pins).layer.InOrder :=
  ⟨MoeStreamLayer.HeapWf.init lruCap tierCap pins, fun _ _ hn => absurd hn (Nat.not_lt_zero _)⟩

end MoeStream

/-- Expert 5 is used twice before expert 6 is. -/
def usedInTurn : List MoeOp :=
  [.miss 5 1, .commit 0 true, .release 5, .lookup 5 2, .release 5,
    .miss 6 3, .commit 0 true, .release 6, .lookup 6 4, .release 6]

end Kappai
