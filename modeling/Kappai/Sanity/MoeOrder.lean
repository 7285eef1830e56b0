import Kappai.Lib.IndexHeap
import Kappai.Sanity.MoeTables
import Mathlib.Algebra.Order.Ring.Nat

/-! The eviction heap against the use of the slots. The heap is sifted by packed scores; it stays
in the order of frequency and recency as long as the scores compare like these. -/

namespace Kappai

namespace MoeStreamLayer

section Order

variable (L : MoeStreamLayer)

/-- Slot `i` was used less often than slot `j`, or as often and not as recently. -/
def older (i j : ℕ) : Prop :=
  L.lruFreq i < L.lruFreq j ∨
    L.lruFreq i = L.lruFreq j ∧ (L.lruSlots i).lastUsed < (L.lruSlots j).lastUsed

instance (i j : ℕ) : Decidable (L.older i j) := inferInstanceAs (Decidable (_ ∨ _))

/-- The scores at `now` tell every two slots apart that `older` does, and the same way round. -/
def Agrees (now : UInt64) : Prop :=
  ∀ i < L.nLru, ∀ j < L.nLru, L.older i j → L.key now i < L.key now j

instance (now : UInt64) : Decidable (L.Agrees now) :=
  inferInstanceAs (Decidable (∀ i < L.nLru, ∀ j < L.nLru, L.older i j → L.key now i < L.key now j))

/-- Frequency and recency in one number. -/
def rank (i : ℕ) : ℕ := (L.lruFreq i).toNat * 2 ^ 64 + (L.lruSlots i).lastUsed.toNat

theorem older_iff {i j : ℕ} : L.older i j ↔ L.rank i < L.rank j := by
  have hi := (L.lruSlots i).lastUsed.toNat_lt
  have hj := (L.lruSlots j).lastUsed.toNat_lt
  rw [older, rank, rank, UInt32.lt_iff_toNat_lt, UInt64.lt_iff_toNat_lt, ← UInt32.toNat_inj]
  omega

/-- The slots before the heap is touched: `i` has just been found, -/
def accessing (i : ℕ) (now : UInt64) : MoeStreamLayer :=
  let L' := L.setLru i { L.lruSlots i with lastUsed := now }
  L'.setFreq i (if L'.lruFreq i < 0xffffffff then L'.lruFreq i + 1 else L'.lruFreq i)

/-- has been given to expert `e`, -/
def filling (i e : ℕ) (now : UInt64) : MoeStreamLayer :=
  ((L.setLru i (filled (L.lruSlots i) e now)).mapLru e (some i)).setFreq i 1

/-- has been cleared, -/
def clearing (i : ℕ) : MoeStreamLayer :=
  let s := L.lruSlots i
  ((L.unmapLru i).setLru i { s with
    gen := s.gen + 1, dev := none, heapBuf := none, eid := none, lastUsed := 0 }).setFreq i 0

/-- or has been filled again after that. -/
def refilling (i e : ℕ) (clock : UInt64) : MoeStreamLayer :=
  let tmp := (L.lruSlots i).fromExpertDesc e
  (((L.lruSlotClear i clock).setLru i { tmp with
    heapBuf := some e, lastUsed := clock, ioReady := true }).mapLru e (some i)).setFreq i 1

/-- All frequencies halved, before the heap is touched. -/
def halving : MoeStreamLayer :=
  { L with
    decayCounter := 0
    lruFreq := fun i => if i < L.nLru then L.lruFreq i >>> 1 else L.lruFreq i }

/-- Halving makes no slot older than one it was not older than. -/
def HalvesInOrder : Prop :=
  ∀ i < L.nLru, ∀ j < L.nLru, ¬L.older j i → ¬L.halving.older j i

instance : Decidable L.HalvesInOrder :=
  inferInstanceAs (Decidable (∀ i < L.nLru, ∀ j < L.nLru, ¬L.older j i → ¬L.halving.older j i))

/-- The scores agree when slot `i` is filled and, if this is the turn, after the halving, which
turns nothing round. -/
def FillsInOrder (i e : ℕ) (now : UInt64) : Prop :=
  (L.filling i e now).Agrees now ∧
    (lfruDecayInterval ≤ L.decayCounter + 1 →
      (L.filling i e now).HalvesInOrder ∧ (L.filling i e now).halving.Agrees now)

instance (i e : ℕ) (now : UInt64) : Decidable (L.FillsInOrder i e now) :=
  inferInstanceAs (Decidable (_ ∧ (_ → _)))

/-- The scores agree during an insertion, and the oldest slot of a full cache is free to go
unless all are in use: a slot in use that is skipped comes back above the victim, which then
leaves from the middle of the heap. -/
def InsertsInOrder (e : ℕ) (now : UInt64) : Prop :=
  (L.nLru < L.lruCap → { L with nLru := L.nLru + 1 }.Agrees now ∧
      { L with nLru := L.nLru + 1 }.FillsInOrder L.nLru e now) ∧
    (L.lruCap ≤ L.nLru → L.Agrees now ∧
      ((∀ i < L.nLru, 0 < (L.lruSlots i).inuse) ∨
        (L.lruSlots (L.heap.idx 0)).inuse = 0 ∧
          (L.dropVictim (L.heap.idx 0)).FillsInOrder (L.heap.idx 0) e now))

instance (e : ℕ) (now : UInt64) : Decidable (L.InsertsInOrder e now) :=
  inferInstanceAs (Decidable ((_ → _) ∧ (_ → _)))

/-- The heap holds the slots in the order of frequency and recency. -/
structure InOrder : Prop where
  wf : L.HeapWf
  ordered : L.heap.Ordered L.rank

end Order

variable {L L' : MoeStreamLayer} {now : UInt64}

/-- Where the scores agree they decide every comparison as `rank` would. -/
theorem Agrees.le_iff (ha : L.Agrees now) {i j : ℕ} (hi : i < L.nLru) (hj : j < L.nLru) :
    L.key now i ≤ L.key now j ↔ L.rank i ≤ L.rank j := by
  constructor
  · intro hle
    by_contra hlt
    have hkey := ha j hj i hi (L.older_iff.2 (Nat.lt_of_not_le hlt))
    exact absurd hle (Std.not_le.2 hkey)
  · intro hle
    rcases Nat.lt_or_eq_of_le hle with hlt | heq
    · exact Std.le_of_lt (ha i hi j hj (L.older_iff.2 hlt))
    · have hu := (L.lruSlots i).lastUsed.toNat_lt
      have hv := (L.lruSlots j).lastUsed.toNat_lt
      simp only [rank] at heq
      have hfreq : L.lruFreq i = L.lruFreq j := UInt32.toNat_inj.1 (by omega)
      have hused : (L.lruSlots i).lastUsed = (L.lruSlots j).lastUsed :=
        UInt64.toNat_inj.1 (by rw [hfreq] at heq; omega)
      rw [key, key, hfreq, hused]
      exact Std.le_refl _

theorem Agrees.ordered (ha : L.Agrees now) (hi : L.heap.Indexes {i | i < L.nLru})
    (ho : L.heap.Ordered L.rank) : L.heap.Ordered (L.key now) :=
  ho.of_le hi fun _ hi _ hj hle => (ha.le_iff hi hj).2 hle

theorem Agrees.inOrder {L : MoeStreamLayer} (now : UInt64) (ha : L.Agrees now) (hL : L.HeapWf) (ho : L.heap.Ordered (L.key now)) :
    L.InOrder :=
  ⟨hL, ho.of_le hL.indexes fun _ hi _ hj hle => (ha.le_iff hi hj).1 hle⟩

/-- What a change leaves alone that the heap does not see. -/
structure SameUse (L L' : MoeStreamLayer) : Prop where
  heap : L'.heap = L.heap
  nLru : L'.nLru = L.nLru
  lruCap : L'.lruCap = L.lruCap
  rank : ∀ j, L'.rank j = L.rank j

theorem InOrder.same (h : L.InOrder) (hs : SameUse L L') : L'.InOrder := by
  obtain ⟨hheap, hn, hcap, hrank⟩ := hs
  refine ⟨⟨by rw [hheap, hn]; exact h.wf.indexes, by rw [hheap, hn]; exact h.wf.count,
    by rw [hn, hcap]; exact h.wf.cap, by rw [hcap]; exact h.wf.capMax⟩, ?_⟩
  rw [hheap]
  intro q hq hlt
  rw [hrank, hrank]
  exact h.ordered q hq hlt

/-- One slot is used or cleared and then touched. -/
theorem InOrder.touched (L' : MoeStreamLayer) (h : L.InOrder) {i : ℕ} (hi : i < L.nLru) (hheap : L'.heap = L.heap)
    (hn : L'.nLru = L.nLru) (hcap : L'.lruCap = L.lruCap)
    (hrank : ∀ j, j ≠ i → L'.rank j = L.rank j) (ha : L'.Agrees now) :
    (L'.heapTouch i now).InOrder := by
  have hwf : L'.HeapWf := ⟨by rw [hheap, hn]; exact h.wf.indexes,
    by rw [hheap, hn]; exact h.wf.count, by rw [hn, hcap]; exact h.wf.cap,
    by rw [hcap]; exact h.wf.capMax⟩
  obtain ⟨p, hp, hidx, hpos⟩ := hwf.indexes.pos_eq (x := i) (by rw [hn]; exact hi)
  have hbut : L'.heap.OrderedBut L'.rank p := by
    have ho := h.ordered
    rw [← hheap] at ho
    exact ho.rekey hwf.indexes hrank hp hidx
  have hkey := (hbut.of_le hwf.indexes fun _ hi _ hj hle => (ha.le_iff hi hj).2 hle).touch hpos hp
  exact Agrees.inOrder (L := L'.heapTouch i now) now ha (hwf.touch i now) hkey

/-- A touch of a slot that is in place already. -/
theorem InOrder.heapTouch (h : L.InOrder) {i : ℕ} (hi : i < L.nLru) (ha : L.Agrees now) :
    (L.heapTouch i now).InOrder := h.touched L hi rfl rfl rfl (fun _ _ => rfl) ha

theorem InOrder.foldl_heapTouch (is : List ℕ) (his : ∀ i ∈ is, i < L.nLru) (h : L.InOrder)
    (ha : L.Agrees now) : (is.foldl (fun L i => L.heapTouch i now) L).InOrder := by
  induction is generalizing L with
  | nil => exact h
  | cons i is ih =>
    exact ih (fun j hj => his j (List.mem_cons_of_mem _ hj))
      (h.heapTouch (his i List.mem_cons_self) ha) ha

theorem InOrder.decay (h : L.InOrder) (hh : L.HalvesInOrder) (ha : L.halving.Agrees now) :
    (L.decay now).InOrder := by
  have hhalf : L.halving.InOrder := by
    refine ⟨⟨h.wf.indexes, h.wf.count, h.wf.cap, h.wf.capMax⟩, ?_⟩
    refine h.ordered.of_le h.wf.indexes fun i hi j hj hle => ?_
    have hturn := hh i hi j hj fun ho => absurd hle (Nat.not_le_of_lt (L.older_iff.1 ho))
    exact Nat.le_of_not_lt fun hlt => hturn (L.halving.older_iff.2 hlt)
  exact hhalf.foldl_heapTouch (List.range L.nLru) (fun i hi => List.mem_range.1 hi) ha

theorem rank_setFreq_of_ne {i j : ℕ} (hij : j ≠ i) (s : MoeExpertSlot) (f : UInt32) :
    ((L.setLru i s).setFreq i f).rank j = L.rank j := by
  simp only [rank, setFreq, setLru, Function.update_of_ne hij]

theorem InOrder.fillSlot (h : L.InOrder) {i e : ℕ} (hi : i < L.nLru)
    (hc : L.FillsInOrder i e now) : (L.fillSlot i e now).InOrder := by
  have htouch : ((L.filling i e now).heapTouch i now).InOrder :=
    h.touched _ hi rfl rfl rfl (fun j hj => rank_setFreq_of_ne (L := L) hj (filled (L.lruSlots i) e now) 1) hc.1
  unfold MoeStreamLayer.fillSlot
  dsimp only
  have hcount : ({ (L.filling i e now).heapTouch i now with
      decayCounter := L.decayCounter + 1 } : MoeStreamLayer).InOrder :=
    htouch.same ⟨rfl, rfl, rfl, fun _ => rfl⟩
  split_ifs with hdecay
  · obtain ⟨hhalves, hagrees⟩ := hc.2 hdecay
    exact hcount.decay hhalves hagrees
  · exact hcount

/-- The loop over the slots in use leaves the heap in order, and stops at its root. -/
theorem popInUse_ordered {κ : Type*} [LE κ] [LT κ] [Std.IsLinearPreorder κ]
    [Std.LawfulOrderLT κ] [DecidableLT κ] {key : ℕ → κ} (inuse : ℕ → Bool) (cap : ℕ)
    {h : IndexHeap} (requeue : List ℕ) (ho : h.Ordered key) :
    let out := popInUse key inuse cap h requeue
    out.1.Ordered key ∧ ∀ i ∈ out.2.2, 0 < out.1.n ∧ out.1.idx 0 = i := by
  induction h, requeue using popInUse.induct key inuse cap with
  | case1 h requeue hn huse ih =>
    rw [popInUse, dif_pos hn, if_pos huse]
    exact ih ho.dropRoot
  | case2 h requeue hn huse =>
    rw [popInUse, dif_pos hn, if_neg huse]
    exact ⟨ho, fun i hi => ⟨hn, Option.mem_some_iff.mp hi⟩⟩
  | case3 h requeue hn =>
    rw [popInUse, dif_neg hn]
    exact ⟨ho, fun i hi => by cases hi⟩

theorem key_dropVictim (i : ℕ) : (L.dropVictim i).key now = L.key now := by
  funext j
  by_cases hj : j = i
  · subst hj
    simp only [key, dropVictim, setLru, unmapLru, Function.update_self]
  · simp only [key, dropVictim, setLru, unmapLru, Function.update_of_ne hj]

theorem older_dropVictim (i : ℕ) : (L.dropVictim i).older = L.older := by
  have hused : ∀ k, ((L.dropVictim i).lruSlots k).lastUsed = (L.lruSlots k).lastUsed := by
    intro k
    by_cases hk : k = i
    · subst hk
      simp only [dropVictim, setLru, unmapLru, Function.update_self]
    · simp only [dropVictim, setLru, unmapLru, Function.update_of_ne hk]
  funext a b
  simp only [older, hused]
  rfl

/-- The heap is repaired from the position its root has, which is the first. -/
theorem HeapWf.repaired (hL : L.HeapWf) (hn : 0 < L.heap.n) :
    (L.heap.dropAt 0).siftDown (L.key now)
        (((L.heap.dropAt 0).pos ((L.heap.dropAt 0).idx 0)).getD 0) =
      (L.heap.dropAt 0).siftDown (L.key now) 0 := by
  rcases Nat.eq_zero_or_pos (L.heap.dropAt 0).n with hz | hpos
  · rw [IndexHeap.siftDown_empty _ hz, IndexHeap.siftDown_empty _ hz]
  · rw [(hL.indexes.dropAt hn).pos_idx 0 hpos, Option.getD_some]

/-- The slot that goes is cleared and put back. -/
theorem InOrder.replaceRoot (h : L.InOrder) (hn : 0 < L.heap.n) (ha : L.Agrees now) :
    { (L.dropVictim (L.heap.idx 0)) with
      heap := ((L.heap.dropAt 0).siftDown (L.key now) 0).push
        ((L.dropVictim (L.heap.idx 0)).key now) (L.heap.idx 0) }.InOrder := by
  have hroot : L.heap.idx 0 < L.nLru := h.wf.indexes.mem 0 hn
  obtain ⟨hre, hren⟩ := h.wf.indexes.reinsert (L.key now)
    ((L.dropVictim (L.heap.idx 0)).key now) (x := L.heap.idx 0) hroot
  simp only [h.wf.indexes.pos_idx 0 hn, Option.getD_some] at hre hren
  rw [h.wf.repaired hn] at hre hren
  have hordered := ((ha.ordered h.wf.indexes h.ordered).dropRoot).push (L.heap.idx 0)
  refine Agrees.inOrder now (fun i hi j hj ho => ?_)
    ⟨hre, hren.trans h.wf.count, h.wf.cap, h.wf.capMax⟩ ?_
  · change (L.dropVictim (L.heap.idx 0)).older i j at ho
    change (L.dropVictim (L.heap.idx 0)).key now i < (L.dropVictim (L.heap.idx 0)).key now j
    rw [older_dropVictim] at ho
    rw [key_dropVictim]
    exact ha i hi j hj ho
  · change IndexHeap.Ordered ((L.dropVictim (L.heap.idx 0)).key now) (IndexHeap.push
      ((L.dropVictim (L.heap.idx 0)).key now) _ (L.heap.idx 0))
    rw [key_dropVictim]
    exact hordered

theorem InOrder.layerInsertLru (h : L.InOrder) {e : ℕ} (hc : L.InsertsInOrder e now) :
    (L.layerInsertLru e now).1.InOrder := by
  have hwf := h.wf.layerInsertLru e now
  by_cases hroom : L.nLru < L.lruCap
  · obtain ⟨ha, hfills⟩ := hc.1 hroom
    rw [MoeStreamLayer.layerInsertLru, if_pos hroom]
    have hold : L.Agrees now := fun i hi j hj =>
      ha i (Nat.lt_succ_of_lt hi) j (Nat.lt_succ_of_lt hj)
    have hpush := (hold.ordered h.wf.indexes h.ordered).push L.nLru
    have hgrown : { L with nLru := L.nLru + 1, heap := L.heap.push (L.key now) L.nLru }.InOrder :=
      Agrees.inOrder now ha (h.wf.grow hroom now) hpush
    exact hgrown.fillSlot (Nat.lt_succ_self L.nLru) hfills
  · have hfull : L.nLru = L.lruCap := Nat.le_antisymm h.wf.cap (Nat.le_of_not_lt hroom)
    obtain ⟨ha, hroot⟩ := hc.2 (Nat.le_of_not_lt hroom)
    have hordered := ha.ordered h.wf.indexes h.ordered
    rw [MoeStreamLayer.layerInsertLru, if_neg hroom] at hwf ⊢
    rcases hroot with huse | ⟨hfree, hfills⟩
    · -- everything is taken off the heap and put back
      obtain ⟨-, -, hworst, -⟩ := popInUse_spec (L.key now) (h.wf.popped hfull)
      have hpop := (popInUse_ordered (fun i => 0 < (L.lruSlots i).inuse) L.requeueCap []
        hordered).1
      generalize popInUse (L.key now) (fun i => decide (0 < (L.lruSlots i).inuse)) L.requeueCap
        L.heap [] = out at hworst hpop hwf ⊢
      obtain ⟨h₁, requeue, worst⟩ := out
      cases worst with
      | none => exact Agrees.inOrder now ha hwf (hpop.foldl_push requeue)
      | some i =>
        obtain ⟨hi, hi'⟩ := hworst i rfl
        exact absurd (huse i hi) (of_decide_eq_false hi')
    · rw [popInUse]
      by_cases hn : 0 < L.heap.n
      · have hstop : ¬decide (0 < (L.lruSlots (L.heap.idx 0)).inuse) = true := by simp [hfree]
        have hroot : L.heap.idx 0 < L.nLru := h.wf.indexes.mem 0 hn
        have hin := (h.replaceRoot hn ha).fillSlot hroot hfills
        rw [dif_pos hn, if_neg hstop]
        simp only [List.foldl_nil, h.wf.indexes.pos_idx 0 hn, Option.getD_some,
          h.wf.repaired hn]
        exact hin
      · rw [dif_neg hn]
        exact ⟨h.wf, h.ordered⟩

/-- What a full cache in order gives up: the slot with the least frequency and recency of those
not in use. -/
theorem InOrder.victim_least (h : L.InOrder) (ha : L.Agrees now) (hfull : L.nLru = L.lruCap)
    {e v : ℕ} (hv : (L.layerInsertLru e now).2 = some v) :
    (L.lruSlots v).inuse = 0 ∧ ∀ j < L.nLru, (L.lruSlots j).inuse = 0 → ¬L.older j v := by
  obtain ⟨hpop, -, hworst, -⟩ := popInUse_spec (L.key now) (h.wf.popped hfull)
  have hordered := popInUse_ordered (fun i => 0 < (L.lruSlots i).inuse) L.requeueCap []
    (ha.ordered h.wf.indexes h.ordered)
  have hchosen : (popInUse (L.key now) (fun i => decide (0 < (L.lruSlots i).inuse)) L.requeueCap
      L.heap []).2.2 = some v := by
    rw [MoeStreamLayer.layerInsertLru, if_neg (by omega)] at hv
    generalize popInUse (L.key now) (fun i => decide (0 < (L.lruSlots i).inuse)) L.requeueCap
      L.heap [] = out at hv
    obtain ⟨h₁, requeue, worst⟩ := out
    cases worst with
    | none => cases hv
    | some i => exact hv
  obtain ⟨hmem, hfree⟩ := hworst v hchosen
  obtain ⟨hn, hroot⟩ := hordered.2 v hchosen
  refine ⟨by simpa using hfree, fun j hj hjfree ho => ?_⟩
  have hjrq : j ∉ (popInUse (L.key now) (fun i => decide (0 < (L.lruSlots i).inuse)) L.requeueCap
      L.heap []).2.1 := fun hm => by
    have huse := (hpop.mem j hm).2
    rw [hjfree] at huse
    cases huse
  obtain ⟨p, hp, hidx⟩ := hpop.indexes.idx_pos j ⟨hj, hjrq⟩
  have hle := hordered.1.root_le hp
  rw [hroot, hidx] at hle
  exact Nat.not_lt_of_le ((ha.le_iff hmem hj).1 hle) (L.older_iff.1 ho)

end MoeStreamLayer

end Kappai
