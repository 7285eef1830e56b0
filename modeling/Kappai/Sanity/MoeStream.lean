import Kappai.Spec.MoeStream
import Mathlib.Order.BooleanAlgebra.Set

/-! What each operation on a layer of the expert cache does to the heap and to the tables. -/

namespace Kappai

namespace MoeStreamLayer

/-- The layer with another heap, other frequencies and another decay counter. -/
def rekeyed (L : MoeStreamLayer) (h : IndexHeap) (f : ℕ → UInt32) (d : ℕ) : MoeStreamLayer :=
  { L with heap := h, lruFreq := f, decayCounter := d }

/-- The heap holds every slot that has been given out, once. -/
structure HeapWf (L : MoeStreamLayer) : Prop where
  indexes : L.heap.Indexes {i | i < L.nLru}
  count : L.heap.n = L.nLru
  cap : L.nLru ≤ L.lruCap
  capMax : L.lruCap ≤ lruCapMax

variable {L : MoeStreamLayer}

theorem HeapWf.touch (h : HeapWf L) (i : ℕ) (now : UInt64) : HeapWf (L.heapTouch i now) :=
  ⟨h.indexes.touch _ i, (IndexHeap.touch_n ..).trans h.count, h.cap, h.capMax⟩

/-- Touching in any order only moves the heap. -/
theorem foldl_heapTouch (now : UInt64) (is : List ℕ) :
    ∃ h, is.foldl (fun L i => L.heapTouch i now) L = L.rekeyed h L.lruFreq L.decayCounter ∧
      (HeapWf L → HeapWf (L.rekeyed h L.lruFreq L.decayCounter)) := by
  induction is generalizing L with
  | nil => exact ⟨L.heap, rfl, id⟩
  | cons i is ih =>
    obtain ⟨h, heq, hwf⟩ := ih (L := L.heapTouch i now)
    exact ⟨h, heq, fun hL => hwf (hL.touch i now)⟩

theorem decay_eq (now : UInt64) :
    ∃ h f d, L.decay now = L.rekeyed h f d ∧ (HeapWf L → HeapWf (L.rekeyed h f d)) := by
  obtain ⟨h, heq, hwf⟩ := foldl_heapTouch (L := { L with
    decayCounter := 0
    lruFreq := fun i => if i < L.nLru then L.lruFreq i >>> 1 else L.lruFreq i }) now
    (List.range L.nLru)
  exact ⟨h, _, _, heq, fun hL => hwf ⟨hL.indexes, hL.count, hL.cap, hL.capMax⟩⟩

/-- `slot` is what the end of `layer_insert_lru` leaves in the slot. -/
def filled (s : MoeExpertSlot) (e : ℕ) (now : UInt64) : MoeExpertSlot :=
  { s with eid := some e, lastUsed := now, pinned := false, heapBuf := none, ioReady := false }

theorem fillSlot_eq (i e : ℕ) (now : UInt64) :
    ∃ h f d, L.fillSlot i e now =
        ((L.setLru i (filled (L.lruSlots i) e now)).mapLru e (some i)).rekeyed h f d ∧
      (HeapWf L → HeapWf
        (((L.setLru i (filled (L.lruSlots i) e now)).mapLru e (some i)).rekeyed h f d)) := by
  unfold fillSlot
  have htouch : HeapWf L → HeapWf ((((L.setLru i (filled (L.lruSlots i) e now)).mapLru e
      (some i)).setFreq i 1).heapTouch i now) :=
    fun hL => HeapWf.touch (L := ((L.setLru i _).mapLru e (some i)).setFreq i 1)
      ⟨hL.indexes, hL.count, hL.cap, hL.capMax⟩ i now
  dsimp only
  split_ifs
  · obtain ⟨h, f, d, heq, hwf⟩ := decay_eq now (L := { (((L.setLru i
      (filled (L.lruSlots i) e now)).mapLru e (some i)).setFreq i 1).heapTouch i now with
        decayCounter := L.decayCounter + 1 })
    refine ⟨h, f, d, heq, fun hL => hwf ?_⟩
    have ht := htouch hL
    exact ⟨ht.indexes, ht.count, ht.cap, ht.capMax⟩
  · refine ⟨_, _, _, rfl, fun hL => ?_⟩
    have ht := htouch hL
    exact ⟨ht.indexes, ht.count, ht.cap, ht.capMax⟩

end MoeStreamLayer

/-- The slots that are popped are in use, and stay known: in the heap or in `requeue`. -/
structure Popped (inuse : ℕ → Bool) (S : Set ℕ) (cap : ℕ) (h : IndexHeap) (requeue : List ℕ) :
    Prop where
  indexes : h.Indexes {i ∈ S | i ∉ requeue}
  nodup : requeue.Nodup
  mem : ∀ i ∈ requeue, i ∈ S ∧ inuse i = true
  room : h.n + requeue.length ≤ cap

namespace Popped

variable {inuse : ℕ → Bool} {S : Set ℕ} {cap : ℕ} {h : IndexHeap} {requeue : List ℕ}

theorem pop {κ : Type*} [LT κ] [DecidableLT κ] (key : ℕ → κ)
    (hp : Popped inuse S cap h requeue) (hn : 0 < h.n) (huse : inuse (h.idx 0) = true) :
    Popped inuse S cap ((h.dropAt 0).siftDown key 0) (requeue ++ [h.idx 0]) where
  indexes := by
    have hdrop := hp.indexes.dropAt hn
    have hset : {i ∈ S | i ∉ requeue ++ [h.idx 0]} = {i ∈ S | i ∉ requeue} \ {h.idx 0} := by
      ext i
      simp only [List.mem_append, List.mem_singleton, not_or, Set.mem_ofPred_eq, Set.mem_sdiff,
        Set.mem_singleton_iff, and_assoc]
    rw [hset]
    rcases Nat.eq_zero_or_pos (h.dropAt 0).n with hz | hpos
    · have hstay : (h.dropAt 0).siftDown key 0 = h.dropAt 0 := by
        rw [IndexHeap.siftDown, dif_pos]
        rcases (h.dropAt 0).smallest_cases key 0 with hs | hs
        · exact hs
        · omega
      rwa [hstay]
    · exact hdrop.siftDown key hpos
  nodup := by
    rw [List.nodup_append]
    refine ⟨hp.nodup, List.nodup_cons.mpr ⟨List.not_mem_nil, List.nodup_nil⟩, fun a ha b hb hab => ?_⟩
    rw [List.mem_singleton.mp hb] at hab
    exact (hp.indexes.mem 0 hn).2 (hab ▸ ha)
  mem := by
    intro i hi
    rcases List.mem_append.mp hi with hi | hi
    · exact hp.mem i hi
    · rw [List.mem_singleton.mp hi]
      exact ⟨(hp.indexes.mem 0 hn).1, huse⟩
  room := by
    have hroom := hp.room
    simp only [IndexHeap.siftDown_n, IndexHeap.dropAt_n, List.length_append,
      List.length_singleton]
    omega

/-- The slots in use go back into the heap. -/
theorem requeued {κ : Type*} [LE κ] [DecidableLE κ] (key : ℕ → κ)
    (hp : Popped inuse S cap h requeue) :
    (requeue.foldl (fun h i => h.push key i) h).Indexes S ∧
      (requeue.foldl (fun h i => h.push key i) h).n = h.n + requeue.length := by
  have hback : ∀ (rq : List ℕ) (h : IndexHeap), h.Indexes {i ∈ S | i ∉ rq} → rq.Nodup →
      (∀ i ∈ rq, i ∈ S) → (rq.foldl (fun h i => h.push key i) h).Indexes S ∧
        (rq.foldl (fun h i => h.push key i) h).n = h.n + rq.length := by
    intro rq
    induction rq with
    | nil =>
      intro h hi _ _
      have hset : {i ∈ S | i ∉ ([] : List ℕ)} = S := by
        ext i
        simp
      exact ⟨hset ▸ hi, rfl⟩
    | cons a rq ih =>
      intro h hi hnd hmem
      obtain ⟨harq, hnd⟩ := List.nodup_cons.mp hnd
      have haS : a ∈ S := hmem a List.mem_cons_self
      have hpush := hi.push key (x := a) (by simp)
      have hset : insert a {i ∈ S | i ∉ a :: rq} = {i ∈ S | i ∉ rq} := by
        ext i
        simp only [Set.mem_insert_iff, Set.mem_ofPred_eq, List.mem_cons, not_or]
        by_cases hia : i = a
        · subst hia
          simp [haS, harq]
        · simp [hia]
      rw [hset] at hpush
      obtain ⟨hi', hn'⟩ := ih (h.push key a) hpush hnd fun i him => hmem i (List.mem_cons_of_mem _ him)
      exact ⟨hi', by rw [List.foldl_cons, hn', IndexHeap.push_n, List.length_cons]; omega⟩
  exact hback requeue h hp.indexes hp.nodup fun i hi => (hp.mem i hi).1

end Popped

/-- What the loop of `layer_insert_lru` comes out with, while `requeue` has room for the heap. -/
theorem popInUse_spec {κ : Type*} [LT κ] [DecidableLT κ] (key : ℕ → κ) {inuse : ℕ → Bool}
    {S : Set ℕ} {cap : ℕ} {h : IndexHeap} {requeue : List ℕ}
    (hp : Popped inuse S cap h requeue) :
    let out := MoeStreamLayer.popInUse key inuse cap h requeue
    Popped inuse S cap out.1 out.2.1 ∧ out.1.n + out.2.1.length = h.n + requeue.length ∧
      (∀ i ∈ out.2.2, i ∈ S ∧ inuse i = false) ∧
      (out.2.2 = none → ∀ i ∈ S, inuse i = true) := by
  induction h, requeue using MoeStreamLayer.popInUse.induct key inuse cap with
  | case1 h requeue hn huse ih =>
    have hroom : requeue.length < cap := by
      have := hp.room
      omega
    rw [MoeStreamLayer.popInUse, dif_pos hn, if_pos huse]
    simp only [dif_pos hroom] at ih
    simp only [if_pos hroom]
    have hout := ih (hp.pop key hn huse)
    simp only [IndexHeap.siftDown_n, IndexHeap.dropAt_n, List.length_append,
      List.length_singleton] at hout
    refine ⟨hout.1, ?_, hout.2.2⟩
    have hlen := hout.2.1
    omega
  | case2 h requeue hn huse =>
    rw [MoeStreamLayer.popInUse, dif_pos hn, if_neg huse]
    refine ⟨hp, rfl, fun i hi => ?_, fun hnone => by cases hnone⟩
    obtain rfl : h.idx 0 = i := Option.mem_some_iff.mp hi
    exact ⟨(hp.indexes.mem 0 hn).1, by simpa using huse⟩
  | case3 h requeue hn =>
    rw [MoeStreamLayer.popInUse, dif_neg hn]
    refine ⟨hp, rfl, by simp, fun _ i hi => ?_⟩
    by_contra huse
    have hirq : i ∉ requeue := fun hm => huse (hp.mem i hm).2
    obtain ⟨p, hlt, -⟩ := hp.indexes.idx_pos i ⟨hi, hirq⟩
    exact hn (Nat.zero_lt_of_lt hlt)

/-- An empty heap has nothing to sift. -/
theorem IndexHeap.siftDown_empty {κ : Type*} [LT κ] [DecidableLT κ] (key : ℕ → κ) {h : IndexHeap}
    (hn : h.n = 0) (p : ℕ) : h.siftDown key p = h := by
  rw [IndexHeap.siftDown, dif_pos]
  rcases h.smallest_cases key p with hs | hs
  · exact hs
  · omega

/-- The victim leaves the middle of the heap and comes back at its end. -/
theorem IndexHeap.Indexes.reinsert {κ : Type*} [LT κ] [DecidableLT κ] [LE κ] [DecidableLE κ]
    (key key' : ℕ → κ) {h : IndexHeap} {S : Set ℕ} (hi : h.Indexes S) {x : ℕ} (hx : x ∈ S) :
    let h' := h.dropAt ((h.pos x).getD 0)
    let h' := h'.siftDown key ((h'.pos (h'.idx 0)).getD 0)
    (h'.push key' x).Indexes S ∧ (h'.push key' x).n = h.n := by
  obtain ⟨p, hp, rfl, hpos⟩ := hi.pos_eq hx
  have hdrop := hi.dropAt hp
  intro h₁ h₂
  have h₁_eq : h₁ = h.dropAt p := by
    simp only [h₁, hpos, Option.getD_some]
  have hsift : h₂.Indexes (S \ {h.idx p}) := by
    simp only [h₂, h₁_eq]
    rcases Nat.eq_zero_or_pos (h.dropAt p).n with hz | hpos
    · rwa [IndexHeap.siftDown_empty key hz]
    · rw [hdrop.pos_idx 0 hpos]
      exact hdrop.siftDown key hpos
  have hback := hsift.push key' (x := h.idx p) (by simp)
  rw [Set.insert_sdiff_singleton, Set.insert_eq_of_mem hx] at hback
  refine ⟨hback, ?_⟩
  simp only [IndexHeap.push_n, h₂, IndexHeap.siftDown_n, h₁_eq, IndexHeap.dropAt_n]
  omega

namespace MoeStreamLayer

variable {L : MoeStreamLayer}

/-- A layer whose slots have been given to experts: slot `i`, in the state `s`, is now that of
`e`. -/
def given (L : MoeStreamLayer) (i : ℕ) (s : MoeExpertSlot) (e : ℕ) (now : UInt64) :
    MoeStreamLayer :=
  (L.setLru i (filled s e now)).mapLru e (some i)

/-- A slot never used before joins the heap. -/
theorem HeapWf.grow (hL : HeapWf L) (hroom : L.nLru < L.lruCap) (now : UInt64) :
    HeapWf { L with nLru := L.nLru + 1, heap := L.heap.push (L.key now) L.nLru } := by
  refine ⟨?_, (IndexHeap.push_n ..).trans (congrArg _ hL.count), hroom, hL.capMax⟩
  have hset : insert L.nLru {i | i < L.nLru} = {i | i < L.nLru + 1} := by
    ext i
    simp only [Set.mem_insert_iff, Set.mem_ofPred_eq]
    omega
  exact hset ▸ hL.indexes.push (L.key now) (by simp)

/-- `requeue` has room for the heap of a full cache. -/
theorem HeapWf.popped (hL : HeapWf L) (hfull : L.nLru = L.lruCap) :
    Popped (fun i => decide (0 < (L.lruSlots i).inuse)) {i | i < L.nLru} L.requeueCap L.heap [] := by
  refine ⟨?_, List.nodup_nil, by simp, ?_⟩
  · simpa using hL.indexes
  · have hmax := hL.capMax
    rw [hL.count, List.length_nil, requeueCap]
    split_ifs <;> omega

/-- `layer_insert_lru` gives out a slot never used before, or empties one that is not in use; it
gives none only if the cache is full and every slot is in use. -/
theorem layerInsertLru_spec (hL : HeapWf L) (e : ℕ) (now : UInt64) :
    (∃ h, L.layerInsertLru e now = ({ L with heap := h }, none) ∧ HeapWf { L with heap := h } ∧
        L.nLru = L.lruCap ∧ ∀ i < L.nLru, 0 < (L.lruSlots i).inuse) ∨
      (∃ h f d, L.layerInsertLru e now = ((({ L with nLru := L.nLru + 1 }.given L.nLru
          (L.lruSlots L.nLru) e now).rekeyed h f d), some L.nLru) ∧
        HeapWf (({ L with nLru := L.nLru + 1 }.given L.nLru
          (L.lruSlots L.nLru) e now).rekeyed h f d)) ∨
      ∃ i < L.nLru, (L.lruSlots i).inuse = 0 ∧ ∃ h f d, L.layerInsertLru e now =
          (((L.dropVictim i).given i ((L.dropVictim i).lruSlots i) e now).rekeyed h f d,
            some i) ∧
        HeapWf (((L.dropVictim i).given i ((L.dropVictim i).lruSlots i) e now).rekeyed h f d) := by
  by_cases hroom : L.nLru < L.lruCap
  · refine Or.inr (Or.inl ?_)
    obtain ⟨h, f, d, heq, hfill⟩ := fillSlot_eq L.nLru e now
      (L := { L with nLru := L.nLru + 1, heap := L.heap.push (L.key now) L.nLru })
    refine ⟨h, f, d, ?_, hfill (hL.grow hroom now)⟩
    rw [layerInsertLru, if_pos hroom]
    exact Prod.ext heq rfl
  · have hfull : L.nLru = L.lruCap := Nat.le_antisymm hL.cap (Nat.le_of_not_lt hroom)
    obtain ⟨hpop, hlen, hworst, hnone⟩ := popInUse_spec (L.key now) (hL.popped hfull)
    rw [layerInsertLru, if_neg hroom]
    generalize popInUse (L.key now) (fun i => decide (0 < (L.lruSlots i).inuse)) L.requeueCap
      L.heap [] = out at hpop hlen hworst hnone ⊢
    obtain ⟨h₁, requeue, worst⟩ := out
    obtain ⟨hback, hbackn⟩ := hpop.requeued (L.key now)
    have hn : (requeue.foldl (fun h i => h.push (L.key now) i) h₁).n = L.nLru := by
      rw [hbackn, hlen, hL.count, List.length_nil, Nat.add_zero]
    cases worst with
    | none =>
      refine Or.inl ⟨_, rfl, ⟨hback, hn, hL.cap, hL.capMax⟩, hfull, fun i hi => ?_⟩
      exact of_decide_eq_true (hnone rfl i hi)
    | some i =>
      obtain ⟨hi, huse⟩ := hworst i rfl
      have huse' : (L.lruSlots i).inuse = 0 := by simpa using huse
      refine Or.inr (Or.inr ⟨i, hi, huse', ?_⟩)
      obtain ⟨h, f, d, heq, hfill⟩ := fillSlot_eq i e now (L := { L.dropVictim i with heap := _ })
      obtain ⟨hre, hren⟩ := hback.reinsert (L.key now) ((L.dropVictim i).key now) (x := i) hi
      exact ⟨h, f, d, Prod.ext heq rfl, hfill ⟨hre, hren.trans hn, hL.cap, hL.capMax⟩⟩

/-! Every operation keeps the heap. -/

theorem HeapWf.init (lruCap tierCap : ℕ) (pins : List (ℕ × PinResult)) :
    HeapWf (MoeStreamLayer.init lruCap tierCap pins) where
  indexes := by
    have hset : {i | i < (MoeStreamLayer.init lruCap tierCap pins).nLru} = (∅ : Set ℕ) := by
      ext i
      simp [MoeStreamLayer.init]
    rw [hset]
    exact IndexHeap.Indexes.empty
  count := rfl
  cap := Nat.zero_le _
  capMax := by
    simp only [MoeStreamLayer.init]
    split_ifs <;> omega

theorem HeapWf.setSlot (hL : HeapWf L) (s : MoeExpertSlot) (r : SlotRef) :
    HeapWf (L.setSlot s r) := by
  cases r <;> exact ⟨hL.indexes, hL.count, hL.cap, hL.capMax⟩

theorem HeapWf.layerFind (hL : HeapWf L) (e : ℕ) (now : UInt64) : HeapWf (L.layerFind e now).1 := by
  unfold MoeStreamLayer.layerFind
  cases L.liveSlotFind e with
  | none => exact hL
  | some r =>
    cases r with
    | pinned i => exact ⟨hL.indexes, hL.count, hL.cap, hL.capMax⟩
    | tier i => exact ⟨hL.indexes, hL.count, hL.cap, hL.capMax⟩
    | lru i =>
      refine HeapWf.touch (L := (L.setLru i _).setFreq i _) ?_ i now
      exact ⟨hL.indexes, hL.count, hL.cap, hL.capMax⟩

theorem HeapWf.takeReady (hL : HeapWf L) (e : ℕ) (now : UInt64) : HeapWf (L.takeReady e now) := by
  unfold MoeStreamLayer.takeReady
  have hfind := hL.layerFind e now
  generalize L.layerFind e now = out at hfind ⊢
  obtain ⟨L', r⟩ := out
  cases r with
  | none => exact hfind
  | some r =>
    dsimp only
    split_ifs
    · exact hfind.setSlot _ r
    · exact hfind

theorem HeapWf.release (hL : HeapWf L) (e : ℕ) : HeapWf (L.release e) := by
  unfold MoeStreamLayer.release
  cases L.liveSlotFind e with
  | none => exact hL
  | some r => exact hL.setSlot _ r

theorem HeapWf.lruSlotClear (hL : HeapWf L) (i : ℕ) (clock : UInt64) :
    HeapWf (L.lruSlotClear i clock) :=
  HeapWf.touch (L := ((L.unmapLru i).setLru i _).setFreq i 0)
    ⟨hL.indexes, hL.count, hL.cap, hL.capMax⟩ i clock

theorem HeapWf.lruSlotRefill (hL : HeapWf L) (i e : ℕ) (copied : Bool) (clock : UInt64) :
    HeapWf (L.lruSlotRefill i e copied clock) := by
  have hclear := hL.lruSlotClear i clock
  unfold MoeStreamLayer.lruSlotRefill
  dsimp only
  split_ifs
  · exact HeapWf.touch (L := (((L.lruSlotClear i clock).setLru i _).mapLru e (some i)).setFreq i 1)
      ⟨hclear.indexes, hclear.count, hclear.cap, hclear.capMax⟩ i clock
  · exact hclear

theorem HeapWf.placeTier (hL : HeapWf L) (t e : ℕ) (s : MoeExpertSlot) :
    HeapWf (L.placeTier t e s) := ⟨hL.indexes, hL.count, hL.cap, hL.capMax⟩

theorem HeapWf.tierRelease (hL : HeapWf L) (e t : ℕ) :
    HeapWf ((L.mapTier e none).tierRelease t) := ⟨hL.indexes, hL.count, hL.cap, hL.capMax⟩

theorem HeapWf.tierPromote (hL : HeapWf L) (i : ℕ) (victim : Option ℕ) (uploaded copied : Bool)
    (clock : UInt64) : HeapWf (L.tierPromote i victim uploaded copied clock) := by
  unfold MoeStreamLayer.tierPromote
  split
  · exact hL
  · dsimp only
    split
    · split_ifs
      · exact (hL.lruSlotClear i clock).placeTier _ _ _
      · exact hL
    · split
      · exact hL
      · rename_i ve _
        have hre := hL.lruSlotRefill i ve copied clock
        cases uploaded with
        | false => exact hL
        | true =>
          cases copied with
          | false => exact hre
          | true => exact (hre.tierRelease ve _).placeTier _ _ _
    · exact hL

theorem HeapWf.layerInsertLru (hL : HeapWf L) (e : ℕ) (now : UInt64) :
    HeapWf (L.layerInsertLru e now).1 := by
  rcases layerInsertLru_spec hL e now with
    ⟨h, heq, hwf, -⟩ | ⟨h, f, d, heq, hwf⟩ | ⟨i, -, -, h, f, d, heq, hwf⟩
  all_goals
    rw [heq]
    exact hwf

theorem HeapWf.tierDemote (hL : HeapWf L) (t : ℕ) (copied : Bool) (clock : UInt64) :
    HeapWf (L.tierDemote t copied clock) := by
  unfold MoeStreamLayer.tierDemote
  split
  · exact hL
  · rename_i e _
    have hins := hL.layerInsertLru e clock
    generalize L.layerInsertLru e clock = out at hins ⊢
    obtain ⟨L', i⟩ := out
    cases i with
    | none => exact hins
    | some i =>
      dsimp only
      split_ifs
      · exact ⟨hins.indexes, hins.count, hins.cap, hins.capMax⟩
      · have hclear := hins.lruSlotClear i clock
        exact ⟨hclear.indexes, hclear.count, hclear.cap, hclear.capMax⟩

theorem HeapWf.missCommit (hL : HeapWf L) (me : MoeMissEntry) (fetched : Bool) :
    HeapWf (L.missCommit me fetched) := by
  unfold MoeStreamLayer.missCommit
  split
  · exact hL
  · dsimp only
    split_ifs <;> exact ⟨hL.indexes, hL.count, hL.cap, hL.capMax⟩

end MoeStreamLayer

theorem MoeStream.heapWf_apply {s : MoeStream} (hs : s.layer.HeapWf) (op : MoeOp) :
    (s.apply op).layer.HeapWf := by
  cases op with
  | lookup e now => exact hs.takeReady e now
  | miss e now =>
    simp only [MoeStream.apply]
    split_ifs
    · have hins := hs.layerInsertLru e now
      unfold MoeStream.miss
      generalize s.layer.layerInsertLru e now = out at hins ⊢
      obtain ⟨L', i⟩ := out
      cases i with
      | none => exact hins
      | some i => exact ⟨hins.indexes, hins.count, hins.cap, hins.capMax⟩
    · exact hs
  | commit k fetched =>
    simp only [MoeStream.apply]
    split
    · exact hs.missCommit _ fetched
    · exact hs
  | release e => exact hs.release e
  | evict i clock =>
    simp only [MoeStream.apply]
    split_ifs
    · exact hs.lruSlotClear i clock
    · exact hs
  | promote i victim uploaded copied clock =>
    simp only [MoeStream.apply]
    split_ifs
    · exact hs.tierPromote i victim uploaded copied clock
    · exact hs
  | demote t copied clock =>
    simp only [MoeStream.apply]
    split_ifs
    · exact hs.tierDemote t copied clock
    · exact hs

theorem MoeStream.heapWf_run (lruCap tierCap : ℕ) (pins : List (ℕ × PinResult))
    (ops : List MoeOp) :
    (ops.foldl MoeStream.apply (MoeStream.init lruCap tierCap pins)).layer.HeapWf := by
  suffices hrun : ∀ s : MoeStream, s.layer.HeapWf → (ops.foldl MoeStream.apply s).layer.HeapWf from
    hrun _ (MoeStreamLayer.HeapWf.init lruCap tierCap pins)
  induction ops with
  | nil => exact fun s hs => hs
  | cons op ops ih => exact fun s hs => ih _ (MoeStream.heapWf_apply hs op)

end Kappai
