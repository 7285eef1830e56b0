import Kappai.Sanity.MoeTables
import Mathlib.Data.List.Basic
import Mathlib.Tactic.Common
import Kappai.Sanity.MoeLost

/-! The eviction heap of a layer holds each LRU slot once, and its tables agree with its slots,
after any operations. -/

namespace Kappai

open MoeStreamLayer

/-- The heap is a permutation of the slots given out, and a slot to insert at is refused only by a
full cache with every slot in use. -/
theorem evictionHeap_permutation (lruCap tierCap : ℕ) (pins : List (ℕ × PinResult))
    (ops : List MoeOp) :
    let L := (ops.foldl MoeStream.apply (MoeStream.init lruCap tierCap pins)).layer
    L.heap.n = L.nLru ∧ L.nLru ≤ L.lruCap ∧
      (∀ p < L.nLru, L.heap.idx p < L.nLru ∧ L.heap.pos (L.heap.idx p) = some p) ∧
      (∀ i < L.nLru, ∃ p < L.nLru, L.heap.pos i = some p ∧ L.heap.idx p = i) ∧
      ∀ e now, (L.layerInsertLru e now).2 = none →
        L.nLru = L.lruCap ∧ ∀ i < L.lruCap, 0 < (L.lruSlots i).inuse := by
  intro L
  have hL : HeapWf L := MoeStream.heapWf_run lruCap tierCap pins ops
  refine ⟨hL.count, hL.cap, fun p hp => ?_, fun i hi => ?_, fun e now hnone => ?_⟩
  · rw [← hL.count] at hp
    exact ⟨hL.indexes.mem p hp, hL.indexes.pos_idx p hp⟩
  · obtain ⟨p, hp, hidx, hpos⟩ := hL.indexes.pos_eq hi
    rw [hL.count] at hp
    exact ⟨p, hp, hpos, hidx⟩
  · rcases layerInsertLru_spec hL e now with ⟨_, -, -, hfull, huse⟩ | ⟨_, _, _, heq, -⟩ |
      ⟨_, -, -, _, _, _, heq, -⟩
    · rw [← hfull]
      exact ⟨rfl, huse⟩
    · rw [heq] at hnone
      cases hnone
    · rw [heq] at hnone
      cases hnone

theorem PinnedTables.init (lruCap tierCap : ℕ) (pins : List (ℕ × PinResult)) :
    PinnedTables (MoeStreamLayer.init lruCap tierCap pins) := by
  have hheld : ∀ (e e' : ℕ) (r : PinResult), (pinnedSlot e r).eid = some e' → e = e' := by
    intro e e' r h
    cases r with
    | failed => cases h
    | host => exact Option.some.inj h
    | device => exact Option.some.inj h
  have hslot : ∀ (e : ℕ) (r : PinResult), (pinnedSlot e r).Loaded ∧
      ((pinnedSlot e r).eid = some e ∨ (pinnedSlot e r).eid = none) := by
    intro e r
    cases r with
    | failed => exact ⟨Or.inl rfl, Or.inr rfl⟩
    | host => exact ⟨Or.inl rfl, Or.inl rfl⟩
    | device => exact ⟨Or.inr rfl, Or.inl rfl⟩
  have hat : ∀ p (hp : p < pins.length), (MoeStreamLayer.init lruCap tierCap pins).pinnedSlots p =
      pinnedSlot (pins[p]).1 (pins[p]).2 := by
    intro p hp
    simp only [MoeStreamLayer.init, List.getElem?_eq_getElem hp, Option.map_some,
      Option.getD_some]
  refine ⟨fun e p hp => ?_, fun p hp e _ => ?_, fun p hp e he => ?_⟩
  · obtain ⟨hlt, hpe, -⟩ := List.findIdx?_eq_some_iff_getElem.mp hp
    have he : (pins[p]).1 = e := by simpa using hpe
    rw [hat p hlt, he]
    exact ⟨hlt, (hslot e _).2⟩
  · rw [hat p hp]
    exact (hslot _ _).1
  · have hlt : p < pins.length := hp
    rw [hat p hlt] at he
    have hpe : ((pins[p]).1 == e) = true := by rw [hheld _ _ _ he, beq_self_eq_true]
    have hsome : (pins.findIdx? fun q => q.1 == e).isSome := by
      rw [List.findIdx?_isSome, List.any_eq_true]
      exact ⟨_, List.getElem_mem hlt, hpe⟩
    obtain ⟨q, hq⟩ := Option.isSome_iff_exists.mp hsome
    refine ⟨q, ?_, hq⟩
    obtain ⟨_, _, hfirst⟩ := List.findIdx?_eq_some_iff_getElem.mp hq
    exact Nat.not_lt.mp fun hpq => hfirst p hpq hpe

theorem Tables.init (lruCap tierCap : ℕ) (pins : List (ℕ × PinResult)) :
    Tables (MoeStreamLayer.init lruCap tierCap pins) none where
  lru := fun _ _ h => by cases h
  lruOwn := fun _ hi => absurd hi (Nat.not_lt_zero _)
  tier := fun _ _ h => by cases h
  tierOwn := fun _ _ _ h => by cases h
  apart := fun _ _ h => by cases h
  lruLoaded := fun _ hi => absurd hi (Nat.not_lt_zero _)
  tierLoaded := fun _ _ _ h => by cases h
  idle := fun _ hi => absurd hi (Nat.not_lt_zero _)
  unpinned := fun _ hi => absurd hi (Nat.not_lt_zero _)
  unused := fun _ _ => rfl

theorem MoeInv.run (lruCap tierCap : ℕ) (pins : List (ℕ × PinResult)) (ops : List MoeOp) :
    MoeInv (ops.foldl MoeStream.apply (MoeStream.init lruCap tierCap pins)) := by
  have hinit : MoeInv (MoeStream.init lruCap tierCap pins) :=
    ⟨HeapWf.init lruCap tierCap pins, Tables.init lruCap tierCap pins,
      PinnedTables.init lruCap tierCap pins, fun _ h => absurd h List.not_mem_nil,
      List.Pairwise.nil⟩
  generalize MoeStream.init lruCap tierCap pins = s at hinit ⊢
  induction ops generalizing s with
  | nil => exact hinit
  | cons op ops ih => exact ih _ (hinit.apply op)

/-- Every table entry leads to a slot of its expert whose weights are all there. -/
def MoeStreamLayer.EntriesLoaded (L : MoeStreamLayer) : Prop :=
  (∀ e i, L.eidToLru e = some i → (L.lruSlots i).eid = some e ∧ (L.lruSlots i).Loaded) ∧
    (∀ e t, L.eidToTier e = some t → (L.tierSlots t).eid = some e ∧ (L.tierSlots t).Loaded) ∧
    ∀ e p, L.eidToPinned e = some p → (L.pinnedSlots p).eid = some e ∧ (L.pinnedSlots p).Loaded

/-- Every slot with an expert is the one its expert's table entry leads to. -/
def MoeStreamLayer.SlotsMapped (L : MoeStreamLayer) : Prop :=
  (∀ i < L.nLru, ∀ e, (L.lruSlots i).eid = some e → L.eidToLru e = some i) ∧
    (∀ t < L.tierCap, ∀ e, (L.tierSlots t).eid = some e → L.eidToTier e = some t) ∧
    ∀ p < L.nPinned, ∀ e, (L.pinnedSlots p).eid = some e → L.eidToPinned e = some p

/-- The tables of the LRU and of the tier agree with the slots and share no expert. What a lookup
takes out of the LRU, a tier slot and a pinned slot are loaded; the slot of a fetch under way and a
pinned slot whose copy failed are not, though entries lead to them. -/
theorem expertTables_agree (lruCap tierCap : ℕ) (pins : List (ℕ × PinResult))
    (ops : List MoeOp) :
    let L := (ops.foldl MoeStream.apply (MoeStream.init lruCap tierCap pins)).layer
    (∀ e, L.eidToLru e = none ∨ L.eidToTier e = none) ∧
      (∀ e i, L.eidToLru e = some i → i < L.nLru ∧ (L.lruSlots i).eid = some e ∧
        ((L.lruSlots i).ioReady = true → (L.lruSlots i).Loaded)) ∧
      (∀ e t, L.eidToTier e = some t → t < L.tierCap ∧ (L.tierSlots t).eid = some e ∧
        (L.tierSlots t).ioReady = true ∧ (L.tierSlots t).Loaded) ∧
      (∀ e p, L.eidToPinned e = some p → p < L.nPinned ∧
        ((L.pinnedSlots p).eid = some e ∨ (L.pinnedSlots p).eid = none)) ∧
      (∀ p < L.nPinned, ∀ e, (L.pinnedSlots p).eid = some e → (L.pinnedSlots p).Loaded) ∧
      (∀ i < L.nLru, ∀ e, (L.lruSlots i).eid = some e → L.eidToLru e = some i) ∧
      (∀ t < L.tierCap, ∀ e, (L.tierSlots t).eid = some e → L.eidToTier e = some t) ∧
      ∀ p < L.nPinned, ∀ e, (L.pinnedSlots p).eid = some e →
        ∃ q ≤ p, L.eidToPinned e = some q := by
  intro L
  have hinv := MoeInv.run lruCap tierCap pins ops
  have hT : Tables L none := hinv.tables
  have hP : PinnedTables L := hinv.pinned
  refine ⟨fun e => ?_, fun e i he => ?_, fun e t he => ?_, hP.table, hP.loaded, hT.lruOwn,
    hT.tierOwn, hP.own⟩
  · rcases hlru : L.eidToLru e with _ | i
    · exact Or.inl rfl
    · exact Or.inr ((hT.apart e i hlru).resolve_right fun h => by cases h)
  · obtain ⟨hi, heid⟩ := hT.lru e i he
    refine ⟨hi, heid, fun hr => Or.inl ?_⟩
    rw [heid]
    exact hT.lruLoaded i hi hr e heid
  · obtain ⟨ht, heid⟩ := hT.tier e t he
    obtain ⟨hr, hdev⟩ := hT.tierLoaded t ht e heid
    refine ⟨ht, heid, hr, Or.inr ?_⟩
    rw [heid]
    exact hdev

/-- A miss maps its expert before the fetch, and an expert pinned twice has one entry. -/
theorem expertTables_not_loaded :
    ¬ (MoeStream.apply (MoeStream.init 1 0 []) (.miss 0 1)).layer.EntriesLoaded ∧
      ¬ (MoeStream.init 1 0 [(0, .failed)]).layer.EntriesLoaded ∧
      ¬ (MoeStream.init 1 0 [(0, .host), (0, .host)]).layer.SlotsMapped := by
  refine ⟨fun h => ?_, fun h => ?_, fun h => ?_⟩
  · have hlru : (MoeStream.apply (MoeStream.init 1 0 []) (.miss 0 1)).layer.eidToLru 0 =
        some 0 := rfl
    have hloaded := (h.1 0 0 hlru).2
    revert hloaded
    decide
  · have heid := (h.2.2 0 0 rfl).1
    cases heid
  · have hmap := h.2.2 1 (by decide) 0 rfl
    cases hmap

/-! What `moe_stream_resolve` gives to a caller that is alone on its layer. -/

open MoeStreamLayer

/-- The slot that the release of an out slot gives back; a private buffer is freed instead. -/
def MoeStreamLayer.holder (L : MoeStreamLayer) (o : MoeOutSlot) : Option SlotRef :=
  if o.owned then none else o.slot.eid.bind L.liveSlotFind

/-- The call returns OK, every id that names an expert has that expert's weights, any other is
marked invalid, and each out slot is a private buffer or one use of a cached slot. -/
structure MoeResolved (L : MoeStreamLayer) (nExperts : ℕ) (expertIds : List ℤ)
    (s : MoeStreamLayer × MoeCall) : Prop where
  ok : s.2.ok = true
  outs : ∀ (k : ℕ) (eid : ℤ), expertIds[k]? = some eid → ∃ o, s.2.outs[k]? = some o ∧
    if 0 ≤ eid ∧ eid < nExperts then
      o.slot.eid = some eid.toNat ∧ o.slot.Loaded ∧ (o.owned = true ∨ s.1.holder o ≠ none)
    else o = .invalid
  uses : ∀ r, (s.1.slot r).inuse = (L.slot r).inuse + s.2.outs.countP fun o => s.1.holder o = some r

/-- The inserts of a call throw out no expert that another of its ids waits for. -/
def AwaitedStay (L : MoeStreamLayer) (ids : List (Option ℕ)) (now : UInt64) : Prop :=
  ∀ k ∈ (resolveCollectMisses L ids now).2.waits,
    ∀ e ∈ (resolveCollectMisses L ids now).2.id k,
      (resolveCollectMisses L ids now).1.liveSlotFind e ≠ none

instance (L : MoeStreamLayer) (ids : List (Option ℕ)) (now : UInt64) :
    Decidable (AwaitedStay L ids now) :=
  inferInstanceAs (Decidable (∀ k ∈ (resolveCollectMisses L ids now).2.waits,
    ∀ e ∈ (resolveCollectMisses L ids now).2.id k,
      (resolveCollectMisses L ids now).1.liveSlotFind e ≠ none))

theorem MoeQuiet.run (lruCap tierCap : ℕ) (pins : List (ℕ × PinResult)) (ops : List MoeOp) :
    let s := ops.foldl MoeStream.apply (MoeStream.init lruCap tierCap pins)
    MoeQuiet s.layer s.misses := by
  have hinv := MoeInv.run lruCap tierCap pins []
  have hq : MoeQuiet (MoeStream.init lruCap tierCap pins).layer
      (MoeStream.init lruCap tierCap pins).misses := .init lruCap tierCap pins
  simp only [List.foldl_nil] at hinv
  generalize MoeStream.init lruCap tierCap pins = s at hinv hq ⊢
  induction ops generalizing s with
  | nil => exact hq
  | cons op ops ih => exact ih _ (hinv.apply op) (hq.apply hinv op)

namespace MoeHolds

variable {base : SlotRef → ℕ} {misses : List MoeMissEntry} {L : MoeStreamLayer}
  {outs : List MoeOutSlot}

/-- The release gives back what the out slot holds. -/
theorem holder_eq (h : MoeHolds base misses L outs) {o : MoeOutSlot} (ho : o ∈ outs) :
    L.holder o = o.held := by
  unfold holder
  cases hheld : o.held with
  | none =>
    rcases h.unheld o ho hheld with howned | heid
    · rw [if_pos howned]
    · rw [heid, Option.bind_none, ite_self]
  | some r =>
    obtain ⟨howned, -, ⟨e, he, hlive⟩, -⟩ := h.held o ho r hheld
    rw [howned, if_neg (by simp), he, Option.bind_some, hlive]

theorem holder_count (h : MoeHolds base misses L outs) (r : SlotRef) :
    (outs.countP fun o => L.holder o = some r) = holds outs r :=
  List.countP_congr fun o ho => by rw [h.holder_eq ho]

end MoeHolds

section

variable {L : MoeStreamLayer} {nExperts : ℕ} {expertIds : List ℤ} {s : MoeStreamLayer × MoeCall}

theorem Waiting.resolved (h : Waiting L.users (expertIds.map (moeExpertId nExperts)) [] s) :
    MoeResolved L nExperts expertIds s where
  ok := h.ok
  outs := fun k eid hk => by
    have hlt : k < s.2.outs.length := by
      obtain ⟨hlt, -⟩ := List.getElem?_eq_some_iff.mp hk
      rw [h.call.length, h.ids, List.length_map]
      exact hlt
    have hid : s.2.id k = moeExpertId nExperts eid := by
      rw [MoeCall.id, h.ids, List.getD_eq_getElem?_getD, List.getElem?_map, hk]
      rfl
    have hout := List.getElem?_eq_getElem hlt
    have hfilled := h.call.filled k List.not_mem_nil _ hout
    have hheld := h.call.holds.holder_eq (o := s.2.outs[k])
      (List.mem_append_left _ (List.getElem_mem hlt))
    refine ⟨_, hout, ?_⟩
    rw [hid, moeExpertId] at hfilled
    split_ifs at hfilled ⊢
    · rcases hfilled with hfilled | ⟨-, hfail⟩
      · rw [hheld]
        exact hfilled
      · cases hfail
    · exact hfilled
  uses := fun r => by
    have htally := h.call.holds.tally r
    have hcount := h.call.holds.holder_count r
    rw [List.append_nil] at htally hcount
    rw [hcount]
    exact htally

theorem Spoiled.not_resolved {w : List ℕ}
    (h : Spoiled L.users (expertIds.map (moeExpertId nExperts)) w s) :
    ¬ MoeResolved L nExperts expertIds s := by
  intro hres
  rcases h.spoiled with hfail | ⟨base, r, hlt, ⟨base', hbase, hholds⟩, -⟩
  · cases hfail.symm.trans hres.ok
  · have htally := hholds.tally r
    have hcount := hholds.holder_count r
    rw [List.append_nil] at htally hcount
    have huses := hres.uses r
    rw [hcount] at huses
    have hle : base r ≤ base' r := hbase r
    simp only [users] at hlt
    omega

end

section

variable {L : MoeStreamLayer} (hinv : MoeInv ⟨L, []⟩) (hq : MoeQuiet L [])
include hinv hq

theorem resolve_of_awaitedStay {ids : List (Option ℕ)} {now : UInt64}
    (hstay : AwaitedStay L ids now) :
    Waiting L.users ids [] (moeStreamResolve L ids now fun _ => true) := by
  have hcollect := resolveCollectMisses_alone hinv hq ids now
  have hrewait : Rewaiting L.users ids (resolveCollectMisses L ids now).2.waits
      (resolveCollectMisses L ids now) := by
    refine ⟨hcollect, fun k hk => ?_, fun k hk => hk⟩
    obtain ⟨e, he, -⟩ := hcollect.asleep k hk
    exact ⟨e, he, hstay k hk e he⟩
  have hcommit := (foldl_todo (fun _ _ _ h => h.rewaitMiss) _ hrewait).committing
  have hwait := (foldl_todo (fun _ _ _ h => h.commitMiss) _ hcommit).waiting
  exact foldl_todo (fun _ _ _ h => h.waitReady) _ hwait

theorem resolve_of_not_awaitedStay {ids : List (Option ℕ)} {now : UInt64}
    (hgone : ¬ AwaitedStay L ids now) :
    ∃ w, Spoiled L.users ids w (moeStreamResolve L ids now fun _ => true) := by
  have hcollect := resolveCollectMisses_alone hinv hq ids now
  have hstart : Losing L.users ids (resolveCollectMisses L ids now).2.waits
      (resolveCollectMisses L ids now).2.waits (resolveCollectMisses L ids now) := by
    refine ⟨⟨⟨L.users, le_rfl, hcollect.call.holds⟩, hcollect.ids, ?_, hcollect.call.misses⟩, rfl,
      fun k hk => ?_, fun k hk => hk, Or.inl ?_⟩
    · rw [hcollect.call.length, hcollect.ids]
    · obtain ⟨e, he, -⟩ := hcollect.asleep k hk
      exact ⟨e, he⟩
    · simp only [AwaitedStay] at hgone
      push Not at hgone
      exact hgone
  have hnodup : (resolveCollectMisses L ids now).2.waits.Nodup := by
    have hawaited := hcollect.call.pending.nodup
    rw [List.nil_append, MoeCall.awaited] at hawaited
    exact (List.nodup_append.mp hawaited).1
  unfold moeStreamResolve
  generalize resolveCollectMisses L ids now = s at hstart hnodup ⊢
  have hlosing := foldl_todo (fun _ _ _ h => h.rewaitMiss) _ hstart
  obtain ⟨ms, m, hms, hending⟩ := hlosing.ending
  dsimp only [moeLoop] at hms hending ⊢
  rw [hms, List.foldl_append]
  have hlast := (foldl_todo (fun _ _ _ h => h.commitMiss) _ hending).doubling
  simp only [List.foldl_cons, List.foldl_nil]
  generalize MoeCall.commitMiss _ _ m true = s' at hlast ⊢
  rw [hlast.waits]
  generalize s.2.waits = w at hnodup hlast ⊢
  obtain ⟨before, after, rfl⟩ := List.append_of_mem hlast.mem
  obtain ⟨-, -, hapart⟩ := List.nodup_append.mp hnodup
  refine ⟨before ++ m.k :: after, ?_⟩
  rw [List.foldl_append, List.foldl_cons]
  -- up to the id of the last miss its out slot stays, from there on the use is lost
  have hbefore := foldl_todo (P := fun todo s => Doubling L.users ids (before ++ m.k :: after) m.k s ∧
      ∀ k ∈ todo, m.k ≠ k ∧ k ∈ before ++ m.k :: after)
    (fun k todo s h => ⟨h.1.waitReady (h.2 k List.mem_cons_self).1 (h.2 k List.mem_cons_self).2,
      fun k' hk' => h.2 k' (List.mem_cons_of_mem _ hk')⟩) before
    ⟨hlast, fun k hk => ⟨(hapart k hk m.k List.mem_cons_self).symm, List.mem_append_left _ hk⟩⟩
  exact (foldl_todo (P := fun todo s => Spoiled L.users ids (before ++ m.k :: after) s ∧
      ∀ k ∈ todo, k ∈ before ++ m.k :: after)
    (fun k todo s h => ⟨h.1.waitReady (h.2 k List.mem_cons_self),
      fun k' hk' => h.2 k' (List.mem_cons_of_mem _ hk')⟩) after
    ⟨hbefore.1.spoiled, fun k hk => by simp [hk]⟩).1

end

/-- A lone call serves its caller right if and only if its inserts throw out no expert that another
of its ids waits for. -/
theorem moeStreamResolve_iff (lruCap tierCap : ℕ) (pins : List (ℕ × PinResult)) (ops : List MoeOp)
    (hidle : (ops.foldl MoeStream.apply (MoeStream.init lruCap tierCap pins)).misses = [])
    (nExperts : ℕ) (expertIds : List ℤ) (now : UInt64) :
    let L := (ops.foldl MoeStream.apply (MoeStream.init lruCap tierCap pins)).layer
    let ids := expertIds.map (moeExpertId nExperts)
    MoeResolved L nExperts expertIds (moeStreamResolve L ids now fun _ => true) ↔
      AwaitedStay L ids now := by
  intro L ids
  have hinv := MoeInv.run lruCap tierCap pins ops
  have hq := MoeQuiet.run lruCap tierCap pins ops
  have hlayer : MoeInv ⟨L, []⟩ := by
    rw [← hidle]
    exact hinv
  have hquiet : MoeQuiet L [] := by
    rw [← hidle]
    exact hq
  constructor
  · intro hres
    by_contra hgone
    obtain ⟨w, hspoiled⟩ := resolve_of_not_awaitedStay hlayer hquiet hgone
    exact hspoiled.not_resolved hres
  · intro hstay
    exact (resolve_of_awaitedStay hlayer hquiet hstay).resolved

/-- A repeated id and one that is no expert's, on an empty cache of one slot. -/
theorem moeStreamResolve_repeated :
    (MoeStream.init 1 0 []).misses = [] ∧
      MoeResolved (MoeStream.init 1 0 []).layer 8 [5, 5, -1]
        (moeStreamResolve (MoeStream.init 1 0 []).layer ([5, 5, -1].map (moeExpertId 8)) 1
          fun _ => true) :=
  ⟨rfl, (moeStreamResolve_iff 1 0 [] [] rfl 8 [5, 5, -1] 1).mpr (by decide +kernel)⟩

/-- The insert of expert 6 throws out expert 5, which the second id waits for: it is inserted again,
and its slot is taken by the commit and once more by the last wait loop. -/
theorem moeStreamResolve_usedTwice :
    ¬ MoeResolved (MoeStream.init 1 0 []).layer 8 [5, 5, 6]
      (moeStreamResolve (MoeStream.init 1 0 []).layer ([5, 5, 6].map (moeExpertId 8)) 1
        fun _ => true) := by
  intro hres
  have huses := hres.uses (.lru 0)
  revert huses
  decide +kernel

end Kappai
