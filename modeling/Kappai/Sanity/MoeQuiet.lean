import Kappai.Sanity.MoeUse
import Mathlib.Data.List.Flatten

/-! What a lookup may rely on in every reachable state: a slot that is not ready waits for a miss
under way, and an expert has one slot. -/

namespace Kappai

open MoeStreamLayer

/-- The expert has a pinned slot. -/
def MoeStreamLayer.Pinned (L : MoeStreamLayer) (e : ℕ) : Prop :=
  ∃ p, L.eidToPinned e = some p ∧ p < L.nPinned ∧ (L.pinnedSlots p).eid = some e

structure MoeQuiet (L : MoeStreamLayer) (misses : List MoeMissEntry) : Prop where
  awaited : ∀ i < L.nLru, (L.lruSlots i).ioReady = false →
    ∃ me ∈ misses, me.slot = some i ∧ me.gen = (L.lruSlots i).gen
  pinnedReady : ∀ p e, (L.pinnedSlots p).eid = some e → (L.pinnedSlots p).ioReady = true
  apart : ∀ e, L.Resident e → ¬ L.Pinned e
  tmpIdle : ∀ me ∈ misses, me.tmp.inuse = 0

namespace MoeQuiet

variable {L L' : MoeStreamLayer} {misses misses' : List MoeMissEntry}

theorem pinned_iff {new : Option (ℕ × ℕ)} (h : Tame L L' new) (e : ℕ) :
    L'.Pinned e ↔ L.Pinned e := by
  unfold MoeStreamLayer.Pinned
  simp only [h.eidToPinned, h.nPinned, (h.pinned _).1]

theorem tame (hq : MoeQuiet L misses) (h : Tame L L' none) : MoeQuiet L' misses where
  awaited := fun i hi hr => by
    rcases h.wakes i hi hr with ⟨e, he⟩ | ⟨hi', hr', hg⟩
    · cases he
    · obtain ⟨me, hme, hslot, hgen⟩ := hq.awaited i hi' hr'
      exact ⟨me, hme, hslot, hgen.trans hg.symm⟩
  pinnedReady := fun p e he => by
    rw [(h.pinned p).1] at he
    rw [(h.pinned p).2]
    exact hq.pinnedReady p e he
  apart := fun e he hp => by
    rcases h.resident e he with ⟨i, hi⟩ | he'
    · cases hi
    · exact hq.apart e he' ((pinned_iff h e).mp hp)
  tmpIdle := hq.tmpIdle

theorem perm (hq : MoeQuiet L misses) (h : misses.Perm misses') : MoeQuiet L misses' where
  awaited := fun i hi hr => by
    obtain ⟨me, hme, hslot⟩ := hq.awaited i hi hr
    exact ⟨me, h.mem_iff.mp hme, hslot⟩
  pinnedReady := hq.pinnedReady
  apart := hq.apart
  tmpIdle := fun me hme => hq.tmpIdle me (h.mem_iff.mpr hme)

/-- A miss that found no slot waits for none. -/
theorem addPrivate (hq : MoeQuiet L misses) {me : MoeMissEntry} (htmp : me.tmp.inuse = 0) :
    MoeQuiet L (misses ++ [me]) where
  awaited := fun i hi hr => by
    obtain ⟨b, hb, hbs⟩ := hq.awaited i hi hr
    exact ⟨b, List.mem_append_left _ hb, hbs⟩
  pinnedReady := hq.pinnedReady
  apart := hq.apart
  tmpIdle := fun b hb => by
    rcases List.mem_append.mp hb with hb | hb
    · exact hq.tmpIdle b hb
    · rw [List.mem_singleton.mp hb]
      exact htmp

theorem add (hq : MoeQuiet L misses) {me : MoeMissEntry} {i e : ℕ} (h : Tame L L' (some (i, e)))
    (hslot : me.slot = some i) (hgen : me.gen = (L'.lruSlots i).gen) (hp : ¬ L.Pinned e)
    (htmp : me.tmp.inuse = 0) : MoeQuiet L' (misses ++ [me]) where
  awaited := fun k hk hr => by
    rcases h.wakes k hk hr with ⟨e', he'⟩ | ⟨hk', hr', hg⟩
    · obtain rfl : i = k := congrArg Prod.fst (Option.some.inj he')
      exact ⟨me, List.mem_append_right _ (List.mem_singleton_self _), hslot, hgen⟩
    · obtain ⟨b, hb, hbs, hbg⟩ := hq.awaited k hk' hr'
      exact ⟨b, List.mem_append_left _ hb, hbs, hbg.trans hg.symm⟩
  pinnedReady := fun p e he => by
    rw [(h.pinned p).1] at he
    rw [(h.pinned p).2]
    exact hq.pinnedReady p e he
  apart := fun e' he' hp' => by
    rw [pinned_iff h] at hp'
    rcases h.resident e' he' with ⟨k, hk⟩ | hres
    · obtain rfl : e = e' := congrArg Prod.snd (Option.some.inj hk)
      exact hp hp'
    · exact hq.apart e' hres hp'
  tmpIdle := fun b hb => by
    rcases List.mem_append.mp hb with hb | hb
    · exact hq.tmpIdle b hb
    · rw [List.mem_singleton.mp hb]
      exact htmp

/-- A miss is done with once its slot is ready. -/
theorem remove {me : MoeMissEntry} (hq : MoeQuiet L (me :: misses)) (h : Tame L L' none)
    (hready : ∀ i, me.slot = some i → (L.lruSlots i).gen = me.gen →
      (L'.lruSlots i).ioReady = true) : MoeQuiet L' misses where
  awaited := fun i hi hr => by
    rcases h.wakes i hi hr with ⟨e, he⟩ | ⟨hi', hr', hg⟩
    · cases he
    · obtain ⟨b, hb, hbs, hbg⟩ := hq.awaited i hi' hr'
      rcases List.mem_cons.mp hb with rfl | hb
      · cases hr.symm.trans (hready i hbs hbg.symm)
      · exact ⟨b, hb, hbs, hbg.trans hg.symm⟩
  pinnedReady := (hq.tame h).pinnedReady
  apart := (hq.tame h).apart
  tmpIdle := fun b hb => hq.tmpIdle b (List.mem_cons_of_mem _ hb)

end MoeQuiet

/-- An expert that is not found is not pinned. -/
theorem MoeStreamLayer.not_pinned {L : MoeStreamLayer} {e : ℕ} (h : L.liveSlotFind e = none) :
    ¬ L.Pinned e := by
  rintro ⟨p, hp, hlt, heid⟩
  unfold liveSlotFind at h
  rw [hp] at h
  simp only [hlt, heid, and_self, if_true] at h
  cases h

/-- The live slot of an expert is the one that holds it. -/
theorem MoeStreamLayer.liveSlotFind_eq {L : MoeStreamLayer} (hT : Tables L none)
    {misses : List MoeMissEntry} (hq : MoeQuiet L misses) {e : ℕ}
    {r : SlotRef} : L.liveSlotFind e = some r ↔
      match r with
      | .pinned p => L.eidToPinned e = some p ∧ p < L.nPinned ∧ (L.pinnedSlots p).eid = some e
      | .tier t => t < L.tierCap ∧ (L.tierSlots t).eid = some e
      | .lru i => i < L.nLru ∧ (L.lruSlots i).eid = some e := by
  have hpin : ∀ p, L.eidToPinned e = some p → p < L.nPinned ∧ (L.pinnedSlots p).eid = some e →
      L.Pinned e := fun p hp h => ⟨p, hp, h.1, h.2⟩
  have hlru : liveSlotFind.lru L e = some r ↔ ∃ i, r = .lru i ∧ i < L.nLru ∧
      (L.lruSlots i).eid = some e := by
    unfold liveSlotFind.lru
    cases he : L.eidToLru e with
    | none =>
      refine ⟨nofun, fun ⟨i, _, hi, hie⟩ => ?_⟩
      cases he.symm.trans (hT.lruOwn i hi e hie)
    | some i =>
      have hi := hT.lru e i he
      simp only [hi, and_self, if_true, Option.some.injEq]
      refine ⟨fun h => ⟨i, h.symm, hi⟩, fun ⟨k, hr, hk, hke⟩ => ?_⟩
      rw [hr, Option.some.inj (he.symm.trans (hT.lruOwn k hk e hke))]
  have hother : liveSlotFind.other L e = some r ↔ (∃ t, r = .tier t ∧ t < L.tierCap ∧
      (L.tierSlots t).eid = some e) ∨ ∃ i, r = .lru i ∧ i < L.nLru ∧
      (L.lruSlots i).eid = some e := by
    unfold liveSlotFind.other
    cases he : L.eidToTier e with
    | none =>
      rw [hlru]
      refine ⟨Or.inr, fun h => h.resolve_left fun ⟨t, _, ht, hte⟩ => ?_⟩
      cases he.symm.trans (hT.tierOwn t ht e hte)
    | some t =>
      have ht := hT.tier e t he
      simp only [ht, and_self, if_true, Option.some.injEq]
      constructor
      · intro h
        exact Or.inl ⟨t, h.symm, ht⟩
      · rintro (⟨k, hr, hk, hke⟩ | ⟨i, -, hi, hie⟩)
        · rw [hr, Option.some.inj (he.symm.trans (hT.tierOwn k hk e hke))]
        · have hno := (hT.apart e i (hT.lruOwn i hi e hie)).resolve_right (by simp)
          cases he.symm.trans hno
  have hfind : L.liveSlotFind e = some r ↔ (∃ p, r = .pinned p ∧ L.eidToPinned e = some p ∧
      p < L.nPinned ∧ (L.pinnedSlots p).eid = some e) ∨ liveSlotFind.other L e = some r := by
    unfold liveSlotFind
    cases he : L.eidToPinned e with
    | none => simp
    | some p =>
      by_cases hp : p < L.nPinned ∧ (L.pinnedSlots p).eid = some e
      · have hpe := hpin p he hp
        simp only [hp, and_self, if_true, Option.some.injEq, hother]
        constructor
        · intro h
          exact Or.inl ⟨p, h.symm, rfl, hp⟩
        · rintro (⟨q, hr, hq, -⟩ | ⟨t, -, ht, hte⟩ | ⟨i, -, hi, hie⟩)
          · rw [hr, hq]
          · exact absurd hpe (hq.apart e (Or.inr ⟨t, ht, hte⟩))
          · exact absurd hpe (hq.apart e (Or.inl ⟨i, hi, hie⟩))
      · simp only [hp, if_false]
        refine ⟨Or.inr, fun h => h.resolve_left fun ⟨q, _, hq, hqe⟩ => ?_⟩
        obtain rfl : p = q := Option.some.inj hq
        exact hp hqe
  rw [hfind, hother]
  cases r with
  | pinned p => simp
  | tier t => simp
  | lru i => simp

/-! ### The insert of a miss -/

/-- An insert for an expert that is nowhere: the slot it gives out is new, the others stay. -/
theorem MoeStream.miss_effect {s : MoeStream} (hs : MoeInv s) {e : ℕ}
    (hnone : s.layer.liveSlotFind e = none) (now : UInt64) :
    ∃ me : MoeMissEntry, (s.miss e now).misses = s.misses ++ [me] ∧ me.eid = e ∧
      me.tmp.eid = some e ∧ me.tmp.inuse = 0 ∧ Takes s.layer (s.miss e now).layer none ∧
      ((me.slot = none ∧ Read s.layer (s.miss e now).layer) ∨
        ∃ i, me.slot = some i ∧ me.gen = ((s.miss e now).layer.lruSlots i).gen ∧
          Inserted s.layer (s.miss e now).layer i e) := by
  obtain ⟨hlru, htier⟩ := liveSlotFind_none hs.tables hnone
  obtain ⟨-, hprog, hsame, hnew⟩ :=
    layerInsertLru_tables hs.heap hs.tables hlru (Or.inl htier) now
  obtain ⟨hfull, hsome⟩ := layerInsertLru_slots hs.heap hs.tables e now
  unfold MoeStream.miss
  generalize s.layer.layerInsertLru e now = out at hprog hsame hnew hfull hsome ⊢
  obtain ⟨L, i⟩ := out
  cases i with
  | none =>
    obtain ⟨hread, htakes⟩ := hfull rfl
    exact ⟨_, rfl, rfl, rfl, rfl, htakes, Or.inl ⟨rfl, hread⟩⟩
  | some i =>
    obtain ⟨huse, hslots, hlt⟩ := hsome i rfl
    have hslot := hnew i rfl
    have hat : (L.setLru i ((L.lruSlots i).fromExpertDesc e)).lruSlots i =
        (L.lruSlots i).fromExpertDesc e := Function.update_self ..
    have hslots' : ∀ k ≠ i, (L.setLru i ((L.lruSlots i).fromExpertDesc e)).lruSlots k =
        s.layer.lruSlots k := fun k hk => (Function.update_of_ne hk _ _).trans (hslots k hk)
    have hsame' : SameOthers s.layer (L.setLru i ((L.lruSlots i).fromExpertDesc e)) :=
      ⟨hsame.tierCap, hsame.tierSlots, hsame.eidToTier, hsame.nPinned, hsame.pinnedSlots,
        hsame.eidToPinned⟩
    refine ⟨_, rfl, rfl, rfl, hslot.inuse, .of_lru hslots' hsame' huse ?_,
      Or.inr ⟨i, rfl, by rw [hat], ?_⟩⟩
    · rw [hat]
      exact hslot.inuse
    · have hnew' : NewSlot s.layer (L.setLru i ((L.lruSlots i).fromExpertDesc e)) i e := by
        refine ⟨hslot.lt, by rw [hat]; rfl, by rw [hat]; exact hslot.ioReady,
          by rw [hat]; exact hslot.inuse, by rw [hat]; rfl, hslot.mapped, fun hi => ?_⟩
        rw [hat]
        exact hslot.gen hi
      exact ⟨hnew', hsame', hslots', hprog.nLru, hlt⟩

theorem MoeQuiet.miss {s : MoeStream} (hs : MoeInv s) (hq : MoeQuiet s.layer s.misses) {e : ℕ}
    (hnone : s.layer.liveSlotFind e = none) (now : UInt64) :
    MoeQuiet (s.miss e now).layer (s.miss e now).misses := by
  obtain ⟨me, hmisses, -, -, htmp, -, ⟨-, hread⟩ | ⟨i, hslot, hgen, hins⟩⟩ :=
    MoeStream.miss_effect hs hnone now
  · rw [hmisses]
    exact (hq.tame hread.tame).addPrivate htmp
  · rw [hmisses]
    exact hq.add hins.tame hslot hgen (not_pinned hnone) htmp

theorem MoeQuiet.commit {s : MoeStream} (hs : MoeInv s) (hq : MoeQuiet s.layer s.misses) {k : ℕ}
    {me : MoeMissEntry} (hk : s.misses[k]? = some me) (fetched : Bool) :
    MoeQuiet (s.layer.missCommit me fetched) (s.misses.eraseIdx k) := by
  obtain ⟨hlt, hget⟩ := List.getElem?_eq_some_iff.mp hk
  have hmem : me ∈ s.misses := List.mem_of_getElem? hk
  have hperm : (me :: s.misses.eraseIdx k).Perm s.misses := by
    rw [← hget]
    exact List.getElem_cons_eraseIdx_perm hlt
  obtain ⟨htame, -, hready⟩ := missCommit_slots hs.tables (hs.misses me hmem)
    (hq.tmpIdle me hmem) fetched
  exact (hq.perm hperm.symm).remove htame hready

theorem MoeQuiet.init (lruCap tierCap : ℕ) (pins : List (ℕ × PinResult)) :
    MoeQuiet (MoeStreamLayer.init lruCap tierCap pins) [] where
  awaited := fun i hi => absurd hi (Nat.not_lt_zero _)
  pinnedReady := by
    intro p e he
    simp only [MoeStreamLayer.init] at he ⊢
    cases hp : pins[p]? with
    | none =>
      rw [hp] at he
      cases he
    | some pin =>
      obtain ⟨e', res⟩ := pin
      rw [hp] at he
      simp only [Option.map_some, Option.getD_some] at he ⊢
      cases res with
      | failed => cases he
      | host => rfl
      | device => rfl
  apart := by
    rintro e (⟨i, hi, -⟩ | ⟨t, -, he⟩)
    · exact absurd hi (Nat.not_lt_zero _)
    · cases he
  tmpIdle := fun _ h => absurd h List.not_mem_nil

theorem MoeQuiet.apply {s : MoeStream} (hs : MoeInv s) (hq : MoeQuiet s.layer s.misses)
    (op : MoeOp) : MoeQuiet (s.apply op).layer (s.apply op).misses := by
  cases op with
  | lookup e now =>
    have hread := (lookup_cases (L := s.layer) e now).1
    rw [(lookup_cases (L := s.layer) e now).2.1] at hread
    exact hq.tame hread.tame
  | miss e now =>
    simp only [MoeStream.apply]
    split_ifs with hnone
    · exact hq.miss hs hnone now
    · exact hq
  | commit k fetched =>
    simp only [MoeStream.apply]
    split
    · exact hq.commit hs ‹_› fetched
    · exact hq
  | release e => exact hq.tame (release_read e).1.tame
  | evict i clock =>
    simp only [MoeStream.apply]
    split_ifs with hif
    · have hmove := hif.2
      simp only [MoeExpertSlot.movable, Bool.and_eq_true, beq_iff_eq] at hmove
      exact hq.tame (lruSlotClear_slots hs.tables hif.1 hmove.1.2 hmove.2 clock).2
    · exact hq
  | promote i victim uploaded copied clock =>
    simp only [MoeStream.apply]
    split_ifs with hif
    · exact hq.tame (tierPromote_slots hs.tables hif.1 hif.2.1 hif.2.2 uploaded copied clock).1
    · exact hq
  | demote t copied clock =>
    simp only [MoeStream.apply]
    split_ifs with hif
    · exact hq.tame (tierDemote_slots hs.tables hs.heap hif.1 hif.2 copied clock).1
    · exact hq

/-! Use counts against the out slots that stand for them. -/

open MoeStreamLayer

/-- How many of the out slots hold the slot. -/
def holds (outs : List MoeOutSlot) (r : SlotRef) : ℕ := outs.countP fun o => o.held = some r

theorem holds_cons (o : MoeOutSlot) (outs : List MoeOutSlot) (r : SlotRef) :
    holds (o :: outs) r = holds outs r + if o.held = some r then 1 else 0 := by
  simp only [holds, List.countP_cons, decide_eq_true_eq]

theorem holds_perm {outs outs' : List MoeOutSlot} (h : outs.Perm outs') (r : SlotRef) :
    holds outs r = holds outs' r := h.countP_eq _

theorem holds_pos {outs : List MoeOutSlot} {o : MoeOutSlot} {r : SlotRef} (h : o ∈ outs)
    (hr : o.held = some r) : 0 < holds outs r :=
  List.countP_pos_iff.mpr ⟨o, h, by simpa using hr⟩

/-- What an out slot holds is the live slot of its expert, of which it is a copy. -/
structure OutOk (L : MoeStreamLayer) (o : MoeOutSlot) (r : SlotRef) : Prop where
  owned : o.owned = false
  ready : o.slot.ioReady = true
  live : ∃ e, o.slot.eid = some e ∧ L.liveSlotFind e = some r
  weights : SameWeights (L.slot r) o.slot

/-- The misses under way and the out slots of the calls on a layer. `base` counts holders
elsewhere. -/
structure MoeHolds (base : SlotRef → ℕ) (misses : List MoeMissEntry) (L : MoeStreamLayer)
    (outs : List MoeOutSlot) : Prop where
  inv : MoeInv ⟨L, misses⟩
  quiet : MoeQuiet L misses
  tally : ∀ r, (L.slot r).inuse = base r + holds outs r
  held : ∀ o ∈ outs, ∀ r, o.held = some r → OutOk L o r
  unheld : ∀ o ∈ outs, o.held = none → o.owned = true ∨ o.slot.eid = none

namespace MoeStreamLayer

variable {L : MoeStreamLayer} {misses : List MoeMissEntry} {e : ℕ} {r : SlotRef}

theorem liveSlotFind_eid (hT : Tables L none) (hq : MoeQuiet L misses)
    (h : L.liveSlotFind e = some r) : (L.slot r).eid = some e := by
  rw [liveSlotFind_eq hT hq] at h
  cases r with
  | pinned p => exact h.2.2
  | tier t => exact h.2
  | lru i => exact h.2

/-- A live slot that is ready has the weights of its expert. -/
theorem live_loaded (hT : Tables L none) (hP : PinnedTables L) (hq : MoeQuiet L misses)
    (h : L.liveSlotFind e = some r) (hr : (L.slot r).ioReady = true) : (L.slot r).Loaded := by
  have heid := liveSlotFind_eid hT hq h
  rw [liveSlotFind_eq hT hq] at h
  cases r with
  | pinned p => exact hP.loaded p h.2.1 e h.2.2
  | tier t =>
    refine Or.inr ?_
    rw [heid]
    exact (hT.tierLoaded t h.1 e h.2).2
  | lru i =>
    refine Or.inl ?_
    rw [heid]
    exact hT.lruLoaded i h.1 hr e h.2

end MoeStreamLayer

namespace MoeHolds

variable {base : SlotRef → ℕ} {misses misses' : List MoeMissEntry} {L L' : MoeStreamLayer}
  {o : MoeOutSlot} {outs outs' : List MoeOutSlot}

theorem perm (h : MoeHolds base misses L outs) (hm : misses.Perm misses')
    (ho : outs.Perm outs') : MoeHolds base misses' L outs' where
  inv := ⟨h.inv.heap, h.inv.tables, h.inv.pinned, fun me hme => h.inv.misses me (hm.mem_iff.mpr hme),
    (hm.pairwise_iff fun hab => Apart.symm hab).mp h.inv.apart⟩
  quiet := h.quiet.perm hm
  tally := fun r => by rw [h.tally r, holds_perm ho r]
  held := fun o hout => h.held o (ho.mem_iff.mpr hout)
  unheld := fun o hout => h.unheld o (ho.mem_iff.mpr hout)

/-- The out slot is overwritten: what it holds is held by nobody here. -/
theorem drop (h : MoeHolds base misses L (o :: outs)) :
    MoeHolds (fun r => base r + if o.held = some r then 1 else 0) misses L outs where
  inv := h.inv
  quiet := h.quiet
  tally := fun r => by rw [h.tally r, holds_cons, Nat.add_right_comm, Nat.add_assoc]
  held := fun o' ho' => h.held o' (List.mem_cons_of_mem _ ho')
  unheld := fun o' ho' => h.unheld o' (List.mem_cons_of_mem _ ho')

theorem dropUnheld (h : MoeHolds base misses L (o :: outs)) (ho : o.held = none) :
    MoeHolds base misses L outs := by
  have hdrop := h.drop
  simpa only [ho, reduceCtorEq, if_false, Nat.add_zero] using hdrop

theorem pushUnheld (h : MoeHolds base misses L outs) (ho : o.held = none)
    (ho' : o.owned = true ∨ o.slot.eid = none) : MoeHolds base misses L (o :: outs) where
  inv := h.inv
  quiet := h.quiet
  tally := fun r => by rw [h.tally r, holds_cons, ho, if_neg (by simp), Nat.add_zero]
  held := fun o' hmem r hr => by
    rcases List.mem_cons.mp hmem with rfl | hmem
    · cases ho.symm.trans hr
    · exact h.held o' hmem r hr
  unheld := fun o' hmem hr => by
    rcases List.mem_cons.mp hmem with rfl | hmem
    · exact ho'
    · exact h.unheld o' hmem hr

/-- A slot that is held stays the live slot of its expert. -/
theorem kept (h : MoeHolds base misses L outs) (hinv : MoeInv ⟨L', misses'⟩)
    (hq : MoeQuiet L' misses') {new : Option (ℕ × ℕ)} {took : Option SlotRef}
    (htame : Tame L L' new) (htakes : Takes L L' took) (ho : o ∈ outs) {r : SlotRef}
    (hr : o.held = some r) : OutOk L' o r := by
  obtain ⟨howned, hready, ⟨e, he, hlive⟩, hw⟩ := h.held o ho r hr
  have huse : 0 < (L.slot r).inuse := by
    rw [h.tally r]
    have := holds_pos ho hr
    omega
  have hsame := htakes.same r huse
  refine ⟨howned, hready, ⟨e, he, ?_⟩, ⟨hw.eid.trans hsame.eid.symm,
    hw.heapBuf.trans hsame.heapBuf.symm, hw.dev.trans hsame.dev.symm, hw.gen.trans hsame.gen.symm,
    hw.ioReady.trans hsame.ioReady.symm⟩⟩
  rw [liveSlotFind_eq h.inv.tables h.quiet] at hlive
  rw [liveSlotFind_eq hinv.tables hq]
  have heid := hsame.eid
  cases r with
  | pinned p =>
    refine ⟨by rw [htame.eidToPinned]; exact hlive.1, by rw [htame.nPinned]; exact hlive.2.1, ?_⟩
    exact heid.trans hlive.2.2
  | tier t => exact ⟨by rw [htame.tierCap]; exact hlive.1, heid.trans hlive.2⟩
  | lru i => exact ⟨Nat.lt_of_lt_of_le hlive.1 htame.nLru, heid.trans hlive.2⟩

/-- A step that takes no slot. -/
theorem move (h : MoeHolds base misses L outs) (hinv : MoeInv ⟨L', misses'⟩)
    (hq : MoeQuiet L' misses') {new : Option (ℕ × ℕ)} (htame : Tame L L' new)
    (htakes : Takes L L' none) : MoeHolds base misses' L' outs where
  inv := hinv
  quiet := hq
  tally := fun r => by rw [htakes.use r, if_neg (by simp), Nat.add_zero, h.tally r]
  held := fun _ ho _ hr => h.kept hinv hq htame htakes ho hr
  unheld := h.unheld

/-- A step that takes a slot for one more out slot. -/
theorem take (h : MoeHolds base misses L outs) (hinv : MoeInv ⟨L', misses'⟩)
    (hq : MoeQuiet L' misses') {new : Option (ℕ × ℕ)} (htame : Tame L L' new) {r : SlotRef}
    (htakes : Takes L L' (some r)) (hr : o.held = some r) (ho : OutOk L' o r) :
    MoeHolds base misses' L' (o :: outs) where
  inv := hinv
  quiet := hq
  tally := fun r' => by rw [htakes.use r', h.tally r', holds_cons, hr, Nat.add_assoc]
  held := fun o' hmem r' hr' => by
    rcases List.mem_cons.mp hmem with rfl | hmem
    · obtain rfl : r = r' := Option.some.inj (hr.symm.trans hr')
      exact ho
    · exact h.kept hinv hq htame htakes hmem hr'
  unheld := fun o' hmem hr' => by
    rcases List.mem_cons.mp hmem with rfl | hmem
    · cases hr.symm.trans hr'
    · exact h.unheld o' hmem hr'

/-- A lookup: what it takes is held by the out slot it fills. -/
theorem lookup (h : MoeHolds base misses L outs) (e : ℕ) (now : UInt64) :
    match (L.lookup e now).2 with
    | .ready out => MoeHolds base misses (L.lookup e now).1 (out :: outs) ∧
        out.slot.eid = some e ∧ out.slot.Loaded ∧ out.owned = false ∧ out.held ≠ none
    | _ => MoeHolds base misses (L.lookup e now).1 outs := by
  obtain ⟨hread, heq, hcase⟩ := lookup_cases (L := L) e now
  have hinv : MoeInv ⟨(L.lookup e now).1, misses⟩ := by
    rw [heq]
    exact h.inv.kept (h.inv.heap.takeReady e now) (takeReady_kept h.inv.tables h.inv.pinned e now)
  have hq := h.quiet.tame hread.tame
  generalize L.lookup e now = res at hread hcase hinv hq ⊢
  obtain ⟨L', found⟩ := res
  cases found with
  | absent => exact h.move hinv hq hread.tame hcase.2
  | notReady => exact h.move hinv hq hread.tame hcase.2
  | ready out =>
    obtain ⟨r, hfind, hready, hheld, howned, hweights, htakes⟩ := hcase
    have heid := liveSlotFind_eid h.inv.tables h.quiet hfind
    have hloaded := live_loaded h.inv.tables h.inv.pinned h.quiet hfind hready
    have hsame := hread.weights r
    have hout : out.slot.eid = some e := hweights.eid.trans heid
    refine ⟨h.take hinv hq hread.tame htakes hheld ⟨howned, hweights.ioReady.trans hready,
      ⟨e, hout, ?_⟩, ⟨hweights.eid.trans hsame.eid.symm, hweights.heapBuf.trans hsame.heapBuf.symm,
        hweights.dev.trans hsame.dev.symm, hweights.gen.trans hsame.gen.symm,
        hweights.ioReady.trans hsame.ioReady.symm⟩⟩, hout, ?_, howned, by simp [hheld]⟩
    · rw [hread.liveSlotFind e]
      exact hfind
    · unfold MoeExpertSlot.Loaded
      rw [hweights.heapBuf, hweights.dev, hweights.eid]
      exact hloaded

theorem miss (h : MoeHolds base misses L outs) {e : ℕ} (hnone : L.liveSlotFind e = none)
    (now : UInt64) : MoeHolds base (MoeStream.miss ⟨L, misses⟩ e now).misses
      (MoeStream.miss ⟨L, misses⟩ e now).layer outs := by
  have hinv := h.inv.miss hnone now
  have hq := h.quiet.miss h.inv hnone now
  obtain ⟨_, -, -, -, -, htakes, ⟨-, hread⟩ | ⟨_, -, -, hins⟩⟩ :=
    MoeStream.miss_effect h.inv hnone now
  · exact h.move hinv hq hread.tame htakes
  · exact h.move hinv hq hins.tame htakes

/-- A commit gives its out slot the slot of the miss, or a private buffer. -/
theorem commit {me : MoeMissEntry} (h : MoeHolds base (me :: misses) L outs) (fetched : Bool) :
    MoeHolds base misses (L.missCommit me fetched) (MoeCall.commitOut L me fetched :: outs) := by
  have hinv : MoeInv ⟨L.missCommit me fetched, misses⟩ := h.inv.commit (k := 0) rfl fetched
  have hq : MoeQuiet (L.missCommit me fetched) misses := h.quiet.commit h.inv (k := 0) rfl fetched
  have hmem : me ∈ me :: misses := List.mem_cons_self
  have hmiss := h.inv.misses me hmem
  obtain ⟨htame, htakes, -⟩ :=
    missCommit_slots h.inv.tables hmiss (h.quiet.tmpIdle me hmem) fetched
  cases hheld : (MoeCall.commitOut L me fetched).held with
  | none =>
    rw [hheld] at htakes
    refine (h.move hinv hq htame htakes).pushUnheld hheld ?_
    unfold MoeCall.commitOut at hheld ⊢
    split_ifs
    · cases hslot : me.slot with
      | none => exact Or.inl rfl
      | some i =>
        rw [hslot] at hheld
        dsimp only at hheld ⊢
        split_ifs at hheld ⊢
        exact Or.inl rfl
    · exact Or.inr rfl
  | some r =>
    rw [hheld] at htakes
    have hin : ∃ i, me.slot = some i ∧ (L.lruSlots i).gen = me.gen := by
      by_contra hno
      have hlate : ∀ i, me.slot = some i → (L.lruSlots i).gen ≠ me.gen :=
        fun i hi hg => hno ⟨i, hi, hg⟩
      cases (missCommit_late hlate fetched).2.symm.trans hheld
    obtain ⟨i, hslot, hg⟩ := hin
    obtain ⟨s, hs, hn, -, -, -, hout⟩ :=
      missCommit_inTime h.inv.tables hslot (hmiss i hslot) hg fetched
    cases fetched with
    | false =>
      rw [if_neg (by simp)] at hout
      rw [hout.2.2] at hheld
      cases hheld
    | true =>
      rw [if_pos rfl] at hout
      obtain ⟨rfl, hout⟩ := hout
      refine h.take hinv hq htame htakes hheld ?_
      rw [hout] at hheld ⊢
      obtain rfl : SlotRef.lru i = r := Option.some.inj hheld
      have hat : (L.missCommit me true).slot (.lru i) =
          { me.tmp with heapBuf := me.tmp.eid, ioReady := true, inuse := me.tmp.inuse + 1 } := by
        simp only [slot, hs, Function.update_self]
      have htmp := (hmiss i hslot).tmpEid
      refine ⟨rfl, rfl, ⟨me.eid, htmp, ?_⟩, ?_⟩
      · rw [liveSlotFind_eq hinv.tables hq]
        refine ⟨hn ▸ (hmiss i hslot).lt, ?_⟩
        simp only [hs, Function.update_self, htmp]
      · rw [hat]
        exact ⟨rfl, rfl, rfl, rfl, rfl⟩

end MoeHolds

end Kappai
