import Kappai.Sanity.MoeCalls

/-! A call of `moe_stream_resolve` with no other under way. -/

namespace Kappai

open MoeStreamLayer

namespace MoeStreamLayer

variable {L L' : MoeStreamLayer} {e : ℕ}

/-- The expert has no slot that is ready. -/
def Asleep (L : MoeStreamLayer) (e : ℕ) : Prop :=
  ∀ r, L.liveSlotFind e = some r → (L.slot r).ioReady = false

theorem Read.asleep (h : Read L L') (hs : L.Asleep e) : L'.Asleep e := fun r hr => by
  rw [h.liveSlotFind e] at hr
  rw [(h.weights r).ioReady]
  exact hs r hr

theorem lookup_asleep (hs : L.Asleep e) (now : UInt64) (out : MoeOutSlot) :
    (L.lookup e now).2 ≠ .ready out := by
  intro hfound
  obtain ⟨-, -, hcase⟩ := lookup_cases (L := L) e now
  rw [hfound] at hcase
  obtain ⟨r, hr, hready, -⟩ := hcase
  cases (hs r hr).symm.trans hready

/-- With no miss under way every live slot is ready. -/
theorem ready_of_quiet (hT : Tables L none) (hq : MoeQuiet L []) {r : SlotRef}
    (h : L.liveSlotFind e = some r) : (L.slot r).ioReady = true := by
  rw [liveSlotFind_eq hT hq] at h
  cases r with
  | pinned p => exact hq.pinnedReady p e h.2.2
  | tier t => exact (hT.tierLoaded t h.1 e h.2).1
  | lru i =>
    cases hr : (L.slot (.lru i)).ioReady with
    | true => rfl
    | false =>
      obtain ⟨_, hme, -⟩ := hq.awaited i h.1 hr
      exact absurd hme List.not_mem_nil

end MoeStreamLayer

/-- The slot an insert gives out is not ready, and the others stay. -/
theorem MoeStream.miss_asleep {s : MoeStream} (hs : MoeInv s) (hq : MoeQuiet s.layer s.misses)
    {e e' : ℕ} (hnone : s.layer.liveSlotFind e = none) (now : UInt64) (he : s.layer.Asleep e') :
    (s.miss e now).layer.Asleep e' := by
  intro r hr
  have hinv := hs.miss hnone now
  have hq' := hq.miss hs hnone now
  obtain ⟨_, -, -, -, -, -, ⟨-, hread⟩ | ⟨i, -, -, hins⟩⟩ := miss_effect hs hnone now
  · exact hread.asleep he r hr
  · rw [liveSlotFind_eq hinv.tables hq'] at hr
    have hread := fun r => he r ∘ (liveSlotFind_eq hs.tables hq).mpr
    cases r with
    | pinned p =>
      rw [hins.others.eidToPinned, hins.others.nPinned, hins.others.pinnedSlots] at hr
      simp only [slot, hins.others.pinnedSlots]
      exact hread (.pinned p) hr
    | tier t =>
      rw [hins.others.tierCap, hins.others.tierSlots] at hr
      simp only [slot, hins.others.tierSlots]
      exact hread (.tier t) hr
    | lru k =>
      rcases eq_or_ne k i with rfl | hki
      · exact hins.new.ioReady
      · dsimp only at hr
        rw [hins.slots k hki] at hr
        simp only [slot, hins.slots k hki]
        exact hread (.lru k) ⟨hins.lt k hr.1 hki, hr.2⟩

namespace MoeCall

variable {L : MoeStreamLayer} {c : MoeCall} {k e : ℕ}

/-- A lookup that does not find its expert ready is as good as none. -/
theorem lookup_ready_or (L : MoeStreamLayer) (e : ℕ) (now : UInt64) :
    (∃ r out, L.liveSlotFind e = some r ∧ (L.slot r).ioReady = true ∧ out.held = some r ∧
      (L.lookup e now).2 = .ready out) ∨
    (L.Asleep e ∧ ((L.lookup e now).2 = .absent ∧ L.liveSlotFind e = none ∨
      (L.lookup e now).2 = .notReady ∧ L.liveSlotFind e ≠ none)) := by
  obtain ⟨-, -, hcase⟩ := lookup_cases (L := L) e now
  cases hfound : (L.lookup e now).2 with
  | ready out =>
    rw [hfound] at hcase
    obtain ⟨r, hr, hready, hheld, -⟩ := hcase
    exact Or.inl ⟨r, out, hr, hready, hheld, rfl⟩
  | absent =>
    rw [hfound] at hcase
    exact Or.inr ⟨fun r hr => (by cases hcase.1.symm.trans hr), Or.inl ⟨rfl, hcase.1⟩⟩
  | notReady =>
    rw [hfound] at hcase
    obtain ⟨⟨r, hr, hready⟩, -⟩ := hcase
    refine Or.inr ⟨fun r' hr' => ?_, Or.inr ⟨rfl, by simp [hr]⟩⟩
    rw [← Option.some.inj (hr.symm.trans hr')]
    exact hready

/-- The scan only reads the layer. -/
theorem scanHit_read : Read L (c.scanHit L k).1 ∧ (c.scanHit L k).2.ids = c.ids ∧
    (c.scanHit L k).2.misses = c.misses ∧ (c.scanHit L k).2.waits = c.waits ∧
    (c.scanHit L k).2.ok = c.ok ∧ ((c.scanHit L k).2.need = c.need ∨
      (c.scanHit L k).2.need = c.need ++ [k] ∧ ∃ e, c.id k = some e ∧ L.Asleep e) := by
  unfold scanHit
  cases c.id k with
  | none => exact ⟨.refl L, rfl, rfl, rfl, rfl, Or.inl rfl⟩
  | some e =>
    have hread := (lookup_cases (L := L) e c.now).1
    have hcase := lookup_ready_or L e c.now
    dsimp only
    generalize L.lookup e c.now = res at hread hcase ⊢
    obtain ⟨L', found⟩ := res
    cases found with
    | ready out => exact ⟨hread, rfl, rfl, rfl, rfl, Or.inl rfl⟩
    | absent =>
      rcases hcase with ⟨_, _, -, -, -, h⟩ | ⟨hsleep, -⟩
      · cases h
      · exact ⟨hread, rfl, rfl, rfl, rfl, Or.inr ⟨rfl, e, rfl, hsleep⟩⟩
    | notReady =>
      rcases hcase with ⟨_, _, -, -, -, h⟩ | ⟨hsleep, -⟩
      · cases h
      · exact ⟨hread, rfl, rfl, rfl, rfl, Or.inr ⟨rfl, e, rfl, hsleep⟩⟩

/-- An insert lets no expert wake. -/
theorem insertMiss_asleep {misses : List MoeMissEntry} (hs : MoeInv ⟨L, misses⟩)
    (hq : MoeQuiet L misses) (hnone : L.liveSlotFind e = none) (k : ℕ) {e' : ℕ}
    (he : L.Asleep e') : (c.insertMiss L k e).1.Asleep e' := by
  have hmiss := MoeStream.miss_asleep hs hq hnone c.now he
  obtain ⟨_, -, hlayer, -⟩ := c.insertMiss_eq L misses k e
  rwa [hlayer] at hmiss

end MoeCall

/-- The holders before the call. -/
def MoeStreamLayer.users (L : MoeStreamLayer) (r : SlotRef) : ℕ := (L.slot r).inuse

section

variable {base : SlotRef → ℕ} {ids : List (Option ℕ)} {k : ℕ} {todo : List ℕ}
  {s : MoeStreamLayer × MoeCall}

structure Scanning (base : SlotRef → ℕ) (ids : List (Option ℕ)) (todo : List ℕ)
    (s : MoeStreamLayer × MoeCall) : Prop where
  call : CallOk true base [] [] s.1 s.2 (todo ++ s.2.need)
  ids : s.2.ids = ids
  misses : s.2.misses = []
  waits : s.2.waits = []
  ok : s.2.ok = true
  asleep : ∀ k ∈ s.2.need, ∃ e, s.2.id k = some e ∧ s.1.Asleep e

theorem Scanning.start {L : MoeStreamLayer} (hinv : MoeInv ⟨L, []⟩) (hq : MoeQuiet L [])
    (ids : List (Option ℕ)) (now : UInt64) :
    Scanning L.users ids (List.range ids.length) (L, .start ids now) := by
  have hnone : MoeHolds L.users [] L [] := by
    refine ⟨hinv, hq, fun r => rfl, fun _ h => absurd h List.not_mem_nil,
      fun _ h => absurd h List.not_mem_nil⟩
  have hstart : (List.range ids.length ++ (MoeCall.start ids now).need) = List.range ids.length :=
    List.append_nil _
  refine ⟨⟨?_, hnone.start ids now⟩, rfl, rfl, rfl, rfl, fun _ h => absurd h List.not_mem_nil⟩
  rw [hstart]
  exact MoeCall.start_sound true ids now

theorem Scanning.scanHit (h : Scanning base ids (k :: todo) s) :
    Scanning base ids todo (s.2.scanHit s.1 k) := by
  obtain ⟨hread, hids, hmisses, hwaits, hok, hneed⟩ := MoeCall.scanHit_read (L := s.1) (c := s.2)
    (k := k)
  have hid : ∀ k', (s.2.scanHit s.1 k).2.id k' = s.2.id k' := fun k' => by
    simp only [MoeCall.id, hids]
  refine ⟨h.call.scanHit, hids.trans h.ids, hmisses.trans h.misses, hwaits.trans h.waits,
    hok.trans h.ok, fun k' hk' => ?_⟩
  rw [hid]
  rcases hneed with hneed | ⟨hneed, e, he, hsleep⟩
  · rw [hneed] at hk'
    obtain ⟨e, he, hsleep⟩ := h.asleep k' hk'
    exact ⟨e, he, hread.asleep hsleep⟩
  · rw [hneed] at hk'
    rcases List.mem_append.mp hk' with hk' | hk'
    · obtain ⟨e, he, hsleep⟩ := h.asleep k' hk'
      exact ⟨e, he, hread.asleep hsleep⟩
    · rw [List.mem_singleton.mp hk']
      exact ⟨e, he, hread.asleep hsleep⟩

structure Collecting (base : SlotRef → ℕ) (ids : List (Option ℕ)) (todo : List ℕ)
    (s : MoeStreamLayer × MoeCall) : Prop where
  call : CallOk true base [] [] s.1 s.2 (todo ++ s.2.awaited)
  ids : s.2.ids = ids
  ok : s.2.ok = true
  asleep : ∀ k ∈ todo ++ s.2.waits, ∃ e, s.2.id k = some e ∧ s.1.Asleep e

theorem Scanning.collecting (h : Scanning base ids [] s) : Collecting base ids s.2.need s where
  call := by
    have hawaited : s.2.awaited = [] := by
      rw [MoeCall.awaited, h.waits, h.misses]
      rfl
    rw [hawaited, List.append_nil]
    exact h.call
  ids := h.ids
  ok := h.ok
  asleep := fun k hk => h.asleep k (by rwa [h.waits, List.append_nil] at hk)

theorem Collecting.collectMiss (h : Collecting base ids (k :: todo) s) :
    Collecting base ids todo (s.2.collectMiss s.1 k) := by
  obtain ⟨L, c⟩ := s
  obtain ⟨e, he, hsleep⟩ := h.asleep k (by simp)
  have hcall := CallOk.collectMiss (c := c) (L := L) (k := k) h.call (by rw [he]; simp)
  have hread := (lookup_cases (L := L) e c.now).1
  have hcase := MoeCall.lookup_ready_or L e c.now
  have hholds := h.call.holds.lookup e c.now
  have hslept := lookup_asleep hsleep c.now
  simp only at he hsleep hcall ⊢
  unfold MoeCall.collectMiss at hcall ⊢
  rw [he] at hcall ⊢
  dsimp only at hcall hholds ⊢
  generalize L.lookup e c.now = res at hcall hread hcase hholds hslept ⊢
  obtain ⟨L', found⟩ := res
  have hold : ∀ k' ∈ todo ++ c.waits, ∃ e, c.id k' = some e ∧ L'.Asleep e := fun k' hk' => by
    obtain ⟨e', he', hsleep'⟩ := h.asleep k' (List.mem_cons_of_mem _ hk')
    exact ⟨e', he', hread.asleep hsleep'⟩
  cases found with
  | ready out => exact absurd rfl (hslept out)
  | notReady =>
    refine ⟨hcall, h.ids, h.ok, fun k' hk' => ?_⟩
    rcases List.mem_append.mp hk' with hk' | hk'
    · exact hold k' (List.mem_append_left _ hk')
    · rcases List.mem_append.mp hk' with hk' | hk'
      · exact hold k' (List.mem_append_right _ hk')
      · rw [List.mem_singleton.mp hk']
        exact ⟨e, he, hread.asleep hsleep⟩
  | absent =>
    have hnone : L'.liveSlotFind e = none := by
      rcases hcase with ⟨_, _, -, -, -, h⟩ | ⟨-, ⟨-, hnone⟩ | ⟨h, -⟩⟩
      · cases h
      · exact (hread.liveSlotFind e).trans hnone
      · cases h
    obtain ⟨me, -, hc, -⟩ := MoeHolds.insertMiss (c := c) hholds hnone k
    refine ⟨hcall, by rw [hc]; exact h.ids, by rw [hc]; exact h.ok, fun k' hk' => ?_⟩
    rw [hc] at hk' ⊢
    obtain ⟨e', he', hsleep'⟩ := hold k' hk'
    exact ⟨e', he', MoeCall.insertMiss_asleep hholds.inv hholds.quiet hnone k hsleep'⟩

theorem resolveCollectMisses_alone {L : MoeStreamLayer} (hinv : MoeInv ⟨L, []⟩)
    (hq : MoeQuiet L []) (ids : List (Option ℕ)) (now : UInt64) :
    Collecting L.users ids [] (resolveCollectMisses L ids now) := by
  have hscan : Scanning L.users ids [] (resolveScanHits L ids now) :=
    foldl_todo (fun _ _ _ h => h.scanHit) _ (Scanning.start hinv hq ids now)
  exact foldl_todo (fun _ _ _ h => h.collectMiss) _ hscan.collecting

/-! ### The experts waited for stay in the cache -/

/-- Each id has its expert in the cache. -/
def Served (s : MoeStreamLayer × MoeCall) (ks : List ℕ) : Prop :=
  ∀ k ∈ ks, ∃ e, s.2.id k = some e ∧ s.1.liveSlotFind e ≠ none

structure Rewaiting (base : SlotRef → ℕ) (ids : List (Option ℕ)) (todo : List ℕ)
    (s : MoeStreamLayer × MoeCall) : Prop where
  call : Collecting base ids [] s
  served : Served s s.2.waits
  todo : ∀ k ∈ todo, k ∈ s.2.waits

theorem Rewaiting.rewaitMiss (h : Rewaiting base ids (k :: todo) s) :
    Rewaiting base ids todo (s.2.rewaitMiss s.1 k) := by
  obtain ⟨L, c⟩ := s
  have hk : k ∈ c.waits := h.todo k List.mem_cons_self
  obtain ⟨e, he, hlive⟩ := h.served k hk
  obtain ⟨e', he', hsleep⟩ := h.call.asleep k hk
  obtain rfl : e = e' := Option.some.inj (he.symm.trans he')
  have hread := (lookup_cases (L := L) e c.now).1
  have hholds := h.call.call.holds.lookup e c.now
  have hslept := lookup_asleep hsleep c.now
  have hcase := MoeCall.lookup_ready_or L e c.now
  simp only at he hlive ⊢
  unfold MoeCall.rewaitMiss
  rw [he]
  dsimp only at hholds ⊢
  generalize L.lookup e c.now = res at hread hholds hslept hcase ⊢
  obtain ⟨L', found⟩ := res
  cases found with
  | ready out => exact absurd rfl (hslept out)
  | absent =>
    rcases hcase with ⟨_, _, -, -, -, h⟩ | ⟨-, ⟨-, hnone⟩ | ⟨h, -⟩⟩
    · cases h
    · exact absurd hnone hlive
    · cases h
  | notReady =>
    refine ⟨⟨⟨h.call.call.toSound, hholds⟩, h.call.ids, h.call.ok, fun k' hk' => ?_⟩, fun k' hk' => ?_,
      fun k' hk' => h.todo k' (List.mem_cons_of_mem _ hk')⟩
    · obtain ⟨e', he', hsleep'⟩ := h.call.asleep k' hk'
      exact ⟨e', he', hread.asleep hsleep'⟩
    · obtain ⟨e', he', hlive'⟩ := h.served k' hk'
      exact ⟨e', he', by rw [hread.liveSlotFind e']; exact hlive'⟩

end

namespace MoeStreamLayer

variable {L : MoeStreamLayer}

/-- A fetched expert stays where the insert of its miss has put it. -/
theorem missCommit_live (hT : Tables L none) {me : MoeMissEntry}
    (hm : ∀ i, me.slot = some i → MissOk L me i) (e : ℕ) :
    (L.missCommit me true).liveSlotFind e = L.liveSlotFind e := by
  by_cases hin : ∃ i, me.slot = some i ∧ (L.lruSlots i).gen = me.gen
  · obtain ⟨i, hslot, hg⟩ := hin
    have hmi := hm i hslot
    obtain ⟨-, heid⟩ := hmi.waits hg
    have huse := hT.idle i hmi.lt (hmi.waits hg).1
    have hcommit : L.missCommit me true = L.setLru i { me.tmp with
        heapBuf := me.tmp.eid, ioReady := true, inuse := me.tmp.inuse + 1 } := by
      simp only [missCommit, hslot, hg, huse, if_true]
    have heids : ∀ k, ((L.missCommit me true).lruSlots k).eid = (L.lruSlots k).eid := by
      intro k
      rw [hcommit]
      simp only [setLru, Function.update_apply]
      split_ifs with hk
      · rw [hk, heid]
        exact hmi.tmpEid
      · rfl
    simp only [liveSlotFind, liveSlotFind.other, liveSlotFind.lru, heids]
    rw [hcommit]
    rfl
  · rw [(missCommit_late (fun i hi hg => hin ⟨i, hi, hg⟩) true).1]

end MoeStreamLayer

section

variable {base : SlotRef → ℕ} {ids : List (Option ℕ)} {k : ℕ} {s : MoeStreamLayer × MoeCall}

structure Committing (base : SlotRef → ℕ) (ids : List (Option ℕ)) (todo : List MoeMiss)
    (s : MoeStreamLayer × MoeCall) : Prop where
  call : CallOk true base [] [] s.1 s.2 s.2.awaited
  ids : s.2.ids = ids
  ok : s.2.ok = true
  served : Served s s.2.waits
  todo : s.2.misses = todo

theorem Rewaiting.committing (h : Rewaiting base ids [] s) : Committing base ids s.2.misses s :=
  ⟨h.call.call, h.call.ids, h.call.ok, h.served, rfl⟩

theorem Committing.commitMiss {m : MoeMiss} {todo : List MoeMiss}
    (h : Committing base ids (m :: todo) s) :
    Committing base ids todo (s.2.commitMiss s.1 m true) := by
  obtain ⟨L, c⟩ := s
  have hmisses : c.misses = m :: todo := h.todo
  have hm : m ∈ c.misses := by rw [hmisses]; exact List.mem_cons_self
  have hmem : m.entry ∈ c.entries ++ [] := by
    rw [List.append_nil]
    exact List.mem_map_of_mem hm
  have hcall := CallOk.commitMiss h.call hm fun _ => rfl
  refine ⟨hcall, h.ids, ?_, fun k hk => ?_, ?_⟩
  · exact (Bool.and_true _).trans h.ok
  · obtain ⟨e, he, hlive⟩ := h.served k hk
    have hsame := missCommit_live h.call.holds.inv.tables
      (h.call.holds.inv.misses m.entry hmem) e
    exact ⟨e, he, fun hnone => hlive (hsame.symm.trans hnone)⟩
  · change c.misses.erase m = todo
    rw [hmisses, List.erase_cons_head]

structure Waiting (base : SlotRef → ℕ) (ids : List (Option ℕ)) (todo : List ℕ)
    (s : MoeStreamLayer × MoeCall) : Prop where
  call : CallOk true base [] [] s.1 s.2 todo
  ids : s.2.ids = ids
  ok : s.2.ok = true
  served : Served s todo
  misses : s.2.misses = []

theorem Committing.waiting (h : Committing base ids [] s) : Waiting base ids s.2.waits s where
  call := by
    have hawaited : s.2.awaited = s.2.waits := by
      rw [MoeCall.awaited, h.todo, List.map_nil, List.append_nil]
    rw [← hawaited]
    exact h.call
  ids := h.ids
  ok := h.ok
  served := h.served
  misses := h.todo

theorem Waiting.waitReady {todo : List ℕ} (h : Waiting base ids (k :: todo) s) :
    Waiting base ids todo (s.2.waitReady s.1 k) := by
  obtain ⟨L, c⟩ := s
  obtain ⟨e, he, hlive⟩ := h.served k List.mem_cons_self
  have hcall := h.call.lookup he
  have hq : MoeQuiet L [] := by
    have hquiet := h.call.holds.quiet
    rwa [MoeCall.entries, h.misses] at hquiet
  have hread := (lookup_cases (L := L) e c.now).1
  have hcase := MoeCall.lookup_ready_or L e c.now
  simp only at he hlive hcall ⊢
  unfold MoeCall.waitReady
  rw [he]
  dsimp only
  generalize L.lookup e c.now = res at hcall hread hcase ⊢
  obtain ⟨L', found⟩ := res
  have hready : ∃ out, found = .ready out := by
    obtain ⟨r, hr⟩ := Option.ne_none_iff_exists'.mp hlive
    have hr' := ready_of_quiet h.call.holds.inv.tables hq hr
    rcases hcase with ⟨_, out, -, -, -, hfound⟩ | ⟨hsleep, -⟩
    · exact ⟨out, hfound⟩
    · cases (hsleep r hr).symm.trans hr'
  obtain ⟨out, rfl⟩ := hready
  refine ⟨hcall, h.ids, h.ok, fun k' hk' => ?_, h.misses⟩
  obtain ⟨e', he', hlive'⟩ := h.served k' (List.mem_cons_of_mem _ hk')
  exact ⟨e', he', by rw [hread.liveSlotFind e']; exact hlive'⟩

end

end Kappai
