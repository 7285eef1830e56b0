import Kappai.Sanity.MoeAlone

/-! A call that has to insert an expert it waits for a second time: a use of a slot is lost, or the
call fails. -/

namespace Kappai

open MoeStreamLayer

theorem MoeCall.id_lt {c : MoeCall} {k e : ℕ} (h : c.id k = some e) : k < c.ids.length := by
  by_contra hk
  rw [MoeCall.id, List.getD_eq_getElem?_getD, List.getElem?_eq_none (Nat.not_lt.mp hk)] at h
  cases h

/-- Holds may have been overwritten: at least `base` uses have no out slot. -/
structure Loose (base : SlotRef → ℕ) (ids : List (Option ℕ)) (s : MoeStreamLayer × MoeCall) :
    Prop where
  holds : ∃ base', base ≤ base' ∧ MoeHolds base' (s.2.entries ++ []) s.1 (s.2.outs ++ [])
  sameIds : s.2.ids = ids
  length : s.2.outs.length = ids.length
  misses : ∀ m ∈ s.2.misses, ∃ e, s.2.id m.k = some e ∧ m.entry.tmp.eid = some e

theorem le_above (base : SlotRef → ℕ) (o : MoeOutSlot) : base ≤ above base o :=
  fun _ => Nat.le_add_right _ _

theorem above_mono {base base' : SlotRef → ℕ} (h : base ≤ base') (o : MoeOutSlot) :
    above base o ≤ above base' o := fun r => Nat.add_le_add_right (h r) _

namespace Loose

variable {base : SlotRef → ℕ} {ids : List (Option ℕ)} {L L' : MoeStreamLayer} {c : MoeCall}
  {k e : ℕ} {o : MoeOutSlot}

theorem getOut (h : Loose base ids (L, c)) (hid : c.id k = some e) : ∃ o, c.outs[k]? = some o := by
  have hlt := MoeCall.id_lt hid
  have hids : c.ids = ids := h.sameIds
  have hlen : c.outs.length = ids.length := h.length
  rw [hids, ← hlen] at hlt
  exact ⟨_, List.getElem?_eq_getElem hlt⟩

/-- A lookup that takes a slot overwrites what the out slot holds. -/
theorem take (h : Loose base ids (L, c)) (hk : c.outs[k]? = some o) {out : MoeOutSlot}
    (hfound : (L.lookup e c.now).2 = .ready out) :
    Loose (above base o) ids ((L.lookup e c.now).1, c.setOut k out) := by
  obtain ⟨base', hbase, hholds⟩ := h.holds
  have hlookup := MoeHolds.lookupOut hholds hk e c.now
  rw [hfound] at hlookup
  exact ⟨⟨_, above_mono hbase o, hlookup.1⟩, h.sameIds, List.length_set.trans h.length, h.misses⟩

theorem miss (h : Loose base ids (L, c)) (hfound : ∀ out, (L.lookup e c.now).2 ≠ .ready out) :
    Loose base ids ((L.lookup e c.now).1, c) := by
  obtain ⟨base', hbase, hholds⟩ := h.holds
  have hlookup := hholds.lookup e c.now
  refine ⟨⟨base', hbase, ?_⟩, h.sameIds, h.length, h.misses⟩
  cases hres : (L.lookup e c.now).2 with
  | ready out => exact absurd hres (hfound out)
  | absent =>
    rw [hres] at hlookup
    exact hlookup
  | notReady =>
    rw [hres] at hlookup
    exact hlookup

theorem mono {base₁ : SlotRef → ℕ} {s : MoeStreamLayer × MoeCall} (h : Loose base₁ ids s)
    (hb : base ≤ base₁) : Loose base ids s :=
  ⟨h.holds.imp fun _ hbase => ⟨hb.trans hbase.1, hbase.2⟩, h.sameIds, h.length, h.misses⟩

theorem invalid (h : Loose base ids (L, c)) (hk : c.outs[k]? = some o) (b : Bool) :
    Loose base ids (L, { c.setOut k .invalid with ok := b }) := by
  obtain ⟨base', hbase, hholds⟩ := h.holds
  exact ⟨⟨_, hbase.trans (le_above base' o), hholds.setUnheld hk
    (show MoeOutSlot.invalid.held = none from rfl) (Or.inr rfl)⟩, h.sameIds, List.length_set.trans h.length, h.misses⟩

theorem finalWait (h : Loose base ids (L, c)) (hid : c.id k = some e) :
    Loose base ids (c.finalWait L k) := by
  obtain ⟨o, hk⟩ := h.getOut hid
  unfold MoeCall.finalWait
  cases hres : L.lookup e c.now with
  | mk L' found =>
    simp only [hid, hres]
    cases found with
    | ready out =>
      have hfound : (L.lookup e c.now).2 = .ready out := by rw [hres]
      have htake := h.take hk hfound
      rw [hres] at htake
      exact htake.mono (le_above base o)
    | absent =>
      have hmiss := h.miss (e := e) (by rw [hres]; exact nofun)
      rw [hres] at hmiss
      exact hmiss.invalid hk false
    | notReady =>
      have hmiss := h.miss (e := e) (by rw [hres]; exact nofun)
      rw [hres] at hmiss
      exact hmiss.invalid hk false

theorem waitReady (h : Loose base ids (L, c)) (hid : c.id k = some e) :
    Loose base ids (c.waitReady L k) := by
  obtain ⟨o, hk⟩ := h.getOut hid
  unfold MoeCall.waitReady
  cases hres : L.lookup e c.now with
  | mk L' found =>
    simp only [hid, hres]
    cases found with
    | ready out =>
      have hfound : (L.lookup e c.now).2 = .ready out := by rw [hres]
      have htake := h.take hk hfound
      rw [hres] at htake
      exact htake.mono (le_above base o)
    | absent =>
      have hmiss := h.miss (e := e) (by rw [hres]; exact nofun)
      rw [hres] at hmiss
      exact hmiss.finalWait hid
    | notReady =>
      have hmiss := h.miss (e := e) (by rw [hres]; exact nofun)
      rw [hres] at hmiss
      exact hmiss.finalWait hid

theorem commitMiss (h : Loose base ids (L, c)) {m : MoeMiss} (hm : m ∈ c.misses) (fetched : Bool) :
    Loose base ids (c.commitMiss L m fetched) := by
  obtain ⟨e, hid, -⟩ := h.misses m hm
  obtain ⟨o, hk⟩ := h.getOut hid
  obtain ⟨base', hbase, hholds⟩ := h.holds
  have hentries : (c.entries ++ []).Perm (m.entry :: ((c.misses.erase m).map MoeMiss.entry ++ [])) :=
    ((List.perm_cons_erase hm).map MoeMiss.entry).append_right []
  exact ⟨⟨_, hbase.trans (le_above base' o),
    (hholds.perm hentries (.refl _)).commitOut hk fetched⟩, h.sameIds, List.length_set.trans h.length,
    fun m' hm' => h.misses m' (List.mem_of_mem_erase hm')⟩

/-- A miss that is inserted; the slot it has been given is of its generation, or it has none. -/
theorem insertMiss (h : Loose base ids (L, c)) (hid : c.id k = some e)
    (hnone : L.liveSlotFind e = none) : ∃ m : MoeMiss, m.k = k ∧
      (c.insertMiss L k e).2 = c.addMiss m ∧ Loose base ids (c.insertMiss L k e) ∧
      ((m.entry.slot = none ∧ (c.insertMiss L k e).1.liveSlotFind e = none) ∨
        ∃ i, m.entry.slot = some i ∧
          ((c.insertMiss L k e).1.lruSlots i).gen = m.entry.gen) := by
  obtain ⟨base', hbase, hholds⟩ := h.holds
  obtain ⟨me, htmp, hcall, hins, -, heff⟩ := MoeHolds.insertMiss hholds hnone k
  refine ⟨⟨k, me⟩, rfl, hcall, ⟨⟨base', hbase, ?_⟩, ?_, ?_, fun m hm => ?_⟩, ?_⟩
  · rw [hcall] at hins ⊢
    exact hins
  · rw [hcall]
    exact h.sameIds
  · rw [hcall]
    exact h.length
  · rw [hcall] at hm ⊢
    rcases List.mem_append.mp hm with hm | hm
    · exact h.misses m hm
    · rw [List.mem_singleton.mp hm]
      exact ⟨e, hid, htmp⟩
  · rcases heff with ⟨hslot, hread⟩ | ⟨i, hslot, hgen, -⟩
    · exact Or.inl ⟨hslot, (hread.liveSlotFind e).trans hnone⟩
    · exact Or.inr ⟨i, hslot, hgen.symm⟩

end Loose

/-- A miss whose commit is still to fill the slot it has been given, if any. -/
def LastMiss (s : MoeStreamLayer × MoeCall) (m : MoeMiss) : Prop :=
  (m.entry.slot = none ∧ ∀ e, s.2.id m.k = some e → s.1.liveSlotFind e = none) ∨
    ∃ i, m.entry.slot = some i ∧ (s.1.lruSlots i).gen = m.entry.gen

section

variable {base : SlotRef → ℕ} {ids : List (Option ℕ)} {w todo : List ℕ} {k : ℕ}
  {s : MoeStreamLayer × MoeCall}

structure Losing (base : SlotRef → ℕ) (ids : List (Option ℕ)) (w todo : List ℕ)
    (s : MoeStreamLayer × MoeCall) : Prop where
  loose : Loose base ids s
  waits : s.2.waits = w
  served : ∀ k ∈ w, ∃ e, s.2.id k = some e
  sub : ∀ k ∈ todo, k ∈ w
  lost : (∃ k ∈ todo, ∃ e, s.2.id k = some e ∧ s.1.liveSlotFind e = none) ∨
    ∃ ms m, s.2.misses = ms ++ [m] ∧ m.k ∈ w ∧ LastMiss s m

theorem Losing.rewaitMiss (h : Losing base ids w (k :: todo) s) :
    Losing base ids w todo (s.2.rewaitMiss s.1 k) := by
  obtain ⟨L, c⟩ := s
  have hk : k ∈ w := h.sub k List.mem_cons_self
  have htodo : ∀ k ∈ todo, k ∈ w := fun k' hk' => h.sub k' (List.mem_cons_of_mem _ hk')
  obtain ⟨e, hid⟩ := h.served k hk
  obtain ⟨o, hout⟩ := h.loose.getOut hid
  have hread := (lookup_cases (L := L) e c.now).1
  have hcase := MoeCall.lookup_ready_or L e c.now
  -- a lookup leaves the miss that is to be committed last as it is
  have hlast : ∀ m, LastMiss (L, c) m → LastMiss ((L.lookup e c.now).1, c) m := by
    rintro m (⟨hslot, hnone⟩ | ⟨i, hslot, hgen⟩)
    · exact Or.inl ⟨hslot, fun e he => (hread.liveSlotFind e).trans (hnone e he)⟩
    · exact Or.inr ⟨i, hslot, ((hread.weights (.lru i)).gen).trans hgen⟩
  have hkeep : L.liveSlotFind e ≠ none → (∃ k ∈ todo, ∃ e', c.id k = some e' ∧
      (L.lookup e c.now).1.liveSlotFind e' = none) ∨ ∃ ms m, c.misses = ms ++ [m] ∧ m.k ∈ w ∧
      LastMiss ((L.lookup e c.now).1, c) m := by
    intro hlive
    rcases h.lost with ⟨k', hk', e', he', hnone⟩ | ⟨ms, m, hms, hmk, hm⟩
    · refine Or.inl ⟨k', ?_, e', he', (hread.liveSlotFind e').trans hnone⟩
      rcases List.mem_cons.mp hk' with rfl | hk'
      · obtain rfl : e = e' := Option.some.inj (hid.symm.trans he')
        exact absurd hnone hlive
      · exact hk'
    · exact Or.inr ⟨ms, m, hms, hmk, hlast m hm⟩
  simp only at hid ⊢
  unfold MoeCall.rewaitMiss
  simp only [hid]
  rcases hcase with ⟨r, out, hr, -, -, hfound⟩ | ⟨-, ⟨hfound, hnone⟩ | ⟨hfound, hlive⟩⟩
  · have hloose := h.loose.take hout hfound
    have hlost := hkeep (by rw [hr]; simp)
    generalize L.lookup e c.now = res at hfound hloose hlost ⊢
    obtain ⟨L', found⟩ := res
    obtain rfl : found = .ready out := hfound
    exact ⟨hloose.mono (le_above base o), h.waits, h.served, htodo, hlost⟩
  · have hloose := h.loose.miss (e := e) (by rw [hfound]; exact nofun)
    generalize L.lookup e c.now = res at hread hfound hloose ⊢
    obtain ⟨L', found⟩ := res
    obtain rfl : found = .absent := hfound
    obtain ⟨m, hmk, hcall, hins, hm⟩ := hloose.insertMiss hid ((hread.liveSlotFind e).trans hnone)
    refine ⟨hins, by rw [hcall]; exact h.waits, by rw [hcall]; exact h.served, htodo,
      Or.inr ⟨c.misses, m, by rw [hcall]; rfl, by rw [hmk]; exact hk, ?_⟩⟩
    rcases hm with ⟨hslot, hnone'⟩ | hm
    · refine Or.inl ⟨hslot, fun e' he' => ?_⟩
      rw [hcall, hmk] at he'
      obtain rfl : e = e' := Option.some.inj (hid.symm.trans he')
      exact hnone'
    · exact Or.inr hm
  · have hloose := h.loose.miss (e := e) (by rw [hfound]; exact nofun)
    have hlost := hkeep hlive
    generalize L.lookup e c.now = res at hfound hloose hlost ⊢
    obtain ⟨L', found⟩ := res
    obtain rfl : found = .notReady := hfound
    exact ⟨hloose, h.waits, h.served, htodo, hlost⟩

/-- The commits up to the one of the miss inserted last. -/
structure Ending (base : SlotRef → ℕ) (ids : List (Option ℕ)) (w : List ℕ) (m : MoeMiss)
    (todo : List MoeMiss) (s : MoeStreamLayer × MoeCall) : Prop where
  loose : Loose base ids s
  waits : s.2.waits = w
  served : ∀ k ∈ w, ∃ e, s.2.id k = some e
  misses : s.2.misses = todo ++ [m]
  mem : m.k ∈ w
  last : LastMiss s m

theorem Losing.ending (h : Losing base ids w [] s) :
    ∃ ms m, s.2.misses = ms ++ [m] ∧ Ending base ids w m ms s := by
  rcases h.lost with ⟨_, hk, -⟩ | ⟨ms, m, hms, hmk, hm⟩
  · exact absurd hk List.not_mem_nil
  · exact ⟨ms, m, hms, h.loose, h.waits, h.served, hms, hmk, hm⟩

theorem Ending.commitMiss {m m' : MoeMiss} {ms : List MoeMiss}
    (h : Ending base ids w m (m' :: ms) s) :
    Ending base ids w m ms (s.2.commitMiss s.1 m' true) := by
  obtain ⟨L, c⟩ := s
  have hmisses : c.misses = m' :: (ms ++ [m]) := h.misses
  have hm' : m' ∈ c.misses := by rw [hmisses]; exact List.mem_cons_self
  obtain ⟨base', -, hholds⟩ := h.loose.holds
  have hok := hholds.inv.misses m'.entry (List.mem_append_left _ (List.mem_map_of_mem hm'))
  obtain ⟨-, -, -, hslots⟩ := missCommit_tables hholds.inv.tables hok true
  refine ⟨h.loose.commitMiss hm' true, h.waits, h.served, ?_, h.mem, ?_⟩
  · change c.misses.erase m' = ms ++ [m]
    rw [hmisses, List.erase_cons_head]
  · rcases h.last with ⟨hslot, hnone⟩ | ⟨i, hslot, hgen⟩
    · refine Or.inl ⟨hslot, fun e he => ?_⟩
      exact (missCommit_live hholds.inv.tables hok e).trans (hnone e he)
    · refine Or.inr ⟨i, hslot, ?_⟩
      rcases hslots i with ⟨-, hg, hg'⟩ | hsame
      · exact hg'.trans (hg.symm.trans hgen)
      · exact (congrArg MoeExpertSlot.gen hsame).trans hgen

/-- The out slot of an id that is still waited for holds its expert's slot already, or the expert
is not there. -/
structure Doubling (base : SlotRef → ℕ) (ids : List (Option ℕ)) (w : List ℕ) (k : ℕ)
    (s : MoeStreamLayer × MoeCall) : Prop where
  loose : Loose base ids s
  waits : s.2.waits = w
  served : ∀ k ∈ w, ∃ e, s.2.id k = some e
  mem : k ∈ w
  found : ∀ e, s.2.id k = some e → s.1.liveSlotFind e = none ∨ ∃ r o,
    s.1.liveSlotFind e = some r ∧ (s.1.slot r).ioReady = true ∧ s.2.outs[k]? = some o ∧
      o.held = some r

theorem Ending.doubling {m : MoeMiss} (h : Ending base ids w m [] s) :
    Doubling base ids w m.k (s.2.commitMiss s.1 m true) := by
  obtain ⟨L, c⟩ := s
  have hmisses : c.misses = [m] := h.misses
  have hm : m ∈ c.misses := by rw [hmisses]; exact List.mem_cons_self
  obtain ⟨base', -, hholds⟩ := h.loose.holds
  have hok := hholds.inv.misses m.entry (List.mem_append_left _ (List.mem_map_of_mem hm))
  refine ⟨h.loose.commitMiss hm true, h.waits, h.served, h.mem, fun e he => ?_⟩
  have he' : c.id m.k = some e := he
  have hlive := missCommit_live hholds.inv.tables hok e
  rcases h.last with ⟨-, hnone⟩ | ⟨i, hslot, hgen⟩
  · exact Or.inl (hlive.trans (hnone e he'))
  · obtain ⟨e', hid, htmp⟩ := h.loose.misses m hm
    obtain rfl : e = e' := Option.some.inj (he'.symm.trans hid)
    obtain ⟨o, hk⟩ := h.loose.getOut he'
    obtain ⟨hlt, -⟩ := List.getElem?_eq_some_iff.mp hk
    have hmi := hok i hslot
    obtain ⟨slot, hs, -, -, hready, -, hout⟩ :=
      missCommit_inTime hholds.inv.tables hslot hmi hgen true
    rw [if_pos rfl] at hout
    have heid : (L.lruSlots i).eid = some e := by
      rw [(hmi.waits hgen).2, ← hmi.tmpEid, htmp]
    refine Or.inr ⟨.lru i, MoeCall.commitOut L m.entry true, hlive.trans ?_, ?_,
      List.getElem?_set_self hlt, by rw [hout.2]⟩
    · exact (liveSlotFind_eq hholds.inv.tables hholds.quiet).mpr ⟨hmi.lt, heid⟩
    · have hat : ((L.missCommit m.entry true).lruSlots i).ioReady = true := by
        rw [hs, Function.update_self, hready]
      exact hat

end

/-- The last wait loop reads the layer and sets one out slot. -/
theorem MoeCall.waitReady_read {L : MoeStreamLayer} {c : MoeCall} (k : ℕ) :
    Read L (c.waitReady L k).1 ∧ (c.waitReady L k).2.ids = c.ids ∧
      (c.waitReady L k).2.waits = c.waits ∧ (c.ok = false → (c.waitReady L k).2.ok = false) ∧
      (∀ k' ≠ k, (c.waitReady L k).2.outs[k']? = c.outs[k']?) ∧
      ∀ e, c.id k = some e → L.liveSlotFind e = none → (c.waitReady L k).2.ok = false := by
  have hset : ∀ (o : MoeOutSlot), ∀ k' ≠ k, (c.setOut k o).outs[k']? = c.outs[k']? :=
    fun _ _ hk' => List.getElem?_set_ne hk'.symm
  have hfinal : ∀ L', Read L' (c.finalWait L' k).1 ∧ (c.finalWait L' k).2.ids = c.ids ∧
      (c.finalWait L' k).2.waits = c.waits ∧ (c.ok = false → (c.finalWait L' k).2.ok = false) ∧
      (∀ k' ≠ k, (c.finalWait L' k).2.outs[k']? = c.outs[k']?) ∧
      ∀ e, c.id k = some e → L'.liveSlotFind e = none → (c.finalWait L' k).2.ok = false := by
    intro L'
    unfold MoeCall.finalWait
    cases c.id k with
    | none => exact ⟨.refl L', rfl, rfl, fun h => h, fun _ _ => rfl, nofun⟩
    | some e =>
      have hread := (lookup_cases (L := L') e c.now).1
      have hcase := MoeCall.lookup_ready_or L' e c.now
      dsimp only
      generalize L'.lookup e c.now = res at hread hcase ⊢
      obtain ⟨L'', found⟩ := res
      cases found with
      | ready out =>
        refine ⟨hread, rfl, rfl, fun h => h, hset out, fun e' he hnone => ?_⟩
        obtain rfl : e = e' := Option.some.inj he
        rcases hcase with ⟨r, _, hr, -⟩ | ⟨-, ⟨h, -⟩ | ⟨h, -⟩⟩
        · cases hnone.symm.trans hr
        · cases h
        · cases h
      | absent => exact ⟨hread, rfl, rfl, fun _ => rfl, hset .invalid, fun _ _ _ => rfl⟩
      | notReady => exact ⟨hread, rfl, rfl, fun _ => rfl, hset .invalid, fun _ _ _ => rfl⟩
  unfold MoeCall.waitReady
  cases hid : c.id k with
  | none => exact ⟨.refl L, rfl, rfl, fun h => h, fun _ _ => rfl, nofun⟩
  | some e =>
    have hread := (lookup_cases (L := L) e c.now).1
    have hcase := MoeCall.lookup_ready_or L e c.now
    dsimp only
    generalize L.lookup e c.now = res at hread hcase ⊢
    obtain ⟨L', found⟩ := res
    obtain ⟨hread', hids, hwaits, hok, houts, hnone'⟩ := hfinal L'
    have hrest : ∀ e', some e = some e' → L.liveSlotFind e' = none →
        (c.finalWait L' k).2.ok = false := fun e' he hnone =>
      hnone' e' (hid.trans he) ((hread.liveSlotFind e').trans hnone)
    cases found with
    | ready out =>
      refine ⟨hread, rfl, rfl, fun h => h, hset out, fun e' he hnone => ?_⟩
      obtain rfl : e = e' := Option.some.inj he
      rcases hcase with ⟨r, _, hr, -⟩ | ⟨-, ⟨h, -⟩ | ⟨h, -⟩⟩
      · cases hnone.symm.trans hr
      · cases h
      · cases h
    | absent => exact ⟨hread.trans hread', hids, hwaits, hok, houts, hrest⟩
    | notReady => exact ⟨hread.trans hread', hids, hwaits, hok, houts, hrest⟩

section

variable {base : SlotRef → ℕ} {ids : List (Option ℕ)} {w todo : List ℕ} {k k' : ℕ}
  {s : MoeStreamLayer × MoeCall}

theorem Doubling.waitReady (h : Doubling base ids w k s) (hne : k ≠ k') (hk' : k' ∈ w) :
    Doubling base ids w k (s.2.waitReady s.1 k') := by
  obtain ⟨L, c⟩ := s
  obtain ⟨e', hid⟩ := h.served k' hk'
  obtain ⟨hread, hids, hwaits, -, houts, -⟩ := c.waitReady_read (L := L) k'
  have hsame : ∀ k, (c.waitReady L k').2.id k = c.id k := fun k => by simp only [MoeCall.id, hids]
  refine ⟨h.loose.waitReady hid, hwaits.trans h.waits, fun k hk => ?_, h.mem, fun e he => ?_⟩
  · rw [hsame]
    exact h.served k hk
  · rw [hsame] at he
    rcases h.found e he with hnone | ⟨r, o, hr, hready, hout, ho⟩
    · exact Or.inl ((hread.liveSlotFind e).trans hnone)
    · exact Or.inr ⟨r, o, (hread.liveSlotFind e).trans hr, (hread.weights r).ioReady.trans hready,
        (houts k hne).trans hout, ho⟩

/-- The call has failed, or has left a use that no out slot stands for. -/
structure Spoiled (base : SlotRef → ℕ) (ids : List (Option ℕ)) (w : List ℕ)
    (s : MoeStreamLayer × MoeCall) : Prop where
  loose : Loose base ids s
  served : ∀ k ∈ w, ∃ e, s.2.id k = some e
  spoiled : s.2.ok = false ∨ ∃ base₁ r, base r < base₁ r ∧ Loose base₁ ids s

theorem Doubling.spoiled (h : Doubling base ids w k s) :
    Spoiled base ids w (s.2.waitReady s.1 k) := by
  obtain ⟨L, c⟩ := s
  obtain ⟨e, hid⟩ := h.served k h.mem
  obtain ⟨-, hids, -, -, -, hfail⟩ := c.waitReady_read (L := L) k
  have hsame : ∀ k', (c.waitReady L k).2.id k' = c.id k' := fun k' => by
    simp only [MoeCall.id, hids]
  refine ⟨h.loose.waitReady hid, fun k' hk' => by rw [hsame]; exact h.served k' hk', ?_⟩
  rcases h.found e hid with hnone | ⟨r, o, hr, hready, hout, ho⟩
  · exact Or.inl (hfail e hid hnone)
  · rcases MoeCall.lookup_ready_or L e c.now with ⟨_, out, -, -, -, hfound⟩ | ⟨hsleep, -⟩
    · refine Or.inr ⟨above base o, r, ?_, ?_⟩
      · rw [above, if_pos ho]
        exact Nat.lt_succ_self _
      · have htake := h.loose.take hout hfound
        simp only at hid ⊢
        unfold MoeCall.waitReady
        simp only [hid]
        generalize L.lookup e c.now = res at hfound htake ⊢
        obtain ⟨L', found⟩ := res
        obtain rfl : found = .ready out := hfound
        exact htake
    · cases (hsleep r hr).symm.trans hready

theorem Spoiled.waitReady (h : Spoiled base ids w s) (hk : k ∈ w) :
    Spoiled base ids w (s.2.waitReady s.1 k) := by
  obtain ⟨L, c⟩ := s
  obtain ⟨e, hid⟩ := h.served k hk
  obtain ⟨-, hids, -, hok, -⟩ := c.waitReady_read (L := L) k
  have hsame : ∀ k', (c.waitReady L k).2.id k' = c.id k' := fun k' => by
    simp only [MoeCall.id, hids]
  refine ⟨h.loose.waitReady hid, fun k' hk' => by rw [hsame]; exact h.served k' hk', ?_⟩
  rcases h.spoiled with hfail | ⟨base₁, r, hlt, hloose⟩
  · exact Or.inl (hok hfail)
  · exact Or.inr ⟨base₁, r, hlt, hloose.waitReady hid⟩

end

end Kappai
