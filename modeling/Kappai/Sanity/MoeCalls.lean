import Kappai.Lib.Loop
import Kappai.Sanity.MoeQuiet

/-! One call of `moe_stream_resolve` beside others: its locals against the layer, from one id to
the next. -/

namespace Kappai

open MoeStreamLayer

/-- The holders elsewhere once an out slot is overwritten. -/
def above (base : SlotRef → ℕ) (o : MoeOutSlot) (r : SlotRef) : ℕ :=
  base r + if o.held = some r then 1 else 0

theorem above_unheld (base : SlotRef → ℕ) {o : MoeOutSlot} (ho : o.held = none) :
    above base o = base := by
  funext r
  simp [above, ho]

/-- What the caller finds in an out slot: the expert's weights, or nothing if that is allowed. -/
def Filled (strict : Bool) (id : Option ℕ) (o : MoeOutSlot) : Prop :=
  match id with
  | none => o = .invalid
  | some e => (o.slot.eid = some e ∧ o.slot.Loaded ∧ (o.owned = true ∨ o.held ≠ none)) ∨
      (o = .invalid ∧ strict = false)

namespace MoeCall

variable {c : MoeCall} {k : ℕ} {o o' : MoeOutSlot} {todo : List ℕ}

def entries (c : MoeCall) : List MoeMissEntry := c.misses.map (·.entry)

/-- The ids whose experts are waited for or fetched. -/
def awaited (c : MoeCall) : List ℕ := c.waits ++ c.misses.map (·.k)

/-- The ids whose out slots are still to be filled. -/
structure Pending (c : MoeCall) (todo : List ℕ) : Prop where
  nodup : todo.Nodup
  unheld : ∀ k ∈ todo, ∃ o, c.outs[k]? = some o ∧ o.held = none

theorem Pending.perm {todo' : List ℕ} (h : c.Pending todo) (hp : todo.Perm todo') :
    c.Pending todo' :=
  ⟨hp.nodup_iff.mp h.nodup, fun k hk => h.unheld k (hp.mem_iff.mpr hk)⟩

theorem Pending.set (h : c.Pending (k :: todo)) (o : MoeOutSlot) : (c.setOut k o).Pending todo := by
  obtain ⟨hk, hnodup⟩ := List.nodup_cons.mp h.nodup
  refine ⟨hnodup, fun k' hk' => ?_⟩
  have hne : k ≠ k' := fun heq => hk (heq ▸ hk')
  obtain ⟨o', ho'⟩ := h.unheld k' (List.mem_cons_of_mem _ hk')
  exact ⟨o', by rw [← ho'.1]; exact List.getElem?_set_ne hne, ho'.2⟩

theorem Pending.reset (h : c.Pending (k :: todo)) (ho : o.held = none) :
    (c.setOut k o).Pending (k :: todo) := by
  refine ⟨h.nodup, fun k' hk' => ?_⟩
  rcases List.mem_cons.mp hk' with rfl | hk'
  · obtain ⟨_, hget, -⟩ := h.unheld k' List.mem_cons_self
    obtain ⟨hlt, -⟩ := List.getElem?_eq_some_iff.mp hget
    exact ⟨o, List.getElem?_set_self hlt, ho⟩
  · exact (h.set o).unheld k' hk'

/-- The out slots but one. -/
theorem setOut_perm (hk : c.outs[k]? = some o) (os : List MoeOutSlot) :
    ∃ rest, (c.outs ++ os).Perm (o :: rest) ∧
      ∀ o', ((c.setOut k o').outs ++ os).Perm (o' :: rest) := by
  obtain ⟨hlt, hget⟩ := List.getElem?_eq_some_iff.mp hk
  refine ⟨c.outs.eraseIdx k ++ os, ?_, fun o' => ?_⟩
  · rw [← List.cons_append, ← hget]
    exact (List.getElem_cons_eraseIdx_perm hlt).symm.append_right os
  · rw [← List.cons_append]
    exact (List.set_perm_cons_eraseIdx hlt o').append_right os

/-- The insert of a call is the miss of `MoeStream`. -/
theorem insertMiss_eq (c : MoeCall) (L : MoeStreamLayer) (misses : List MoeMissEntry) (k e : ℕ) :
    ∃ me, (MoeStream.miss ⟨L, misses⟩ e c.now).misses = misses ++ [me] ∧
      (MoeStream.miss ⟨L, misses⟩ e c.now).layer = (c.insertMiss L k e).1 ∧
      (c.insertMiss L k e).2 = c.addMiss ⟨k, me⟩ := by
  unfold MoeStream.miss insertMiss
  generalize L.layerInsertLru e c.now = out
  obtain ⟨L', i⟩ := out
  cases i with
  | none => exact ⟨_, rfl, rfl, rfl⟩
  | some i => exact ⟨_, rfl, rfl, rfl⟩

end MoeCall

namespace MoeHolds

variable {base base' : SlotRef → ℕ} {ms ms' : List MoeMissEntry} {os : List MoeOutSlot}
  {L L' : MoeStreamLayer} {c : MoeCall} {k : ℕ} {o o' : MoeOutSlot}

/-- An out slot is set anew by a step that fills it. -/
theorem refill (h : MoeHolds base ms L (c.outs ++ os)) (hk : c.outs[k]? = some o)
    (hstep : ∀ rest, MoeHolds (above base o) ms L rest → MoeHolds (above base o) ms' L' (o' :: rest)) :
    MoeHolds (above base o) ms' L' ((c.setOut k o').outs ++ os) := by
  obtain ⟨rest, hrest, hset⟩ := c.setOut_perm hk os
  exact (hstep rest (h.perm (.refl _) hrest).drop).perm (.refl _) (hset o').symm

theorem setUnheld (h : MoeHolds base ms L (c.outs ++ os)) (hk : c.outs[k]? = some o)
    (ho : o'.held = none) (ho' : o'.owned = true ∨ o'.slot.eid = none) :
    MoeHolds (above base o) ms L ((c.setOut k o').outs ++ os) :=
  h.refill hk fun _ hrest => hrest.pushUnheld ho ho'

/-- A lookup for one of the ids of the call. -/
theorem lookupOut (h : MoeHolds base ms L (c.outs ++ os)) (hk : c.outs[k]? = some o) (e : ℕ)
    (now : UInt64) :
    match (L.lookup e now).2 with
    | .ready out => MoeHolds (above base o) ms (L.lookup e now).1 ((c.setOut k out).outs ++ os) ∧
        ∀ strict, Filled strict (some e) out
    | _ => MoeHolds base ms (L.lookup e now).1 (c.outs ++ os) := by
  have hlookup := h.lookup e now
  cases hfound : (L.lookup e now).2 with
  | absent =>
    rw [hfound] at hlookup
    exact hlookup
  | notReady =>
    rw [hfound] at hlookup
    exact hlookup
  | ready out =>
    rw [hfound] at hlookup
    obtain ⟨-, heid, hloaded, -, hheld⟩ := hlookup
    refine ⟨h.refill hk fun rest hrest => ?_, fun _ => Or.inl ⟨heid, hloaded, Or.inr hheld⟩⟩
    have hpush := hrest.lookup e now
    rw [hfound] at hpush
    exact hpush.1

theorem commitOut {me : MoeMissEntry} (h : MoeHolds base (me :: ms) L (c.outs ++ os))
    (hk : c.outs[k]? = some o) (fetched : Bool) :
    MoeHolds (above base o) ms (L.missCommit me fetched)
      ((c.setOut k (MoeCall.commitOut L me fetched)).outs ++ os) :=
  h.refill hk fun _ hrest => hrest.commit fetched

/-- The insert of a miss for an expert that is nowhere. -/
theorem insertMiss (h : MoeHolds base (c.entries ++ ms) L os) {e : ℕ}
    (hnone : L.liveSlotFind e = none) (k : ℕ) :
    ∃ me : MoeMissEntry, me.tmp.eid = some e ∧ (c.insertMiss L k e).2 = c.addMiss ⟨k, me⟩ ∧
      MoeHolds base ((c.insertMiss L k e).2.entries ++ ms) (c.insertMiss L k e).1 os ∧
      Takes L (c.insertMiss L k e).1 none ∧
      ((me.slot = none ∧ Read L (c.insertMiss L k e).1) ∨
        ∃ i, me.slot = some i ∧ me.gen = ((c.insertMiss L k e).1.lruSlots i).gen ∧
          Inserted L (c.insertMiss L k e).1 i e) := by
  have hperm : (c.entries ++ ms).Perm (ms ++ c.entries) := List.perm_append_comm
  have hswap := h.perm hperm (.refl _)
  have hmiss := hswap.miss hnone c.now
  obtain ⟨me, hmisses, -, htmp, -, htakes, heff⟩ := MoeStream.miss_effect hswap.inv hnone c.now
  obtain ⟨me', hmisses', hlayer, hcall⟩ := c.insertMiss_eq L (ms ++ c.entries) k e
  obtain rfl : me = me' := List.singleton_inj.mp
    (List.append_cancel_left (hmisses.symm.trans hmisses'))
  rw [hlayer] at hmiss htakes heff
  rw [hmisses] at hmiss
  have hadd : ((ms ++ c.entries) ++ [me]).Perm ((c.addMiss ⟨k, me⟩).entries ++ ms) := by
    simp only [MoeCall.entries, MoeCall.addMiss, List.map_append, List.map_cons, List.map_nil,
      List.append_assoc]
    exact List.perm_append_comm.trans (by simp only [List.append_assoc, List.Perm.refl])
  rw [hcall]
  exact ⟨me, htmp, rfl, hmiss.perm hadd (.refl _), htakes, heff⟩

end MoeHolds

/-- The out slots a call starts with hold nothing. -/
theorem MoeHolds.start {base : SlotRef → ℕ} {ms : List MoeMissEntry} {os : List MoeOutSlot}
    {L : MoeStreamLayer} (h : MoeHolds base ms L os) (ids : List (Option ℕ)) (now : UInt64) :
    MoeHolds base ms L ((MoeCall.start ids now).outs ++ os) := by
  unfold MoeCall.start
  induction ids with
  | nil => exact h
  | cons _ ids ih => exact ih.pushUnheld rfl (Or.inr rfl)

theorem filled_invalid (id : Option ℕ) : Filled false id .invalid := by
  cases id with
  | none => rfl
  | some e => exact Or.inr ⟨rfl, rfl⟩

theorem filled_commitOut (L : MoeStreamLayer) {me : MoeMissEntry} {e : ℕ}
    (he : me.tmp.eid = some e) {strict fetched : Bool} (hf : strict = true → fetched = true) :
    Filled strict (some e) (MoeCall.commitOut L me fetched) := by
  unfold MoeCall.commitOut
  cases fetched with
  | false =>
    refine Or.inr ⟨rfl, ?_⟩
    cases strict with
    | false => rfl
    | true => exact (hf rfl).symm
  | true =>
    refine Or.inl ?_
    cases me.slot with
    | none => exact ⟨he, Or.inl rfl, Or.inl rfl⟩
    | some i =>
      simp only [if_true]
      split_ifs
      · exact ⟨he, Or.inl rfl, Or.inr (Option.some_ne_none _)⟩
      · exact ⟨he, Or.inl rfl, Or.inl rfl⟩

/-- The locals of a call; the out slots of `todo` are still to be filled. -/
structure MoeCall.Sound (strict : Bool) (c : MoeCall) (todo : List ℕ) : Prop where
  pending : c.Pending todo
  length : c.outs.length = c.ids.length
  filled : ∀ k ∉ todo, ∀ o, c.outs[k]? = some o → Filled strict (c.id k) o
  misses : ∀ m ∈ c.misses, ∃ e, c.id m.k = some e ∧ m.entry.tmp.eid = some e

namespace MoeCall.Sound

variable {strict : Bool} {c : MoeCall} {k : ℕ} {o : MoeOutSlot} {todo todo' : List ℕ}

theorem perm (h : c.Sound strict todo) (hp : todo.Perm todo') : c.Sound strict todo' where
  pending := h.pending.perm hp
  length := h.length
  filled := fun k hk => h.filled k fun hmem => hk (hp.mem_iff.mp hmem)
  misses := h.misses

theorem set (h : c.Sound strict (k :: todo)) (hf : Filled strict (c.id k) o) :
    (c.setOut k o).Sound strict todo where
  pending := h.pending.set o
  length := List.length_set.trans h.length
  filled := fun k' hk' o' ho' => by
    have hget : (c.outs.set k o)[k']? = some o' := ho'
    rcases eq_or_ne k k' with rfl | hne
    · obtain ⟨hlt, hat⟩ := List.getElem?_eq_some_iff.mp hget
      rw [List.getElem_set_self] at hat
      rw [← hat]
      exact hf
    · rw [List.getElem?_set_ne hne] at hget
      exact h.filled k' (by simp [hk', Ne.symm hne]) o' hget
  misses := h.misses

theorem reset (h : c.Sound strict (k :: todo)) (ho : o.held = none) :
    (c.setOut k o).Sound strict (k :: todo) where
  pending := h.pending.reset ho
  length := List.length_set.trans h.length
  filled := fun k' hk' o' ho' => by
    have hne : k ≠ k' := fun heq => hk' (by simp [heq])
    have hget : (c.outs.set k o)[k']? = some o' := ho'
    rw [List.getElem?_set_ne hne] at hget
    exact h.filled k' hk' o' hget
  misses := h.misses

/-- Only the lists of a call change that say what is to be done. -/
theorem lists {c' : MoeCall} (h : c.Sound strict todo) (hids : c'.ids = c.ids)
    (houts : c'.outs = c.outs)
    (hmisses : ∀ m ∈ c'.misses, m ∈ c.misses ∨ ∃ e, c.id m.k = some e ∧ m.entry.tmp.eid = some e) :
    c'.Sound strict todo := by
  have hid : ∀ k, c'.id k = c.id k := fun k => by simp only [MoeCall.id, hids]
  refine ⟨⟨h.pending.nodup, fun k hk => ?_⟩, by rw [houts, hids, h.length], fun k hk o ho => ?_,
    fun m hm => ?_⟩
  · rw [houts]
    exact h.pending.unheld k hk
  · rw [houts] at ho
    rw [hid]
    exact h.filled k hk o ho
  · rw [hid]
    rcases hmisses m hm with hm | hm
    · exact h.misses m hm
    · exact hm

end MoeCall.Sound

theorem MoeCall.start_sound (strict : Bool) (ids : List (Option ℕ)) (now : UInt64) :
    (MoeCall.start ids now).Sound strict (List.range ids.length) where
  pending := by
    refine ⟨List.nodup_range, fun k hk => ⟨.zero, ?_, rfl⟩⟩
    rw [MoeCall.start, List.getElem?_map, List.getElem?_eq_getElem (List.mem_range.mp hk)]
    rfl
  length := by simp [MoeCall.start]
  filled := fun k hk o ho => by
    obtain ⟨hlt, -⟩ := List.getElem?_eq_some_iff.mp ho
    simp only [MoeCall.start, List.length_map, List.mem_range] at hlt hk
    exact absurd hlt hk
  misses := fun _ h => absurd h List.not_mem_nil

/-- A call against the layer, with the misses and the out slots of the others. -/
structure CallOk (strict : Bool) (base : SlotRef → ℕ) (ms : List MoeMissEntry)
    (os : List MoeOutSlot) (L : MoeStreamLayer) (c : MoeCall) (todo : List ℕ) : Prop
    extends c.Sound strict todo where
  holds : MoeHolds base (c.entries ++ ms) L (c.outs ++ os)

namespace CallOk

variable {strict : Bool} {base : SlotRef → ℕ} {ms : List MoeMissEntry} {os : List MoeOutSlot}
  {L L' : MoeStreamLayer} {c : MoeCall} {k : ℕ} {o : MoeOutSlot} {todo todo' : List ℕ}

theorem perm (h : CallOk strict base ms os L c todo) (hp : todo.Perm todo') :
    CallOk strict base ms os L c todo' := ⟨h.toSound.perm hp, h.holds⟩

/-- One more out slot is filled. -/
theorem fill (h : CallOk strict base ms os L c (k :: todo))
    (hholds : MoeHolds base (c.entries ++ ms) L' ((c.setOut k o).outs ++ os))
    (hf : Filled strict (c.id k) o) : CallOk strict base ms os L' (c.setOut k o) todo :=
  ⟨h.toSound.set hf, hholds⟩

theorem setUnheld (h : CallOk strict base ms os L c (k :: todo)) (ho : o.held = none)
    (ho' : o.owned = true ∨ o.slot.eid = none) :
    MoeHolds base (c.entries ++ ms) L ((c.setOut k o).outs ++ os) := by
  obtain ⟨o', hk, hheld⟩ := h.pending.unheld k List.mem_cons_self
  have hset := h.holds.setUnheld hk ho ho'
  rwa [above_unheld base hheld] at hset

theorem invalid (h : CallOk strict base ms os L c (k :: todo))
    (hf : Filled strict (c.id k) .invalid) :
    CallOk strict base ms os L (c.setOut k .invalid) todo :=
  h.fill (h.setUnheld rfl (Or.inr rfl)) hf

theorem lookup (h : CallOk strict base ms os L c (k :: todo)) {e : ℕ} (hid : c.id k = some e) :
    match (L.lookup e c.now).2 with
    | .ready out => CallOk strict base ms os (L.lookup e c.now).1 (c.setOut k out) todo
    | _ => CallOk strict base ms os (L.lookup e c.now).1 c (k :: todo) := by
  obtain ⟨o, hk, ho⟩ := h.pending.unheld k List.mem_cons_self
  have hlookup := h.holds.lookupOut hk e c.now
  rw [above_unheld base ho] at hlookup
  cases hfound : (L.lookup e c.now).2 with
  | absent =>
    rw [hfound] at hlookup
    exact ⟨h.toSound, hlookup⟩
  | notReady =>
    rw [hfound] at hlookup
    exact ⟨h.toSound, hlookup⟩
  | ready out =>
    rw [hfound] at hlookup
    exact h.fill hlookup.1 (by rw [hid]; exact hlookup.2 strict)

/-- The scan puts off an id. -/
theorem addNeed (h : CallOk strict base ms os L c (k :: (todo ++ c.need))) :
    CallOk strict base ms os L { c.setOut k .zero with need := c.need ++ [k] }
      (todo ++ (c.need ++ [k])) := by
  have hneed : (k :: (todo ++ c.need)).Perm (todo ++ (c.need ++ [k])) :=
    List.perm_iff_count.mpr fun a => by
      simp only [List.count_append, List.count_cons, List.count_nil]
      omega
  have hzero : (c.setOut k .zero).Sound strict (k :: (todo ++ c.need)) := h.toSound.reset rfl
  exact ⟨(hzero.perm hneed).lists rfl rfl fun m hm => Or.inl hm, h.setUnheld rfl (Or.inr rfl)⟩

theorem scanHit (h : CallOk strict base ms os L c (k :: (todo ++ c.need))) :
    CallOk strict base ms os (c.scanHit L k).1 (c.scanHit L k).2
      (todo ++ (c.scanHit L k).2.need) := by
  unfold MoeCall.scanHit
  cases hid : c.id k with
  | none => exact h.invalid (by rw [hid]; rfl)
  | some e =>
    have hlookup := h.lookup hid
    dsimp only
    generalize L.lookup e c.now = res at hlookup ⊢
    obtain ⟨L', found⟩ := res
    cases found with
    | ready out => exact hlookup
    | absent => exact hlookup.addNeed
    | notReady => exact hlookup.addNeed

theorem insertMiss (h : CallOk strict base ms os L c (k :: (todo ++ c.awaited))) {e : ℕ}
    (hid : c.id k = some e) (hnone : L.liveSlotFind e = none) :
    CallOk strict base ms os (c.insertMiss L k e).1 (c.insertMiss L k e).2
      (todo ++ (c.insertMiss L k e).2.awaited) := by
  obtain ⟨me, htmp, hc, hholds, -⟩ := h.holds.insertMiss hnone k
  rw [hc] at hholds ⊢
  have hp : (k :: (todo ++ c.awaited)).Perm (todo ++ (c.addMiss ⟨k, me⟩).awaited) := by
    refine List.perm_iff_count.mpr fun a => ?_
    simp only [MoeCall.awaited, MoeCall.addMiss, List.map_append, List.map_cons, List.map_nil,
      List.count_append, List.count_cons, List.count_nil]
    omega
  refine ⟨(h.toSound.perm hp).lists rfl rfl fun m hm => ?_, hholds⟩
  rcases List.mem_append.mp hm with hm | hm
  · exact Or.inl hm
  · rw [List.mem_singleton.mp hm]
    exact Or.inr ⟨e, hid, htmp⟩

theorem collectMiss (h : CallOk strict base ms os L c (k :: (todo ++ c.awaited)))
    (hid : c.id k ≠ none) : CallOk strict base ms os (c.collectMiss L k).1 (c.collectMiss L k).2
      (todo ++ (c.collectMiss L k).2.awaited) := by
  unfold MoeCall.collectMiss
  obtain ⟨e, hid⟩ := Option.ne_none_iff_exists'.mp hid
  rw [hid]
  have hlookup := h.lookup hid
  obtain ⟨hread, -, hcase⟩ := lookup_cases (L := L) e c.now
  dsimp only
  generalize L.lookup e c.now = res at hlookup hread hcase ⊢
  obtain ⟨L', found⟩ := res
  cases found with
  | ready out => exact hlookup
  | notReady =>
    have hp : (k :: (todo ++ c.awaited)).Perm
        (todo ++ ({ c with waits := c.waits ++ [k] } : MoeCall).awaited) := by
      refine List.perm_iff_count.mpr fun a => ?_
      simp only [MoeCall.awaited, List.count_append, List.count_cons, List.count_nil]
      omega
    exact ⟨(h.toSound.perm hp).lists rfl rfl fun m hm => Or.inl hm, hlookup.holds⟩
  | absent => exact CallOk.insertMiss hlookup hid ((hread.liveSlotFind e).trans hcase.1)

/-- The fetch of a miss is over. -/
theorem commitMiss (h : CallOk strict base ms os L c (todo ++ c.misses.map (·.k))) {m : MoeMiss}
    (hm : m ∈ c.misses) {fetched : Bool} (hf : strict = true → fetched = true) :
    CallOk strict base ms os (c.commitMiss L m fetched).1 (c.commitMiss L m fetched).2
      (todo ++ (c.misses.erase m).map (·.k)) := by
  have herase := List.perm_cons_erase hm
  have hp : (todo ++ c.misses.map (·.k)).Perm (m.k :: (todo ++ (c.misses.erase m).map (·.k))) :=
    ((herase.map _).append_left todo).trans List.perm_middle
  have hcall := h.perm hp
  obtain ⟨o, hk, ho⟩ := hcall.pending.unheld m.k List.mem_cons_self
  obtain ⟨e, hid, htmp⟩ := h.misses m hm
  have hentries : (c.entries ++ ms).Perm (m.entry :: ((c.misses.erase m).map (·.entry) ++ ms)) :=
    (herase.map _).append_right ms
  have hcommit := (h.holds.perm hentries (.refl _)).commitOut hk fetched
  rw [above_unheld base ho] at hcommit
  have hset := hcall.toSound.set (o := MoeCall.commitOut L m.entry fetched)
    (by rw [hid]; exact filled_commitOut L htmp hf)
  exact ⟨hset.lists rfl rfl fun m' hm' => Or.inl (List.mem_of_mem_erase hm'), hcommit⟩

theorem finalWait (h : CallOk false base ms os L c (k :: todo)) (hid : c.id k ≠ none) :
    CallOk false base ms os (c.finalWait L k).1 (c.finalWait L k).2 todo := by
  unfold MoeCall.finalWait
  obtain ⟨e, hid⟩ := Option.ne_none_iff_exists'.mp hid
  rw [hid]
  have hlookup := h.lookup hid
  dsimp only
  generalize L.lookup e c.now = res at hlookup ⊢
  obtain ⟨L', found⟩ := res
  have hfail : CallOk false base ms os L' c (k :: todo) →
      CallOk false base ms os L' { c.setOut k .invalid with ok := false } todo := fun hl =>
    ⟨(hl.invalid (filled_invalid _)).toSound.lists rfl rfl fun m hm => Or.inl hm,
      (hl.invalid (filled_invalid _)).holds⟩
  cases found with
  | ready out => exact hlookup
  | absent => exact hfail hlookup
  | notReady => exact hfail hlookup

end CallOk

end Kappai
