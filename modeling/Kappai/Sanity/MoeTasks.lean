import Kappai.Sanity.MoeAlone
import Kappai.Spec.MoeTasks

/-! Calls side by side: a step of one fills out slots of its own and leaves the slots in use to
their holders. -/

namespace Kappai

open MoeStreamLayer

namespace MoeStreamLayer

variable {L L' : MoeStreamLayer}

/-- No slot in use is given to another expert, or overwritten. -/
def Guards (L L' : MoeStreamLayer) : Prop :=
  ∀ r, 0 < (L.slot r).inuse → SameWeights (L.slot r) (L'.slot r)

theorem Guards.refl (L : MoeStreamLayer) : Guards L L := fun _ _ => .refl _

theorem Read.guards (h : Read L L') : Guards L L' := fun r _ => h.weights r

end MoeStreamLayer

theorem OutOk.read {L L' : MoeStreamLayer} {o : MoeOutSlot} {r : SlotRef} (h : OutOk L o r)
    (hread : Read L L') : OutOk L' o r := by
  obtain ⟨howned, hready, ⟨e, he, hlive⟩, hw⟩ := h
  have hsame := hread.weights r
  exact ⟨howned, hready, ⟨e, he, (hread.liveSlotFind e).trans hlive⟩,
    hw.eid.trans hsame.eid.symm, hw.heapBuf.trans hsame.heapBuf.symm, hw.dev.trans hsame.dev.symm,
    hw.gen.trans hsame.gen.symm, hw.ioReady.trans hsame.ioReady.symm⟩

/-- The release gives back what the out slot holds. -/
theorem MoeHolds.release {base : SlotRef → ℕ} {misses : List MoeMissEntry} {L : MoeStreamLayer}
    {o : MoeOutSlot} {outs : List MoeOutSlot} (h : MoeHolds base misses L (o :: outs))
    {frees : Bool} (hfrees : frees = true ∨ o.owned = false) :
    MoeHolds base misses (L.releaseOut frees o) outs := by
  unfold releaseOut
  cases hheld : o.held with
  | none =>
    have hdrop := h.dropUnheld hheld
    split_ifs with howned
    · exact hdrop
    · rcases h.unheld o List.mem_cons_self hheld with ho | ho
      · rcases hfrees with hf | hf
        · rw [hf, ho] at howned
          exact absurd rfl howned
        · cases hf.symm.trans ho
      · rw [ho]
        exact hdrop
  | some r =>
    obtain ⟨howned, -, ⟨e, he, hlive⟩, -⟩ := h.held o List.mem_cons_self r hheld
    obtain ⟨hread, huse⟩ := release_read (L := L) e
    rw [howned, Bool.and_false, if_neg (by simp), he]
    refine ⟨h.inv.kept (h.inv.heap.release e) (release_kept h.inv.tables h.inv.pinned e),
      h.quiet.tame hread.tame, fun r' => ?_,
      fun o' ho' r' hr' => (h.held o' (List.mem_cons_of_mem _ ho') r' hr').read hread,
      fun o' ho' => h.unheld o' (List.mem_cons_of_mem _ ho')⟩
    have htally := h.tally r'
    rw [holds_cons, hheld] at htally
    rw [huse r', hlive]
    split_ifs with hr
    · rw [htally, if_pos hr]
      rfl
    · rw [htally, if_neg hr]
      rfl

namespace MoeCall

variable {base : SlotRef → ℕ} {ms : List MoeMissEntry} {outs : List MoeOutSlot}
  {L : MoeStreamLayer} {c : MoeCall}

/-- A lookup and, if it finds nothing, the insert of a miss. -/
theorem insertMiss_guards (h : MoeHolds base (c.entries ++ ms) L outs) {e : ℕ} {L' : MoeStreamLayer}
    (hlookup : L.lookup e c.now = (L', .absent)) (k : ℕ) :
    Guards L (c.insertMiss L' k e).1 := by
  obtain ⟨hread, -, hcase⟩ := lookup_cases (L := L) e c.now
  have hholds := h.lookup e c.now
  rw [hlookup] at hread hcase hholds
  obtain ⟨_, -, -, -, htakes, -⟩ :=
    hholds.insertMiss ((hread.liveSlotFind e).trans hcase.1) k
  exact (hcase.2.trans htakes).same

theorem scanHit_guards (k : ℕ) : Guards L (c.scanHit L k).1 := scanHit_read.1.guards

theorem collectMiss_guards (h : MoeHolds base (c.entries ++ ms) L outs) (k : ℕ) :
    Guards L (c.collectMiss L k).1 := by
  unfold collectMiss
  cases c.id k with
  | none => exact .refl L
  | some e =>
    have hread := (lookup_cases (L := L) e c.now).1
    have hinsert : ∀ L', L.lookup e c.now = (L', .absent) →
        Guards L (c.insertMiss L' k e).1 := fun _ hlookup => insertMiss_guards h hlookup k
    dsimp only
    generalize L.lookup e c.now = res at hread hinsert ⊢
    obtain ⟨L', found⟩ := res
    cases found with
    | ready out => exact hread.guards
    | notReady => exact hread.guards
    | absent => exact hinsert L' rfl

theorem rewaitMiss_guards (h : MoeHolds base (c.entries ++ ms) L outs) (k : ℕ) :
    Guards L (c.rewaitMiss L k).1 := by
  unfold rewaitMiss
  cases c.id k with
  | none => exact .refl L
  | some e =>
    have hread := (lookup_cases (L := L) e c.now).1
    have hinsert : ∀ L', L.lookup e c.now = (L', .absent) →
        Guards L (c.insertMiss L' k e).1 := fun _ hlookup => insertMiss_guards h hlookup k
    dsimp only
    generalize L.lookup e c.now = res at hread hinsert ⊢
    obtain ⟨L', found⟩ := res
    cases found with
    | ready out => exact hread.guards
    | notReady => exact hread.guards
    | absent => exact hinsert L' rfl

theorem commitMiss_guards (h : MoeHolds base (c.entries ++ ms) L outs) {m : MoeMiss}
    (hm : m ∈ c.misses) (fetched : Bool) : Guards L (c.commitMiss L m fetched).1 := by
  have hmem : m.entry ∈ c.entries ++ ms := List.mem_append_left _ (List.mem_map_of_mem hm)
  exact (missCommit_slots h.inv.tables (h.inv.misses _ hmem) (h.quiet.tmpIdle _ hmem)
    fetched).2.1.same

/-- The collect pass keeps the ids, and puts off at most the one it is at. -/
theorem collectMiss_lists (L : MoeStreamLayer) (c : MoeCall) (k : ℕ) :
    (c.collectMiss L k).2.ids = c.ids ∧
      ∀ k' ∈ (c.collectMiss L k).2.waits, k' ∈ c.waits ∨ k' = k := by
  unfold collectMiss
  cases c.id k with
  | none => exact ⟨rfl, fun _ h => Or.inl h⟩
  | some e =>
    dsimp only
    generalize L.lookup e c.now = res
    obtain ⟨L', found⟩ := res
    cases found with
    | ready out => exact ⟨rfl, fun _ h => Or.inl h⟩
    | notReady =>
      refine ⟨rfl, fun k' h => ?_⟩
      rcases List.mem_append.mp h with h | h
      · exact Or.inl h
      · exact Or.inr (List.mem_singleton.mp h)
    | absent =>
      obtain ⟨me, -, -, hc⟩ := c.insertMiss_eq L' [] k e
      dsimp only
      rw [hc]
      exact ⟨rfl, fun _ h => Or.inl h⟩

theorem takeOrInvalid_lists (L : MoeStreamLayer) (c : MoeCall) (k : ℕ) :
    (c.takeOrInvalid L k).2.ids = c.ids ∧ (c.takeOrInvalid L k).2.waits = c.waits ∧
      (c.takeOrInvalid L k).2.need = c.need ∧ (c.takeOrInvalid L k).2.misses = c.misses := by
  unfold takeOrInvalid
  cases c.id k with
  | none => exact ⟨rfl, rfl, rfl, rfl⟩
  | some e =>
    dsimp only
    generalize L.lookup e c.now = res
    obtain ⟨L', found⟩ := res
    cases found with
    | ready out => exact ⟨rfl, rfl, rfl, rfl⟩
    | notReady => exact ⟨rfl, rfl, rfl, rfl⟩
    | absent => exact ⟨rfl, rfl, rfl, rfl⟩

theorem finalWait_lists (L : MoeStreamLayer) (c : MoeCall) (k : ℕ) :
    (c.finalWait L k).2.ids = c.ids ∧ (c.finalWait L k).2.misses = c.misses := by
  unfold finalWait
  cases c.id k with
  | none => exact ⟨rfl, rfl⟩
  | some e =>
    dsimp only
    generalize L.lookup e c.now = res
    obtain ⟨L', found⟩ := res
    cases found with
    | ready out => exact ⟨rfl, rfl⟩
    | notReady => exact ⟨rfl, rfl⟩
    | absent => exact ⟨rfl, rfl⟩

theorem takeOrInvalid_guards (k : ℕ) : Guards L (c.takeOrInvalid L k).1 := by
  unfold takeOrInvalid
  cases c.id k with
  | none => exact .refl L
  | some e =>
    have hread := (lookup_cases (L := L) e c.now).1
    dsimp only
    generalize L.lookup e c.now = res at hread ⊢
    obtain ⟨L', found⟩ := res
    cases found with
    | ready out => exact hread.guards
    | notReady => exact hread.guards
    | absent => exact hread.guards

theorem finalWait_guards (k : ℕ) : Guards L (c.finalWait L k).1 := by
  unfold finalWait
  cases c.id k with
  | none => exact .refl L
  | some e =>
    have hread := (lookup_cases (L := L) e c.now).1
    dsimp only
    generalize L.lookup e c.now = res at hread ⊢
    obtain ⟨L', found⟩ := res
    cases found with
    | ready out => exact hread.guards
    | notReady => exact hread.guards
    | absent => exact hread.guards

end MoeCall

theorem CallOk.takeOrInvalid {base : SlotRef → ℕ} {ms : List MoeMissEntry} {os : List MoeOutSlot}
    {L : MoeStreamLayer} {c : MoeCall} {k : ℕ} {todo : List ℕ}
    (h : CallOk false base ms os L c (k :: todo)) :
    CallOk false base ms os (c.takeOrInvalid L k).1 (c.takeOrInvalid L k).2 todo := by
  unfold MoeCall.takeOrInvalid
  cases hid : c.id k with
  | none => exact h.invalid (filled_invalid _)
  | some e =>
    have hlookup := h.lookup hid
    dsimp only
    generalize L.lookup e c.now = res at hlookup ⊢
    obtain ⟨L', found⟩ := res
    cases found with
    | ready out => exact hlookup
    | notReady => exact hlookup.invalid (filled_invalid _)
    | absent => exact hlookup.invalid (filled_invalid _)

namespace MoeTask

/-- The ids put off by the collect pass. -/
def later (t : MoeTask) : List ℕ := t.deps.map (·.1) ++ t.call.waits

/-- What the locals of a call are good for, and the out slots still to be filled. -/
def Ok (t : MoeTask) : Prop :=
  match t.phase with
  | .scan todo _ => t.call.Sound false (todo ++ t.call.need) ∧
      (∀ k ∈ t.call.need, t.call.id k ≠ none) ∧ t.call.misses = [] ∧ t.later = []
  | .collect todo _ => t.call.Sound false (todo ++ (t.deps.map (·.1) ++ t.call.awaited)) ∧
      ∀ k ∈ todo ++ t.later, t.call.id k ≠ none
  | .rewait todo => t.call.Sound false (t.deps.map (·.1) ++ t.call.awaited) ∧
      (∀ k ∈ t.later, t.call.id k ≠ none) ∧ ∀ k ∈ todo, k ∈ t.call.waits
  | .fetch => t.call.Sound false (t.deps.map (·.1) ++ t.call.awaited) ∧
      ∀ k ∈ t.later, t.call.id k ≠ none
  | .final todo _ => t.call.Sound false todo ∧ (∀ k ∈ todo, t.call.id k ≠ none) ∧
      t.call.misses = []
  | .done => t.call.misses = []

/-- The first wait loop finds the expert of the next id still being fetched. -/
def admits (t : MoeTask) (L : MoeStreamLayer) : Bool :=
  match t.phase with
  | .rewait (k :: _) =>
    match t.call.id k with
    | some e => (L.liveSlotFind e).any fun r => !(L.slot r).ioReady
    | none => true
  | _ => true

end MoeTask

/-- A call beside the others, and the layer. -/
structure TaskOk (ms : List MoeMissEntry) (os : List MoeOutSlot) (L : MoeStreamLayer)
    (t : MoeTask) : Prop where
  ok : t.Ok
  holds : MoeHolds (fun _ => 0) (t.call.entries ++ ms) L (t.call.outs ++ os)

namespace TaskOk

variable {ms : List MoeMissEntry} {os : List MoeOutSlot} {L : MoeStreamLayer} {t : MoeTask}
  {k : ℕ} {todo : List ℕ}

theorem scan (h : TaskOk ms os L t) (hp : t.phase = .scan (k :: todo) false) :
    TaskOk ms os (t.scan L k todo).1 (t.scan L k todo).2 := by
  have hok := h.ok
  simp only [MoeTask.Ok, hp, List.cons_append] at hok
  obtain ⟨hsound, hneed, hmisses, hlater⟩ := hok
  have hcall : CallOk false (fun _ => 0) ms os L t.call (k :: (todo ++ t.call.need)) :=
    ⟨hsound, h.holds⟩
  have hscan : TaskOk ms os (t.next (.scan todo false) (t.call.scanHit L k)).1
      (t.next (.scan todo false) (t.call.scanHit L k)).2 := by
    have hstep := hcall.scanHit
    obtain ⟨-, hids, hmisses', hwaits, -, hneed'⟩ :=
      MoeCall.scanHit_read (L := L) (c := t.call) (k := k)
    refine ⟨⟨hstep.toSound, fun k' hk' => ?_, hmisses'.trans hmisses, ?_⟩, hstep.holds⟩
    · have hid : (t.call.scanHit L k).2.id k' = t.call.id k' := by simp only [MoeCall.id, hids]
      have hmem : k' ∈ (t.call.scanHit L k).2.need := hk'
      refine fun hnone => ?_
      rcases hneed' with hneed' | ⟨hneed', e, he, -⟩
      · rw [hneed'] at hmem
        exact hneed k' hmem (hid.symm.trans hnone)
      · rw [hneed'] at hmem
        rcases List.mem_append.mp hmem with hmem | hmem
        · exact hneed k' hmem (hid.symm.trans hnone)
        · rw [List.mem_singleton.mp hmem] at hid hnone
          cases (hid.symm.trans hnone).symm.trans he
    · change t.deps.map (·.1) ++ (t.call.scanHit L k).2.waits = []
      rw [hwaits]
      exact hlater
  unfold MoeTask.scan
  cases t.prep with
  | false => exact hscan
  | true =>
    cases hid : t.call.id k with
    | none => exact hscan
    | some e =>
      have hlookup := hcall.lookup hid
      simp only [Option.map_some]
      cases hres : L.lookup e t.call.now with
      | mk L' found =>
        rw [hres] at hlookup
        cases found with
        | ready out => exact hscan
        | absent => exact hscan
        | notReady => exact ⟨⟨hsound, hneed, hmisses, hlater⟩, hlookup.holds⟩

theorem collect (h : TaskOk ms os L t) (hp : t.phase = .collect (k :: todo) false) :
    TaskOk ms os (t.collect L k todo).1 (t.collect L k todo).2 := by
  have hok := h.ok
  simp only [MoeTask.Ok, hp, List.cons_append] at hok
  obtain ⟨hsound, hknown⟩ := hok
  have hcall : CallOk false (fun _ => 0) ms os L t.call
      (k :: ((todo ++ t.deps.map (·.1)) ++ t.call.awaited)) := by
    rw [List.append_assoc]
    exact ⟨hsound, h.holds⟩
  have hcollect : TaskOk ms os (t.next (.collect todo false) (t.call.collectMiss L k)).1
      (t.next (.collect todo false) (t.call.collectMiss L k)).2 := by
    have hstep := hcall.collectMiss (hknown k List.mem_cons_self)
    obtain ⟨hids, hwaits⟩ := MoeCall.collectMiss_lists L t.call k
    rw [List.append_assoc] at hstep
    refine ⟨⟨hstep.toSound, fun k' hk' => ?_⟩, hstep.holds⟩
    have hid : (t.call.collectMiss L k).2.id k' = t.call.id k' := by simp only [MoeCall.id, hids]
    have hmem : k' ∈ todo ++ (t.deps.map (·.1) ++ (t.call.collectMiss L k).2.waits) := hk'
    refine fun hnone => hknown k' ?_ (hid.symm.trans hnone)
    simp only [MoeTask.later, List.mem_append, List.mem_cons] at hmem ⊢
    rcases hmem with hmem | hmem | hmem
    · exact Or.inr (Or.inl hmem)
    · exact Or.inr (Or.inr (Or.inl hmem))
    · rcases hwaits k' hmem with hmem | rfl
      · exact Or.inr (Or.inr (Or.inr hmem))
      · exact Or.inl rfl
  unfold MoeTask.collect
  cases t.prep with
  | false => exact hcollect
  | true =>
    cases hid : t.call.id k with
    | none => exact hcollect
    | some e =>
      have hlookup := hcall.lookup hid
      simp only [Option.map_some]
      cases hres : L.lookup e t.call.now with
      | mk L' found =>
        rw [hres] at hlookup
        cases found with
        | ready out => exact hcollect
        | absent => exact hcollect
        | notReady =>
          dsimp only
          split
          · rename_i m _
            have hp' : (k :: (todo ++ (t.deps.map (·.1) ++ t.call.awaited))).Perm
                (todo ++ ((t.deps ++ [(k, m.k)]).map (·.1) ++ t.call.awaited)) := by
              refine List.perm_iff_count.mpr fun a => ?_
              simp only [List.map_append, List.map_cons, List.map_nil, List.count_append,
                List.count_cons, List.count_nil]
              omega
            refine ⟨⟨hsound.perm hp', fun k' hk' => hknown k' ?_⟩, hlookup.holds⟩
            simp only [MoeTask.later, List.map_append, List.map_cons, List.map_nil,
              List.mem_append, List.mem_cons] at hk' ⊢
            tauto
          · exact ⟨⟨hsound, hknown⟩, hlookup.holds⟩

theorem rewait (h : TaskOk ms os L t) (hp : t.phase = .rewait (k :: todo))
    (hadm : t.admits L = true) :
    TaskOk ms os (t.next (.rewait todo) (t.call.rewaitMiss L k)).1
      (t.next (.rewait todo) (t.call.rewaitMiss L k)).2 := by
  have hok := h.ok
  simp only [MoeTask.Ok, hp] at hok
  simp only [MoeTask.admits, hp] at hadm
  obtain ⟨hsound, hknown, hsub⟩ := hok
  have hsub' : ∀ k ∈ todo, k ∈ t.call.waits := fun k' hk' => hsub k' (List.mem_cons_of_mem _ hk')
  unfold MoeCall.rewaitMiss
  cases hid : t.call.id k with
  | none => exact ⟨⟨hsound, hknown, hsub'⟩, h.holds⟩
  | some e =>
    have hholds := h.holds.lookup e t.call.now
    have hcase := MoeCall.lookup_ready_or L e t.call.now
    rw [hid] at hadm
    obtain ⟨r, hr, hready⟩ := (Option.any_eq_true ..).mp hadm
    dsimp only
    generalize L.lookup e t.call.now = res at hholds hcase ⊢
    obtain ⟨L', found⟩ := res
    cases found with
    | notReady => exact ⟨⟨hsound, hknown, hsub'⟩, hholds⟩
    | ready out =>
      rcases hcase with ⟨r', _, hr', hready', -⟩ | ⟨-, ⟨h, -⟩ | ⟨h, -⟩⟩
      · rw [← Option.some.inj (hr.symm.trans hr')] at hready'
        simp [hready'] at hready
      · cases h
      · cases h
    | absent =>
      rcases hcase with ⟨_, _, -, -, -, h⟩ | ⟨-, ⟨-, hnone⟩ | ⟨h, -⟩⟩
      · cases h
      · cases hr.symm.trans hnone
      · cases h

theorem final (h : TaskOk ms os L t) (hp : t.phase = .final (k :: todo) false) :
    TaskOk ms os (t.final L k todo).1 (t.final L k todo).2 := by
  have hok := h.ok
  simp only [MoeTask.Ok, hp] at hok
  obtain ⟨hsound, hknown, hmisses⟩ := hok
  have hcall : CallOk false (fun _ => 0) ms os L t.call (k :: todo) := ⟨hsound, h.holds⟩
  obtain ⟨e, hid⟩ := Option.ne_none_iff_exists'.mp (hknown k List.mem_cons_self)
  have hlookup := hcall.lookup hid
  unfold MoeTask.final
  simp only [hid, Option.map_some]
  cases hres : L.lookup e t.call.now with
  | mk L' found =>
    rw [hres] at hlookup
    cases found with
    | ready out =>
      exact ⟨⟨hlookup.toSound, fun k' hk' => hknown k' (List.mem_cons_of_mem _ hk'), hmisses⟩,
        hlookup.holds⟩
    | absent => exact ⟨⟨hsound, hknown, hmisses⟩, hlookup.holds⟩
    | notReady => exact ⟨⟨hsound, hknown, hmisses⟩, hlookup.holds⟩

theorem scanWaited (h : TaskOk ms os L t) (hp : t.phase = .scan (k :: todo) true) :
    TaskOk ms os (t.next (.scan todo false) (t.call.takeOrInvalid L k)).1
      (t.next (.scan todo false) (t.call.takeOrInvalid L k)).2 := by
  have hok := h.ok
  simp only [MoeTask.Ok, hp, List.cons_append] at hok
  obtain ⟨hsound, hneed, hmisses, hlater⟩ := hok
  have hcall : CallOk false (fun _ => 0) ms os L t.call (k :: (todo ++ t.call.need)) :=
    ⟨hsound, h.holds⟩
  have hstep := hcall.takeOrInvalid
  obtain ⟨hids, hwaits, hneed', hmisses'⟩ := t.call.takeOrInvalid_lists L k
  refine ⟨⟨?_, fun k' hk' => ?_, hmisses'.trans hmisses, ?_⟩, hstep.holds⟩
  · change (t.call.takeOrInvalid L k).2.Sound false (todo ++ (t.call.takeOrInvalid L k).2.need)
    rw [hneed']
    exact hstep.toSound
  · have hid : (t.call.takeOrInvalid L k).2.id k' = t.call.id k' := by simp only [MoeCall.id, hids]
    have hmem : k' ∈ (t.call.takeOrInvalid L k).2.need := hk'
    rw [hneed'] at hmem
    exact fun hnone => hneed k' hmem (hid.symm.trans hnone)
  · change t.deps.map (·.1) ++ (t.call.takeOrInvalid L k).2.waits = []
    rw [hwaits]
    exact hlater

theorem collectWaited (h : TaskOk ms os L t) (hp : t.phase = .collect (k :: todo) true) :
    TaskOk ms os (t.next (.collect todo false) (t.call.takeOrInvalid L k)).1
      (t.next (.collect todo false) (t.call.takeOrInvalid L k)).2 := by
  have hok := h.ok
  simp only [MoeTask.Ok, hp, List.cons_append] at hok
  obtain ⟨hsound, hknown⟩ := hok
  have hcall : CallOk false (fun _ => 0) ms os L t.call
      (k :: (todo ++ (t.deps.map (·.1) ++ t.call.awaited))) := ⟨hsound, h.holds⟩
  have hstep := hcall.takeOrInvalid
  obtain ⟨hids, hwaits, -, hmisses⟩ := t.call.takeOrInvalid_lists L k
  have hawaited : (t.call.takeOrInvalid L k).2.awaited = t.call.awaited := by
    simp only [MoeCall.awaited, hwaits, hmisses]
  refine ⟨⟨?_, fun k' hk' => ?_⟩, hstep.holds⟩
  · change (t.call.takeOrInvalid L k).2.Sound false
      (todo ++ (t.deps.map (·.1) ++ (t.call.takeOrInvalid L k).2.awaited))
    rw [hawaited]
    exact hstep.toSound
  · have hid : (t.call.takeOrInvalid L k).2.id k' = t.call.id k' := by simp only [MoeCall.id, hids]
    have hmem : k' ∈ todo ++ (t.deps.map (·.1) ++ (t.call.takeOrInvalid L k).2.waits) := hk'
    rw [hwaits] at hmem
    exact fun hnone => hknown k' (List.mem_cons_of_mem _ hmem) (hid.symm.trans hnone)

theorem finalWaited (h : TaskOk ms os L t) (hp : t.phase = .final (k :: todo) true) :
    TaskOk ms os (t.next (.final todo false) (t.call.finalWait L k)).1
      (t.next (.final todo false) (t.call.finalWait L k)).2 := by
  have hok := h.ok
  simp only [MoeTask.Ok, hp] at hok
  obtain ⟨hsound, hknown, hmisses⟩ := hok
  have hcall : CallOk false (fun _ => 0) ms os L t.call (k :: todo) := ⟨hsound, h.holds⟩
  have hstep := hcall.finalWait (hknown k List.mem_cons_self)
  obtain ⟨hids, hmisses'⟩ := t.call.finalWait_lists L k
  refine ⟨⟨hstep.toSound, fun k' hk' => ?_, hmisses'.trans hmisses⟩, hstep.holds⟩
  have hid : (t.call.finalWait L k).2.id k' = t.call.id k' := by simp only [MoeCall.id, hids]
  exact fun hnone => hknown k' (List.mem_cons_of_mem _ hk') (hid.symm.trans hnone)

/-- One step of a call, where the first wait loop takes and inserts nothing. -/
theorem step (h : TaskOk ms os L t) (hadm : t.admits L = true) :
    TaskOk ms os (t.step L).1 (t.step L).2 := by
  have hok := h.ok
  unfold MoeTask.step
  split
  · rename_i k todo hp
    exact h.scanWaited hp
  · rename_i k todo hp
    exact h.scan hp
  · rename_i hp
    simp only [MoeTask.Ok, hp, List.nil_append] at hok
    obtain ⟨hsound, hneed, hmisses, hlater⟩ := hok
    have hopen : t.deps.map (·.1) ++ t.call.awaited = [] := by
      rw [MoeCall.awaited, hmisses, List.map_nil, List.append_nil]
      exact hlater
    refine ⟨⟨?_, fun k hk => ?_⟩, h.holds⟩
    · change t.call.Sound false (t.call.need ++ (t.deps.map (·.1) ++ t.call.awaited))
      rw [hopen, List.append_nil]
      exact hsound
    · have hmem : k ∈ t.call.need ++ t.later := hk
      rw [hlater, List.append_nil] at hmem
      exact hneed k hmem
  · rename_i k todo hp
    exact h.collectWaited hp
  · rename_i k todo hp
    exact h.collect hp
  · rename_i hp
    simp only [MoeTask.Ok, hp, List.nil_append] at hok
    exact ⟨⟨hok.1, hok.2, fun _ hk => hk⟩, h.holds⟩
  · rename_i k todo hp
    exact h.rewait hp hadm
  · rename_i hp
    simp only [MoeTask.Ok, hp] at hok
    exact ⟨⟨hok.1, hok.2.1⟩, h.holds⟩
  · rename_i hp
    simp only [MoeTask.Ok, hp] at hok
    obtain ⟨hsound, hknown⟩ := hok
    split_ifs with hdone
    · obtain ⟨hmisses, hdeps⟩ := hdone
      rw [MoeCall.awaited, hmisses, hdeps, List.map_nil, List.map_nil, List.append_nil,
        List.nil_append] at hsound
      exact ⟨⟨hsound, fun k hk => hknown k (List.mem_append_right _ hk), hmisses⟩, h.holds⟩
    · exact h
  · rename_i k todo hp
    exact h.finalWaited hp
  · rename_i k todo hp
    exact h.final hp
  · rename_i hp
    simp only [MoeTask.Ok, hp] at hok
    exact ⟨hok.2.2, h.holds⟩
  · exact h

theorem commit (h : TaskOk ms os L t) (j : ℕ) (fetched : Bool) :
    TaskOk ms os (t.commit L j fetched).1 (t.commit L j fetched).2 := by
  unfold MoeTask.commit
  split
  · rename_i m hp hj
    have hok := h.ok
    simp only [MoeTask.Ok, hp] at hok
    obtain ⟨hsound, hknown⟩ := hok
    have hcall : CallOk false (fun _ => 0) ms os L t.call
        (t.later ++ t.call.misses.map (·.k)) := by
      rw [MoeTask.later, List.append_assoc]
      exact ⟨hsound, h.holds⟩
    have hfetched : false = true → fetched = true := nofun
    have hstep := hcall.commitMiss (List.mem_of_getElem? hj) hfetched
    rw [MoeTask.later, List.append_assoc] at hstep
    exact ⟨⟨hstep.toSound, hknown⟩, hstep.holds⟩
  · exact h

theorem finalizeDep (h : TaskOk ms os L t) (j : ℕ) :
    TaskOk ms os (t.finalizeDep L j).1 (t.finalizeDep L j).2 := by
  unfold MoeTask.finalizeDep
  split
  · rename_i d hp hj
    have hok := h.ok
    simp only [MoeTask.Ok, hp] at hok
    obtain ⟨hsound, hknown⟩ := hok
    obtain ⟨hlt, hget⟩ := List.getElem?_eq_some_iff.mp hj
    have hdeps : (t.deps.map (·.1)).Perm (d.1 :: (t.deps.eraseIdx j).map (·.1)) := by
      rw [← hget]
      exact ((List.getElem_cons_eraseIdx_perm hlt).map _).symm
    have hcall : CallOk false (fun _ => 0) ms os L t.call
        (d.1 :: ((t.deps.eraseIdx j).map (·.1) ++ t.call.awaited)) :=
      CallOk.perm ⟨hsound, h.holds⟩ (hdeps.append_right _)
    have hstep := hcall.takeOrInvalid
    obtain ⟨hids, hwaits, -, hmisses⟩ := t.call.takeOrInvalid_lists L d.1
    have hawaited : (t.call.takeOrInvalid L d.1).2.awaited = t.call.awaited := by
      simp only [MoeCall.awaited, hwaits, hmisses]
    refine ⟨⟨?_, fun k hk => ?_⟩, hstep.holds⟩
    · change (t.call.takeOrInvalid L d.1).2.Sound false
        ((t.deps.eraseIdx j).map (·.1) ++ (t.call.takeOrInvalid L d.1).2.awaited)
      rw [hawaited]
      exact hstep.toSound
    · have hid : (t.call.takeOrInvalid L d.1).2.id k = t.call.id k := by
        simp only [MoeCall.id, hids]
      have hmem : k ∈ (t.deps.eraseIdx j).map (·.1) ++ (t.call.takeOrInvalid L d.1).2.waits := hk
      rw [hwaits] at hmem
      refine fun hnone => hknown k ?_ (hid.symm.trans hnone)
      rcases List.mem_append.mp hmem with hmem | hmem
      · exact List.mem_append_left _ (hdeps.mem_iff.mpr (List.mem_cons_of_mem _ hmem))
      · exact List.mem_append_right _ hmem
  · exact h

/-- The release of an out slot that the call does not own, or has freed before. -/
theorem release (h : TaskOk ms os L t) {frees : Bool}
    (hadm : frees = true ∨ ∀ o ∈ t.call.outs.head?, o.owned = false) :
    TaskOk ms os (t.release L frees).1 (t.release L frees).2 := by
  unfold MoeTask.release
  split
  · rename_i o outs hp hout
    have hok := h.ok
    have hholds := h.holds
    simp only [MoeTask.Ok, hp] at hok
    rw [hout] at hadm hholds
    refine ⟨?_, hholds.release ?_⟩
    · simp only [MoeTask.Ok, hp]
      exact hok
    · exact hadm.imp_right fun hadm => hadm o rfl
  · exact h

theorem step_guards (h : TaskOk ms os L t) : Guards L (t.step L).1 := by
  unfold MoeTask.step
  split
  · exact t.call.takeOrInvalid_guards _
  · rename_i k todo _
    unfold MoeTask.scan
    split
    · rename_i L' hL'
      obtain ⟨e, he, hlookup⟩ := Option.map_eq_some_iff.mp hL'
      have hread := (lookup_cases (L := L) e t.call.now).1
      rw [hlookup] at hread
      exact hread.guards
    · exact t.call.scanHit_guards _
  · exact .refl L
  · exact t.call.takeOrInvalid_guards _
  · rename_i k todo _
    unfold MoeTask.collect
    split
    · rename_i L' hL'
      obtain ⟨e, he, hlookup⟩ := Option.map_eq_some_iff.mp hL'
      have hread := (lookup_cases (L := L) e t.call.now).1
      rw [hlookup] at hread
      split
      · exact hread.guards
      · exact hread.guards
    · exact MoeCall.collectMiss_guards h.holds _
  · exact .refl L
  · exact MoeCall.rewaitMiss_guards h.holds _
  · exact .refl L
  · split_ifs
    · exact .refl L
    · exact .refl L
  · exact t.call.finalWait_guards _
  · rename_i k todo _
    unfold MoeTask.final
    cases t.call.id k with
    | none => exact .refl L
    | some e =>
      have hread := (lookup_cases (L := L) e t.call.now).1
      simp only [Option.map_some]
      generalize L.lookup e t.call.now = res at hread ⊢
      obtain ⟨L', found⟩ := res
      cases found with
      | ready out => exact hread.guards
      | notReady => exact hread.guards
      | absent => exact hread.guards
  · exact .refl L
  · exact .refl L

theorem commit_guards (h : TaskOk ms os L t) (j : ℕ) (fetched : Bool) :
    Guards L (t.commit L j fetched).1 := by
  unfold MoeTask.commit
  split
  · rename_i m _ hj
    exact MoeCall.commitMiss_guards h.holds (List.mem_of_getElem? hj) fetched
  · exact .refl L

end TaskOk

namespace MoeTask

variable {L : MoeStreamLayer} {t : MoeTask}

theorem finalizeDep_guards (j : ℕ) : Guards L (t.finalizeDep L j).1 := by
  unfold finalizeDep
  split
  · exact t.call.takeOrInvalid_guards _
  · exact .refl L

theorem release_guards (frees : Bool) : Guards L (t.release L frees).1 := by
  unfold release
  split
  · simp only [releaseOut]
    split_ifs
    · exact .refl L
    · split
      · exact (release_read _).1.guards
      · exact .refl L
  · exact .refl L

end MoeTask

end Kappai
