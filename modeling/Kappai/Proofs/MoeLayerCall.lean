import Kappai.Spec.MoeTasks
import Kappai.Proofs.MoeExperts
import Kappai.Proofs.MoeTasks

/-! An out slot that owns its buffer has one. -/

namespace Kappai

open MoeStreamLayer

/-- The private buffers of a call are there, and those of its misses will be. -/
structure MoeCall.Private (c : MoeCall) : Prop where
  outs : ∀ o ∈ c.outs, o.owned = true → o.slot.heapBuf ≠ none
  misses : ∀ m ∈ c.misses, m.entry.tmp.eid ≠ none

theorem MoeStreamLayer.lookup_owned {L L' : MoeStreamLayer} {e : ℕ} {now : UInt64}
    {out : MoeOutSlot} (h : L.lookup e now = (L', .ready out)) : out.owned = false := by
  unfold lookup at h
  split at h
  · split_ifs at h
    · cases h
      rfl
    · cases h
  · cases h

namespace MoeCall.Private

variable {c : MoeCall} {L L' : MoeStreamLayer} {k e : ℕ} {o : MoeOutSlot}

theorem setOut (h : c.Private) (ho : o.owned = true → o.slot.heapBuf ≠ none) (k : ℕ) :
    (c.setOut k o).Private where
  outs := fun o' ho' => by
    rcases List.mem_or_eq_of_mem_set ho' with hmem | rfl
    · exact h.outs o' hmem
    · exact ho
  misses := h.misses

theorem unowned (h : c.Private) (ho : o.owned = false) (k : ℕ) : (c.setOut k o).Private :=
  h.setOut (fun howned => by cases ho.symm.trans howned) k

theorem insertMiss (h : c.Private) (L : MoeStreamLayer) (k e : ℕ) : (c.insertMiss L k e).2.Private := by
  have hadd : ∀ me : MoeMissEntry, me.tmp.eid = some e → (c.addMiss ⟨k, me⟩).Private := by
    refine fun me hme => ⟨h.outs, fun m hm => ?_⟩
    rcases List.mem_append.mp hm with hm | hm
    · exact h.misses m hm
    · rw [List.mem_singleton.mp hm, hme]
      exact Option.some_ne_none e
  unfold MoeCall.insertMiss
  split
  · exact hadd _ rfl
  · exact hadd _ rfl

theorem scanHit (h : c.Private) (L : MoeStreamLayer) (k : ℕ) : (c.scanHit L k).2.Private := by
  have hzero : (c.setOut k .zero).Private := h.unowned rfl k
  unfold MoeCall.scanHit
  split
  · exact h.unowned rfl k
  · split
    · rename_i hlookup
      exact h.unowned (lookup_owned hlookup) k
    · exact ⟨hzero.outs, hzero.misses⟩

theorem collectMiss (h : c.Private) (L : MoeStreamLayer) (k : ℕ) : (c.collectMiss L k).2.Private := by
  unfold MoeCall.collectMiss
  split
  · exact h
  · split
    · rename_i hlookup
      exact h.unowned (lookup_owned hlookup) k
    · exact ⟨h.outs, h.misses⟩
    · exact h.insertMiss _ k _

theorem rewaitMiss (h : c.Private) (L : MoeStreamLayer) (k : ℕ) : (c.rewaitMiss L k).2.Private := by
  unfold MoeCall.rewaitMiss
  split
  · exact h
  · split
    · rename_i hlookup
      exact h.unowned (lookup_owned hlookup) k
    · exact h
    · exact h.insertMiss _ k _

theorem takeOrInvalid (h : c.Private) (L : MoeStreamLayer) (k : ℕ) :
    (c.takeOrInvalid L k).2.Private := by
  unfold MoeCall.takeOrInvalid
  split
  · exact h.unowned rfl k
  · split
    · rename_i hlookup
      exact h.unowned (lookup_owned hlookup) k
    · exact h.unowned rfl k

theorem finalWait (h : c.Private) (L : MoeStreamLayer) (k : ℕ) : (c.finalWait L k).2.Private := by
  have hinvalid : (c.setOut k .invalid).Private := h.unowned rfl k
  unfold MoeCall.finalWait
  split
  · exact h
  · split
    · rename_i hlookup
      exact h.unowned (lookup_owned hlookup) k
    · exact ⟨hinvalid.outs, hinvalid.misses⟩

/-- A fetched expert that stays private has been read into the buffer. -/
theorem commitMiss (h : c.Private) (L : MoeStreamLayer) {m : MoeMiss} (hm : m ∈ c.misses)
    (fetched : Bool) : (c.commitMiss L m fetched).2.Private := by
  have hout : (MoeCall.commitOut L m.entry fetched).owned = true →
      (MoeCall.commitOut L m.entry fetched).slot.heapBuf ≠ none := by
    have htmp := h.misses m hm
    unfold MoeCall.commitOut
    cases fetched with
    | false => exact fun howned => by cases howned
    | true =>
      cases m.entry.slot with
      | none => exact fun _ => htmp
      | some i =>
        simp only [if_true]
        split_ifs
        · exact fun _ => htmp
        · exact fun _ => htmp
  have hset := h.setOut hout m.k
  exact ⟨hset.outs, fun m' hm' => h.misses m' (List.mem_of_mem_erase hm')⟩

end MoeCall.Private

namespace MoeTask

variable {t : MoeTask}

theorem step_private (h : t.call.Private) (L : MoeStreamLayer) : (t.step L).2.call.Private := by
  unfold step
  split
  · exact h.takeOrInvalid L _
  · unfold MoeTask.scan
    split
    · exact h
    · exact h.scanHit L _
  · exact h
  · exact h.takeOrInvalid L _
  · unfold MoeTask.collect
    split
    · split
      · exact h
      · exact h
    · exact h.collectMiss L _
  · exact h
  · exact h.rewaitMiss L _
  · exact h
  · split_ifs
    · exact h
    · exact h
  · exact h.finalWait L _
  · unfold MoeTask.final
    split
    · rename_i hlookup
      obtain ⟨e, -, hlookup⟩ := Option.map_eq_some_iff.mp hlookup
      exact h.unowned (lookup_owned hlookup) _
    · exact h
    · exact h
  · exact h
  · exact h

theorem commit_private (h : t.call.Private) (L : MoeStreamLayer) (j : ℕ) (fetched : Bool) :
    (t.commit L j fetched).2.call.Private := by
  unfold commit
  split
  · rename_i hj
    exact h.commitMiss L (List.mem_of_getElem? hj) fetched
  · exact h

theorem finalizeDep_private (h : t.call.Private) (L : MoeStreamLayer) (j : ℕ) :
    (t.finalizeDep L j).2.call.Private := by
  unfold finalizeDep
  split
  · exact h.takeOrInvalid L _
  · exact h

theorem release_private (h : t.call.Private) (L : MoeStreamLayer) (frees : Bool) :
    (t.release L frees).2.call.Private := by
  unfold release
  split
  · rename_i houts
    refine ⟨fun o ho => h.outs o ?_, h.misses⟩
    rw [houts]
    exact List.mem_cons_of_mem _ ho
  · exact h

end MoeTask

namespace MoeSystem

variable {s : MoeSystem}

theorem task_private (h : ∀ t ∈ s.tasks, t.call.Private) {i : ℕ}
    {f : MoeTask → MoeStreamLayer → MoeStreamLayer × MoeTask}
    (hf : ∀ t : MoeTask, t.call.Private → (f t s.layer).2.call.Private) :
    ∀ t ∈ (s.task i f).tasks, t.call.Private := by
  unfold task
  split
  · rename_i t ht
    intro t' ht'
    rcases List.mem_or_eq_of_mem_set ht' with hmem | rfl
    · exact h t' hmem
    · exact hf t (h t (List.mem_of_getElem? ht))
  · exact h

theorem apply_private (h : ∀ t ∈ s.tasks, t.call.Private) (a : MoeAct) :
    ∀ t ∈ (s.apply a).tasks, t.call.Private := by
  cases a with
  | start prep ids now =>
    intro t ht
    rcases List.mem_append.mp ht with ht | ht
    · exact h t ht
    · rw [List.mem_singleton.mp ht]
      refine ⟨fun o ho howned => ?_, fun m hm => absurd hm List.not_mem_nil⟩
      obtain ⟨_, -, rfl⟩ := List.mem_map.mp ho
      cases howned
  | step i => exact task_private h fun t ht => MoeTask.step_private ht s.layer
  | commit i j fetched => exact task_private h fun t ht => MoeTask.commit_private ht s.layer j fetched
  | finalizeDep i j => exact task_private h fun t ht => MoeTask.finalizeDep_private ht s.layer j
  | release i frees => exact task_private h fun t ht => MoeTask.release_private ht s.layer frees
  | tier op =>
    simp only [MoeSystem.apply]
    split_ifs
    · exact h
    · exact h

/-- In every run an out slot that owns its buffer has one. -/
theorem run_private (lruCap tierCap : ℕ) (pins : List (ℕ × PinResult)) (acts : List MoeAct) :
    ∀ t ∈ (acts.foldl apply (init lruCap tierCap pins)).tasks, t.call.Private := by
  have hinit : ∀ t ∈ (init lruCap tierCap pins).tasks, t.call.Private :=
    fun _ h => absurd h List.not_mem_nil
  generalize init lruCap tierCap pins = s at hinit
  induction acts generalizing s with
  | nil => exact hinit
  | cons a acts ih => exact ih _ (apply_private hinit a)

end MoeSystem

/-! What is left of the holds and the private buffers of a layer call when it is over. -/

open MoeStreamLayer

variable {L : MoeStreamLayer} {slots : List MoeOutSlot}

theorem releaseSlots_eq (L : MoeStreamLayer) (slots : List MoeOutSlot) :
    moeStreamReleaseSlots L slots = slots.foldl (fun L o => L.releaseOut false o) L := by
  unfold moeStreamReleaseSlots
  induction slots generalizing L with
  | nil => rfl
  | cons o slots ih => exact ih _

/-- With its private buffers freed and marked, the rest of the slots is released. -/
theorem releaseFreed_eq (L : MoeStreamLayer)
    (hprivate : ∀ o ∈ slots, o.owned = true → o.slot.heapBuf ≠ none) :
    moeStreamReleaseSlots L (slots.map MoeOutSlot.freePrivate) =
      slots.foldl (fun L o => L.releaseOut true o) L := by
  rw [releaseSlots_eq]
  induction slots generalizing L with
  | nil => rfl
  | cons o slots ih =>
    have hstep : L.releaseOut false o.freePrivate = L.releaseOut true o := by
      unfold MoeOutSlot.freePrivate MoeOutSlot.isPrivate releaseOut
      cases howned : o.owned with
      | false => rfl
      | true =>
        have hbuf := hprivate o List.mem_cons_self howned
        rw [Option.isSome_iff_ne_none.mpr hbuf]
        rfl
    rw [List.map_cons, List.foldl_cons, List.foldl_cons, hstep]
    exact ih _ fun o' ho' => hprivate o' (List.mem_cons_of_mem _ ho')

theorem isPrivate_eq (hprivate : ∀ o ∈ slots, o.owned = true → o.slot.heapBuf ≠ none) :
    slots.filter MoeOutSlot.isPrivate = slots.filter (·.owned) := by
  refine List.filter_congr fun o ho => ?_
  unfold MoeOutSlot.isPrivate
  cases howned : o.owned with
  | false => rfl
  | true =>
    rw [Option.isSome_iff_ne_none.mpr (hprivate o ho howned)]
    rfl

/-- The out slots of a call are given back one after the other. -/
theorem MoeHolds.releaseAll {base : SlotRef → ℕ} {misses : List MoeMissEntry}
    {outs : List MoeOutSlot} {frees : Bool} (h : MoeHolds base misses L (slots ++ outs))
    (hfrees : ∀ o ∈ slots, frees = true ∨ o.owned = false) :
    MoeHolds base misses (slots.foldl (fun L o => L.releaseOut frees o) L) outs := by
  induction slots generalizing L with
  | nil => exact h
  | cons o slots ih =>
    exact ih (h.release (hfrees o List.mem_cons_self))
      fun o' ho' => hfrees o' (List.mem_cons_of_mem _ ho')

theorem holds_append (outs outs' : List MoeOutSlot) (r : SlotRef) :
    holds (outs ++ outs') r = holds outs r + holds outs' r := List.countP_append

theorem holds_eq_zero {outs : List MoeOutSlot} :
    (∀ r, holds outs r = 0) ↔ ∀ o ∈ outs, o.held = none := by
  constructor
  · intro h o ho
    by_contra hne
    obtain ⟨r, hr⟩ := Option.ne_none_iff_exists'.mp hne
    exact Nat.ne_of_gt (holds_pos ho hr) (h r)
  · intro h r
    refine List.countP_eq_zero.mpr fun o ho => ?_
    simp [h o ho]

/-- Every hold of the call has been given back once, no other holder has lost one, and its private
buffers have been freed once. -/
def MoeCallEnd.Clean (e : MoeCallEnd) (slots others : List MoeOutSlot) : Prop :=
  (∀ r, (e.layer.slot r).inuse = others.countP fun o => e.layer.holder o = some r) ∧
    e.freed = slots.filter (·.owned)

/-- There is nothing to give back. -/
def MoeStreamLayer.Empty (L : MoeStreamLayer) (slots : List MoeOutSlot) : Prop :=
  ∀ o ∈ slots, L.holder o = none ∧ o.owned = false

section

variable {misses : List MoeMissEntry} {others : List MoeOutSlot}

theorem clean_of_holds (h : MoeHolds (fun _ => 0) misses L others) {freed : List MoeOutSlot} {ok : Bool}
    (hfreed : freed = slots.filter (·.owned)) :
    (MoeCallEnd.mk L freed ok).Clean slots others := by
  refine ⟨fun r => ?_, hfreed⟩
  rw [h.holder_count r, h.tally r, Nat.zero_add]

/-- A call that returns as it is leaves its holds behind. -/
theorem clean_left_iff (h : MoeHolds (fun _ => 0) misses L (slots ++ others)) (ok : Bool) :
    (MoeCallEnd.mk L [] ok).Clean slots others ↔ L.Empty slots := by
  have hcount : ∀ r, (others.countP fun o => L.holder o = some r) = holds others r :=
    fun r => List.countP_congr fun o ho => by rw [h.holder_eq (List.mem_append_right _ ho)]
  have hholds : (∀ r, (L.slot r).inuse = others.countP fun o => L.holder o = some r) ↔
      ∀ o ∈ slots, L.holder o = none := by
    have hzero : (∀ r, (L.slot r).inuse = others.countP fun o => L.holder o = some r) ↔
        ∀ r, holds slots r = 0 := by
      refine forall_congr' fun r => ?_
      rw [hcount r, h.tally r, holds_append]
      omega
    rw [hzero, holds_eq_zero]
    refine forall₂_congr fun o ho => ?_
    rw [h.holder_eq (List.mem_append_left _ ho)]
  have hfreed : [] = slots.filter (·.owned) ↔ ∀ o ∈ slots, o.owned = false := by
    rw [eq_comm, List.filter_eq_nil_iff]
    simp only [Bool.not_eq_true]
  unfold MoeCallEnd.Clean MoeStreamLayer.Empty
  rw [hholds, hfreed]
  exact ⟨fun hand o ho => ⟨hand.1 o ho, hand.2 o ho⟩,
    fun hall => ⟨fun o ho => (hall o ho).1, fun o ho => (hall o ho).2⟩⟩

/-- A call that releases its slots and frees nothing. -/
theorem clean_released_iff (h : MoeHolds (fun _ => 0) misses L (slots ++ others)) (ok : Bool) :
    (MoeCallEnd.mk (moeStreamReleaseSlots L slots) [] ok).Clean slots others ↔
      ∀ o ∈ slots, o.owned = false := by
  constructor
  · rintro ⟨-, hfreed⟩ o ho
    have hnone := List.filter_eq_nil_iff.mp hfreed.symm o ho
    simpa using hnone
  · intro howned
    rw [releaseSlots_eq]
    refine clean_of_holds (h.releaseAll fun o ho => Or.inr (howned o ho)) ?_
    exact (List.filter_eq_nil_iff.mpr fun o ho => by simp [howned o ho]).symm

theorem clean_batch (h : MoeHolds (fun _ => 0) misses L (slots ++ others))
    (hprivate : ∀ o ∈ slots, o.owned = true → o.slot.heapBuf ≠ none) :
    (moeReleaseBatchSlots L slots).Clean slots others := by
  unfold moeReleaseBatchSlots
  rw [releaseFreed_eq L hprivate, isPrivate_eq hprivate]
  exact clean_of_holds (h.releaseAll fun _ _ => Or.inl rfl) rfl

end

section

variable {B F : Type*} [DecidableEq B] [Field F] [DecidableEq F]

/-- Whether `moe_experts_batch` returns `OK` depends on the statuses alone. -/
theorem moeExpertsBatch_isSome (R : MoeRouting) (env : MoeBatchEnv B) (views : ℕ → MoeSlotView)
    (v : MoeValues F) : (moeExpertsBatch R env views v).isSome = MoeBatchOk R env views := by
  have hfinish : ∀ out : ℕ → ℕ → F, (if env.write then some out else none).isSome = env.write := by
    intro out
    cases env.write with
    | true => rfl
    | false => rfl
  have hif : (1 < R.nRows ∧ env.matmulBatch = true) ↔ byExperts R env = true := by
    simp [byExperts]
  unfold moeExpertsBatch MoeBatchOk
  by_cases hby : byExperts R env = true
  · rw [if_pos (hif.mpr hby), if_pos hby, residentGrouped_taken]
    unfold residentRuns
    cases env.capResident && env.expertsResident with
    | false => exact hfinish _
    | true =>
      cases residentTaken R env views with
      | true => rfl
      | false => exact hfinish _
  · rw [if_neg (mt hif.mp hby), if_neg hby]
    cases env.read with
    | false => rfl
    | true =>
      cases env.pooled with
      | true => simp [hfinish]
      | false =>
        rw [← moeExpertsTokens_isSome R env views v]
        cases moeExpertsTokens R env views v with
        | none => simp
        | some out => simp [hfinish]

variable {misses : List MoeMissEntry} {others : List MoeOutSlot} {c : MoeCall}

/-- A batch gives its slots back where the resolve and `moe_experts_batch` return `OK`. -/
theorem batchEnd_clean_iff (h : MoeHolds (fun _ => 0) misses L (c.outs ++ others))
    (hprivate : c.Private) (R : MoeRouting) (env : MoeBatchEnv B) (useMmap : Bool)
    (v : MoeValues F) :
    (moeExpertsBatchEnd R env useMmap v L c).Clean c.outs others ↔
      (c.ok = true ∧ MoeBatchOk R env (c.views useMmap) = true) ∨ L.Empty c.outs := by
  have hleft := clean_left_iff h false
  unfold moeExpertsBatchEnd
  rw [← moeExpertsBatch_isSome R env (c.views useMmap) v]
  cases c.ok with
  | false => simpa using hleft
  | true =>
    cases moeExpertsBatch R env (c.views useMmap) v with
    | none => simpa using hleft
    | some out => exact iff_of_true (clean_batch h hprivate.outs) (Or.inl ⟨rfl, rfl⟩)

/-- A device gives its slots back where the resolve returns `OK`, but takes a private buffer for a
slot of the cache. -/
theorem deviceEnd_clean_iff (h : MoeHolds (fun _ => 0) misses L (c.outs ++ others))
    (t : MoeExecTarget) :
    (t.deviceEnd L c).Clean c.outs others ↔
      (c.ok = true ∧ ∀ o ∈ c.outs, o.owned = false) ∨ L.Empty c.outs := by
  have hleft := clean_left_iff h false
  have hreleased := clean_released_iff h
  have hempty : L.Empty c.outs → ∀ o ∈ c.outs, o.owned = false := fun hall o ho => (hall o ho).2
  unfold MoeExecTarget.deviceEnd MoeExecTarget.deviceSubmit
  cases c.ok with
  | false => simpa using hleft
  | true =>
    have hor : (true = true ∧ ∀ o ∈ c.outs, o.owned = false) ∨ L.Empty c.outs ↔
        ∀ o ∈ c.outs, o.owned = false :=
      ⟨fun hor => hor.elim (·.2) hempty, fun hall => Or.inl ⟨rfl, hall⟩⟩
    rw [hor]
    cases !t.direct && !t.scratch with
    | true => exact hreleased false
    | false =>
      cases t.submits c.outs with
      | false => exact hreleased false
      | true => exact hreleased _

/-- The rest of the layer call goes where the slots are given back. -/
def MoeLayerCall.GivesBack : MoeLayerCall B F → MoeCall → Prop
  | .batch R env useMmap _, c => MoeBatchOk R env (c.views useMmap) = true
  | .device _, c => ∀ o ∈ c.outs, o.owned = false

theorem finish_clean_iff (h : MoeHolds (fun _ => 0) misses L (c.outs ++ others))
    (hprivate : c.Private) (e : MoeLayerCall B F) :
    (e.finish L c).Clean c.outs others ↔ (c.ok = true ∧ e.GivesBack c) ∨ L.Empty c.outs := by
  cases e with
  | batch R env useMmap v => exact batchEnd_clean_iff h hprivate R env useMmap v
  | device t => exact deviceEnd_clean_iff h t

end

/-- In every run that keeps the use counts, once a layer call is over each of its holds has been
given back once, no other holder has lost one and its private buffers have been freed, exactly if
its resolve returned `OK` and it goes on to where it gives them back, or has nothing to give back. -/
theorem moeLayerCall_clean_iff {B F : Type*} [DecidableEq B] [Field F] [DecidableEq F]
    (lruCap tierCap : ℕ) (pins : List (ℕ × PinResult)) (acts : List MoeAct)
    (hrun : SafeRun MoeSystem.apply MoeSystem.Admits (MoeSystem.init lruCap tierCap pins) acts)
    (i : ℕ) (t : MoeTask)
    (ht : (acts.foldl MoeSystem.apply (MoeSystem.init lruCap tierCap pins)).tasks[i]? = some t)
    (e : MoeLayerCall B F) :
    let s := acts.foldl MoeSystem.apply (MoeSystem.init lruCap tierCap pins)
    let others := (s.tasks.eraseIdx i).flatMap fun t => t.call.outs
    (e.finish s.layer t.call).Clean t.call.outs others ↔
      (t.call.ok = true ∧ e.GivesBack t.call) ∨ s.layer.Empty t.call.outs := by
  intro s others
  have hs : s.Ok := .run lruCap tierCap pins hrun
  have hprivate : t.call.Private :=
    MoeSystem.run_private lruCap tierCap pins acts t (List.mem_of_getElem? ht)
  obtain ⟨hlt, hget⟩ := List.getElem?_eq_some_iff.mp ht
  have hperm : s.tasks.Perm (t :: s.tasks.eraseIdx i) := by
    rw [← hget]
    exact (List.getElem_cons_eraseIdx_perm hlt).symm
  have hholds := hs.holds.perm (hperm.flatMap_right _) (hperm.flatMap_right _)
  exact finish_clean_iff hholds hprivate e

/-- A resolve of one expert, on its own. -/
def oneResolve : List MoeAct :=
  [.start false [some 5] 1, .step 0, .step 0, .step 0, .step 0, .step 0, .commit 0 0 true, .step 0,
    .step 0]

def resolvedSystem : MoeSystem := oneResolve.foldl MoeSystem.apply (MoeSystem.init 4 0 [])

def resolvedTask : MoeTask := resolvedSystem.tasks.headD (.start false [] 0)

/-- The batch of one row behind it, on the host. -/
def oneRowCall (write : Bool) : MoeLayerCall Unit ℚ :=
  .batch ⟨1, 1, fun _ _ => some 5⟩ { splitEnv true with expertsResident := false, write } false
    (markedValues ⟨0, 0, 5⟩)

theorem oneRowCall_clean :
    ((oneRowCall true).finish resolvedSystem.layer resolvedTask.call).Clean resolvedTask.call.outs
      ((resolvedSystem.tasks.eraseIdx 0).flatMap fun t => t.call.outs) := by
  have ht : resolvedSystem.tasks[0]? = some resolvedTask := by
    have hlen : resolvedSystem.tasks.length = 1 := by decide +kernel
    obtain ⟨t, hone⟩ := List.length_eq_one_iff.mp hlen
    rw [resolvedTask, hone]
    rfl
  have hback : MoeBatchOk ⟨1, 1, fun _ _ => some 5⟩
      { splitEnv true with expertsResident := false } (resolvedTask.call.views false) = true := by
    decide +kernel
  exact (moeLayerCall_clean_iff 4 0 [] oneResolve (by decide +kernel) 0 resolvedTask ht
    (oneRowCall true)).mpr (Or.inl ⟨by decide +kernel, hback⟩)

/-- The output cannot be written, the call returns, and the slot stays in use with no holder. -/
theorem oneRowCall_leaves_hold :
    let e := (oneRowCall false).finish resolvedSystem.layer resolvedTask.call
    e.ok = false ∧ (resolvedSystem.tasks.eraseIdx 0).flatMap (fun t => t.call.outs) = [] ∧
      (e.layer.slot (.lru 0)).inuse = 1 := by
  decide +kernel

end Kappai
