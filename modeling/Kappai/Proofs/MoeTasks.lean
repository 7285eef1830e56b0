import Kappai.Proofs.MoeStream
import Kappai.Sanity.MoeTasks
import Kappai.Spec.MoeTasks

/-! Any interleaving of resolves, prefetches and releases on one layer. -/

namespace Kappai

open MoeStreamLayer

namespace MoeHolds

variable {misses : List MoeMissEntry} {L : MoeStreamLayer} {outs : List MoeOutSlot}

/-- Where every holder is known, a tier slot without an expert is not in use. -/
theorem freeIdle (h : MoeHolds (fun _ => 0) misses L outs) : L.FreeIdle := by
  intro t _ hnone
  by_contra huse
  have htally := h.tally (.tier t)
  have hpos : 0 < holds outs (.tier t) := by
    have huse' : (L.slot (.tier t)).inuse ≠ 0 := huse
    omega
  obtain ⟨o, ho, hheld⟩ := List.countP_pos_iff.mp hpos
  obtain ⟨-, -, ⟨e, -, hlive⟩, -⟩ := h.held o ho (.tier t) (by simpa using hheld)
  have heid := liveSlotFind_eid h.inv.tables h.quiet hlive
  cases hnone.symm.trans heid

theorem tier_slots (h : MoeHolds (fun _ => 0) misses L outs) {op : MoeOp} (hop : op.isTier = true) :
    Tame L (MoeStream.apply ⟨L, []⟩ op).layer none ∧
      Takes L (MoeStream.apply ⟨L, []⟩ op).layer none := by
  have hstay : Tame L L none ∧ Takes L L none := ⟨.refl L, .refl L⟩
  cases op with
  | lookup e now => cases hop
  | miss e now => cases hop
  | commit k fetched => cases hop
  | release e => cases hop
  | evict i clock =>
    simp only [MoeStream.apply]
    split_ifs with hif
    · have hmove := hif.2
      simp only [MoeExpertSlot.movable, Bool.and_eq_true, beq_iff_eq] at hmove
      exact (lruSlotClear_slots h.inv.tables hif.1 hmove.1.2 hmove.2 clock).symm
    · exact hstay
  | promote i victim uploaded copied clock =>
    simp only [MoeStream.apply]
    split_ifs with hif
    · exact (tierPromote_slots h.inv.tables hif.1 hif.2.1 hif.2.2 uploaded copied clock).imp_right
        fun htakes => htakes h.freeIdle
    · exact hstay
  | demote t copied clock =>
    simp only [MoeStream.apply]
    split_ifs with hif
    · exact tierDemote_slots h.inv.tables h.inv.heap hif.1 hif.2 copied clock
    · exact hstay

/-- The moves of the tier look at no miss under way. -/
theorem tier (h : MoeHolds (fun _ => 0) misses L outs) {op : MoeOp} (hop : op.isTier = true) :
    MoeHolds (fun _ => 0) misses (MoeStream.apply ⟨L, []⟩ op).layer outs := by
  have hsame : MoeStream.apply ⟨L, misses⟩ op = ⟨(MoeStream.apply ⟨L, []⟩ op).layer, misses⟩ := by
    cases op with
    | lookup e now => cases hop
    | miss e now => cases hop
    | commit k fetched => cases hop
    | release e => cases hop
    | evict i clock =>
      simp only [MoeStream.apply]
      split_ifs
      · rfl
      · rfl
    | promote i victim uploaded copied clock =>
      simp only [MoeStream.apply]
      split_ifs
      · rfl
      · rfl
    | demote t copied clock =>
      simp only [MoeStream.apply]
      split_ifs
      · rfl
      · rfl
  have hinv := h.inv.apply op
  have hq := h.quiet.apply h.inv op
  rw [hsame] at hinv hq
  obtain ⟨htame, htakes⟩ := h.tier_slots hop
  exact h.move hinv hq htame htakes

end MoeHolds

namespace MoeSystem

def entries (s : MoeSystem) : List MoeMissEntry := s.tasks.flatMap fun t => t.call.entries

/-- The out slots of all calls that have not been given back. -/
def outs (s : MoeSystem) : List MoeOutSlot := s.tasks.flatMap fun t => t.call.outs

structure Ok (s : MoeSystem) : Prop where
  holds : MoeHolds (fun _ => 0) s.entries s.layer s.outs
  tasks : ∀ t ∈ s.tasks, t.Ok

variable {s : MoeSystem}

/-- A call against all the others. -/
theorem Ok.focus (h : s.Ok) {i : ℕ} {t : MoeTask} (ht : s.tasks[i]? = some t) :
    ∃ ms os, TaskOk ms os s.layer t ∧
      ∀ L t', TaskOk ms os L t' → Ok ⟨L, s.tasks.set i t'⟩ := by
  obtain ⟨hlt, hget⟩ := List.getElem?_eq_some_iff.mp ht
  have hperm : s.tasks.Perm (t :: s.tasks.eraseIdx i) := by
    rw [← hget]
    exact (List.getElem_cons_eraseIdx_perm hlt).symm
  have hset : ∀ t', (s.tasks.set i t').Perm (t' :: s.tasks.eraseIdx i) :=
    fun t' => List.set_perm_cons_eraseIdx hlt t'
  refine ⟨(s.tasks.eraseIdx i).flatMap fun t => t.call.entries,
    (s.tasks.eraseIdx i).flatMap fun t => t.call.outs,
    ⟨h.tasks t (List.mem_of_getElem? ht), ?_⟩, fun L t' ht' => ⟨?_, fun t'' ht'' => ?_⟩⟩
  · exact h.holds.perm (hperm.flatMap_right _) (hperm.flatMap_right _)
  · have hentries := (hset t').flatMap_right fun t => t.call.entries
    have houts := (hset t').flatMap_right fun t => t.call.outs
    exact ht'.holds.perm hentries.symm houts.symm
  · rcases List.mem_cons.mp ((hset t').mem_iff.mp ht'') with rfl | hmem
    · exact ht'.ok
    · exact h.tasks t'' (List.mem_of_mem_eraseIdx hmem)

theorem Ok.task (h : s.Ok) {i : ℕ} {f : MoeTask → MoeStreamLayer → MoeStreamLayer × MoeTask}
    (hf : ∀ t, s.tasks[i]? = some t → ∀ ms os, TaskOk ms os s.layer t →
      TaskOk ms os (f t s.layer).1 (f t s.layer).2) : (s.task i f).Ok := by
  unfold MoeSystem.task
  cases ht : s.tasks[i]? with
  | none => exact h
  | some t =>
    obtain ⟨ms, os, htask, hback⟩ := h.focus ht
    exact hback _ _ (hf t ht ms os htask)

theorem Ok.task_guards (h : s.Ok) {i : ℕ} {f : MoeTask → MoeStreamLayer → MoeStreamLayer × MoeTask}
    (hf : ∀ t ms os, TaskOk ms os s.layer t → Guards s.layer (f t s.layer).1) :
    Guards s.layer (s.task i f).layer := by
  unfold MoeSystem.task
  cases ht : s.tasks[i]? with
  | none => exact .refl _
  | some t =>
    obtain ⟨ms, os, htask, -⟩ := h.focus ht
    exact hf t ms os htask

theorem Ok.start (h : s.Ok) (prep : Bool) (ids : List (Option ℕ)) (now : UInt64) :
    (s.apply (.start prep ids now)).Ok where
  holds := by
    refine (h.holds.start ids now).perm ?_ ?_
    · simp [entries, apply, MoeTask.start, MoeCall.entries, MoeCall.start]
    · simp only [outs, apply, MoeTask.start, List.flatMap_append, List.flatMap_cons,
        List.flatMap_nil, List.append_nil]
      exact List.perm_append_comm
  tasks := fun t ht => by
    rcases List.mem_append.mp ht with ht | ht
    · exact h.tasks t ht
    · rw [List.mem_singleton.mp ht]
      refine ⟨?_, fun _ h => absurd h List.not_mem_nil, rfl, rfl⟩
      change (MoeCall.start ids now).Sound false (List.range ids.length ++ [])
      rw [List.append_nil]
      exact MoeCall.start_sound false ids now

/-- The steps that keep the count: the first wait loop finds its expert still being fetched, and a
caller frees its private buffers before it gives back the slots. -/
def Admits (s : MoeSystem) : MoeAct → Prop
  | .step i => ∀ t ∈ s.tasks[i]?, t.admits s.layer = true
  | .release i frees => frees = true ∨ ∀ t ∈ s.tasks[i]?, ∀ o ∈ t.call.outs.head?, o.owned = false
  | _ => True

instance (s : MoeSystem) : DecidablePred s.Admits
  | .start _ _ _ => isTrue trivial
  | .step i => inferInstanceAs (Decidable (∀ t ∈ s.tasks[i]?, t.admits s.layer = true))
  | .commit _ _ _ => isTrue trivial
  | .finalizeDep _ _ => isTrue trivial
  | .release i frees => inferInstanceAs (Decidable (frees = true ∨
      ∀ t ∈ s.tasks[i]?, ∀ o ∈ t.call.outs.head?, o.owned = false))
  | .tier _ => isTrue trivial

theorem Ok.apply (h : s.Ok) {a : MoeAct} (ha : s.Admits a) : (s.apply a).Ok := by
  cases a with
  | start prep ids now => exact h.start prep ids now
  | step i => exact h.task fun t ht _ _ htask => htask.step (ha t ht)
  | commit i j fetched =>
    exact h.task (f := fun t L => t.commit L j fetched) fun _ _ _ _ htask =>
      htask.commit j fetched
  | finalizeDep i j =>
    exact h.task (f := fun t L => t.finalizeDep L j) fun _ _ _ _ htask => htask.finalizeDep j
  | release i frees =>
    exact h.task (f := fun t L => t.release L frees) fun t ht _ _ htask =>
      htask.release (ha.imp_right fun ha => ha t ht)
  | tier op =>
    simp only [MoeSystem.apply]
    split_ifs with hop
    · exact ⟨h.holds.tier hop, h.tasks⟩
    · exact h

theorem Ok.guards (h : s.Ok) (a : MoeAct) : Guards s.layer (s.apply a).layer := by
  cases a with
  | start prep ids now => exact .refl _
  | step i => exact h.task_guards fun _ _ _ htask => htask.step_guards
  | commit i j fetched =>
    exact h.task_guards (f := fun t L => t.commit L j fetched) fun _ _ _ htask =>
      htask.commit_guards j fetched
  | finalizeDep i j =>
    exact h.task_guards (f := fun t L => t.finalizeDep L j) fun t _ _ _ => t.finalizeDep_guards j
  | release i frees =>
    exact h.task_guards (f := fun t L => t.release L frees) fun t _ _ _ => t.release_guards frees
  | tier op =>
    simp only [MoeSystem.apply]
    split_ifs with hop
    · exact (h.holds.tier_slots hop).2.same
    · exact .refl _

theorem Ok.init (lruCap tierCap : ℕ) (pins : List (ℕ × PinResult)) :
    (MoeSystem.init lruCap tierCap pins).Ok where
  holds := by
    have hinv := MoeInv.run lruCap tierCap pins []
    have hq := MoeQuiet.run lruCap tierCap pins []
    refine ⟨hinv, hq, fun r => ?_, fun _ h => absurd h List.not_mem_nil,
      fun _ h => absurd h List.not_mem_nil⟩
    cases r with
    | tier t => rfl
    | lru i => rfl
    | pinned p =>
      change ((pins[p]?.map fun q => pinnedSlot q.1 q.2).getD .zero).inuse = 0
      cases pins[p]? with
      | none => rfl
      | some q =>
        rw [Option.map_some, Option.getD_some]
        cases q.2 with
        | failed => rfl
        | host => rfl
        | device => rfl
  tasks := fun _ h => absurd h List.not_mem_nil

theorem Ok.run (lruCap tierCap : ℕ) (pins : List (ℕ × PinResult)) {acts : List MoeAct}
    (hrun : SafeRun MoeSystem.apply Admits (MoeSystem.init lruCap tierCap pins) acts) :
    (acts.foldl MoeSystem.apply (MoeSystem.init lruCap tierCap pins)).Ok :=
  hrun.inv (fun _ _ h ha => h.apply ha) (Ok.init lruCap tierCap pins)

end MoeSystem

/-- In every run the use count of a slot is the number of out slots that stand for it, a slot in use
keeps its weights in the next step whichever it is, and with every out slot given back no slot is
in use. -/
theorem moeSystem_inuse (lruCap tierCap : ℕ) (pins : List (ℕ × PinResult)) (acts : List MoeAct)
    (hrun : SafeRun MoeSystem.apply MoeSystem.Admits (MoeSystem.init lruCap tierCap pins) acts) :
    let s := acts.foldl MoeSystem.apply (MoeSystem.init lruCap tierCap pins)
    (∀ r, (s.layer.slot r).inuse = s.outs.countP fun o => s.layer.holder o = some r) ∧
      (∀ a r, 0 < (s.layer.slot r).inuse →
        SameWeights (s.layer.slot r) ((s.apply a).layer.slot r)) ∧
      ((∀ t ∈ s.tasks, t.call.outs = []) → ∀ r, (s.layer.slot r).inuse = 0) := by
  intro s
  have hs : s.Ok := .run lruCap tierCap pins hrun
  have hcount : ∀ r, (s.layer.slot r).inuse = s.outs.countP fun o => s.layer.holder o = some r := by
    intro r
    rw [hs.holds.holder_count r, hs.holds.tally r, Nat.zero_add]
  refine ⟨hcount, fun a r hr => hs.guards a r hr, fun hdone r => ?_⟩
  have hnone : s.outs = [] := List.flatMap_eq_nil_iff.mpr hdone
  rw [hcount r, hnone]
  rfl

/-- Two resolves of one expert. The second has it on its wait list when the first commits, and is in
its first wait loop before that if `early`. -/
def twoResolves (early : Bool) : List MoeAct :=
  [.start false [some 5] 1, .start false [some 5] 2, .step 0, .step 0, .step 0, .step 0, .step 0,
    .step 1, .step 1, .step 1, .step 1] ++
  (if early then [.step 1, .commit 0 0 true] else [.commit 0 0 true, .step 1]) ++
  [.step 1, .step 1, .step 1, .step 1, .step 1, .step 0, .step 0, .step 0, .release 0 true,
    .release 1 true]

theorem moeSystem_inuse_early :
    SafeRun MoeSystem.apply MoeSystem.Admits (MoeSystem.init 4 0 []) (twoResolves true) ∧
      ∀ r, (((twoResolves true).foldl MoeSystem.apply (MoeSystem.init 4 0 [])).layer.slot r).inuse =
        0 :=
  ⟨by decide +kernel, (moeSystem_inuse 4 0 [] (twoResolves true) (by decide +kernel)).2.2
    (by decide +kernel)⟩

/-- The second resolve finds the expert ready in its first wait loop, and takes its slot there and
again in the last: with every out slot given back the slot is still in use. -/
theorem moeSystem_usedTwice :
    let s := (twoResolves false).foldl MoeSystem.apply (MoeSystem.init 4 0 [])
    (∀ t ∈ s.tasks, t.phase = .done ∧ t.call.outs = []) ∧ (s.layer.slot (.lru 0)).inuse = 1 := by
  decide +kernel

end Kappai
