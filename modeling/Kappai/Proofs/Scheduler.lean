import Kappai.Sanity.Scheduler
import Kappai.Sanity.Slots

/-! The scheduler serves every job once and in order, and a stop leaves nobody waiting. -/

namespace Kappai

variable {J : Type*} [DecidableEq J]

/-- What `slot_pick_chat` names as the slot used longest ago is idle, and it names one unless all
are busy. -/
theorem slotPickLoop_lru {chain : List UInt64} {slots : List OaSlot} {i : ℕ} {p : SlotPick} :
    (∀ k ns, (slotPickLoop chain slots i p).lru = some (k, ns) → p.lru = some (k, ns) ∨
      ∃ m s, k = i + m ∧ slots[m]? = some s ∧ s.task = none) ∧
    ((slotPickLoop chain slots i p).lru = none →
      p.lru = none ∧ ∀ s ∈ slots, s.task.isSome = true) := by
  induction slots generalizing i p with
  | nil => simp [slotPickLoop]
  | cons s slots ih =>
    have hvisit : ∀ k ns, (p.visit chain s i).lru = some (k, ns) →
        p.lru = some (k, ns) ∨ k = i := by
      intro k ns hk
      unfold SlotPick.visit at hk
      generalize (if s.isMatch chain then s.nMsgs else 0) = reuse at hk
      dsimp only at hk
      rcases hl : p.lru with _ | ⟨m, ms⟩ <;> simp only [hl] at hk <;> split_ifs at hk <;>
        simp_all
    have hsome : (p.visit chain s i).lru ≠ none := by
      unfold SlotPick.visit
      generalize (if s.isMatch chain then s.nMsgs else 0) = reuse
      dsimp only
      rcases p.lru with _ | ⟨m, ms⟩ <;> dsimp only <;> split_ifs <;> simp
    rw [slotPickLoop]
    split_ifs with hbusy hm
    · obtain ⟨hfrom, hnone⟩ := ih (i := i + 1) (p := p)
      refine ⟨fun k ns hk => ?_, fun hn => ?_⟩
      · rcases hfrom k ns hk with hp | ⟨m, t, rfl, ht⟩
        · exact Or.inl hp
        · exact Or.inr ⟨m + 1, t, by omega, ht⟩
      · exact ⟨(hnone hn).1, List.forall_mem_cons.mpr ⟨hbusy, (hnone hn).2⟩⟩
    · refine ⟨fun k ns hk => ?_, fun hn => absurd hn hsome⟩
      exact (hvisit k ns hk).imp_right fun hki => ⟨0, s, hki, rfl, by simpa using hbusy⟩
    · obtain ⟨hfrom, hnone⟩ := ih (i := i + 1) (p := p.visit chain s i)
      refine ⟨fun k ns hk => ?_, fun hn => absurd (hnone hn).1 hsome⟩
      rcases hfrom k ns hk with hp | ⟨m, t, rfl, ht⟩
      · exact (hvisit k ns hp).imp_right fun hki => ⟨0, s, hki, rfl, by simpa using hbusy⟩
      · exact Or.inr ⟨m + 1, t, by omega, ht⟩

omit [DecidableEq J] in
/-- `slot_pick_chat` names candidates of the scheduler whose slots it looks through. -/
theorem slotPickChat_candidates {s : Scheduler J} {slots : List OaSlot} {chain : List UInt64}
    (hn : s.nSlots = slots.length)
    (hbusy : ∀ i t, slots[i]? = some t → s.busy i = t.task.isSome) (fresh : Bool) :
    let pick := slotPickChat slots chain
    s.Candidates ⟨if pick.bestMatch then pick.best else none, fresh, pick.lru.map Prod.fst⟩ := by
  intro pick
  have hidle : ∀ i t, slots[i]? = some t → t.task = none → s.Idle i := by
    intro i t ht hnone
    obtain ⟨hi, -⟩ := List.getElem?_eq_some_iff.mp ht
    exact ⟨by omega, by rw [hbusy i t ht, hnone]; rfl⟩
  refine ⟨fun i hi => ?_, fun i hi => ?_, fun hlru i hi => ?_⟩
  · dsimp only at hi
    split_ifs at hi with hm
    · obtain ⟨k, t, hbest, ht, hnone, -⟩ := slotPickLoop_matched rfl hm
      obtain rfl : 0 + k = i := Option.some.inj (hbest.symm.trans hi)
      exact hidle _ t (by simpa using ht) hnone
    · cases hi
  · obtain ⟨⟨k, ns⟩, hlru, rfl⟩ := Option.map_eq_some_iff.mp hi
    rcases slotPickLoop_lru.1 k ns hlru with hp | ⟨m, t, rfl, ht, hnone⟩
    · cases hp
    · exact hidle _ t (by simpa using ht) hnone
  · have hall := (slotPickLoop_lru.2 (Option.map_eq_none_iff.mp hlru)).2
    rw [hn] at hi
    rw [hbusy i _ (List.getElem?_eq_getElem hi)]
    exact hall _ (List.getElem_mem hi)

/-- Some continuation of the run gets `openai_free` past its join. -/
def CanFree (s : Scheduler J) : Prop :=
  ∃ acts : List (SchedAct J), (acts.foldl Scheduler.apply s).stopper = .freed

theorem CanFree.step {s : Scheduler J} (a : SchedAct J) (h : CanFree (s.apply a)) : CanFree s := by
  obtain ⟨acts, hacts⟩ := h
  exact ⟨a :: acts, hacts⟩

/-- `openai_stop` has returned. -/
structure StopDone (s : Scheduler J) : Prop where
  stopped : s.stopper = .stopped
  inv : SchedInv s []

namespace StopDone

variable {s : Scheduler J}

theorem of_inv {q : List J} (h : SchedInv s q) (hs : s.stopper = .stopped) : StopDone s := by
  obtain ⟨rfl, -⟩ := h.guards.drained (Or.inl hs)
  exact ⟨hs, h⟩

theorem free (h : StopDone s) : s.schMtx = .free := (h.inv.guards.drained (Or.inl h.stopped)).2.1

theorem shutting (h : StopDone s) : s.shuttingDown = true :=
  h.inv.guards.shutting (by simp [h.stopped])

theorem head (h : StopDone s) : s.queue.head = none := h.inv.guards.chained

theorem apply (h : StopDone s) {a : SchedAct J} (hs : (s.apply a).stopper = .stopped) :
    StopDone (s.apply a) := by
  obtain ⟨q, hq⟩ := schedInv_apply h.inv a
  exact of_inv hq hs

/-- A step of the worker, which leaves the stop as it is. -/
theorem step (h : StopDone s) {s' : Scheduler J} {a : SchedAct J} (ha : s.apply a = s')
    (hs : s'.stopper = s.stopper) (hcan : StopDone s' → CanFree s') : CanFree s := by
  refine CanFree.step a ?_
  rw [ha]
  refine hcan ?_
  rw [← ha]
  exact h.apply (by rw [ha, hs, h.stopped])

theorem exited (h : StopDone s) (hw : s.worker = .exited) : CanFree s :=
  ⟨[.join], by simp [Scheduler.apply, h.stopped, hw]⟩

/-! The worker of a stopped server ends its tasks one after the other and then exits. `ih` is what
is known with fewer tasks. -/

section Drain

variable (ih : ∀ s' : Scheduler J, StopDone s' → s'.tasks.length < s.tasks.length → CanFree s')
include ih

theorem released (h : StopDone s) {i : ℕ} (hw : s.worker = .released i) : CanFree s := by
  have ha : s.apply .finish =
      { s with tasks := Scheduler.swapRemove s.tasks i, worker := .resume i } := by
    simp only [Scheduler.apply, hw]
  have hi : i < s.tasks.length := h.inv.seats.ended i (by rw [hw]; rfl)
  have hlen := (swapRemove_perm hi).length_eq
  rw [List.length_eraseIdx_of_lt hi] at hlen
  exact h.step ha rfl fun h' => ih _ h' (by dsimp only; omega)

theorem answered (h : StopDone s) {i : ℕ} (hw : s.worker = .answered i) : CanFree s := by
  have hi : i < s.tasks.length := h.inv.seats.ended i (by rw [hw]; rfl)
  have ha : s.apply .release = { s with
      busy := Function.update s.busy s.tasks[i].slot false
      worker := .released i } := by
    simp only [Scheduler.apply, hw, List.getElem?_eq_getElem hi]
  exact h.step ha rfl fun h' => h'.released ih rfl

theorem entered (h : StopDone s) {i : ℕ} {t : OaTask J} (hw : s.worker = .resume i)
    (ht : s.tasks[i]? = some t) (hent : t.entered = true) : CanFree s := by
  have ha : s.apply .answer = { s.setDone t.job true with worker := .answered i } := by
    simp only [Scheduler.apply, hw, ht, hent, if_true]
  exact h.step ha rfl fun h' => h'.answered ih rfl

theorem resume_lt (h : StopDone s) {i : ℕ} (hw : s.worker = .resume i)
    (hi : i < s.tasks.length) : CanFree s := by
  have ht := List.getElem?_eq_getElem hi
  cases hent : s.tasks[i].entered with
  | true => exact h.entered ih hw ht hent
  | false =>
    have henter : s.apply (.enter true) = s.taskEnter i s.tasks[i] true := by
      simp only [Scheduler.apply, hw, ht, hent, Bool.false_eq_true, if_false]
    cases hdec : s.decision s.tasks[i].job with
    | true =>
      have ha : s.apply (.enter true) =
          { s with tasks := s.tasks.set i { s.tasks[i] with entered := true } } := by
        simp only [henter, Scheduler.taskEnter, hdec, if_true]
      refine h.step ha rfl fun h' => ?_
      refine h'.entered ?_ hw (t := { s.tasks[i] with entered := true }) (by simp [hi]) rfl
      simpa using ih
    | false =>
      have ha : s.apply (.enter true) =
          { s.setDone s.tasks[i].job true with worker := .answered i } := by
        simp only [henter, Scheduler.taskEnter, hdec, Bool.false_eq_true, if_false, true_or,
          if_true]
      exact h.step ha rfl fun h' => h'.answered ih rfl

/-- Without tasks the worker exits; with tasks it comes to the first of them. -/
theorem checkExit (h : StopDone s) (hw : s.worker = .checkExit) : CanFree s := by
  by_cases htasks : s.tasks = []
  · have ha : s.apply .checkExit = { s with worker := .exited } := by
      simp only [Scheduler.apply, hw, htasks, h.shutting, and_self, if_true]
    exact h.step ha rfl fun h' => h'.exited rfl
  · have ha : s.apply .checkExit = { s with worker := .admitJobs } := by
      simp only [Scheduler.apply, hw, htasks, false_and, if_false, if_true]
    refine h.step ha rfl fun h' => ?_
    have hb : Scheduler.apply { s with worker := .admitJobs } .admitGuard =
        { s with worker := .resume 0 } := by
      simp only [Scheduler.apply, h.shutting, Bool.true_eq_false, and_false, if_false, if_true]
    exact h'.step hb rfl fun h'' => h''.resume_lt ih rfl (List.length_pos_iff.mpr htasks)

theorem top (h : StopDone s) (hw : s.worker = .top) : CanFree s := by
  have ha : s.apply .wait = { s with worker := .checkExit } := by
    simp only [Scheduler.apply, hw, h.free, h.shutting, Bool.true_eq_false, and_false, and_self,
      if_false, if_true]
  exact h.step ha rfl fun h' => h'.checkExit ih rfl

theorem resume (h : StopDone s) {i : ℕ} (hw : s.worker = .resume i) : CanFree s := by
  rcases Nat.lt_or_ge i s.tasks.length with hi | hi
  · exact h.resume_lt ih hw hi
  · have ha : s.apply .resumed = { s with worker := .top } := by
      simp only [Scheduler.apply, hw, if_pos hi]
    exact h.step ha rfl fun h' => h'.top ih rfl

theorem admitJobs (h : StopDone s) (hw : s.worker = .admitJobs) : CanFree s := by
  have ha : s.apply .admitGuard = { s with worker := .resume 0 } := by
    simp only [Scheduler.apply, hw, h.shutting, Bool.true_eq_false, and_false, if_false, if_true]
  exact h.step ha rfl fun h' => h'.resume ih rfl

theorem failing (h : StopDone s) {j : J} (hw : s.worker = .failing j) : CanFree s := by
  have ha : s.apply .failPopped = { s.failJob j with worker := .resume 0 } := by
    simp only [Scheduler.apply, hw]
  exact h.step ha rfl fun h' => h'.resume ih rfl

theorem pushBack (h : StopDone s) {j : J} (hw : s.worker = .pushBack j) : CanFree s := by
  have ha : s.apply .pushBackLock = { s with worker := .failing j } := by
    simp only [Scheduler.apply, hw, h.free, h.shutting, if_true]
  exact h.step ha rfl fun h' => h'.failing ih rfl

/-- Whatever slot there is, the job in hand is failed or found without a slot. -/
theorem start (h : StopDone s) {j : J} (hw : s.worker = .start j) : CanFree s := by
  have hstart : ∀ c, s.Candidates c →
      s.apply (.start c false) = s.taskStart j c false := by
    intro c hc
    simp only [Scheduler.apply, hw, if_pos hc]
  by_cases hidle : ∃ i, s.Idle i
  · obtain ⟨i, hi⟩ := hidle
    have hc : s.Candidates ⟨some i, false, some i⟩ :=
      ⟨fun k hk => Option.mem_some_iff.mp hk ▸ hi, fun k hk => Option.mem_some_iff.mp hk ▸ hi,
        fun hn => by cases hn⟩
    have ha := (hstart _ hc).trans (b := s.taskStart j ⟨some i, false, some i⟩ false)
      (c := { s.failJob j with worker := .admitJobs }) rfl
    exact h.step ha rfl fun h' => h'.admitJobs ih rfl
  · have hc : s.Candidates ⟨none, false, none⟩ := by
      refine ⟨by simp, by simp, fun _ i hi => ?_⟩
      by_contra hb
      exact hidle ⟨i, hi, by simpa using hb⟩
    have hpick : s.jobPickSlot ⟨none, false, none⟩ = (s, none) := by
      simp [Scheduler.jobPickSlot]
    by_cases htasks : s.tasks = []
    · have ha : s.apply (.start ⟨none, false, none⟩ false) =
          { s.failJob j with worker := .admitJobs } := by
        simp only [hstart _ hc, Scheduler.taskStart, hpick, htasks, ne_eq, not_true, if_false]
      exact h.step ha rfl fun h' => h'.admitJobs ih rfl
    · have ha : s.apply (.start ⟨none, false, none⟩ false) =
          { s with worker := .pushBack j } := by
        simp only [hstart _ hc, Scheduler.taskStart, hpick, htasks, ne_eq, not_false_eq_true,
          if_true]
      exact h.step ha rfl fun h' => h'.pushBack ih rfl

theorem pop (h : StopDone s) (hw : s.worker = .pop) : CanFree s := by
  have ha : s.apply .pop = { s with worker := .resume 0 } := by
    simp only [Scheduler.apply, hw, h.free, and_self, if_true, h.head]
  exact h.step ha rfl fun h' => h'.resume ih rfl

end Drain

theorem canFree (h : StopDone s) : CanFree s := by
  induction hn : s.tasks.length using Nat.strong_induction_on generalizing s with
  | _ n hlt =>
    subst hn
    have ih : ∀ s' : Scheduler J, StopDone s' → s'.tasks.length < s.tasks.length → CanFree s' :=
      fun s' h' hl => hlt _ hl h' rfl
    cases hw : s.worker with
    | top => exact h.top ih hw
    | asleep => exact absurd hw (h.inv.guards.drained (Or.inl h.stopped)).2.2
    | checkExit => exact h.checkExit ih hw
    | admitJobs => exact h.admitJobs ih hw
    | pop => exact h.pop ih hw
    | start j => exact h.start ih hw
    | pushBack j => exact h.pushBack ih hw
    | pushFront j =>
      have hm := h.inv.guards.worker.mpr ⟨j, hw⟩
      rw [h.free] at hm
      cases hm
    | failing j => exact h.failing ih hw
    | resume i => exact h.resume ih hw
    | answered i => exact h.answered ih hw
    | released i => exact h.released ih hw
    | exited => exact h.exited hw

end StopDone

namespace SchedInv

variable {s : Scheduler J} {q : List J}

theorem cancelling_canFree (h : SchedInv s q) (hs : s.stopper = .cancelling) : CanFree s := by
  induction q generalizing s with
  | nil =>
    have hhead : s.queue.head = none := h.guards.chained
    have ha : s.apply .cancelEnd = { s.signal with
        queue := { s.queue with tail := none }
        schMtx := .free
        stopper := .stopped } := by
      simp only [Scheduler.apply, hs, hhead, and_self, if_true, signal_frame]
    refine CanFree.step .cancelEnd ?_
    obtain ⟨q, hq⟩ := schedInv_apply h .cancelEnd
    exact (StopDone.of_inv hq (by rw [ha])).canFree
  | cons j q ih =>
    have hhead : s.queue.head = some j := h.guards.chained.1
    have ha : s.apply .cancelHead =
        { s.failJob j with queue := { s.queue with head := s.queue.next j } } := by
      simp only [Scheduler.apply, hs, hhead, if_true]
    obtain ⟨q', hq', hcancel⟩ := h.cancelJob hs hhead
    obtain rfl : q = q' := (List.cons.inj hq').2
    exact CanFree.step .cancelHead (by rw [ha]; exact ih hcancel hs)

theorem flagged_canFree (h : SchedInv s q) (hs : s.stopper = .flagged) (hfree : s.schMtx = .free) :
    CanFree s := by
  have ha : s.apply .stopLock = { s with schMtx := .stopper, stopper := .cancelling } := by
    simp only [Scheduler.apply, hs, hfree, and_self, if_true]
  exact CanFree.step .stopLock (by rw [ha]; exact (h.stopLock hs hfree).cancelling_canFree rfl)

/-- Whoever holds the lock lets it go, and the server can be stopped and freed. -/
theorem canFree (h : SchedInv s q) : CanFree s := by
  have hflag : ∀ {s : Scheduler J} {q : List J}, SchedInv s q → s.stopper = .flagged →
      CanFree s := by
    intro s q h hs
    cases hm : s.schMtx with
    | free => exact h.flagged_canFree hs hm
    | conn j =>
      have ha : s.apply .pushAppend = Scheduler.signal { s with
          queue := s.queue.pushBack j
          accepted := s.accepted ++ [j]
          schMtx := .free } := by
        simp only [Scheduler.apply, hm]
      refine CanFree.step .pushAppend ?_
      rw [ha]
      refine (h.pushAppend hm).signal.flagged_canFree ((signal_stopper _).trans hs) ?_
      unfold Scheduler.signal
      split_ifs <;> rfl
    | worker =>
      obtain ⟨j, hw⟩ := h.guards.worker.mp hm
      have ha : s.apply .pushFront = { s with
          queue := s.queue.pushFront j
          schMtx := .free
          worker := .resume 0 } := by
        simp only [Scheduler.apply, hw]
      exact CanFree.step .pushFront (by rw [ha]; exact (h.pushFront hw).flagged_canFree hs rfl)
    | stopper =>
      have hc := h.guards.stopper.mp hm
      rw [hs] at hc
      cases hc
  cases hs : s.stopper with
  | idle =>
    have ha : s.apply .stopFlag = { s with shuttingDown := true, stopper := .flagged } := by
      simp only [Scheduler.apply, hs, true_or, if_true]
    exact CanFree.step .stopFlag (by rw [ha]; exact hflag (h.setFlag (Or.inl hs)) rfl)
  | flagged => exact hflag h hs
  | cancelling => exact h.cancelling_canFree hs
  | stopped =>
    obtain ⟨rfl, -⟩ := h.guards.drained (Or.inl hs)
    exact StopDone.canFree ⟨hs, h⟩
  | freed => exact ⟨[], hs⟩

end SchedInv

/-- Whatever the connection threads, the worker and the stop do, and in whatever order: the jobs
are started at most once and in the order they were accepted, `generation_done` is set at most
once, no two tasks share a slot, and the accepted jobs that have no answer are in the queue, in
the worker's hand or in a task. Past a stop the queue is empty; past the join, which can always
be reached, every accepted job has its one answer. -/
theorem jobs_answered_once (decision : J → Bool) (slotsCap : ℕ) (acts : List (SchedAct J)) :
    let s := acts.foldl Scheduler.apply (Scheduler.init decision slotsCap)
    s.accepted.Nodup ∧ s.started.Sublist s.accepted ∧
      (s.tasks.map OaTask.slot).Nodup ∧
      (∀ j, s.doneSets j ≤ 1 ∧ (s.generationDone j = true ↔ s.doneSets j = 1)) ∧
      (∃ queue, Chained s.queue.next s.queue.head queue ∧ ∀ j ∈ s.accepted,
        s.doneSets j = 1 ∨ s.doneSets j = 0 ∧
          (j ∈ queue ∨ j ∈ s.worker.hand ∨ j ∈ s.tasks.map OaTask.job)) ∧
      (s.stopper = .stopped ∨ s.stopper = .freed →
        s.queue.head = none ∧ s.queue.tail = none ∧ s.worker ≠ .asleep) ∧
      (s.stopper = .freed → ∀ j ∈ s.accepted, s.doneSets j = 1 ∧ s.generationDone j = true) ∧
      CanFree s := by
  intro s
  obtain ⟨q, h⟩ : ∃ q, SchedInv s q := schedInv_run decision slotsCap acts
  have hacc := h.ledger.accounts
  have hflag : ∀ j, s.generationDone j = true ↔ s.doneSets j = 1 := by
    intro j
    rw [h.ledger.flag]
    have hle := hacc.sets_le_one j
    omega
  refine ⟨h.ledger.distinct, (List.sublist_append_left _ _).trans h.ledger.order, h.seats.slots,
    fun j => ⟨hacc.sets_le_one j, hflag j⟩, ⟨q, h.guards.chained, fun j hj => ?_⟩, ?_, ?_,
    h.canFree⟩
  · by_cases howed : j ∈ q ++ (s.worker.hand ++ unanswered s.tasks s.worker.ended)
    · refine Or.inr ⟨hacc.sets_zero howed, ?_⟩
      rcases List.mem_append.mp howed with hq | howed
      · exact Or.inl hq
      rcases List.mem_append.mp howed with hhand | htask
      · exact Or.inr (Or.inl hhand)
      refine Or.inr (Or.inr ?_)
      unfold unanswered at htask
      split at htask
      · exact ((List.eraseIdx_sublist _ _).map _).subset htask
      · exact htask
    · exact Or.inl (hacc.sets_one hj howed)
  · intro hs
    obtain ⟨rfl, -, hawake⟩ := h.guards.drained hs
    have hne : s.stopper ≠ .cancelling := by
      rcases hs with hs | hs <;> simp [hs]
    exact ⟨h.guards.chained, h.guards.tail hne, hawake⟩
  · intro hs j hj
    obtain ⟨rfl, -, -⟩ := h.guards.drained (Or.inr hs)
    have hw := h.guards.joined hs
    have htasks := (h.guards.exited hw).1
    have hone : s.doneSets j = 1 := by
      refine hacc.sets_one hj ?_
      simp [hw, htasks, WorkerPc.hand, WorkerPc.ended, unanswered]
    exact ⟨hone, (hflag j).mpr hone⟩

end Kappai
